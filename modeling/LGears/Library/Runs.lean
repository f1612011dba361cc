import Mathlib.Data.List.Basic
import Mathlib.Tactic.Common

/- The runs of a list between separators. -/
namespace Runs

variable {α : Type} {p : α → Bool} {l run : List α} {c : α} {pieces : List (List α)}

/-- The pieces are the runs without separators, in order: a run is not empty, and it ends at a
    separator or at the end of the list. -/
inductive Cut (p : α → Bool) : List α → List (List α) → Prop where
  | nil : Cut p [] []
  | skip {c : α} {l : List α} {pieces : List (List α)} (sep : p c = true)
      (rest : Cut p l pieces) : Cut p (c :: l) pieces
  | last {run : List α} (some : run ≠ []) (free : ∀ c ∈ run, p c = false) : Cut p run [run]
  | piece {run l : List α} {c : α} {pieces : List (List α)} (some : run ≠ [])
      (free : ∀ c ∈ run, p c = false) (sep : p c = true) (rest : Cut p l pieces) :
      Cut p (run ++ c :: l) (run :: pieces)

def runs (p : α → Bool) (l : List α) : List (List α) :=
  (l.splitOnP p).filter fun run => !run.isEmpty

theorem splitOnP_free (free : ∀ c ∈ run, p c = false) : run.splitOnP p = [run] := by
  induction run with
  | nil => rfl
  | cons a run ih =>
    have rest := ih fun c member => free c (List.mem_cons_of_mem a member)
    rw [List.splitOnP_cons_eq_if_modifyHead, rest, if_neg (by simp [free a List.mem_cons_self])]
    rfl

theorem splitOnP_first (free : ∀ c ∈ run, p c = false) (sep : p c = true) :
    (run ++ c :: l).splitOnP p = run :: l.splitOnP p := by
  induction run with
  | nil => rw [List.nil_append, List.splitOnP_cons_eq_if_modifyHead, if_pos sep]
  | cons a run ih =>
    have rest := ih fun c member => free c (List.mem_cons_of_mem a member)
    rw [List.cons_append, List.splitOnP_cons_eq_if_modifyHead, rest,
      if_neg (by simp [free a List.mem_cons_self])]
    rfl

theorem Cut.eq (cut : Cut p l pieces) : pieces = runs p l := by
  have kept : ∀ {run : List α} {pieces : List (List α)}, run ≠ [] →
      (run :: pieces).filter (fun run => !run.isEmpty) =
        run :: pieces.filter fun run => !run.isEmpty := by
    intro run pieces some
    simp [some]
  induction cut with
  | nil => rfl
  | skip sep rest ih =>
    rw [runs, List.splitOnP_cons_eq_if_modifyHead, if_pos sep, List.filter_cons_of_neg (by simp)]
    exact ih
  | last some free =>
    rw [runs, splitOnP_free free, kept some]
    rfl
  | piece some free sep rest ih =>
    rw [runs, splitOnP_first free sep, kept some, ih]
    rfl

theorem cut_runs (p : α → Bool) (l : List α) : Cut p l (runs p l) := by
  suffices exists_cut : ∃ pieces, Cut p l pieces by
    obtain ⟨pieces, cut⟩ := exists_cut
    rw [← cut.eq]
    exact cut
  induction length : l.length using Nat.strongRecOn generalizing l with
  | ind n ih =>
    have whole := List.takeWhile_append_dropWhile (p := fun c => !p c) (l := l)
    have free : ∀ c ∈ l.takeWhile (fun c => !p c), p c = false := by
      intro c member
      simpa using List.all_eq_true.mp List.all_takeWhile c member
    cases tail : l.dropWhile (fun c => !p c) with
    | nil =>
      rw [tail, List.append_nil] at whole
      rw [whole] at free
      cases l with
      | nil => exact ⟨[], .nil⟩
      | cons c l => exact ⟨_, .last (List.cons_ne_nil c l) free⟩
    | cons c rest =>
      rw [tail] at whole
      have sep : p c = true := by
        have head := List.head_dropWhile_not (fun c => !p c) (l := l) (by simp [tail])
        simpa [tail] using head
      have shorter := congrArg List.length whole
      rw [List.length_append, List.length_cons] at shorter
      obtain ⟨pieces, cut⟩ := ih rest.length (by omega) rest rfl
      rw [← whole]
      cases run : l.takeWhile (fun c => !p c) with
      | nil => exact ⟨pieces, .skip sep cut⟩
      | cons a run' =>
        rw [run] at free
        exact ⟨_, .piece (List.cons_ne_nil a run') free sep cut⟩

theorem Cut.facts (cut : Cut p l pieces) :
    (∀ run ∈ pieces, run ≠ [] ∧ ∀ c ∈ run, p c = false) ∧
      pieces.flatten = l.filter fun c => !p c := by
  have whole : ∀ {run : List α}, (∀ c ∈ run, p c = false) → run.filter (fun c => !p c) = run := by
    intro run free
    rw [List.filter_eq_self]
    intro c member
    simp [free c member]
  induction cut with
  | nil => exact ⟨fun run never => (by cases never), rfl⟩
  | skip sep rest ih =>
    rw [List.filter_cons_of_neg (by simp [sep])]
    exact ih
  | last some free =>
    constructor
    · intro run member
      rw [List.mem_singleton.mp member]
      exact ⟨some, free⟩
    · rw [whole free, List.flatten_cons, List.flatten_nil, List.append_nil]
  | piece some free sep rest ih =>
    constructor
    · intro run member
      rcases List.mem_cons.mp member with rfl | later
      · exact ⟨some, free⟩
      · exact ih.1 run later
    · rw [List.filter_append, whole free, List.filter_cons_of_neg (by simp [sep]), ← ih.2,
        List.flatten_cons]

/-- What stands behind the last separator. -/
def behindLast (p : α → Bool) (l : List α) : List α := (l.reverse.takeWhile fun c => !p c).reverse

theorem behindLast_append (free : ∀ c ∈ run, p c = false) (sep : p c = true) :
    behindLast p (l ++ c :: run) = run := by
  have front : (l ++ c :: run).reverse = run.reverse ++ c :: l.reverse := by simp
  have all : ∀ c ∈ run.reverse, (!p c) = true := by
    intro c member
    rw [free c (List.mem_reverse.mp member)]
    rfl
  rw [behindLast, front, List.takeWhile_append_of_pos all, List.takeWhile_cons_of_neg (by simp [sep]),
    List.append_nil, List.reverse_reverse]

end Runs
