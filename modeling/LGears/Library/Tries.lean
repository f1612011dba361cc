import Mathlib.Data.List.Basic
import Mathlib.Data.List.Induction
import Mathlib.Tactic.Common

/- Trees of nodes at addresses, with a label at each edge: a path leads from the root to at most one
   node, and a node is at the end of at most one path. -/
namespace Tries

variable {α : Type} [DecidableEq α]

/-- The node at the end of a path; of the edges with one label the first counts. -/
def walk (edges : Nat → List (α × Nat)) : Nat → List α → Option Nat
  | a, [] => some a
  | a, x :: path => ((edges a).lookup x).bind fun b => walk edges b path

/-- The nodes from root on are below size, and each has one path. -/
structure Tree (edges : Nat → List (α × Nat)) (root size : Nat) : Prop where
  inside : ∀ p a, walk edges root p = some a → a < size
  unique : ∀ p q a, walk edges root p = some a → walk edges root q = some a → p = q

section walk
variable {edges edges' : Nat → List (α × Nat)} {root size a b n : Nat} {p q s : List α} {x : α}

@[simp] theorem walk_nil : walk edges a [] = some a := rfl

theorem walk_cons : walk edges a (x :: p) = ((edges a).lookup x).bind fun b => walk edges b p := rfl

theorem walk_append : walk edges a (p ++ q) = (walk edges a p).bind fun b => walk edges b q := by
  induction p generalizing a with
  | nil => rfl
  | cons x p ih =>
    rw [List.cons_append, walk_cons, walk_cons]
    cases (edges a).lookup x with
    | none => rfl
    | some b => exact ih

theorem walk_single : walk edges a [x] = (edges a).lookup x := by
  rw [walk_cons]
  cases (edges a).lookup x <;> rfl

theorem walk_prefix (before : p <+: q) (there : (walk edges a q).isSome) :
    (walk edges a p).isSome := by
  obtain ⟨s, rfl⟩ := before
  rw [walk_append] at there
  cases here : walk edges a p with
  | none => simp [here] at there
  | some b => rfl

theorem walk_congr (same : ∀ s b, walk edges a s = some b → edges' b = edges b) :
    walk edges' a p = walk edges a p := by
  induction p generalizing a with
  | nil => rfl
  | cons x p ih =>
    rw [walk_cons, walk_cons, same [] a rfl]
    cases here : (edges a).lookup x with
    | none => rfl
    | some b =>
      apply ih
      intro s c there
      apply same (x :: s)
      rw [walk_cons, here]
      exact there

/-- A new edge leads from the node at the end of p to n. -/
structure Graft (edges edges' : Nat → List (α × Nat)) (root size : Nat) (p : List α) (a : Nat)
    (x : α) (n : Nat) : Prop where
  tree : Tree edges root size
  here : walk edges root p = some a
  absent : (edges a).lookup x = none
  attached : edges' a = (x, n) :: edges a
  same : ∀ b, b < size → b ≠ a → edges' b = edges b

theorem Graft.beside (graft : Graft edges edges' root size p a x n) (other : ¬ p ++ [x] <+: q) :
    walk edges' root q = walk edges root q := by
  induction q using List.reverseRecOn with
  | nil => rfl
  | append_singleton q y ih =>
    have before : ¬ p ++ [x] <+: q := fun prefixed => other (prefixed.trans (List.prefix_append q [y]))
    rw [walk_append, walk_append, ih before]
    cases at_q : walk edges root q with
    | none => rfl
    | some b =>
      rw [Option.bind_some, Option.bind_some, walk_single, walk_single]
      by_cases same : b = a
      · subst same
        obtain rfl : q = p := graft.tree.unique q p b at_q graft.here
        have label : (y == x) = false := by
          rw [beq_eq_false_iff_ne]
          intro same
          exact other (same ▸ List.prefix_refl _)
        rw [graft.attached, List.lookup_cons, label]
      · rw [graft.same b (graft.tree.inside q b at_q) same]

theorem Graft.behind (graft : Graft edges edges' root size p a x n) :
    walk edges' root (p ++ x :: q) = walk edges' n q := by
  have itself : ¬ p ++ [x] <+: p := by
    intro longer
    have length := longer.length_le
    rw [List.length_append, List.length_singleton] at length
    omega
  rw [walk_append, graft.beside itself, graft.here, Option.bind_some, walk_cons, graft.attached,
    List.lookup_cons_self, Option.bind_some]

theorem graft_cases (p : List α) (x : α) (q : List α) :
    ¬ p ++ [x] <+: q ∨ ∃ s, q = p ++ x :: s := by
  by_cases along : p ++ [x] <+: q
  · obtain ⟨s, rfl⟩ := along
    exact .inr ⟨s, by simp⟩
  · exact .inl along

theorem Graft.tree' {size' : Nat} (graft : Graft edges edges' root size p a x n)
    (less : size ≤ size') (behind : ∀ q b, walk edges' n q = some b → size ≤ b ∧ b < size')
    (unique : ∀ q s b, walk edges' n q = some b → walk edges' n s = some b → q = s) :
    Tree edges' root size' := by
  constructor
  · intro q b there
    rcases graft_cases p x q with other | ⟨s, rfl⟩
    · rw [graft.beside other] at there
      exact Nat.lt_of_lt_of_le (graft.tree.inside q b there) less
    · rw [graft.behind] at there
      exact (behind s b there).2
  · intro q r b first second
    rcases graft_cases p x q with other | ⟨s, rfl⟩
    · rw [graft.beside other] at first
      have below := graft.tree.inside q b first
      rcases graft_cases p x r with other' | ⟨t, rfl⟩
      · rw [graft.beside other'] at second
        exact graft.tree.unique q r b first second
      · rw [graft.behind] at second
        exact absurd (behind t b second).1 (Nat.not_le_of_lt below)
    · rw [graft.behind] at first
      rcases graft_cases p x r with other' | ⟨t, rfl⟩
      · rw [graft.beside other'] at second
        exact absurd (behind s b first).1 (Nat.not_le_of_lt (graft.tree.inside r b second))
      · rw [graft.behind] at second
        rw [unique s t b first second]

end walk

end Tries
