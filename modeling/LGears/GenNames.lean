import LGears.Expand
import LGears.Library.Runs

/- Runs of the name generator. The text behind the last dot of a name is the counter it was
   made with, whatever the source symbol is. -/
namespace LGears.GenNames
open GenName Runs Expand StateExcept

/-- A call of gen-name, with a source symbol or without. -/
inductive Call where
  | of (x : Symbol)
  | plain
  deriving DecidableEq, Repr

def Call.run (call : Call) (lastName : Nat) : Symbol × Nat :=
  match call with
  | .of x => genNameOf x lastName
  | .plain => genName lastName

/-- The names that a sequence of calls returns, and the counter after it. -/
def runCalls : List Call → Nat → List Symbol × Nat
  | [], lastName => ([], lastName)
  | call :: calls, lastName =>
    let (name, lastName) := call.run lastName
    let (names, lastName) := runCalls calls lastName
    (name :: names, lastName)

def isDot (c : Char) : Bool := c == '.'

/-- The digits at the end of a generated name. -/
def suffixOf (name : Symbol) : List Char := behindLast isDot name.toList

theorem digitChar_free {n : Nat} (lt : n < 16) : isDot (Nat.digitChar n) = false := by
  interval_cases n <;> rfl

theorem toDigits_free (n : Nat) : ∀ c ∈ Nat.toDigits 16 n, isDot c = false := by
  induction n using Nat.strongRecOn with
  | ind n ih =>
    intro c member
    rw [Nat.toDigits_eq_if (by omega)] at member
    split at member
    · rename_i small
      rw [List.mem_singleton.mp member]
      exact digitChar_free small
    · rename_i large
      rcases List.mem_append.mp member with front | last
      · exact ih (n / 16) (by omega) c front
      · rw [List.mem_singleton.mp last]
        exact digitChar_free (Nat.mod_lt n (by omega))

theorem suffixOf_name (src : String) (n : Nat) :
    suffixOf (genNameImpl (src ++ ".") n).1 = Nat.toDigits 16 n := by
  have text : (genNameImpl (src ++ ".") n).1.toList = src.toList ++ '.' :: Nat.toDigits 16 n := by
    simp [genNameImpl, hex]
  rw [suffixOf, text]
  exact behindLast_append (toDigits_free n) rfl

theorem run_spec (call : Call) (n : Nat) :
    suffixOf (call.run n).1 = Nat.toDigits 16 n ∧ (call.run n).2 = n + 1 := by
  cases call with
  | of x => exact ⟨suffixOf_name x n, rfl⟩
  | plain => exact ⟨suffixOf_name "_var" n, rfl⟩

theorem runCalls_suffixes (calls : List Call) (n : Nat) :
    (runCalls calls n).1.map suffixOf = (List.range' n calls.length).map (Nat.toDigits 16) := by
  induction calls generalizing n with
  | nil => rfl
  | cons call calls ih =>
    have spec := run_spec call n
    simp only [runCalls, spec.2, List.map_cons, spec.1, ih (n + 1), List.length_cons,
      List.range'_succ]

theorem suffixes_distinct (calls : List Call) (n : Nat) :
    ((runCalls calls n).1.map suffixOf).Nodup := by
  rw [runCalls_suffixes]
  apply List.Nodup.map _ (List.nodup_range' ..)
  intro i j same
  exact toDigits_injective i j same

/- Names that are equal have equal suffixes. -/
theorem names_distinct (calls : List Call) (lastName : Nat) :
    (runCalls calls lastName).1.Nodup := by
  apply List.Nodup.of_map suffixOf
  exact suffixes_distinct calls lastName

section expander
variable {Proc : Type} {host : Host Proc} {s s' : Fresh}

theorem returns_ofOption {α : Type} {o : Option α} {a : α} :
    Returns (Expand.ofOption o) s a s' ↔ o = some a ∧ s = s' := by
  cases o with
  | none => simp [Expand.ofOption, syntaxError, Returns]
  | some b => simp [Expand.ofOption]

theorem genNames_runs {lst : List SyntaxCore.Stx} {names : List Symbol}
    (runs : Returns (genNames host lst) s names s') :
    ∃ calls, runCalls calls s.lastName = (names, s'.lastName) := by
  induction lst generalizing s names with
  | nil =>
    obtain ⟨rfl, rfl⟩ := returns_pure.mp runs
    exact ⟨[], rfl⟩
  | cons x lst ih =>
    simp only [genNames, List.mapM_cons, returns_bind, returns_pure, returns_ofOption] at runs
    obtain ⟨name, t, ⟨expr, t₁, ⟨source, rfl⟩, named⟩, rest, t₂, others, rfl, rfl⟩ := runs
    cases named
    obtain ⟨calls, same⟩ := ih others
    refine ⟨.of (host.display expr) :: calls, ?_⟩
    rw [runCalls, Call.run]
    simp only [genNameOf, genNameImpl, same]

theorem genNames_distinct {lst : List SyntaxCore.Stx} {names : List Symbol}
    (runs : Returns (genNames host lst) s names s') : names.Nodup := by
  obtain ⟨calls, same⟩ := genNames_runs runs
  have apart := suffixes_distinct calls s.lastName
  rw [same] at apart
  exact apart.of_map suffixOf

end expander

end LGears.GenNames
