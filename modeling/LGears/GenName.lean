import LGears.Syntax
import Mathlib.Tactic.IntervalCases

/- The name generator. `last-name` is one counter shared by both forms of `gen-name`. -/
namespace LGears.GenName

/-- (number->string n 16) -/
def hex (n : Nat) : String := String.ofList (Nat.toDigits 16 n)

def genNameImpl (src : String) (lastName : Nat) : Symbol × Nat :=
  (src ++ hex lastName, lastName + 1)

/-- (gen-name x) -/
def genNameOf (x : Symbol) (lastName : Nat) : Symbol × Nat := genNameImpl (x ++ ".") lastName

/-- (gen-name) -/
def genName (lastName : Nat) : Symbol × Nat := genNameImpl "_var." lastName

/-- The symbol (gen-name) returns when the counter stands at n. -/
def varName (n : Nat) : Symbol := "_var." ++ hex n

@[simp] theorem genName_eq (n : Nat) : genName n = (varName n, n + 1) := rfl

theorem digitChar_injective {m n : Nat} (hm : m < 16) (hn : n < 16)
    (same : Nat.digitChar m = Nat.digitChar n) : m = n := by
  interval_cases m <;> interval_cases n <;> first | rfl | (exfalso; revert same; decide)

theorem toDigits_injective (m n : Nat) (same : Nat.toDigits 16 m = Nat.toDigits 16 n) : m = n := by
  induction m using Nat.strongRecOn generalizing n with
  | ind m ih =>
    rw [Nat.toDigits_eq_if (by omega), Nat.toDigits_eq_if (n := n) (by omega)] at same
    have pos (k : Nat) : (Nat.toDigits 16 k).length ≠ 0 := by
      have := Nat.length_toDigits_pos (b := 16) (n := k)
      omega
    split at same <;> split at same
    · rename_i hm hn
      exact digitChar_injective hm hn (by simpa using same)
    · exact absurd (congrArg List.length same) (by simp [pos])
    · exact absurd (congrArg List.length same) (by simp [pos])
    · obtain ⟨front, last⟩ := List.append_inj' same rfl
      have quot := ih (m / 16) (by omega) (n / 16) front
      have rem := digitChar_injective (m := m % 16) (n := n % 16) (by omega) (by omega)
        (by simpa using last)
      omega

theorem hex_injective {m n : Nat} (same : hex m = hex n) : m = n :=
  toDigits_injective m n (String.ofList_injective same)

theorem varName_injective {m n : Nat} (same : varName m = varName n) : m = n :=
  hex_injective (by simpa [varName] using same)

@[simp] theorem varName_inj {m n : Nat} : varName m = varName n ↔ m = n :=
  ⟨varName_injective, fun h => by rw [h]⟩

theorem varName_toList (n : Nat) : (varName n).toList = "_var.".toList ++ (hex n).toList := by
  simp [varName]

theorem varName_ne {s : Symbol} (h : s.toList.take 5 ≠ "_var.".toList) (n : Nat) :
    varName n ≠ s := by
  intro same
  refine h ?_
  rw [← same, varName_toList]
  rfl

end LGears.GenName
