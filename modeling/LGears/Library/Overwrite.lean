import Mathlib.Data.List.Basic
import Mathlib.Tactic.Common

/- Writing a run of elements over a part of a list. -/
namespace Overwrite

variable {α : Type} {l new : List α} {i : Nat}

def overwrite (l : List α) (i : Nat) (new : List α) : List α :=
  l.take i ++ new ++ l.drop (i + new.length)

theorem length_overwrite (inside : i + new.length ≤ l.length) :
    (overwrite l i new).length = l.length := by
  simp only [overwrite, List.length_append, List.length_take, List.length_drop]
  omega

theorem getElem?_overwrite (inside : i + new.length ≤ l.length) (k : Nat) :
    (overwrite l i new)[k]? =
      if i ≤ k ∧ k < i + new.length then new[k - i]? else l[k]? := by
  have before : (l.take i).length = i := by
    rw [List.length_take]
    omega
  rw [overwrite, List.append_assoc, List.getElem?_append, before]
  by_cases low : k < i
  · rw [if_pos low, if_neg (by omega), List.getElem?_take, if_pos low]
  · rw [if_neg low, List.getElem?_append]
    by_cases high : k < i + new.length
    · rw [if_pos (by omega), if_pos (by omega)]
    · rw [if_neg (by omega), if_neg (by omega), List.getElem?_drop]
      congr 1
      omega

theorem overwrite_singleton {a : α} (inside : i < l.length) : overwrite l i [a] = l.set i a := by
  rw [List.set_eq_take_append_cons_drop, if_pos inside, overwrite, List.append_assoc]
  rfl

end Overwrite
