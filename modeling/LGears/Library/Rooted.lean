import Mathlib.Data.Set.Function

/- Graphs with roots: what can be reached, and when one graph is another with its nodes
   moved. -/
namespace Rooted

variable {α β : Type} {root : α → Prop} {edge : α → α → Prop}

/-- The nodes that can be reached from the roots along the edges. -/
inductive Reached (root : α → Prop) (edge : α → α → Prop) : α → Prop where
  | root {a : α} : root a → Reached root edge a
  | edge {a c : α} : Reached root edge a → edge a c → Reached root edge c

theorem Reached.closed {keep : α → Prop} {a : α} (reached : Reached root edge a)
    (roots : ∀ a, root a → keep a) (step : ∀ a c, keep a → edge a c → keep c) : keep a := by
  induction reached with
  | root start => exact roots _ start
  | edge _ e ih => exact step _ _ ih e

theorem Reached.mono {root' : α → Prop} {a : α} (reached : Reached root edge a)
    (roots : ∀ a, root a → root' a) : Reached root' edge a :=
  reached.closed (fun _ start => .root (roots _ start)) fun _ _ => .edge

section moved
variable {root' : β → Prop} {edge' : β → β → Prop} {place : α → β}

theorem Reached.map {a : α} (reached : Reached root edge a)
    (roots : ∀ a, root a → root' (place a))
    (edges : ∀ a c, Reached root edge a → edge a c → edge' (place a) (place c)) :
    Reached root' edge' (place a) := by
  induction reached with
  | root start => exact .root (roots _ start)
  | edge reached e ih => exact .edge ih (edges _ _ reached e)

/- When every root and every edge of the second graph comes from the first, so does every
   node that can be reached. -/
theorem Reached.source {c : β} (reached : Reached root' edge' c)
    (roots : ∀ c, root' c → ∃ a, root a ∧ place a = c)
    (edges : ∀ a c, Reached root edge a → edge' (place a) c → ∃ d, edge a d ∧ place d = c) :
    ∃ a, Reached root edge a ∧ place a = c := by
  induction reached with
  | root start =>
    obtain ⟨a, first, same⟩ := roots _ start
    exact ⟨a, .root first, same⟩
  | edge _ e ih =>
    obtain ⟨a, reached, same⟩ := ih
    obtain ⟨d, e', there⟩ := edges a _ reached (same ▸ e)
    exact ⟨d, .edge reached e', there⟩

end moved

end Rooted
