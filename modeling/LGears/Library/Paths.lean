import Mathlib.Logic.Relation

/- Paths of a graph that stay among good nodes until they come to an exit. -/
namespace Paths
open Relation

variable {α : Type} {edge : α → α → Prop} {good exits mid : α → Prop} {s : α}

/-- Every node on the paths from s is good, or lies behind an exit. -/
structure Leads (edge : α → α → Prop) (good : α → Prop) (s : α) (exits : α → Prop) : Prop where
  path : ∀ x, ReflTransGen edge s x → good x ∨ ∃ e, exits e ∧ ReflTransGen edge e x

theorem Leads.exit (here : exits s) : Leads edge good s exits :=
  ⟨fun _ path => .inr ⟨s, here, path⟩⟩

theorem Leads.step (here : good s) (next : ∀ t, edge s t → Leads edge good t exits) :
    Leads edge good s exits := by
  constructor
  intro x path
  rcases ReflTransGen.cases_head path with same | ⟨t, first, rest⟩
  · exact .inl (same ▸ here)
  · exact (next t first).path x rest

theorem Leads.trans (first : Leads edge good s mid)
    (second : ∀ m, mid m → Leads edge good m exits) : Leads edge good s exits := by
  constructor
  intro x path
  rcases first.path x path with fine | ⟨m, at_m, rest⟩
  · exact .inl fine
  · exact (second m at_m).path x rest

theorem Leads.always (leads : Leads edge good s fun _ => False) {x : α}
    (path : ReflTransGen edge s x) : good x := by
  rcases leads.path x path with fine | ⟨_, never, _⟩
  · exact fine
  · exact never.elim

end Paths
