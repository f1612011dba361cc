import Mathlib.Logic.Relation

/- Machines that may stop on the way: runs that lead to a goal unless the machine stops. -/
namespace Leads
open Relation

variable {C : Type} (step : C → C → Prop) (stops : C → Prop)

/-- Some run from c reaches a state with P, or one where the machine stops. -/
structure To (c : C) (P : C → Prop) : Prop where
  run : ∃ d, ReflTransGen step c d ∧ (P d ∨ stops d)

variable {step stops}
variable {c d : C} {P Q : C → Prop}

theorem To.here (goal : P c) : To step stops c P := ⟨c, .refl, .inl goal⟩

theorem To.stop (stopped : stops c) : To step stops c P := ⟨c, .refl, .inr stopped⟩

theorem To.next (first : step c d) (rest : To step stops d P) : To step stops c P := by
  obtain ⟨e, run, ending⟩ := rest.run
  exact ⟨e, .head first run, ending⟩

theorem To.bind (first : To step stops c P) (rest : ∀ d, P d → To step stops d Q) :
    To step stops c Q := by
  obtain ⟨d, run, goal | stopped⟩ := first.run
  · obtain ⟨e, run', ending⟩ := (rest d goal).run
    exact ⟨e, run.trans run', ending⟩
  · exact ⟨d, run, .inr stopped⟩

theorem To.mono (first : To step stops c P) (imp : ∀ d, P d → Q d) : To step stops c Q :=
  first.bind fun d goal => .here (imp d goal)

variable (step stops) in
/-- A run that takes a step reaches a state with P, or one where the machine stops. -/
inductive Later (c : C) (P : C → Prop) : Prop where
  | stop (stopped : stops c)
  | next {d : C} (first : step c d) (rest : To step stops d P)

theorem Later.to (later : Later step stops c P) : To step stops c P := by
  cases later with
  | stop stopped => exact .stop stopped
  | next first rest => exact .next first rest

theorem To.later (leads : To step stops c P) (moved : ¬ P c) : Later step stops c P := by
  obtain ⟨d, run, ending⟩ := leads.run
  rcases run.cases_head with same | ⟨b, first, rest⟩
  · subst same
    exact .stop (ending.resolve_left moved)
  · exact .next first ⟨d, rest, ending⟩

theorem Later.bind (first : Later step stops c P) (rest : ∀ d, P d → To step stops d Q) :
    Later step stops c Q := by
  cases first with
  | stop stopped => exact .stop stopped
  | next first more => exact .next first (more.bind rest)

theorem Later.mono (first : Later step stops c P) (imp : ∀ d, P d → Q d) : Later step stops c Q :=
  first.bind fun d goal => .here (imp d goal)

theorem To.andLater (first : To step stops c P) (rest : ∀ d, P d → Later step stops d Q) :
    Later step stops c Q := by
  obtain ⟨d, run, ending⟩ := first.run
  rcases run.cases_head with same | ⟨b, start, more⟩
  · subst same
    rcases ending with goal | stopped
    · exact rest c goal
    · exact .stop stopped
  · have onward : To step stops b P := ⟨d, more, ending⟩
    exact .next start (onward.bind fun e goal => (rest e goal).to)

variable (step stops) in
/-- As many steps can be taken, unless the machine stops before. -/
inductive Far : Nat → C → Prop where
  | zero {c : C} : Far 0 c
  | stop {n : Nat} {c : C} (stopped : stops c) : Far n c
  | next {n : Nat} {c d : C} (first : step c d) (rest : Far n d) : Far (n + 1) c

theorem Far.less {n : Nat} (far : Far step stops (n + 1) c) : Far step stops n c := by
  induction n generalizing c with
  | zero => exact .zero
  | succ n ih =>
    cases far with
    | stop stopped => exact .stop stopped
    | next first rest => exact .next first (ih rest)

theorem To.far {n : Nat} (leads : To step stops c P) (rest : ∀ d, P d → Far step stops n d) :
    Far step stops n c := by
  obtain ⟨d, run, ending⟩ := leads.run
  clear leads
  induction run using ReflTransGen.head_induction_on with
  | refl => exact ending.elim (rest d) .stop
  | head first _ ih => exact (Far.next first ih).less

theorem Later.far {n : Nat} (later : Later step stops c P) (rest : ∀ d, P d → Far step stops n d) :
    Far step stops (n + 1) c := by
  cases later with
  | stop stopped => exact .stop stopped
  | next first more => exact .next first (more.far rest)

variable (step stops) in
/-- Every run from c comes to a state with P, unless the machine stops before. -/
inductive Must (P : C → Prop) : C → Prop where
  | here {c : C} (goal : P c) : Must P c
  | stop {c : C} (stopped : stops c) : Must P c
  | next {c d : C} (first : step c d) (all : ∀ e, step c e → Must P e) : Must P c

theorem To.must (unique : ∀ c d e, step c d → step c e → d = e) (leads : To step stops c P) :
    Must step stops P c := by
  obtain ⟨d, run, ending⟩ := leads.run
  clear leads
  induction run using ReflTransGen.head_induction_on with
  | refl => exact ending.elim .here .stop
  | @head b c first _ ih =>
    apply Must.next first
    intro e other
    rw [← unique b c e first other]
    exact ih

end Leads
