import LGears.Renaming
import LGears.Direct
import LGears.CpsMachine
import LGears.CoreProgram
import LGears.Opcode

/- What the correctness proof of the conversion carries along: which nodes are converted
   faithfully, how the generated variables of a CPS term hold continuations and
   intermediate values, and where the run of a converted node arrives. -/
namespace LGears.CpsCorrect
open StateExcept GenName PrimitivesInfo Values Machine Cps CpsMachine Renaming CoreProgram

/-- Where the value of a node goes: to the continuation, to a variable, or nowhere. -/
inductive Position where
  | tail
  | value
  | effect
  deriving DecidableEq, Repr

/-- The operands of a test for a type that there is. -/
def testsType : List Node → Bool
  | [.sym t, _] => Opcode.typeTests.contains t
  | _ => false

/-- An operation that takes any operands. -/
def takesAny (op : Node) (args : List Node) : Bool :=
  symbolOf op == "$type-test" && testsType args ||
    (symbolOf op == "$cons" && args.length == 2 || symbolOf op == "$!" && args.length == 1)

/- Forms that have a value wherever the variables in `bound` have one. -/
mutual
def harmless (bound : List Symbol) : Node → Bool
  | .const _ | .quote _ => true
  | .sym x => bound.contains x
  | .app f args =>
    takesAny f args && if isTypeTest f then harmlessTail bound args else harmlessAll bound args
  | _ => false
def harmlessAll (bound : List Symbol) : List Node → Bool
  | [] => true
  | x :: xs => harmless bound x && harmlessAll bound xs
def harmlessTail (bound : List Symbol) : List Node → Bool
  | [] => true
  | _ :: xs => harmlessAll bound xs
end

/-- Two forms that may be one object, since the optimizer shares what it inlines. -/
def mayShare : Node → Node → Bool
  | .sym a, .sym b => a == b
  | .const a, .const b => a == b
  | .quote a, .quote b => a == b
  | .lambda _ _, .lambda _ _ => true
  | _, _ => false

/-- What convert-seq needs of a form x before the forms xs. A last form that evaluates
   itself replaces the rest of the computation, so it must be in tail position; an earlier
   one is dropped, so it must not fail, and one that is `eq?` to the last form replaces all
   forms in between. -/
def keepsOrder (bound : List Symbol) (pos : Position) (x : Node) (xs : List Node) : Bool :=
  match xs.getLast? with
  | none => !selfEval x || pos == .tail
  | some frst => (!selfEval x || harmless bound x) &&
      (!mayShare x frst || simpleOperation (x :: xs))

/-- The names that a body defines. -/
def definedNames (body : List Node) : List Symbol := (definesOf body).map defineName

/-- What has a value while the definitions of a body are evaluated. -/
def ahead (names bound : List Symbol) : List Symbol := bound.filter fun x => !names.contains x

/- Nodes whose conversion is faithful in the given position, where the variables in `bound`
   have values. Without `lax` only the applicative core is. -/
mutual
def convertible (lax : Bool) (bound : List Symbol) (pos : Position) : Node → Bool
  | .const _ | .sym _ | .quote _ => true
  | .lambda args body =>
    (!lax || !args.names.contains "void") &&
      convertibleBody lax (ahead (definedNames body) (args.names ++ bound))
        (definedNames body ++ (args.names ++ bound)) body
  | .ite pred conseq alt => convertible lax bound .value pred &&
    convertible lax bound .tail conseq && convertible lax bound .tail alt
  | .set _ value => lax && pos != .value && convertible lax bound .tail value
  | .begin forms => lax && !forms.isEmpty && convertibleSeq lax bound pos forms
  | .app f args =>
    typeTestOk f args && convertible lax bound .value f && convertibleAll lax bound args
  | .define _ _ | .extend _ => false
def convertibleAll (lax : Bool) (bound : List Symbol) : List Node → Bool
  | [] => true
  | x :: xs => convertible lax bound .value x && convertibleAll lax bound xs
def convertibleSeq (lax : Bool) (bound : List Symbol) (pos : Position) : List Node → Bool
  | [] => true
  | x :: xs => convertible lax bound (if xs.isEmpty then pos else .effect) x &&
    keepsOrder bound pos x xs && convertibleSeq lax bound pos xs
def convertibleBody (lax : Bool) (before after : List Symbol) : List Node → Bool
  | [] => false
  | x :: xs =>
    if isDefine x then lax && convertibleDefine lax before x && convertibleBody lax before after xs
    else (lax || xs.isEmpty) && convertible lax after (if xs.isEmpty then .tail else .effect) x &&
      keepsOrder after .tail x xs && convertibleSeq lax after .tail xs
def convertibleDefine (lax : Bool) (bound : List Symbol) : Node → Bool
  | .define y value => y != "void" && convertible lax bound .tail value
  | _ => false
end

theorem eqObject_share {x y : Node} (same : eqObject x y = true) : mayShare x y = true := by
  obtain ⟨simple, rfl⟩ := eqObject_simple same
  cases x with
  | const | sym | quote | lambda => simp [mayShare]
  | _ => simp [eqObject] at same

theorem keepsOrder_harmless {bound : List Symbol} {pos : Position} {x frst : Node} {xs : List Node}
    (keeps : keepsOrder bound pos x xs = true) (last : xs.getLast? = some frst)
    (simple : selfEval x = true) : harmless bound x = true := by
  simp only [keepsOrder, last, Bool.and_eq_true, Bool.or_eq_true, Bool.not_eq_true', simple] at keeps
  exact keeps.1.resolve_left (by simp)

theorem keepsOrder_shared {bound : List Symbol} {pos : Position} {x frst : Node} {xs : List Node}
    (keeps : keepsOrder bound pos x xs = true) (last : xs.getLast? = some frst)
    (share : mayShare x frst = true) : ∀ y ∈ x :: xs, selfEval y = true := by
  simp only [keepsOrder, last, Bool.and_eq_true, Bool.or_eq_true, Bool.not_eq_true', share] at keeps
  exact simpleOperation_iff.mp (keeps.2.resolve_left (by simp))

theorem convertibleAll_iff {lax : Bool} {bound : List Symbol} {xs : List Node} :
    convertibleAll lax bound xs = true ↔ ∀ x ∈ xs, convertible lax bound .value x = true := by
  induction xs with
  | nil => simp [convertibleAll]
  | cons x xs ih => simp [convertibleAll, ih]

theorem convertibleSeq_noDefine {lax : Bool} {bound : List Symbol} {pos : Position}
    {xs : List Node} (h : convertibleSeq lax bound pos xs = true) : ∀ x ∈ xs, isDefine x = false := by
  induction xs with
  | nil => simp
  | cons x xs ih =>
    simp only [convertibleSeq, Bool.and_eq_true] at h
    intro y hy
    rcases List.mem_cons.mp hy with rfl | hy
    · cases y <;> first | rfl | simp [convertible] at h
    · exact ih h.2 y hy

/-- The parts of a convertible body: its definitions come first, and expressions follow. -/
structure BodyParts (lax : Bool) (before after : List Symbol) (body : List Node) : Prop where
  split : body = definesOf body ++ expressionsOf body
  some : expressionsOf body ≠ []
  plain : ∀ x ∈ expressionsOf body, isDefine x = false
  seq : convertibleSeq lax after .tail (expressionsOf body) = true
  defines : ∀ x ∈ definesOf body, ∃ y v, x = .define y v ∧ y ≠ "void" ∧
    convertible lax before .tail v = true
  strict : lax = false → ∃ x, body = [x] ∧ isDefine x = false

theorem convertibleBody_parts {lax : Bool} {before after : List Symbol} {body : List Node}
    (h : convertibleBody lax before after body = true) : BodyParts lax before after body := by
  induction body with
  | nil => simp [convertibleBody] at h
  | cons x xs ih =>
    rw [convertibleBody] at h
    split at h
    · rename_i isDef
      simp only [Bool.and_eq_true] at h
      have rest := ih h.2
      have defs : definesOf (x :: xs) = x :: definesOf xs := by simp [definesOf, isDef]
      have exprs : expressionsOf (x :: xs) = expressionsOf xs := by simp [expressionsOf, isDef]
      refine ⟨?_, exprs ▸ rest.some, exprs ▸ rest.plain, exprs ▸ rest.seq, ?_, ?_⟩
      · rw [defs, exprs, List.cons_append, ← rest.split]
      · rw [defs]
        intro y hy
        rcases List.mem_cons.mp hy with rfl | hy
        · cases y with
          | define y v => exact ⟨y, v, rfl, by simpa [convertibleDefine] using h.1.2⟩
          | _ => simp [isDefine] at isDef
        · exact rest.defines y hy
      · simp [h.1.1]
    · rename_i isDef
      simp only [Bool.and_eq_true, Bool.or_eq_true] at h
      have seq : convertibleSeq lax after .tail (x :: xs) = true := by
        simp only [convertibleSeq, Bool.and_eq_true]
        exact ⟨⟨h.1.1.2, h.1.2⟩, h.2⟩
      have plain := convertibleSeq_noDefine seq
      have defs : definesOf (x :: xs) = [] := by
        simpa [definesOf] using plain
      have exprs : expressionsOf (x :: xs) = x :: xs := by
        rw [expressionsOf, List.filter_eq_self]
        simpa using plain
      refine ⟨by rw [defs, exprs]; rfl, by simp [exprs], exprs.symm ▸ plain, exprs.symm ▸ seq,
        by simp [defs], fun strict => ?_⟩
      rcases h.1.1.1 with h | h
      · simp [strict] at h
      · exact ⟨x, by simpa using h, by simpa using isDef⟩

/-- The variables in `bound` have values. -/
def Ready (bound : List Symbol) (ρ : Env) (s : State) : Prop :=
  ∀ x ∈ bound, (lookupVar ρ s x).isSome = true

section ready
variable {W : World} {bound : List Symbol} {ρ ρ₁ : Env} {s s₁ : State}

theorem Ready.later (ready : Ready bound ρ s) (persists : Persists s s₁) : Ready bound ρ s₁ := by
  intro x member
  have value := ready x member
  unfold lookupVar at value ⊢
  cases place : ρ x with
  | none => simpa only [place] using value
  | some l =>
    simp only [place] at value ⊢
    split at value
    · rename_i v here
      obtain ⟨w, rfl⟩ := Option.isSome_iff_exists.mp value
      obtain ⟨u, later⟩ := persists l w here
      rw [later]
      rfl
    · cases value

theorem ready_builtins : Ready builtinNames Env.empty State.empty := by
  intro x member
  simp [lookupVar, Env.empty, member]

theorem Ready.bind (ready : Ready bound ρ s) (x : Symbol) (v : Value) :
    Ready (x :: bound) (ρ.bind x s.top) (s.alloc (.cell (some v))) := by
  intro y member
  by_cases same : y = x
  · simp [lookupVar, Env.bind, same]
  · have old := ready.later (persists_alloc s (.cell (some v))) y
      ((List.mem_cons.mp member).resolve_left same)
    simpa only [lookupVar, Env.bind, if_neg same] using old

theorem Ready.fixed {xs : List Symbol} {vs left : List Value} (ready : Ready bound ρ s)
    (given : bindFixed xs vs ρ s = some ((left, ρ₁), s₁)) : Ready (xs ++ bound) ρ₁ s₁ := by
  induction xs generalizing bound vs ρ s with
  | nil =>
    simp only [bindFixed, Option.some.injEq, Prod.mk.injEq] at given
    obtain ⟨⟨_, rfl⟩, rfl⟩ := given
    exact ready
  | cons x xs ih =>
    cases vs with
    | nil => cases given
    | cons v vs =>
      have rest := ih (ready.bind x v) given
      intro y member
      apply rest
      simp only [List.cons_append, List.mem_cons, List.mem_append] at member ⊢
      tauto

theorem persists_mkList (s : State) (vs : List Value) : Persists s (mkList s vs).2 := by
  induction vs with
  | nil => exact .refl s
  | cons v vs ih => exact ih.trans (persists_alloc _ _)

theorem Ready.args {args : Formals} {vs : List Value} (ready : Ready bound ρ s)
    (given : bindArgs args vs ρ s = some (ρ₁, s₁)) : Ready (args.names ++ bound) ρ₁ s₁ := by
  simp only [bindArgs, Option.bind_eq_bind, Option.bind_eq_some_iff, Prod.exists] at given
  obtain ⟨left, ρ₂, s₂, fixed, given⟩ := given
  have ready₂ := ready.fixed fixed
  rw [Formals.names]
  cases rest : args.rest with
  | none =>
    simp only [rest] at given
    split at given
    · simp only [Option.some.injEq, Prod.mk.injEq] at given
      obtain ⟨rfl, rfl⟩ := given
      simpa using ready₂
    · cases given
  | some r =>
    simp only [rest, Option.some.injEq, Prod.mk.injEq] at given
    obtain ⟨rfl, rfl⟩ := given
    have ready₃ := (ready₂.later (persists_mkList s₂ left)).bind r (mkList s₂ left).1
    intro y member
    apply ready₃
    simp only [Option.toList_some, List.mem_append, List.mem_cons, List.not_mem_nil,
      or_false] at member ⊢
    tauto

theorem persists_bindNames (xs : List Symbol) (ρ : Env) (s : State) :
    Persists s (bindNames xs ρ s).2 := by
  induction xs generalizing ρ s with
  | nil => exact .refl s
  | cons x xs ih => exact (persists_alloc s _).trans (ih _ _)

theorem bindNames_other {xs : List Symbol} {x : Symbol} (other : x ∉ xs) (ρ : Env) (s : State) :
    (bindNames xs ρ s).1 x = ρ x := by
  induction xs generalizing ρ s with
  | nil => rfl
  | cons y ys ih =>
    simp only [List.mem_cons, not_or] at other
    rw [bindNames, ih other.2]
    simp [Env.bind, other.1]

/- Definitions hide what they define until they are evaluated. -/
theorem Ready.names (ready : Ready bound ρ s) (xs : List Symbol) :
    Ready (ahead xs bound) (bindNames xs ρ s).1 (bindNames xs ρ s).2 := by
  intro x member
  simp only [ahead, List.mem_filter, Bool.not_eq_true', List.contains_eq_mem,
    decide_eq_false_iff_not] at member
  have old := ready.later (persists_bindNames xs ρ s) x member.1
  simpa only [lookupVar, bindNames_other member.2] using old

theorem assign_ready {x : Symbol} {v : Value} (assigned : assign ρ s x v = some s₁) :
    (lookupVar ρ s₁ x).isSome = true := by
  unfold assign at assigned
  split at assigned
  · rename_i l place
    split at assigned
    · rename_i u here
      cases assigned
      simp [lookupVar, place, get_put_self s _ (get_lt here)]
    · cases assigned
  · cases assigned

theorem typeTest_value {t : Symbol} (known : t ∈ Opcode.typeTests) (s : State) (v : Value) :
    (typeTest s t v).isSome = true := by
  simp only [Opcode.typeTests, List.mem_cons, List.not_mem_nil, or_false] at known
  rcases known with rfl | rfl | rfl | rfl | rfl | rfl | rfl | rfl | rfl | rfl | rfl | rfl <;>
    simp [typeTest]

theorem takesAny_cases {f : Node} {args : List Node} (takes : takesAny f args = true) :
    (∃ t x, f = .sym "$type-test" ∧ args = [.sym t, x] ∧ t ∈ Opcode.typeTests) ∨
      (∃ x y, f = .sym "$cons" ∧ args = [x, y]) ∨ ∃ x, f = .sym "$!" ∧ args = [x] := by
  have named : ∀ op, op ≠ "" → symbolOf f = op → f = .sym op := by
    intro op some same
    subst same
    cases f <;> first | rfl | exact absurd rfl some
  simp only [takesAny, Bool.or_eq_true, Bool.and_eq_true, beq_iff_eq] at takes
  rcases takes with ⟨test, types⟩ | ⟨cons, two⟩ | ⟨negate, one⟩
  · unfold testsType at types
    split at types
    · exact .inl ⟨_, _, named _ (by decide) test, rfl, by simpa using types⟩
    · cases types
  · obtain ⟨x, y, rfl⟩ := List.length_eq_two.mp two
    exact .inr (.inl ⟨x, y, named _ (by decide) cons, rfl⟩)
  · obtain ⟨x, rfl⟩ := List.length_eq_one_iff.mp one
    exact .inr (.inr ⟨x, named _ (by decide) negate, rfl⟩)

theorem harmless_value {x : Node} (fine : harmless bound x = true) (ready : Ready bound ρ s) :
    ∃ v s₁, evalSimple W ρ x s = some (v, s₁) := by
  induction x generalizing s with
  | const d | quote d => exact ⟨_, s, rfl⟩
  | sym x =>
    obtain ⟨v, value⟩ := Option.isSome_iff_exists.mp (ready x (by simpa [harmless] using fine))
    exact ⟨v, s, by simp [evalSimple, value]⟩
  | app f args _ ih =>
    simp only [harmless, Bool.and_eq_true] at fine
    rcases takesAny_cases fine.1 with ⟨t, x, rfl, rfl, known⟩ | ⟨x, y, rfl, rfl⟩ | ⟨x, rfl, rfl⟩
    · have operand : harmless bound x = true := by
        simpa [isTypeTest, harmlessTail, harmlessAll] using fine.2
      obtain ⟨v, s₁, value⟩ := ih x (by simp) operand ready
      obtain ⟨b, test⟩ := Option.isSome_iff_exists.mp (typeTest_value known s₁ v)
      have operator : isOperator (.sym "$type-test") = true := by decide
      exact ⟨bool b, s₁, by
        simp [evalSimple, operator, isTypeTest, evalTail, evalSimples, value, finishOp, test]⟩
    · have operands : harmless bound x = true ∧ harmless bound y = true := by
        simpa [isTypeTest, harmlessAll] using fine.2
      obtain ⟨v, s₁, first⟩ := ih x (by simp) operands.1 ready
      obtain ⟨w, s₂, second⟩ := ih y (by simp) operands.2
        (ready.later (evalSimple_grown first).persists)
      have operator : isOperator (.sym "$cons") = true := by decide
      exact ⟨_, _, by
        simp [evalSimple, operator, isTypeTest, evalSimples, first, second, finishOp, applyOp]; rfl⟩
    · have operand : harmless bound x = true := by
        simpa [isTypeTest, harmlessAll] using fine.2
      obtain ⟨v, s₁, value⟩ := ih x (by simp) operand ready
      have operator : isOperator (.sym "$!") = true := by decide
      exact ⟨bool (!truthy v), s₁, by
        simp [evalSimple, operator, isTypeTest, evalSimples, value, finishOp, applyOp]⟩
  | _ => cases fine

end ready

/-- The symbols generated while the counter goes from m to m'. -/
def Generated (m m' : Nat) : Symbol → Prop := fun x => ∃ i, m ≤ i ∧ i < m' ∧ x = varName i

/-- The symbols a source program may use when its conversion takes the counter from m to m'. -/
def SourceName (m m' : Nat) : Symbol → Prop := fun x => ¬ Generated m m' x

def Agree (D : Symbol → Prop) (ρ ρ₁ : Env) : Prop := ∀ x, ¬ D x → ρ₁ x = ρ x

theorem Agree.refl (D : Symbol → Prop) (ρ : Env) : Agree D ρ ρ := fun _ _ => rfl

theorem Agree.trans {D D' E : Symbol → Prop} {ρ ρ₁ ρ₂ : Env} (first : Agree D ρ ρ₁)
    (second : Agree D' ρ₁ ρ₂) (le : ∀ x, D x ∨ D' x → E x) : Agree E ρ ρ₂ := fun x hx =>
  (second x fun h => hx (le x (.inr h))).trans (first x fun h => hx (le x (.inl h)))

theorem Agree.mono {D E : Symbol → Prop} {ρ ρ₁ : Env} (h : Agree D ρ ρ₁) (le : ∀ x, D x → E x) :
    Agree E ρ ρ₁ := fun x hx => h x fun hD => hx (le x hD)

theorem agree_bind {D : Symbol → Prop} {x : Symbol} (hx : D x) (ρ : Env) (l : Nat) :
    Agree D ρ (ρ.bind x l) := by
  intro y hy
  simp only [Env.bind]
  split
  · rename_i same
    exact absurd (same ▸ hx) hy
  · rfl

/-- A generated variable of the CPS term and its value. No source variable shares its cell. -/
def Holds (β : Ren) (ρ' : Env) (s' : State) (x : Symbol) (v : Value) : Prop :=
  ∃ l, ρ' x = some l ∧ s'.get l = some (.cell (some v)) ∧ ∀ m, ¬ β m l

section holds
variable {W : World} {K : ClosureRel} {A : Nat → Prop} {β γ β₁ γ₁ : Ren} {s s' s₁ s₁' : State}
  {ρ' ρ₁' : Env} {x : Symbol} {v : Value}

theorem Holds.extend (h : Holds β ρ' s' x v) (grow : Extends A β γ s s' β₁ γ₁ s₁ s₁') :
    Holds β₁ ρ' s₁' x v := by
  obtain ⟨l, hx, hl, none⟩ := h
  have lt := get_lt hl
  refine ⟨l, hx, by rw [grow.frame lt none, hl], fun m hm => ?_⟩
  rcases grow.newObjs hm with h | ⟨_, h⟩
  · exact none m h
  · omega

theorem Holds.agree {D : Symbol → Prop} (h : Holds β ρ' s' x v) (agree : Agree D ρ' ρ₁')
    (hx : ¬ D x) : Holds β ρ₁' s' x v := by
  obtain ⟨l, hl, rest⟩ := h
  exact ⟨l, by rw [agree x hx, hl], rest⟩

theorem Holds.lookup (h : Holds β ρ' s' x v) : lookupVar ρ' s' x = some v := by
  obtain ⟨l, hx, hl, _⟩ := h
  simp [lookupVar, hx, hl]

theorem Holds.evalSimple (h : Holds β ρ' s' x v) :
    evalSimple W ρ' (.sym x) s' = some (v, s') := by
  simp [Values.evalSimple, h.lookup]

theorem holds_bind (rel : StateRel W K β γ s s') (ρ' : Env) (x : Symbol) (v : Value) :
    Holds β (ρ'.bind x s'.top) (s'.alloc (.cell (some v))) x v := by
  refine ⟨s'.top, by simp [Env.bind], by simp, fun m hm => ?_⟩
  have := rel.obj_lt_right hm
  omega

theorem closure_keep (rel : StateRel W K β γ s s') (grow : Extends A β γ s s' β₁ γ₁ s₁ s₁')
    {k : Nat} {args : Formals} {body : List Node} {ρ : Env}
    (here : s'.get k = some (.closure args body ρ)) :
    s₁'.get k = some (.closure args body ρ) := by
  rw [grow.frame (get_lt here), here]
  intro m hm
  obtain ⟨o, p, _, hk, r⟩ := rel.objs hm
  rw [here] at hk
  cases hk
  cases r

end holds

/-- The code that hands a value to `name` and goes on with `res`. -/
inductive Control (name : Symbol) : Option Node → Node → Prop where
  | tail : Control name none (.sym name)
  | rest {r : Node} {body : List Node} (same : ∀ ρ s, start body ρ s = start [r] ρ s) :
      Control name (some r) (.lambda ⟨[name], none⟩ body)

/-- κ is the value of such code. -/
inductive Awaits (κ₀ : Value) (ρ' : Env) (name : Symbol) : Option Node → Value → State → Prop where
  | tail {t : State} : Awaits κ₀ ρ' name none κ₀ t
  | rest {r : Node} {body : List Node} {k : Nat} {t : State}
      (here : t.get k = some (.closure ⟨[name], none⟩ body ρ'))
      (same : ∀ ρ s, start body ρ s = start [r] ρ s) :
      Awaits κ₀ ρ' name (some r) (.proc k) t

/-- Where a converted node arrives with a value: at a call of the continuation κ, or at the
   rest of the computation with the value in `name`. Only variables in D have changed. -/
inductive Arrive (W : World) (K : ClosureRel) (β γ : Ren) (ρ' : Env) (s s' : State)
    (D : Symbol → Prop) (name : Symbol) (pos : Position) (κ : Value) :
    Option Node → Value → State → Config → Prop where
  | ret {v v' : Value} {s₁ s₁' : State} {β₁ γ₁ : Ren} (rel : StateRel W K β₁ γ₁ s₁ s₁')
      (grow : Extends NoneOld β γ s s' β₁ γ₁ s₁ s₁') (val : ValueRel β₁ γ₁ v v') :
      Arrive W K β γ ρ' s s' D name pos κ none v s₁ (.call κ [v'] s₁')
  | rest {r : Node} {v : Value} {ρ₁' : Env} {s₁ s₁' : State} {β₁ γ₁ : Ren}
      (agree : Agree D ρ' ρ₁') (rel : StateRel W K β₁ γ₁ s₁ s₁')
      (grow : Extends NoneOld β γ s s' β₁ γ₁ s₁ s₁')
      (val : pos = .value → ∃ v', ValueRel β₁ γ₁ v v' ∧ Holds β₁ ρ₁' s₁' name v') :
      Arrive W K β γ ρ' s s' D name pos κ (some r) v s₁ (start [r] ρ₁' s₁')

section arrive
variable {W : World} {K : ClosureRel} {A : Nat → Prop} {β γ β₁ γ₁ β₂ γ₂ : Ren}
  {s s' s₁ s₁' s₂ s₂' : State} {ρ' ρ₁' : Env} {name : Symbol} {v v' κ κ₁ : Value}
  {res : Option Node} {pos : Position} {D E : Symbol → Prop}

theorem control_control (res : Option Node) (name : Symbol) :
    Control name res (control res name) := by
  cases res with
  | none => exact .tail
  | some r => exact .rest (by simp)

theorem deliver_eq (res : Option Node) (name : Symbol) (node : Node) :
    ∃ ctl, Control name res ctl ∧ deliver res name node = .app ctl [node] := by
  cases res with
  | none => exact ⟨_, .tail, rfl⟩
  | some r => exact ⟨_, .rest (fun _ _ => rfl), rfl⟩

theorem Control.notOperator {ctl : Node} (h : Control name res ctl)
    (notOp : name ∉ primitivesOperators) : isOperator ctl = false := by
  cases h with
  | tail => simpa [isOperator] using notOp
  | rest => rfl

theorem Control.eval {ctl : Node} (h : Control name res ctl) (mono : Widening K)
    (rel : StateRel W K β γ s s') (tail : res = none → Holds β ρ' s' name κ) :
    ∃ κ₁ s₁', evalSimple W ρ' ctl s' = some (κ₁, s₁') ∧ StateRel W K β γ s s₁' ∧
      Extends NoneOld β γ s s' β γ s s₁' ∧ Awaits κ ρ' name res κ₁ s₁' := by
  cases h with
  | tail => exact ⟨κ, s', (tail rfl).evalSimple, rel, .refl _ _ _ _ _, .tail⟩
  | rest same =>
    exact ⟨_, _, evalSimple_lambda _ _, rel.allocRight mono _, extends_allocRight _ _ _ _ _,
      .rest (by simp) same⟩

theorem Awaits.keep (h : Awaits κ ρ' name res κ₁ s') (rel : StateRel W K β γ s s')
    (grow : Extends A β γ s s' β₁ γ₁ s₁ s₁') : Awaits κ ρ' name res κ₁ s₁' := by
  cases h with
  | tail => exact .tail
  | rest here same => exact .rest (closure_keep rel grow here) same

theorem Awaits.resume (h : Awaits κ ρ' name res κ₁ s₁') (pos : Position) (mono : Widening K)
    (rel : StateRel W K β₁ γ₁ s₁ s₁') (grow : Extends NoneOld β γ s s' β₁ γ₁ s₁ s₁')
    (val : ValueRel β₁ γ₁ v v') (hD : D name) :
    ∃ c, Reaches (step W) (.call κ₁ [v'] s₁') c ∧
      Arrive W K β γ ρ' s s' D name pos κ res v s₁ c := by
  cases h with
  | tail => exact ⟨_, .refl _, .ret rel grow val⟩
  | rest here same =>
    refine ⟨_, .one (step_cont here), ?_⟩
    rw [same]
    exact .rest (agree_bind hD _ _) (rel.allocRight mono _)
      (grow.then (extends_allocRight _ _ _ _ _)) fun _ => ⟨v', val, holds_bind rel _ _ _⟩

theorem Arrive.earlier {c : Config} {t : State}
    (h : Arrive W K β₁ γ₁ ρ₁' s₁ s₁' D name pos κ res v t c) (agree : Agree E ρ' ρ₁')
    (grow : Extends NoneOld β γ s s' β₁ γ₁ s₁ s₁') (le : ∀ x, D x → E x) :
    Arrive W K β γ ρ' s s' E name pos κ res v t c := by
  cases h with
  | ret rel grow₁ val => exact .ret rel (grow.then grow₁) val
  | rest agree₁ rel grow₁ val =>
    exact .rest (agree.trans agree₁ fun x h => h.elim id (le x)) rel (grow.then grow₁) val

end arrive

end LGears.CpsCorrect
