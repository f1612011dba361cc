import LGears.CpsFacts

/- The grammar of the terms that the conversion emits: a body assigns and then calls, and
   `if` stands in tail position only. -/
namespace LGears.CpsGrammar
open GenName PrimitivesInfo StateExcept Cps

/- An operand leaves one object; a term ends in a call in each of its branches. A term may
   be a `begin` that no one has spliced, or the constant that stands for an empty one. -/
mutual
def Operand : Node → Prop
  | .const _ | .sym _ | .quote _ => True
  | .lambda _ body => Body body
  | .app f args => isOperator f = true ∧ OperandAll args
  | .ite _ _ _ | .set _ _ | .define _ _ | .begin _ | .extend _ => False
def OperandAll : List Node → Prop
  | [] => True
  | x :: xs => Operand x ∧ OperandAll xs
def Term : Node → Prop
  | .const d => d = .null
  | .app f args => isOperator f = false ∧ Operand f ∧ OperandAll args
  | .ite pred conseq alt => Operand pred ∧ Term conseq ∧ Term alt
  | .begin forms => Forms forms
  | .sym _ | .quote _ | .lambda _ _ | .set _ _ | .define _ _ | .extend _ => False
def Assigns : Node → Prop
  | .set _ value => Operand value
  | _ => False
def Forms : List Node → Prop
  | [] => False
  | x :: xs => (xs = [] → Term x) ∧ (xs ≠ [] → Assigns x ∧ Forms xs)
def Body : List Node → Prop
  | [] => False
  | .extend _ :: xs => Forms xs
  | x :: xs => (xs = [] → Term x) ∧ (xs ≠ [] → Assigns x ∧ Forms xs)
end

theorem operandAll_iff {xs : List Node} : OperandAll xs ↔ ∀ x ∈ xs, Operand x := by
  induction xs with
  | nil => simp [OperandAll]
  | cons x xs ih => simp [OperandAll, ih]

theorem forms_single {t : Node} : Forms [t] ↔ Term t := by simp [Forms]

theorem body_forms {xs : List Node} (forms : Forms xs) : Body xs := by
  cases xs with
  | nil => exact forms.elim
  | cons x xs =>
    cases x with
    | extend names =>
      by_cases last : xs = []
      · exact (forms.1 last).elim
      · exact (forms.2 last).1.elim
    | _ => exact forms

/- A term gives the forms of a body once it is spliced into it. -/

theorem forms_splice {xs : List Node}
    (each : ∀ x ∈ xs, Term x → Forms (spliceBegin [x])) (forms : Forms xs) :
    Forms (spliceBegin xs) := by
  induction xs with
  | nil => exact forms.elim
  | cons x xs ih =>
    by_cases last : xs = []
    · subst last
      exact each x (by simp) (forms.1 rfl)
    · obtain ⟨assigns, rest⟩ := forms.2 last
      have later := ih (fun y member => each y (by simp [member])) rest
      have plain : spliceBegin [x] = [x] := by
        cases x with
        | begin forms => exact assigns.elim
        | _ => rfl
      rw [spliceBegin_cons, plain, List.singleton_append]
      constructor
      · intro empty
        rw [empty] at later
        exact later.elim
      · intro _
        exact ⟨assigns, later⟩

theorem term_splice (t : Node) (term : Term t) : Forms (spliceBegin [t]) := by
  induction t with
  | begin forms ih =>
    have same : spliceBegin [Node.begin forms] = spliceBegin forms := by
      simp [spliceBegin, spliceNode]
    rw [same]
    exact forms_splice ih term
  | _ => simpa [spliceBegin, spliceNode, forms_single] using term

/-- Whatever the computation returns satisfies P. -/
structure Gives {α : Type} (c : Conv α) (P : α → Prop) : Prop where
  returned : ∀ m a m', Returns c m a m' → P a

section gives
variable {α β : Type} {P : α → Prop} {Q : β → Prop}

theorem Gives.pure {a : α} (right : P a) : Gives (pure a) P := by
  constructor
  intro m b m' ran
  rw [returns_pure] at ran
  exact ran.1 ▸ right

theorem Gives.bind {c : Conv α} {f : α → Conv β} (first : Gives c P)
    (rest : ∀ a, P a → Gives (f a) Q) : Gives (c >>= f) Q := by
  constructor
  intro m b m' ran
  rw [returns_bind] at ran
  obtain ⟨a, k, ran, later⟩ := ran
  exact (rest a (first.returned m a k ran)).returned k b m' later

theorem Gives.map {c : Conv α} {f : α → β} (first : Gives c P) (imp : ∀ a, P a → Q (f a)) :
    Gives (f <$> c) Q := by
  constructor
  intro m b m' ran
  rw [returns_map] at ran
  obtain ⟨a, ran, rfl⟩ := ran
  exact imp a (first.returned m a m' ran)

theorem Gives.violation (v : Violation) : Gives (violation v) P :=
  ⟨fun _ _ _ ran => absurd ran returns_violation⟩

theorem Gives.ite {p : Prop} [Decidable p] {c d : Conv α} (yes : p → Gives c P)
    (no : ¬ p → Gives d P) : Gives (if p then c else d) P := by
  by_cases h : p
  · rw [if_pos h]
    exact yes h
  · rw [if_neg h]
    exact no h

/-- A name that may be called. -/
def Callable (x : Symbol) : Prop := isOperator (.sym x) = false

theorem Gives.genName : Gives genName Callable := by
  constructor
  intro m x m' ran
  rw [returns_genName] at ran
  obtain ⟨rfl, _⟩ := ran
  simpa [Callable, isOperator] using varName_not_operator m

end gives

section pieces
variable {res : Option Node} {name : Symbol}

theorem operand_simple {n : Node} (simple : selfEval n = true) : Operand n := by
  induction n with
  | const | sym | quote => trivial
  | app f args _ ih =>
    simp only [selfEval, Bool.and_eq_true, simpleOperation_iff] at simple
    constructor
    · exact simple.1
    · rw [operandAll_iff]
      exact fun x member => ih x member (simple.2 x member)
  | _ => simp [selfEval] at simple

theorem term_call {x : Symbol} (callable : Callable x) {args : List Node}
    (operands : ∀ a ∈ args, Operand a) : Term (.app (.sym x) args) :=
  ⟨callable, trivial, operandAll_iff.mpr operands⟩

theorem term_let {args : Formals} {body operands : List Node} (forms : Forms body)
    (each : ∀ a ∈ operands, Operand a) : Term (.app (.lambda args body) operands) :=
  ⟨rfl, body_forms forms, operandAll_iff.mpr each⟩

theorem term_deliver (rest : ∀ r ∈ res, Term r) (callable : Callable name) {n : Node}
    (operand : Operand n) : Term (deliver res name n) := by
  cases res with
  | none => exact term_call callable (by simpa using operand)
  | some r => exact term_let (forms_single.mpr (rest r rfl)) (by simpa using operand)

theorem term_join (rest : ∀ r ∈ res, Term r) {lname : Symbol} {condition : Node}
    (term : Term condition) : Term (joinExpr res name lname condition) := by
  cases res with
  | none => exact term
  | some r =>
    have continuation : Operand (.lambda ⟨[name], none⟩ [r]) :=
      body_forms (forms_single.mpr (rest r rfl))
    exact term_let (forms_single.mpr term) (by simpa using continuation)

theorem forms_setBody (rest : ∀ r ∈ res, Term r) (x : Symbol) {value : Node}
    (operand : Operand value) : Forms (setBody x res name value) := by
  constructor
  · intro empty
    cases res with
    | none => simp at empty
    | some r =>
      have forms := term_splice r (rest r rfl)
      simp only at empty
      rw [empty] at forms
      exact forms.elim
  · intro _
    constructor
    · exact operand
    · cases res with
      | none =>
        have void : Callable "void" := rfl
        exact forms_single.mpr (term_call void (by simp [Operand]))
      | some r => exact term_splice r (rest r rfl)

theorem operand_control (rest : ∀ r ∈ res, Term r) : Operand (control res name) := by
  cases res with
  | none => trivial
  | some r => exact body_forms (term_splice r (rest r rfl))

theorem term_callExpr (rest : ∀ r ∈ res, Term r) (callable : Callable name) {func : Node}
    {args : List Node} (operator : Operand func) (operands : ∀ x ∈ args, Operand x) :
    Term (callExpr (control res name) func args) := by
  have continuation : Operand (control res name) := operand_control rest
  unfold callExpr
  split
  · rename_i opened
    have operation : Operand (.app func args) := ⟨opened, operandAll_iff.mpr operands⟩
    constructor
    · cases res with
      | none => exact callable
      | some r => rfl
    · exact ⟨continuation, operandAll_iff.mpr (by simpa using operation)⟩
  · rename_i other
    constructor
    · exact Bool.eq_false_iff.mpr other
    · refine ⟨operator, operandAll_iff.mpr ?_⟩
      rw [List.forall_mem_cons]
      exact ⟨continuation, operands⟩

end pieces

/- The conversion. -/

/-- The conversion of the node is a term. -/
def Terms (n : Node) : Prop :=
  ∀ res name, (∀ r ∈ res, Term r) → Callable name → Gives (convert res n name) Term

section conversion
variable {res : Option Node} {name : Symbol}

theorem none_terms : ∀ r ∈ (none : Option Node), Term r := by simp

/-- What stands for x in a call; a node that is converted before it waits in a variable. -/
def Stands (x larg : Node) : Prop :=
  Operand larg ∧ ((selfEval x || inlinable x) = false → Callable (symbolOf larg))

theorem Terms.func {args : Formals} {body : List Node} (terms : Terms (.lambda args body)) :
    Gives (convertFunc args body) Operand := by
  constructor
  intro m func m' ran
  have call : Callable "void" := rfl
  have all : Returns (convert none (.lambda args body) "void") m (deliver none "void" func) m' := by
    rw [convert_lambda]
    simpa using ⟨func, ran, rfl⟩
  have delivered := (terms none "void" none_terms call).returned m _ m' all
  have operands := operandAll_iff.mp delivered.2.2
  exact operands func (by simp)

theorem Terms.arg {x : Node} (terms : Terms x) : Gives (convertArg x) (Stands x) := by
  rw [convertArg_eq]
  apply Gives.ite
  · intro simple
    exact .pure ⟨operand_simple simple, by simp [simple]⟩
  intro _
  cases x with
  | lambda args body =>
    constructor
    intro m func m' ran
    exact ⟨terms.func.returned m func m' ran, by simp [inlinable]⟩
  | _ => exact Gives.genName.map fun y callable => ⟨trivial, fun _ => callable⟩

theorem gives_args {xs : List Node} (each : ∀ x ∈ xs, Terms x) :
    Gives (convertArgs xs) (List.Forall₂ Stands xs) := by
  induction xs with
  | nil =>
    rw [convertArgs_nil]
    exact .pure .nil
  | cons x xs ih =>
    rw [convertArgs_cons]
    apply Gives.bind (ih fun y member => each y (by simp [member]))
    intro largs rest
    apply Gives.bind (each x (by simp)).arg
    intro larg first
    exact .pure (.cons first rest)

theorem stands_operands {xs largs : List Node} (stands : List.Forall₂ Stands xs largs) :
    ∀ x ∈ largs, Operand x := by
  induction stands with
  | nil => simp
  | cons first _ ih => simpa [first.1] using ih

theorem Terms.glue {x : Node} (terms : Terms x) {prev larg : Node} (before : Term prev)
    (stands : Stands x larg) : Gives (glueArg prev x larg) Term := by
  rw [glueArg_eq]
  apply Gives.ite
  · intro _
    exact .pure before
  · intro complex
    exact terms (some prev) _ (by simpa using before) (stands.2 (by simpa using complex))

theorem gives_glue {xs largs : List Node} (each : ∀ x ∈ xs, Terms x) {expr : Node}
    (term : Term expr) (stands : List.Forall₂ Stands xs largs) :
    Gives (glueArgs expr xs largs) Term := by
  induction stands with
  | nil =>
    rw [glueArgs_nil]
    exact .pure term
  | cons first _ ih =>
    rw [glueArgs_cons]
    apply Gives.bind (ih fun y member => each y (by simp [member]))
    intro prev before
    exact (each _ (by simp)).glue before first

theorem gives_seq {xs : List Node} (each : ∀ x ∈ xs, Terms x) (frst : Node)
    (rest : ∀ r ∈ res, Term r) (callable : Callable name) :
    Gives (seqLoop res frst name xs) fun o => ∀ t ∈ o, Term t := by
  induction xs with
  | nil =>
    rw [seqLoop_nil]
    exact .pure rest
  | cons x xs ih =>
    rw [seqLoop_cons]
    apply Gives.bind (ih fun y member => each y (by simp [member]))
    intro prev before
    apply Gives.ite
    · intro simple
      apply Gives.pure
      split
      · intro t here
        cases here
        exact term_call callable (by simpa using operand_simple simple)
      · exact before
    · intro _
      apply Gives.bind (Gives.ite (fun _ => .pure callable) fun _ => .genName)
      intro value callable
      apply Gives.map (each x (by simp) prev value before callable)
      intro t term u here
      cases here
      exact term

theorem gives_set {v : Node} (terms : Terms v) (x : Symbol) (rest : ∀ r ∈ res, Term r) :
    Gives (convertSet res x v name) Term := by
  rw [convertSet_eq]
  apply Gives.ite
  · intro simple
    exact .pure (forms_setBody rest x (operand_simple simple))
  intro _
  have complex : Gives (do
      let setter ← genName
      let nv ← genName
      let term ← convert none v setter
      pure (Node.app (.lambda ⟨[setter], none⟩ [term])
        [.lambda ⟨[nv], none⟩ (setBody x res name (.sym nv))])) Term := by
    apply Gives.bind Gives.genName
    intro setter callable
    apply Gives.bind Gives.genName
    intro nv _
    apply Gives.bind (terms none setter none_terms callable)
    intro t term
    have continuation : Operand (.lambda ⟨[nv], none⟩ (setBody x res name (.sym nv))) :=
      body_forms (forms_setBody rest x trivial)
    exact .pure (term_let (forms_single.mpr term) (by simpa using continuation))
  cases v with
  | lambda args body =>
    apply Gives.bind terms.func
    intro func operand
    exact .pure (forms_setBody rest x operand)
  | _ => exact complex

theorem gives_defines {xs : List Node} (each : ∀ y v, .define y v ∈ xs → Terms v)
    (rest : ∀ r ∈ res, Term r) : Gives (convertDefines res xs) fun o => ∀ t ∈ o, Term t := by
  induction xs with
  | nil =>
    rw [convertDefines_nil]
    exact .pure rest
  | cons x xs ih =>
    have later := ih fun y v member => each y v (by simp [member])
    cases x with
    | define y v =>
      rw [convertDefines_cons]
      apply Gives.bind later
      intro prev before
      apply Gives.bind Gives.genName
      intro name _
      apply Gives.map (gives_set (each y v (by simp)) y before)
      intro t term u here
      cases here
      exact term
    | _ =>
      rw [convertDefines.eq_def]
      exact .bind later fun prev before => .pure before

theorem gives_body {body : List Node} (each : ∀ x ∈ body, Terms x)
    (values : ∀ y v, .define y v ∈ body → Terms v) (callable : Callable name) :
    Gives (convertBody body name) fun body' => Body (spliceBegin body') := by
  rw [convertBody_eq]
  apply Gives.ite
  · intro _
    exact .violation _
  intro full
  have seq : Gives (convertSeq none (expressionsOf body) name)
      fun o => ∃ t, o = some t ∧ Term t := by
    cases same : expressionsOf body with
    | nil => simp [same] at full
    | cons x xs =>
      rw [convertSeq_cons]
      constructor
      intro m o m' ran
      have terms := (gives_seq (fun y member => each y (List.mem_of_mem_filter (same ▸ member)))
        _ none_terms callable).returned m o m' ran
      obtain ⟨t, rfl⟩ := seqLoop_some (by simp) ran
      exact ⟨t, rfl, terms t rfl⟩
  apply Gives.bind seq
  intro o last
  obtain ⟨r, rfl, term⟩ := last
  have defines : Gives (convertDefines (some r) (definesOf body))
      fun o => ∃ t, o = some t ∧ Term t := by
    constructor
    intro m o m' ran
    have terms := (gives_defines (fun y v member => values y v (List.mem_of_mem_filter member))
      (by simpa using term)).returned m o m' ran
    obtain ⟨t, rfl⟩ := convertDefines_some ran
    exact ⟨t, rfl, terms t rfl⟩
  apply Gives.bind defines
  intro o last
  obtain ⟨t, rfl, term⟩ := last
  apply Gives.pure
  have forms := term_splice t term
  rw [spliceBegin_append]
  unfold extendForm
  split
  · exact body_forms forms
  · exact forms

theorem gives_func {body : List Node} (each : ∀ x ∈ body, Terms x)
    (values : ∀ y v, .define y v ∈ body → Terms v) (args : Formals) :
    Gives (convertFunc args body) Operand := by
  rw [convertFunc_eq]
  apply Gives.bind Gives.genName
  intro name callable
  apply Gives.bind (gives_body each values callable)
  intro body' converted
  exact .pure converted

theorem convert_terms (n : Node) : Terms n := by
  induction n using bodyInduct with
  | simple n simple =>
    intro res name rest callable
    rw [convert_selfEval _ _ simple]
    exact .pure (term_deliver rest callable (operand_simple simple))
  | lambda args body ih values =>
    intro res name rest callable
    rw [convert_lambda]
    apply Gives.bind (gives_func ih values args)
    intro func operand
    exact .pure (term_deliver rest callable operand)
  | ite p a b hp ha hb =>
    intro res name rest callable
    rw [convert_ite]
    have pred : Gives (predName p) fun t =>
        Operand t ∧ (¬ selfEval p = true → Callable (symbolOf t)) := by
      apply Gives.ite
      · intro simple
        exact .pure ⟨operand_simple simple, absurd simple⟩
      · intro _
        exact Gives.genName.map fun y callable => ⟨trivial, fun _ => callable⟩
    apply Gives.bind pred
    intro predname tested
    apply Gives.bind Gives.genName
    intro lname callable'
    have escape : Callable (if res.isNone then name else lname) := by
      split
      · exact callable
      · exact callable'
    apply Gives.bind (ha none _ none_terms escape)
    intro conseq yes
    apply Gives.bind (hb none _ none_terms escape)
    intro alt no
    have expr : Term (joinExpr res name lname (.ite predname conseq alt)) :=
      term_join rest ⟨tested.1, yes, no⟩
    apply Gives.ite
    · intro _
      exact .pure expr
    · intro complex
      exact hp (some _) _ (by simpa using expr) (tested.2 complex)
  | set x v hv =>
    intro res name rest _
    rw [convert_set]
    exact gives_set hv x rest
  | define x v =>
    intro res name _ _
    rw [convert.eq_def, if_neg (by simp [selfEval])]
    exact .violation _
  | begin forms ih =>
    intro res name rest callable
    rw [convert_begin]
    have seq : Gives (convertSeq res forms name) fun o => ∀ t ∈ o, Term t := by
      cases forms with
      | nil =>
        rw [convertSeq]
        exact .pure none_terms
      | cons x xs =>
        rw [convertSeq_cons]
        exact gives_seq ih _ rest callable
    apply Gives.bind seq
    intro o terms
    apply Gives.pure
    cases o with
    | none => rfl
    | some t => exact terms t rfl
  | extend names =>
    intro res name _ _
    rw [convert.eq_def, if_neg (by simp [selfEval])]
    exact .violation _
  | app f args complex hf ih =>
    intro res name rest callable
    rw [convert_app _ _ complex]
    apply Gives.bind (gives_args ih)
    intro largs operands
    apply Gives.bind hf.arg
    intro lf func
    have expr := term_callExpr rest callable func.1 (stands_operands operands)
    apply Gives.bind (gives_glue ih expr operands)
    intro inner term
    exact hf.glue term func

end conversion

end LGears.CpsGrammar
