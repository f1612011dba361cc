import LGears.CpsNames
import LGears.CpsInvariant
import LGears.CompilerScope

/- Where the conversion leaves `begin` forms, and the programs whose conversion has none left
   once bodies are spliced. -/
namespace LGears.CpsAccepted
open StateExcept GenName PrimitivesInfo Opcode Cps Compiler CoreProgram CpsCorrect

def isTypeName : Node → Bool
  | .sym type => typeTests.contains type
  | _ => false

/- Closed programs: every variable is in `bound` or is a builtin, every operation has as many
   operands as its instruction takes, and literals are those of the reader. -/
mutual
def wellFormed (bound : List Symbol) : Node → Bool
  | .const d => loadable d
  | .quote _ => true
  | .sym s => bound.contains s || builtinNames.contains s
  | .lambda args body =>
    wellFormedAll ((definesOf body).map defineName ++ args.names ++ bound) body
  | .ite pred conseq alt =>
    wellFormed bound pred && wellFormed bound conseq && wellFormed bound alt
  | .set x value => (bound.contains x || builtinNames.contains x) && wellFormed bound value
  | .define _ value => wellFormed bound value
  | .begin forms => wellFormedAll bound forms
  | .extend _ => false
  | .app f args =>
    if isOperator f then
      if isTypeTest f then wellFormedTest bound args
      else (args.length == 1 || args.length == 2) && wellFormedAll bound args
    else wellFormed bound f && wellFormedAll bound args
def wellFormedAll (bound : List Symbol) : List Node → Bool
  | [] => true
  | x :: xs => wellFormed bound x && wellFormedAll bound xs
def wellFormedTest (bound : List Symbol) : List Node → Bool
  | [type, x] => isTypeName type && wellFormed bound x
  | _ => false
end

theorem wellFormedAll_iff {bound : List Symbol} {xs : List Node} :
    wellFormedAll bound xs = true ↔ ∀ x ∈ xs, wellFormed bound x = true := by
  induction xs with
  | nil => simp [wellFormedAll]
  | cons x xs ih => simp [wellFormedAll, ih]

/- The conversion of the node begins with a `set!`, spliced or to be spliced: the first form
   of the node that is neither simple nor a lambda expression assigns a simple value or a
   lambda expression. -/
mutual
def startsWithSet : Node → Bool
  | .const _ | .sym _ | .quote _ | .lambda _ _ | .define _ _ | .extend _ => false
  | .ite pred _ _ => startsWithSet pred
  | .set _ value => selfEval value || inlinable value
  | .begin forms => seqStarts (forms.getLastD (.const .null)) forms
  | .app f args => if selfEval f || inlinable f then argsStart args else startsWithSet f
def argsStart : List Node → Bool
  | [] => false
  | x :: xs => if selfEval x || inlinable x then argsStart xs else startsWithSet x
def seqStarts (frst : Node) : List Node → Bool
  | [] => false
  | x :: xs =>
    if selfEval x then !(xs.isEmpty || eqObject x frst) && seqStarts frst xs else startsWithSet x
end

/- The code generator accepts the conversion of the node in the given position, where `rb`
   says that the rest of the computation begins with a `set!`. -/
mutual
def accepts (pos : Position) (rb : Bool) : Node → Bool
  | .const _ | .sym _ | .quote _ => !rb
  | .lambda _ body => !rb && acceptsSeq .tail false (body.getLastD (.const .null)) body
  | .ite pred conseq alt =>
    !rb && accepts .value false pred && (accepts .tail false conseq && !startsWithSet conseq) &&
      (accepts .tail false alt && !startsWithSet alt)
  | .set x value =>
    pos != .value && !builtinNames.contains x &&
      (accepts .tail false value && !startsWithSet value)
  | .define _ value => accepts .tail false value && !startsWithSet value
  | .begin forms => acceptsSeq pos rb (forms.getLastD (.const .null)) forms
  | .extend _ => false
  | .app f args =>
    if selfEval (.app f args) then !rb
    else accepts .value (argsStart args && !(selfEval f || inlinable f)) f && acceptsArgs args
def acceptsArgs : List Node → Bool
  | [] => true
  | x :: xs =>
    accepts .value (argsStart xs && !(selfEval x || inlinable x)) x && acceptsArgs xs
def acceptsSeq (pos : Position) (rb : Bool) (frst : Node) : List Node → Bool
  | [] => true
  | x :: xs =>
    if selfEval x then
      if xs.isEmpty || eqObject x frst then pos == .tail else acceptsSeq pos rb frst xs
    else if xs.isEmpty then accepts pos rb x
    else accepts .effect (seqStarts frst xs) x && acceptsSeq pos rb frst xs
end

theorem startsWithSet_selfEval {n : Node} (simple : selfEval n = true) :
    startsWithSet n = false := by
  cases n with
  | const | sym | quote => rfl
  | app f args =>
    simp only [selfEval, Bool.and_eq_true] at simple
    have self : selfEval f = true := by
      cases f <;> simp [isOperator] at simple
      simp [selfEval]
    rw [startsWithSet, if_pos (by simp [self])]
    have all := simpleOperation_iff.mp simple.2
    clear simple
    induction args with
    | nil => rfl
    | cons x xs ih =>
      rw [argsStart, if_pos (by simp [all x (by simp)])]
      exact ih fun y hy => all y (by simp [hy])
  | _ => simp [selfEval] at simple

theorem accepts_selfEval {n : Node} (simple : selfEval n = true) (pos : Position) (rb : Bool) :
    accepts pos rb n = !rb := by
  cases n with
  | const | sym | quote => rfl
  | app f args => rw [accepts, if_pos simple]
  | _ => simp [selfEval] at simple

def isBegin : Node → Bool
  | .begin _ => true
  | _ => false

/-- The term is accepted once it is spliced into a body. -/
def CleanSplice (Γ : Symbol → Prop) (t : Node) : Prop := CleanAll Γ (spliceBegin [t])

theorem spliceBegin_notBegin {t : Node} (h : isBegin t = false) : spliceBegin [t] = [t] := by
  cases t <;> first | rfl | simp [isBegin] at h

theorem cleanSplice_notBegin {Γ : Symbol → Prop} {t : Node} (h : isBegin t = false) :
    CleanSplice Γ t ↔ Clean Γ t := by
  simp [CleanSplice, spliceBegin_notBegin h, CleanAll]

theorem clean_iff {Γ : Symbol → Prop} {t : Node} :
    Clean Γ t ↔ isBegin t = false ∧ CleanSplice Γ t := by
  cases h : isBegin t with
  | false => simp [cleanSplice_notBegin h]
  | true =>
    cases t <;> simp [isBegin] at h
    simp [Clean]

theorem cleanSplice_congr {Γ Δ : Symbol → Prop} {t : Node}
    (same : t.Over fun y => Γ y ↔ Δ y) : CleanSplice Γ t ↔ CleanSplice Δ t := by
  have named : ∀ x ∈ spliceBegin [t], x.Over fun y => Γ y ↔ Δ y :=
    over_splice.mpr (by simpa using same)
  simp only [CleanSplice, cleanAll_iff]
  exact forall₂_congr fun x hx => clean_congr (named x hx)

/-- The term can be the body of a function. -/
structure Body (t : Node) : Prop where
  some : spliceBegin [t] ≠ []
  noExtend : ∀ names, .extend names ∉ spliceBegin [t]

theorem body_notBegin {t : Node} (notBegin : isBegin t = false)
    (h : ∀ names, t ≠ .extend names) : Body t := by
  constructor <;> rw [spliceBegin_notBegin notBegin]
  · simp
  · intro names mem
    simp only [List.mem_singleton] at mem
    exact h names mem.symm

theorem cleanBody_noExtend {Γ : Symbol → Prop} {xs : List Node} (some : xs ≠ [])
    (h : ∀ names, .extend names ∉ xs) : CleanBody Γ xs ↔ CleanAll Γ xs := by
  cases xs with
  | nil => exact absurd rfl some
  | cons x xs =>
    cases x with
    | extend names => exact absurd (by simp) (h names)
    | _ => simp [CleanBody, CleanAll]

theorem Body.splice {Γ : Symbol → Prop} {t : Node} (h : Body t) :
    CleanBody Γ (spliceBegin [t]) ↔ CleanSplice Γ t := cleanBody_noExtend h.some h.noExtend

theorem Body.single {Γ : Symbol → Prop} {t : Node} (h : Body t) :
    CleanBody Γ [t] ↔ isBegin t = false ∧ CleanSplice Γ t := by
  cases notBegin : isBegin t with
  | false =>
    rw [← spliceBegin_notBegin notBegin, h.splice]
    simp
  | true =>
    cases t <;> simp [isBegin] at notBegin
    simp [CleanBody, Clean]

section shape
variable {res : Option Node} {name : Symbol} {m m' : Nat}

theorem body_app (f : Node) (args : List Node) : Body (.app f args) :=
  body_notBegin rfl (by simp)

theorem deliver_app (res : Option Node) (name : Symbol) (n : Node) :
    ∃ f args, deliver res name n = .app f args := by
  cases res <;> exact ⟨_, _, rfl⟩

theorem splice_setBody (x : Symbol) (res : Option Node) (name : Symbol) (val : Node) :
    spliceBegin [.begin (setBody x res name val)] = setBody x res name val := by
  have inner : spliceBegin (setBody x res name val) = setBody x res name val := by
    cases res with
    | none => rfl
    | some r =>
      rw [setBody, spliceBegin_cons, spliceBegin_idem]
      rfl
  simpa [spliceBegin, spliceNode] using inner

theorem body_setBody (hres : ∀ r ∈ res, Body r) (x : Symbol) (val : Node) :
    Body (.begin (setBody x res name val)) := by
  constructor <;> rw [splice_setBody]
  · simp [setBody]
  · intro names mem
    cases res with
    | none => simp [setBody] at mem
    | some r =>
      simp only [setBody, List.mem_cons, reduceCtorEq, false_or] at mem
      exact (hres r rfl).noExtend names mem

/-- The conversion of the node can be the body of a function, and begins with a `set!`
    exactly when `startsWithSet` says so. -/
def Shaped (n : Node) : Prop := ∀ res name m t m', (∀ r ∈ res, Body r) →
  Returns (convert res n name) m t m' → Body t ∧ isBegin t = startsWithSet n

theorem glueArg_shape {x prev larg t : Node} (h : Shaped x) (hprev : Body prev)
    (ran : Returns (glueArg prev x larg) m t m') :
    Body t ∧ isBegin t = if selfEval x || inlinable x then isBegin prev else startsWithSet x := by
  rw [glueArg_eq] at ran
  split at ran
  · rename_i simple
    rw [returns_pure] at ran
    rw [if_pos simple, ← ran.1]
    exact ⟨hprev, rfl⟩
  · rename_i complex
    rw [if_neg complex]
    exact h _ _ _ _ _ (by simpa using hprev) ran

theorem glueArgs_shape {xs largs : List Node} (h : ∀ x ∈ xs, Shaped x) {expr t : Node} {k : Nat}
    (hexpr : Body expr) (notBegin : isBegin expr = false)
    (args : Returns (convertArgs xs) k largs m)
    {i : Nat} (ran : Returns (glueArgs expr xs largs) i t m') :
    Body t ∧ isBegin t = argsStart xs := by
  induction xs generalizing largs m t m' with
  | nil =>
    rw [glueArgs_nil, returns_pure] at ran
    exact ran.1 ▸ ⟨hexpr, notBegin⟩
  | cons x xs ih =>
    rw [convertArgs_cons] at args
    simp only [returns_bind, returns_pure] at args
    obtain ⟨largs, k₁, first, larg, k₂, _, rfl, _⟩ := args
    rw [glueArgs_cons, returns_bind] at ran
    obtain ⟨prev, j, inner, outer⟩ := ran
    obtain ⟨hprev, begins⟩ := ih (fun y hy => h y (by simp [hy])) first inner
    rw [argsStart, ← begins]
    exact glueArg_shape (h x (by simp)) hprev outer

theorem seqLoop_shape {xs : List Node} (h : ∀ x ∈ xs, Shaped x) (hres : ∀ r ∈ res, Body r)
    {frst : Node} (some : xs ≠ []) {o : Option Node}
    (ran : Returns (seqLoop res frst name xs) m o m') :
    ∃ t, o = .some t ∧ Body t ∧ isBegin t = seqStarts frst xs := by
  induction xs generalizing o m' with
  | nil => exact absurd rfl some
  | cons x xs ih =>
    rw [seqLoop_cons] at ran
    simp only [returns_bind] at ran
    obtain ⟨prev, k, first, second⟩ := ran
    have rest (some : xs ≠ []) := ih (fun y hy => h y (by simp [hy])) some first
    rw [seqStarts]
    split at second
    · rename_i simple
      rw [returns_pure] at second
      rw [if_pos simple]
      cases tail : xs.isEmpty || eqObject x frst with
      | true =>
        simp only [tail, if_true] at second
        exact ⟨_, second.1.symm, body_app _ _, rfl⟩
      | false =>
        simp only [tail, Bool.false_eq_true, if_false] at second
        simp only [Bool.or_eq_false_iff, List.isEmpty_eq_false_iff] at tail
        obtain ⟨t, same, body, begins⟩ := rest tail.1
        exact ⟨t, by rw [← second.1, same], body, by simpa using begins⟩
    · rename_i complex
      rw [if_neg complex]
      simp only [returns_bind, returns_map] at second
      obtain ⟨value, j, _, t, ran, rfl⟩ := second
      have hprev : ∀ r ∈ prev, Body r := by
        by_cases some : xs = []
        · subst some
          rw [seqLoop_nil, returns_pure] at first
          exact first.1 ▸ hres
        · obtain ⟨t, rfl, body, _⟩ := rest some
          simpa using body
      exact ⟨t, rfl, h x (by simp) _ _ _ _ _ hprev ran⟩

theorem convertSet_shape {v t : Node} {x : Symbol} (hres : ∀ r ∈ res, Body r)
    (ran : Returns (convertSet res x v name) m t m') :
    Body t ∧ isBegin t = (selfEval v || inlinable v) := by
  rw [convertSet_eq] at ran
  split at ran
  · rename_i simple
    rw [returns_pure] at ran
    rw [← ran.1, simple]
    exact ⟨body_setBody hres _ _, rfl⟩
  · rename_i complex
    cases v with
    | lambda args body =>
      simp only [returns_bind, returns_pure] at ran
      obtain ⟨func, k, _, rfl, _⟩ := ran
      exact ⟨body_setBody hres _ _, by simp [isBegin, inlinable]⟩
    | _ =>
      simp only [returns_bind, returns_pure] at ran
      obtain ⟨_, _, _, _, _, _, _, _, _, rfl, _⟩ := ran
      exact ⟨body_app _ _, by simpa [isBegin, inlinable] using complex⟩

theorem convert_shape (n : Node) (core : isCore n = true) : Shaped n := by
  induction n with
  | const | quote | sym =>
    intro res name m t m' _ ran
    rw [convert_selfEval _ _ (by simp [selfEval]), returns_pure] at ran
    obtain ⟨f, args, same⟩ := deliver_app res name _
    rw [← ran.1, same]
    exact ⟨body_app _ _, rfl⟩
  | lambda args body _ =>
    intro res name m t m' _ ran
    rw [convert_lambda] at ran
    simp only [returns_bind, returns_pure] at ran
    obtain ⟨func, _, _, rfl, _⟩ := ran
    obtain ⟨f, args, same⟩ := deliver_app res name func
    rw [same]
    exact ⟨body_app _ _, rfl⟩
  | ite p a b hp _ _ =>
    intro res name m t m' hres ran
    simp only [isCore, Bool.and_eq_true] at core
    rw [convert_ite] at ran
    simp only [returns_bind] at ran
    obtain ⟨predname, _, _, lname, _, _, a', _, _, b', _, _, last⟩ := ran
    have expr : Body (joinExpr res name lname (.ite predname a' b')) ∧
        isBegin (joinExpr res name lname (.ite predname a' b')) = false := by
      cases res with
      | none => exact ⟨body_notBegin (t := .ite predname a' b') rfl (by simp), rfl⟩
      | some r => exact ⟨body_app _ _, rfl⟩
    split at last
    · rename_i simple
      rw [returns_pure] at last
      rw [← last.1, startsWithSet, startsWithSet_selfEval simple]
      exact expr
    · exact hp core.1.1 _ _ _ _ _ (by simpa using expr.1) last
  | set x v _ =>
    intro res name m t m' hres ran
    rw [convert_set] at ran
    exact convertSet_shape hres ran
  | define | extend => simp [isCore] at core
  | begin forms ih =>
    intro res name m t m' hres ran
    simp only [isCore, Bool.and_eq_true, isCoreAll_iff] at core
    rw [convert_begin] at ran
    simp only [returns_bind, returns_pure] at ran
    obtain ⟨o, _, seq, rfl, _⟩ := ran
    cases forms with
    | nil => simp at core
    | cons x xs =>
      rw [convertSeq_cons] at seq
      obtain ⟨t, rfl, body, begins⟩ :=
        seqLoop_shape (fun y hy => ih y hy (core.2 y hy)) hres (by simp) seq
      refine ⟨body, ?_⟩
      rw [Option.getD_some, begins, startsWithSet, List.getLastD_eq_getLast?,
        List.getLast?_eq_some_getLast (by simp), Option.getD_some]
  | app f args hf ih =>
    intro res name m t m' hres ran
    simp only [isCore, Bool.and_eq_true, isCoreAll_iff] at core
    cases simple : selfEval (.app f args) with
    | true =>
      rw [convert_selfEval _ _ simple, returns_pure] at ran
      obtain ⟨g, ys, same⟩ := deliver_app res name (.app f args)
      rw [← ran.1, same, startsWithSet_selfEval simple]
      exact ⟨body_app _ _, rfl⟩
    | false =>
      rw [convert_app _ _ simple] at ran
      simp only [returns_bind] at ran
      obtain ⟨largs, _, args, lf, _, _, inner, _, glue, outer⟩ := ran
      have expr : Body (callExpr (control res name) lf largs) ∧
          isBegin (callExpr (control res name) lf largs) = false := by
        unfold callExpr
        split <;> exact ⟨body_app _ _, rfl⟩
      obtain ⟨body, begins⟩ :=
        glueArgs_shape (fun y hy => ih y hy (core.2 y hy)) expr.1 expr.2 args glue
      rw [startsWithSet, ← begins]
      exact glueArg_shape (hf core.1.2) body outer

end shape

end LGears.CpsAccepted
