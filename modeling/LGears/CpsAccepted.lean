import LGears.CpsSplice
import LGears.CpsConversion

/- Which programs the code generator accepts after their conversion. -/
namespace LGears.CpsAccepted
open StateExcept GenName PrimitivesInfo Opcode Cps Compiler CoreProgram CpsCorrect CpsConversion

/-- What is needed to go on with the value in `name`. -/
def Rest (Γ : Symbol → Prop) (name : Symbol) : Option Node → Prop
  | none => Γ name
  | some r => CleanSplice (within Γ [name]) r

/-- What is needed to go on after an assignment, which does not hand its value to the rest. -/
def RestAfter (Γ : Symbol → Prop) (name : Symbol) : Option Node → Prop
  | none => Γ name
  | some r => CleanSplice Γ r

def resBegins : Option Node → Bool
  | none => false
  | some r => isBegin r

/-- Part of a well formed program whose conversion takes the counter from m to m'. -/
structure Source (Γ : Symbol → Prop) (m m' : Nat) (n : Node) : Prop where
  core : isCore n = true
  formed : ∃ bound, wellFormed bound n = true ∧ ∀ x ∈ bound, Γ x
  plain : Plain (binders n)
  names : n.Over (SourceName m m')

/-- No name generated from m to m' is in scope yet, and no builtin is redefined. -/
structure Fresh (Γ : Symbol → Prop) (m m' : Nat) : Prop where
  unused : ∀ i, m ≤ i → i < m' → ¬ Γ (varName i)
  plain : ∀ s ∈ reserved, ¬ Γ s

/-- The rest of the computation, which waits for the value in `name` or for nothing but
    the effects of the node. -/
structure Waits (Γ : Symbol → Prop) (pos : Position) (name : Symbol) (m m' : Nat) (r : Node) :
    Prop where
  body : Body r
  names : r.Over (SourceName m m')
  notTail : pos ≠ .tail
  unbound : ¬ Γ name
  value : pos = .value → ¬ CleanSplice Γ r
  effect : pos = .effect → r.Over (· ≠ name)

/-- The code generator accepts the conversion of the node exactly when `accepts` holds. -/
def Verdict (n : Node) : Prop := ∀ pos res k m t m' Γ, Source Γ m m' n → Fresh Γ m m' → k < m →
  (res = none → pos = .tail) → (∀ r ∈ res, Waits Γ pos (varName k) m m' r) →
  Returns (convert res n (varName k)) m t m' →
  (CleanSplice Γ t ↔ accepts pos (resBegins res) n = true ∧ Rest Γ (varName k) res)

/-- The same for a function. -/
def FuncVerdict (args : Formals) (body : List Node) : Prop := ∀ m f m' Γ,
  Source Γ m m' (.lambda args body) → Fresh Γ m m' → Returns (convertFunc args body) m f m' →
  (Clean Γ f ↔ accepts .tail false (.lambda args body) = true)

theorem varName_not_reserved (n : Nat) : varName n ∉ reserved := by
  unfold reserved
  rw [List.mem_cons]
  rintro (same | builtin)
  · exact varName_ne (s := "builtin-call") (by decide) n same
  · exact varName_not_builtin n builtin

section names
variable {Γ : Symbol → Prop} {m m' k k' : Nat} {n : Node}

theorem SourceName.mono {x : Symbol} (h : SourceName m m' x) (le : m ≤ k) (le' : k' ≤ m') :
    SourceName k k' x := by
  rintro ⟨i, hi, hk, same⟩
  exact h ⟨i, by omega, by omega, same⟩

theorem over_mono (h : n.Over (SourceName m m')) (le : m ≤ k) (le' : k' ≤ m') :
    n.Over (SourceName k k') := fun y hy => SourceName.mono (h y hy) le le'

theorem sourceName_void : SourceName m m' "void" := by
  rintro ⟨i, _, _, same⟩
  exact varName_ne (s := "void") (by decide) i same.symm

theorem sourceName_varName {i : Nat} (h : i < m ∨ m' ≤ i) : SourceName m m' (varName i) := by
  rintro ⟨j, hj, hk, same⟩
  have := varName_injective same
  omega

theorem Source.mono (h : Source Γ m m' n) (le : m ≤ k) (le' : k' ≤ m') : Source Γ k k' n :=
  ⟨h.core, h.formed, h.plain, over_mono h.names le le'⟩

theorem Source.grow {Δ : Symbol → Prop} (h : Source Γ m m' n) (grow : ∀ y, Γ y → Δ y) :
    Source Δ m m' n := by
  obtain ⟨bound, formed, inScope⟩ := h.formed
  exact ⟨h.core, ⟨bound, formed, fun x hx => grow x (inScope x hx)⟩, h.plain, h.names⟩

theorem Source.within (h : Source Γ m m' n) (names : List Symbol) :
    Source (within Γ names) m m' n := h.grow fun _ => .inl

theorem Fresh.mono (h : Fresh Γ m m') (le : m ≤ k) (le' : k' ≤ m') : Fresh Γ k k' :=
  ⟨fun i hi hk => h.unused i (by omega) (by omega), h.plain⟩

theorem Fresh.within (h : Fresh Γ m m') {names : List Symbol}
    (source : ∀ x ∈ names, SourceName m m' x ∧ x ∉ reserved) :
    Fresh (within Γ names) m m' := by
  constructor
  · rintro i hi hk (hΓ | mem)
    · exact h.unused i hi hk hΓ
    · exact (source _ mem).1 ⟨i, hi, hk, rfl⟩
  · rintro s hs (hΓ | mem)
    · exact h.plain s hs hΓ
    · exact (source _ mem).2 hs

theorem Fresh.name (h : Fresh Γ m m') {i : Nat} (out : i < m ∨ m' ≤ i) :
    Fresh (Compiler.within Γ [varName i]) m m' := by
  refine h.within ?_
  simp only [List.mem_singleton, forall_eq]
  exact ⟨sourceName_varName out, varName_not_reserved i⟩

theorem within_append (a b : List Symbol) :
    within (within Γ a) b = within Γ (a ++ b) := by
  funext x
  simp [within, or_assoc]

end names

section contexts
variable {Γ : Symbol → Prop} {res : Option Node} {k : Nat}

theorem clean_name {i : Nat} : Clean Γ (.sym (varName i)) ↔ Γ (varName i) := by
  simp [Clean, varName_not_builtin]

theorem notOperator_name (i : Nat) : isOperator (.sym (varName i)) = false := by
  simpa [isOperator] using varName_not_operator i

theorem clean_set {x : Symbol} {v : Node} : Clean Γ (.set x v) ↔ Γ x ∧ Clean Γ v := Iff.rfl

theorem clean_lambda {args : Formals} {body : List Node} :
    Clean Γ (.lambda args body) ↔ CleanBody (within Γ args.names) body := Iff.rfl

theorem notBuiltinCall_name (i : Nat) : isBuiltinCall (.sym (varName i)) = false := by
  have other := varName_not_reserved i
  simp only [reserved, List.mem_cons, not_or] at other
  simpa [isBuiltinCall] using other.1

theorem clean_call {f : Node} {args : List Node} (notOp : isOperator f = false)
    (named : isBuiltinCall f = false) (some : args ≠ []) :
    Clean Γ (.app f args) ↔ Clean Γ f ∧ CleanAll Γ args := by
  simp [Clean, notOp, named, some]

theorem clean_cont (hres : ∀ r ∈ res, Body r) :
    Clean Γ (Cps.control res (varName k)) ↔ Rest Γ (varName k) res := by
  cases res with
  | none => exact clean_name
  | some r => simp [Cps.control, Clean, Formals.names, (hres r rfl).splice, Rest]

theorem clean_deliver (hres : ∀ r ∈ res, Body r) {n : Node} :
    CleanSplice Γ (deliver res (varName k) n) ↔
      resBegins res = false ∧ Rest Γ (varName k) res ∧ Clean Γ n := by
  cases res with
  | none =>
    rw [deliver, cleanSplice_notBegin rfl,
      clean_call (notOperator_name k) (notBuiltinCall_name k) (by simp), clean_name]
    simp [resBegins, Rest, CleanAll]
  | some r =>
    rw [deliver, cleanSplice_notBegin rfl, clean_call rfl rfl (by simp)]
    simp [Clean, Formals.names, (hres r rfl).single, resBegins, Rest, CleanAll, and_assoc]

theorem clean_joinExpr (hres : ∀ r ∈ res, Body r) {l : Nat} {p a b : Node} :
    CleanSplice Γ (joinExpr res (varName k) (varName l) (.ite p a b)) ↔
      resBegins res = false ∧ match res with
        | none => Clean Γ (.ite p a b)
        | some r => CleanSplice (within Γ [varName k]) r ∧
          Clean (within Γ [varName l]) (.ite p a b) := by
  cases res with
  | none =>
    rw [joinExpr, cleanSplice_notBegin rfl]
    simp [resBegins]
  | some r =>
    rw [joinExpr, cleanSplice_notBegin rfl, clean_call rfl rfl (by simp)]
    have body : Body (.ite p a b) := body_notBegin rfl (by simp)
    have whole : CleanBody (within Γ [varName l]) [.ite p a b] ↔
        Clean (within Γ [varName l]) (.ite p a b) := by
      rw [body.single, ← clean_iff]
    have one (x : Symbol) : Formals.names ⟨[x], none⟩ = [x] := rfl
    simp only [clean_lambda, one, whole, CleanAll, (hres r rfl).single, resBegins, and_true]
    tauto

theorem clean_setBody {x : Symbol} {val : Node} : CleanAll Γ (setBody x res (varName k) val) ↔
    Γ x ∧ Clean Γ val ∧ RestAfter Γ (varName k) res := by
  cases res with
  | none =>
    have void : Clean Γ (.sym "void") := .inr (by decide)
    have call : Clean Γ (.app (.sym "void") [.sym (varName k)]) ↔ Γ (varName k) := by
      rw [clean_call (by decide) (by decide) (by simp), CleanAll, clean_name]
      simp [void, CleanAll]
    simp only [setBody, CleanAll, clean_set, call, RestAfter, and_true, and_assoc]
  | some r => simp only [setBody, CleanAll, clean_set, RestAfter, CleanSplice, and_assoc]

end contexts

/-- The name that stands for an operand in the call, if the operand needs one. -/
def tempName (x larg : Node) : List Symbol :=
  if selfEval x || inlinable x then [] else [symbolOf larg]

def tempNames : List Node → List Node → List Symbol
  | x :: xs, larg :: largs => tempName x larg ++ tempNames xs largs
  | _, _ => []

/-- An operand whose value is passed through a name is accepted before what waits for it. -/
def glueOk (rb : Bool) (x : Node) : Bool := selfEval x || inlinable x || accepts .value rb x

def glueAll : List Node → Bool
  | [] => true
  | x :: xs => glueOk (argsStart xs) x && glueAll xs

section operands
variable {Γ Δ : Symbol → Prop} {m m' k k' i j : Nat} {x larg prev t : Node} {xs largs : List Node}

theorem convertArg_temp (ran : Returns (convertArg x) m larg m') {s : Symbol}
    (mem : s ∈ tempName x larg) : s = varName m ∧ larg = .sym (varName m) ∧ m' = m + 1 := by
  unfold tempName at mem
  split at mem
  · simp at mem
  · rename_i complex
    simp only [Bool.or_eq_true, not_or, Bool.not_eq_true] at complex
    rw [convertArg_eq, if_neg (by simp [complex.1])] at ran
    cases x with
    | lambda args body => simp [inlinable] at complex
    | _ =>
      simp only [returns_map, returns_genName] at ran
      obtain ⟨y, ⟨rfl, rfl⟩, rfl⟩ := ran
      exact ⟨by simpa [symbolOf] using mem, rfl, rfl⟩

theorem convertArgs_temps (ran : Returns (convertArgs xs) m largs m') {s : Symbol}
    (mem : s ∈ tempNames xs largs) : Generated m m' s := by
  induction xs generalizing largs m' with
  | nil => simp [tempNames] at mem
  | cons x xs ih =>
    rw [convertArgs_cons] at ran
    simp only [returns_bind, returns_pure] at ran
    obtain ⟨largs, n, first, larg, n', second, rfl, rfl⟩ := ran
    have le := convertArgs_rising (fun y _ => convert_rising y) _ _ _ first
    have le' := (convert_rising x).arg _ _ _ second
    simp only [tempNames, List.mem_append] at mem
    rcases mem with mem | mem
    · obtain ⟨rfl, _, rfl⟩ := convertArg_temp second mem
      exact ⟨n, le, by omega, rfl⟩
    · obtain ⟨i, hi, hn, same⟩ := ih first mem
      exact ⟨i, hi, by omega, same⟩

theorem Fresh.temps (h : Fresh Γ m m') {names : List Symbol}
    (out : ∀ s ∈ names, ∃ n n', Generated n n' s ∧ (n' ≤ m ∨ m' ≤ n)) :
    Fresh (Compiler.within Γ names) m m' := by
  refine h.within fun s hs => ?_
  obtain ⟨n, n', ⟨l, hl, hn, rfl⟩, away⟩ := out s hs
  exact ⟨sourceName_varName (by omega), varName_not_reserved l⟩

theorem glueArg_verdict (verdict : Verdict x) (arg : Returns (convertArg x) k larg k')
    (le : k' ≤ i) (glue : Returns (glueArg prev x larg) i t j)
    (source : selfEval x = false → Source Γ i j x) (args : Fresh Γ k k') (fresh : Fresh Γ i j)
    (body : Body prev) (names : prev.Over (SourceName i j))
    (need : ∀ s ∈ tempName x larg, ¬ CleanSplice Γ prev) :
    CleanSplice Γ t ↔ glueOk (isBegin prev) x = true ∧
      CleanSplice (within Γ (tempName x larg)) prev := by
  rw [glueArg_eq] at glue
  split at glue
  · rename_i simple
    rw [returns_pure] at glue
    simp [tempName, glueOk, simple, glue.1]
  · rename_i complex
    have temp : tempName x larg = [symbolOf larg] := by simp [tempName, complex]
    obtain ⟨same, here, rfl⟩ := convertArg_temp arg (s := symbolOf larg) (by simp [temp])
    rw [temp, same]
    rw [same] at glue
    simp only [Bool.or_eq_true, not_or, Bool.not_eq_true] at complex
    have waits : Waits Γ .value (varName k) i j prev :=
      ⟨body, names, by simp, args.unused k le_rfl (by omega),
        fun _ => need (symbolOf larg) (by simp [temp]), by simp⟩
    have := verdict .value (some prev) k i t j Γ (source complex.1) fresh (by omega) (by simp)
      (by simpa using waits) glue
    simpa [glueOk, complex, resBegins, Rest] using this

theorem glueArgs_verdict (verdict : ∀ x ∈ xs, Verdict x) (core : ∀ x ∈ xs, isCore x = true)
    {e : Node} (args : Returns (convertArgs xs) k largs k') (le : k' ≤ i)
    (glue : Returns (glueArgs e xs largs) i t j)
    (source : ∀ x ∈ xs, selfEval x = false → Source Γ k j x)
    (named : ∀ x ∈ xs, x.Over (SourceName k j))
    (freshArgs : Fresh Γ k k') (fresh : Fresh Γ i j) (body : Body e)
    (notBegin : isBegin e = false) (names : e.Over (SourceName i j))
    (need : ∀ s ∈ tempNames xs largs, ∀ Δ, ¬ Δ s → ¬ CleanSplice Δ e) :
    CleanSplice Γ t ↔ glueAll xs = true ∧ CleanSplice (within Γ (tempNames xs largs)) e := by
  induction xs generalizing largs k' t j Γ with
  | nil =>
    rw [glueArgs_nil, returns_pure] at glue
    simp [glueAll, tempNames, glue.1]
  | cons x xs ih =>
    rw [convertArgs_cons] at args
    simp only [returns_bind, returns_pure] at args
    obtain ⟨largs, n, first, larg, n', second, rfl, rfl⟩ := args
    rw [glueArgs_cons, returns_bind] at glue
    obtain ⟨prev, i₁, inner, outer⟩ := glue
    have rise := convertArgs_rising (fun y _ => convert_rising y) _ _ _ first
    have rise' := (convert_rising x).arg _ _ _ second
    have rise₁ := glueArgs_rising (fun y _ => convert_rising y) _ _ _ _ _ inner
    have rise₂ := (convert_rising x).glue _ _ _ _ _ outer
    have rest {Δ : Symbol → Prop} (grow : ∀ y, Γ y → Δ y) (fa : Fresh Δ k n) (fg : Fresh Δ i i₁) :=
      ih (Γ := Δ) (fun y hy => verdict y (by simp [hy])) (fun y hy => core y (by simp [hy])) first
        (by omega) inner
        (fun y hy complex => ((source y (by simp [hy]) complex).grow grow).mono le_rfl rise₂)
        (fun y hy => over_mono (named y (by simp [hy])) le_rfl rise₂) fa fg
        (over_mono names le_rfl rise₂)
        (fun s hs => need s (by simp [tempNames, hs]))
    obtain ⟨hprev, begins⟩ := glueArgs_shape
      (fun y hy => convert_shape y (core y (by simp [hy]))) body notBegin first inner
    have prevNames : prev.Over (SourceName i₁ j) := by
      have later (a : Nat) (h : a < i₁) : SourceName i₁ j (varName a) :=
        sourceName_varName (.inl h)
      have largsOver := convertArgs_names (fun y _ => convert_names sourceName_void y)
        (fun y hy => over_mono (named y (by simp [hy])) (by omega) le_rfl) _ _ _ first
        fun a _ h => later a (by omega)
      exact glueArgs_names (fun y _ => convert_names sourceName_void y)
        (fun y hy => over_mono (named y (by simp [hy])) (by omega) le_rfl)
        (over_mono names (by omega) le_rfl) largsOver _ _ _ inner fun a _ h => later a h
    have temp {s : Symbol} (hs : s ∈ tempName x larg) : s = varName n ∧ n' = n + 1 :=
      ⟨(convertArg_temp second hs).1, (convertArg_temp second hs).2.2⟩
    have step := glueArg_verdict (verdict x (by simp)) second (le.trans rise₁) outer
      (fun complex => (source x (by simp) complex).mono (by omega) le_rfl)
      (freshArgs.mono rise le_rfl) (fresh.mono rise₁ le_rfl) hprev prevNames
      (fun s hs clean => by
        obtain ⟨rfl, rfl⟩ := temp hs
        have := (rest (fun _ h => h) (freshArgs.mono le_rfl rise') (fresh.mono le_rfl rise₂)).mp
          clean
        refine need (varName n) (by simp [tempNames, hs]) _ ?_ this.2
        rintro (bound | mem)
        · exact freshArgs.unused n rise (by omega) bound
        · obtain ⟨a, _, lt, same⟩ := convertArgs_temps first mem
          have := varName_injective same
          omega)
    have away (a b : Nat) (h : n' ≤ a ∨ b ≤ n) : ∀ s ∈ tempName x larg,
        ∃ c c', Generated c c' s ∧ (c' ≤ a ∨ b ≤ c) := by
      intro s hs
      obtain ⟨rfl, rfl⟩ := temp hs
      exact ⟨n, n + 1, ⟨n, le_rfl, by omega, rfl⟩, h⟩
    rw [step, rest (fun _ h => .inl h)
      ((freshArgs.mono le_rfl rise').temps (away k n (.inr le_rfl)))
      ((fresh.mono le_rfl rise₂).temps (away i i₁ (.inl le)))]
    simp only [glueAll, tempNames, within_append, begins, Bool.and_eq_true, and_assoc]

/-- The operands of an operation stand as its instruction needs them. -/
structure Fits (f : Node) (args : List Node) : Prop where
  typed : isTypeTest f = true → ∃ type x, args = [.sym type, x] ∧ type ∈ typeTests
  count : isTypeTest f = false → args.length = 1 ∨ args.length = 2

/-- The operands that are compiled. -/
def operandsOf (f : Node) (args : List Node) : List Node :=
  if isTypeTest f then args.tail else args

theorem typeTest_operator {f : Node} (h : isTypeTest f = true) : isOperator f = true := by
  cases f with
  | sym s =>
    simp only [isTypeTest, beq_iff_eq] at h
    subst h
    decide
  | _ => simp [isTypeTest] at h

theorem operandsOf_call {f : Node} (notOp : isOperator f = false) (args : List Node) :
    operandsOf f args = args := by
  unfold operandsOf
  rw [if_neg]
  intro h
  simp [typeTest_operator h] at notOp

theorem clean_operation {f : Node} {args : List Node} (op : isOperator f = true)
    (fits : Fits f args) : Clean Γ (.app f args) ↔ ∀ x ∈ operandsOf f args, Clean Γ x := by
  unfold operandsOf
  rw [Clean, if_pos op]
  cases typed : isTypeTest f with
  | true =>
    obtain ⟨type, x, rfl, mem⟩ := fits.typed typed
    simp [namesType, mem, CleanOperands]
  | false =>
    rcases fits.count typed with one | two
    · obtain ⟨x, rfl⟩ := List.length_eq_one_iff.mp one
      simp [CleanOperands]
    · obtain ⟨x, y, rfl⟩ := List.length_eq_two.mp two
      simp [CleanOperands]

theorem wellFormed_app {bound : List Symbol} {f : Node} {args : List Node}
    (h : wellFormed bound (.app f args) = true) :
    (isOperator f = true → Fits f args) ∧ (isOperator f = false → wellFormed bound f = true) ∧
      ∀ x ∈ operandsOf f args, wellFormed bound x = true := by
  rw [wellFormed] at h
  unfold operandsOf
  cases op : isOperator f with
  | true =>
    rw [if_pos op] at h
    cases typed : isTypeTest f with
    | true =>
      rw [if_pos typed] at h
      match args with
      | [.sym type, x] =>
        simp only [wellFormedTest, isTypeName, Bool.and_eq_true, List.contains_eq_mem,
          decide_eq_true_eq] at h
        exact ⟨fun _ => ⟨fun _ => ⟨type, x, rfl, h.1⟩, by simp [typed]⟩, by simp, by simpa using h.2⟩
      | [.const _, _] | [.quote _, _] | [.lambda _ _, _] | [.ite _ _ _, _] | [.set _ _, _]
      | [.define _ _, _] | [.begin _, _] | [.extend _, _] | [.app _ _, _] =>
        simp [wellFormedTest, isTypeName] at h
      | [] | [_] | _ :: _ :: _ :: _ => simp [wellFormedTest] at h
    | false =>
      simp only [typed, Bool.false_eq_true, if_false, Bool.and_eq_true, Bool.or_eq_true,
        beq_iff_eq, wellFormedAll_iff] at h
      exact ⟨fun _ => ⟨by simp [typed], fun _ => h.1⟩, by simp, by simpa using h.2⟩
  | false =>
    have typed : isTypeTest f = false := by
      rw [← Bool.not_eq_true]
      intro h
      simp [typeTest_operator h] at op
    simp only [op, Bool.false_eq_true, if_false, Bool.and_eq_true, wellFormedAll_iff] at h
    exact ⟨by simp, fun _ => h.1, by simpa [typed] using h.2⟩

theorem clean_selfEval {bound : List Symbol} {n : Node} (simple : selfEval n = true)
    (formed : wellFormed bound n = true) (inScope : ∀ x ∈ bound, Γ x) : Clean Γ n := by
  induction n with
  | const d => exact formed
  | quote d => trivial
  | sym s =>
    simp only [wellFormed, Bool.or_eq_true, List.contains_eq_mem, decide_eq_true_eq] at formed
    exact formed.imp (inScope s) id
  | app f args _ ih =>
    simp only [selfEval, Bool.and_eq_true, simpleOperation_iff] at simple
    obtain ⟨fits, _, operands⟩ := wellFormed_app formed
    rw [clean_operation simple.1 (fits simple.1)]
    intro x hx
    have mem : x ∈ args := by
      unfold operandsOf at hx
      split at hx
      · exact List.mem_of_mem_tail hx
      · exact hx
    exact ih x mem (simple.2 x mem) (operands x hx)
  | _ => simp [selfEval] at simple

/-- The function verdict of every lambda expression among the operands. -/
def FuncsOf (x : Node) : Prop := ∀ args body, x = .lambda args body → FuncVerdict args body

theorem convertArg_clean (func : FuncsOf x) (arg : Returns (convertArg x) k larg k')
    (source : Source Δ k k' x) (plain : ∀ s ∈ reserved, ¬ Δ s)
    (temps : ∀ s ∈ tempName x larg, Δ s)
    (only : ∀ i, k ≤ i → i < k' → Δ (varName i) → varName i ∈ tempName x larg) :
    Clean Δ larg ↔ (inlinable x = true → accepts .tail false x = true) := by
  rw [convertArg_eq] at arg
  split at arg
  · rename_i simple
    rw [returns_pure] at arg
    obtain ⟨rfl, rfl⟩ := arg
    obtain ⟨bound, formed, inScope⟩ := source.formed
    have clean := clean_selfEval simple formed inScope
    cases x <;> simp [selfEval, inlinable] at simple ⊢ <;> exact clean
  · rename_i complex
    cases x with
    | lambda args body =>
      simp only [inlinable, forall_const]
      refine func args body rfl k larg k' Δ source ⟨fun i hi hk bound => ?_, plain⟩ arg
      simpa [tempName, inlinable] using only i hi hk bound
    | _ =>
      simp only [returns_map, returns_genName] at arg
      obtain ⟨y, ⟨rfl, rfl⟩, rfl⟩ := arg
      have bound := temps (varName k) (by simp [tempName, complex, inlinable, symbolOf])
      simp [clean_name, bound, inlinable]

theorem convertArgs_clean (func : ∀ x ∈ xs, FuncsOf x)
    (args : Returns (convertArgs xs) k largs k') (plain : ∀ s ∈ reserved, ¬ Δ s)
    (temps : ∀ s ∈ tempNames xs largs, Δ s)
    (only : ∀ i, k ≤ i → i < k' → Δ (varName i) → varName i ∈ tempNames xs largs) :
    List.Forall₂ (fun x larg => Source Δ k k' x →
      (Clean Δ larg ↔ (inlinable x = true → accepts .tail false x = true))) xs largs := by
  induction xs generalizing largs k' with
  | nil =>
    rw [convertArgs_nil, returns_pure] at args
    exact args.1 ▸ .nil
  | cons x xs ih =>
    rw [convertArgs_cons] at args
    simp only [returns_bind, returns_pure] at args
    obtain ⟨largs, n, first, larg, n', second, rfl, rfl⟩ := args
    have rise := convertArgs_rising (fun y _ => convert_rising y) _ _ _ first
    have rise' := (convert_rising x).arg _ _ _ second
    have rest := ih (fun y hy => func y (by simp [hy])) first
      (fun s hs => temps s (by simp [tempNames, hs])) fun i hi hn bound => by
        rcases List.mem_append.mp (only i hi (by omega) bound) with mem | mem
        · have := varName_injective (convertArg_temp second mem).1
          omega
        · exact mem
    refine .cons (fun source => ?_) (rest.imp fun y ly h source => h (source.mono le_rfl rise'))
    refine convertArg_clean (func x (by simp)) second (source.mono rise le_rfl) plain
      (fun s hs => temps s (by simp [tempNames, hs])) fun i hi hn bound => ?_
    rcases List.mem_append.mp (only i (by omega) hn bound) with mem | mem
    · exact mem
    · obtain ⟨j, _, lt, same⟩ := convertArgs_temps first mem
      have := varName_injective same
      omega

end operands

section sequences
variable {Γ : Symbol → Prop} {res : Option Node} {pos : Position} {m m' k : Nat} {t v : Node}
  {x : Symbol} {xs : List Node}

theorem cleanSplice_within {r : Node} {names : List Symbol} (h : r.Over (· ∉ names)) :
    CleanSplice (within Γ names) r ↔ CleanSplice Γ r := by
  refine cleanSplice_congr fun y hy => ?_
  simp [within, h y hy]

theorem over_notName {r : Node} {i : Nat} (h : r.Over (SourceName m m')) (le : m ≤ i)
    (lt : i < m') : r.Over (· ≠ varName i) := by
  intro y hy same
  exact h y hy ⟨i, le, lt, same⟩

theorem Source.clean {n : Node} (h : Source Γ m m' n) (simple : selfEval n = true) :
    Clean Γ n := by
  obtain ⟨bound, formed, inScope⟩ := h.formed
  exact clean_selfEval simple formed inScope

theorem verdict_simple {n : Node} (simple : selfEval n = true) : Verdict n := by
  intro pos res k m t m' Γ source _ _ _ waits ran
  rw [convert_selfEval _ _ simple, returns_pure] at ran
  rw [← ran.1, clean_deliver fun r hr => (waits r hr).body, accepts_selfEval simple]
  simp [source.clean simple]

theorem clean_begin_setBody {name : Symbol} {val : Node} :
    CleanSplice Γ (.begin (setBody x res name val)) ↔ CleanAll Γ (setBody x res name val) := by
  rw [CleanSplice, splice_setBody]

theorem clean_setter (setter nv : Symbol) (term : Node) (forms : List Node)
    (hterm : Body term) (some : forms ≠ []) (noExtend : ∀ names, .extend names ∉ forms) :
    CleanSplice Γ (.app (.lambda ⟨[setter], none⟩ [term]) [.lambda ⟨[nv], none⟩ forms]) ↔
      isBegin term = false ∧ CleanSplice (within Γ [setter]) term ∧
        CleanAll (within Γ [nv]) forms := by
  rw [cleanSplice_notBegin rfl, clean_call rfl rfl (by simp), clean_lambda]
  simp only [CleanAll, clean_lambda, and_true, cleanBody_noExtend some noExtend]
  have one (y : Symbol) : Formals.names ⟨[y], none⟩ = [y] := rfl
  rw [one, one, hterm.single, and_assoc]

theorem setBody_noExtend (hres : ∀ r ∈ res, Body r) (name : Symbol) (val : Node)
    (names : List Symbol) : .extend names ∉ setBody x res name val := by
  rw [← splice_setBody]
  exact (body_setBody hres x val).noExtend names

theorem restAfter_within (lt : k < m) (hres : ∀ r ∈ res, r.Over (SourceName m m')) {i : Nat}
    (le : m ≤ i) (lt' : i < m') :
    RestAfter (within Γ [varName i]) (varName k) res ↔ RestAfter Γ (varName k) res := by
  cases res with
  | none =>
    have : k ≠ i := by omega
    simp [RestAfter, within, this]
  | some r =>
    refine cleanSplice_within fun y hy => ?_
    simpa using over_notName (hres r rfl) le lt' y hy

theorem convertSet_clean (verdict : Verdict v) (func : FuncsOf v)
    (ran : Returns (convertSet res x v (varName k)) m t m') (source : Source Γ m m' v)
    (fresh : Fresh Γ m m') (lt : k < m) (target : SourceName m m' x)
    (hres : ∀ r ∈ res, Body r ∧ r.Over (SourceName m m')) :
    CleanSplice Γ t ↔ Γ x ∧ (accepts .tail false v = true ∧ startsWithSet v = false) ∧
      RestAfter Γ (varName k) res := by
  by_cases simple : selfEval v = true
  · rw [convertSet_eq, if_pos simple, returns_pure] at ran
    rw [← ran.1, clean_begin_setBody, clean_setBody]
    simp [source.clean simple, accepts_selfEval simple, startsWithSet_selfEval simple]
  · cases lam : inlinable v with
    | true =>
      cases v <;> simp [inlinable] at lam
      rename_i args body
      rw [convertSet_eq, if_neg simple] at ran
      simp only [returns_bind, returns_pure] at ran
      obtain ⟨f, _, inner, rfl, rfl⟩ := ran
      rw [clean_begin_setBody, clean_setBody, func args body rfl _ _ _ _ source fresh inner]
      simp [startsWithSet]
    | false =>
      rw [convertSet_complex _ _ _ (by simpa using simple) lam] at ran
      simp only [returns_bind, returns_genName, returns_pure] at ran
      obtain ⟨_, _, ⟨rfl, rfl⟩, _, _, ⟨rfl, rfl⟩, term, _, inner, rfl, rfl⟩ := ran
      have le := convert_rising _ _ _ _ _ _ inner
      have shape := convert_shape _ source.core none _ _ _ _ (by simp) inner
      have value := verdict .tail none m (m + 1 + 1) term _ (within Γ [varName m])
        ((source.mono (by omega) le_rfl).within _)
        ((fresh.mono (by omega) le_rfl).name (.inl (by omega))) (by omega) (by simp) (by simp) inner
      have bound : Rest (within Γ [varName m]) (varName m) none := .inr (by simp)
      have other : within Γ [varName (m + 1)] x ↔ Γ x := by
        have : x ≠ varName (m + 1) := fun same => target ⟨m + 1, by omega, by omega, same⟩
        simp [within, this]
      have held : within Γ [varName (m + 1)] (varName (m + 1)) := .inr (by simp)
      rw [clean_setter _ _ _ _ shape.1 (by simp [setBody])
        (setBody_noExtend (fun r hr => (hres r hr).1) _ _), shape.2, value, clean_setBody, clean_name,
        other, restAfter_within lt (fun r hr => (hres r hr).2) (by omega) (by omega)]
      simp only [resBegins, bound, held, and_true, true_and]
      constructor
      · intro clean
        obtain ⟨hs, ha, hx, hr⟩ := clean
        exact ⟨hx, ⟨ha, hs⟩, hr⟩
      · intro accepted
        obtain ⟨hx, ⟨ha, hs⟩, hr⟩ := accepted
        exact ⟨hs, ha, hx, hr⟩

theorem seqLoop_verdict (verdict : ∀ x ∈ xs, Verdict x) {frst : Node} {o : Option Node}
    (ran : Returns (seqLoop res frst (varName k) xs) m o m') (source : ∀ x ∈ xs, Source Γ m m' x)
    (fresh : Fresh Γ m m') (lt : k < m) (tail : res = none → pos = .tail)
    (waits : ∀ r ∈ res, Waits Γ pos (varName k) m m' r) (some : xs ≠ []) :
    ∃ t, o = .some t ∧ (CleanSplice Γ t ↔
      acceptsSeq pos (resBegins res) frst xs = true ∧ Rest Γ (varName k) res) := by
  induction xs generalizing m' o with
  | nil => exact absurd rfl some
  | cons x xs ih =>
    rw [seqLoop_cons] at ran
    simp only [returns_bind] at ran
    obtain ⟨prev, n, first, second⟩ := ran
    have shaped (y : Node) (hy : y ∈ x :: xs) := convert_shape y (source y hy).core
    have le : m ≤ n := seqLoop_rising (fun y _ => convert_rising y) _ _ _ _ _ _ first
    have rest (le' : n ≤ m') (more : xs ≠ []) := ih (fun y hy => verdict y (by simp [hy])) first
      (fun y hy => (source y (by simp [hy])).mono le_rfl le') (fresh.mono le_rfl le')
      (fun r hr => ⟨(waits r hr).body, over_mono (waits r hr).names le_rfl le', (waits r hr).notTail,
        (waits r hr).unbound, (waits r hr).value, (waits r hr).effect⟩) more
    rw [acceptsSeq]
    split at second
    · rename_i simple
      rw [returns_pure] at second
      obtain ⟨rfl, rfl⟩ := second
      rw [if_pos simple]
      cases last : xs.isEmpty || eqObject x frst with
      | true =>
        -- the form goes to `name`, which only a continuation is
        refine ⟨_, rfl, ?_⟩
        rw [cleanSplice_notBegin rfl,
          clean_call (notOperator_name k) (notBuiltinCall_name k) (by simp), clean_name, CleanAll]
        simp only [(source x (by simp)).clean simple, CleanAll, and_true, if_true, beq_iff_eq]
        cases res with
        | none => simp [tail rfl, Rest]
        | some r => simp [(waits r rfl).unbound, (waits r rfl).notTail]
      | false =>
        simp only [Bool.or_eq_false_iff, List.isEmpty_eq_false_iff] at last
        simpa using rest le_rfl last.1
    · rename_i complex
      have notLast : eqObject x frst = false := by
        rw [← Bool.not_eq_true]
        exact fun same => complex (eqObject_simple same).1
      rw [if_neg complex]
      simp only [returns_bind, returns_map, notLast, Bool.or_false] at second
      obtain ⟨value, n', named, t, ran, rfl⟩ := second
      refine ⟨t, rfl, ?_⟩
      have here := source x (by simp)
      have rise := convert_rising x _ _ _ _ _ ran
      cases more : xs.isEmpty with
      | true =>
        rw [List.isEmpty_iff] at more
        subst more
        rw [seqLoop_nil, returns_pure] at first
        obtain ⟨rfl, rfl⟩ := first
        simp only [List.isEmpty_nil, seqName, if_true, returns_pure] at named
        obtain ⟨rfl, rfl⟩ := named
        exact verdict x (by simp) pos _ k _ t _ Γ here fresh lt tail waits ran
      | false =>
        simp only [more, seqName, Bool.false_eq_true, if_false, returns_genName] at named
        obtain ⟨rfl, rfl⟩ := named
        rw [List.isEmpty_eq_false_iff] at more
        obtain ⟨p, rfl, later⟩ := rest (by omega) more
        obtain ⟨_, same, body, begins⟩ := seqLoop_shape (fun y hy => shaped y (by simp [hy]))
          (fun r hr => (waits r hr).body) more first
        cases same
        have names : p.Over (SourceName n m') :=
          seqLoop_names (fun y _ => convert_names sourceName_void y)
            (fun y hy => over_mono (source y (by simp [hy])).names le le_rfl) frst
            (fun r hr => over_mono (waits r hr).names le le_rfl) (sourceName_varName (.inl (by omega)))
            _ _ _ first (fun i _ h => sourceName_varName (.inl h)) p rfl
        have waitsHere : Waits Γ .effect (varName n) (n + 1) m' p :=
          ⟨body, over_mono names (by omega) le_rfl, by simp, fresh.unused n le (by omega), by simp,
            fun _ => over_notName names le_rfl (by omega)⟩
        have step := verdict x (by simp) .effect (.some p) n (n + 1) t m' Γ
          (here.mono (by omega) le_rfl) (fresh.mono (by omega) le_rfl) (by omega) (by simp)
          (by simpa using waitsHere) ran
        have same : Rest Γ (varName n) (.some p) ↔ CleanSplice Γ p :=
          cleanSplice_within fun y hy => by simpa using waitsHere.effect rfl y hy
        rw [step, same, later, resBegins, begins]
        simp [and_assoc]

theorem convertDefines_clean (verdict : ∀ y v, .define y v ∈ xs → Verdict v ∧ FuncsOf v)
    {rest : Node} {o : Option Node}
    (ran : Returns (convertDefines (some rest) xs) m o m') (defines : ∀ x ∈ xs, isDefine x = true)
    (source : ∀ y v, .define y v ∈ xs → Γ y ∧ SourceName m m' y ∧ Source Γ m m' v)
    (fresh : Fresh Γ m m') (body : Body rest) (names : rest.Over (SourceName m m')) :
    ∃ t, o = some t ∧ Body t ∧
      (CleanSplice Γ t ↔ (∀ x ∈ xs, accepts .tail false x = true) ∧ CleanSplice Γ rest) := by
  induction xs generalizing m' o with
  | nil =>
    rw [convertDefines_nil, returns_pure] at ran
    exact ⟨rest, ran.1.symm, body, by simp⟩
  | cons x xs ih =>
    have isDef := defines x (by simp)
    cases x with
    | define y v =>
      obtain ⟨bound, target, here⟩ := source y v (by simp)
      rw [convertDefines_cons] at ran
      simp only [returns_bind, returns_genName, returns_map] at ran
      obtain ⟨prev, n, first, _, _, ⟨rfl, rfl⟩, t, set, rfl⟩ := ran
      have le : m ≤ n := convertDefines_rising (fun _ v _ => convert_rising v) _ _ _ _ first
      have le' := (convert_rising v).set _ _ _ _ _ _ set
      obtain ⟨p, rfl, hp, later⟩ := ih (fun z w hw => verdict z w (by simp [hw])) first
        (fun z hz => defines z (by simp [hz]))
        (fun z w hw => by
          obtain ⟨bound, name, src⟩ := source z w (by simp [hw])
          exact ⟨bound, SourceName.mono name le_rfl (by omega), src.mono le_rfl (by omega)⟩)
        (fresh.mono le_rfl (by omega)) (over_mono names le_rfl (by omega))
      have named : p.Over (SourceName (n + 1) m') := by
        refine convertDefines_names (fun _ w _ => convert_names sourceName_void w) (fun z hz => ?_)
          sourceName_void (fun r hr => ?_) _ _ _ first
          (fun i _ h => sourceName_varName (.inl (by omega))) p rfl
        · cases z with
          | define a w =>
            obtain ⟨_, name, src⟩ := source a w (by simp [hz])
            rw [over_define]
            exact ⟨SourceName.mono name (by omega) le_rfl, over_mono src.names (by omega) le_rfl⟩
          | _ => exact absurd (defines _ (List.mem_cons_of_mem _ hz)) (by simp [isDefine])
        · cases hr
          exact over_mono names (by omega) le_rfl
      have step := convertSet_clean (verdict y v (by simp)).1 (verdict y v (by simp)).2 set
        (here.mono (by omega) le_rfl) (fresh.mono (by omega) le_rfl) (by omega)
        (SourceName.mono target (by omega) le_rfl) (by simpa using ⟨hp, named⟩)
      refine ⟨t, rfl, (convertSet_shape (by simpa using hp) set).1, ?_⟩
      rw [step, RestAfter, later]
      simp only [bound, true_and, List.mem_cons, forall_eq_or_imp, and_assoc]
      simp [accepts, and_assoc]
    | _ => simp [isDefine] at isDef

theorem acceptsSeq_defines {rb : Bool} {frst : Node} {ds : List Node} (some : xs ≠ [])
    (defines : ∀ d ∈ ds, isDefine d = true) : acceptsSeq pos rb frst (ds ++ xs) = true ↔
      (∀ d ∈ ds, accepts .tail false d = true) ∧ acceptsSeq pos rb frst xs = true := by
  induction ds with
  | nil => simp
  | cons d ds ih =>
    have isDef := defines d (by simp)
    have more : (ds ++ xs).isEmpty = false := by simp [some]
    cases d with
    | define y v =>
      rw [List.cons_append, acceptsSeq, if_neg (by simp [selfEval]), more]
      simp only [Bool.false_eq_true, if_false, Bool.and_eq_true, List.mem_cons, forall_eq_or_imp,
        ih fun z hz => defines z (by simp [hz]), and_assoc]
      exact Iff.rfl
    | _ => simp [isDefine] at isDef

theorem clean_function {names ds : List Symbol} {rest : Option Symbol} {term : Node}
    (h : Body term) :
    Clean Γ (.lambda ⟨names, rest⟩ (spliceBegin (extendForm ds ++ [term]))) ↔
      CleanSplice (within (within Γ (names ++ rest.toList)) ds) term := by
  rw [spliceBegin_append, clean_lambda, Formals.names]
  cases ds with
  | nil => simpa [extendForm, spliceBegin] using h.splice
  | cons d ds => rfl

theorem inner_scope {body : List Node} {args : Formals} {name : Symbol} {bound : List Symbol}
    (inScope : ∀ y ∈ bound, Γ y) :
    ∀ y ∈ (definesOf body).map defineName ++ args.names ++ bound,
      within (within Γ (name :: args.names)) ((definesOf body).map defineName) y := by
  intro y hy
  simp only [List.mem_append] at hy
  rcases hy with (hy | hy) | hy
  · exact .inr hy
  · exact .inl (.inr (by simp [hy]))
  · exact .inl (.inl (inScope y hy))

theorem plain_notReserved {y : Symbol} (h : plainName y = true) : y ∉ reserved := by
  simp only [plainName, Bool.not_eq_true', Bool.or_eq_false_iff, List.contains_eq_mem,
    decide_eq_false_iff_not] at h
  simp only [reserved, List.mem_cons, not_or]
  refine ⟨?_, h.1.1⟩
  rintro rfl
  exact h.2 (by decide)

theorem convertFunc_verdict {args : Formals} {body : List Node}
    (verdict : ∀ x ∈ body, Verdict x)
    (values : ∀ y v, .define y v ∈ body → Verdict v ∧ FuncsOf v) : FuncVerdict args body := by
  intro m f m' Γ source fresh ran
  have parts := isCoreBody_parts (by simpa [isCore] using source.core)
  obtain ⟨bound, formed, inScope⟩ := source.formed
  rw [wellFormed, wellFormedAll_iff] at formed
  have names := over_lambda.mp source.names
  have plain := source.plain
  simp only [binders] at plain
  rw [convertFunc_eq] at ran
  simp only [returns_bind, returns_genName, returns_pure] at ran
  obtain ⟨_, _, ⟨rfl, rfl⟩, body', _, conv, rfl, rfl⟩ := ran
  rw [convertBody_eq, if_neg (by simpa using parts.some)] at conv
  simp only [returns_bind, returns_pure] at conv
  obtain ⟨rest, n, seq, term, n', defs, rfl, rfl⟩ := conv
  have rising (o : Option Node) : Rising (convertDefines o (definesOf body)) :=
    convertDefines_rising (fun _ v _ => convert_rising v) o
  have le : m + 1 ≤ n := convertSeq_rising (fun x _ => convert_rising x) _ _ _ _ _ seq
  have le' := rising _ _ _ _ defs
  -- the variables in scope of the body
  let ds := (definesOf body).map defineName
  let Δ := within (within Γ (varName m :: args.names)) ds
  have binder (y : Symbol) (hy : y ∈ args.names ++ ds) : SourceName m n' y ∧ y ∉ reserved := by
    rcases List.mem_append.mp hy with hy | hy
    · exact ⟨names.1 y hy, plain_notReserved (plain y (by simp [hy]))⟩
    · obtain ⟨d, hd, rfl⟩ := List.mem_map.mp hy
      obtain ⟨y, v, rfl, _⟩ := parts.defines d hd
      have mem : Node.define y v ∈ body := List.mem_of_mem_filter hd
      refine ⟨(over_define.mp (names.2 _ mem)).1, plain_notReserved (plain y ?_)⟩
      simp only [List.mem_append, mem_bindersAll]
      exact .inr ⟨_, mem, by simp [binders]⟩
  have freshΔ : Fresh Δ (m + 1) n' := by
    refine ((fresh.mono (by omega) le_rfl).within fun y hy => ?_).within fun y hy => ?_
    · rcases List.mem_cons.mp hy with rfl | hy
      · exact ⟨sourceName_varName (.inl (by omega)), varName_not_reserved m⟩
      · exact (binder y (by simp [hy])).imp (SourceName.mono · (by omega) le_rfl) id
    · exact (binder y (by simp [hy])).imp (SourceName.mono · (by omega) le_rfl) id
  have inner (x : Node) (hx : x ∈ body) (core : isCore x = true) : Source Δ (m + 1) n' x := by
    refine ⟨core, ⟨_, formed x hx, inner_scope inScope⟩, fun y hy => plain y ?_,
      over_mono (names.2 x hx) (by omega) le_rfl⟩
    simp only [List.mem_append, mem_bindersAll]
    exact .inr ⟨x, hx, hy⟩
  have exprs (x : Node) (hx : x ∈ expressionsOf body) : Source Δ (m + 1) n' x :=
    inner x (List.mem_of_mem_filter hx) (parts.exprs x hx)
  have bound : Rest Δ (varName m) none := .inl (.inr (by simp))
  obtain ⟨last, hlast⟩ : ∃ e, (expressionsOf body).getLast? = some e := by
    cases h : (expressionsOf body).getLast? with
    | none => exact absurd (List.getLast?_eq_none_iff.mp h) parts.some
    | some e => exact ⟨e, rfl⟩
  have seq' : Returns (seqLoop none last (varName m) (expressionsOf body)) (m + 1) rest n := by
    cases same : expressionsOf body with
    | nil => exact absurd same parts.some
    | cons x xs =>
      rw [same, convertSeq_cons] at seq
      rw [same, List.getLast?_eq_some_getLast (by simp)] at hlast
      cases hlast
      exact seq
  obtain ⟨r, rfl, later⟩ := seqLoop_verdict
    (fun x hx => verdict x (List.mem_of_mem_filter hx)) seq'
    (fun x hx => (exprs x hx).mono le_rfl le') (freshΔ.mono le_rfl le') (by omega) (fun _ => rfl)
    (by simp) parts.some
  obtain ⟨_, same, hr, _⟩ := seqLoop_shape (fun x hx => convert_shape x (parts.exprs x hx))
    (by simp) parts.some seq'
  cases same
  have named : r.Over (SourceName n n') :=
    seqLoop_names (fun y _ => convert_names sourceName_void y)
      (fun x hx => over_mono (exprs x hx).names le le_rfl) last (by simp)
      (sourceName_varName (.inl (by omega))) _ _ _ seq'
      (fun i _ h => sourceName_varName (.inl h)) r rfl
  obtain ⟨t, rfl, ht, defined⟩ := convertDefines_clean
    (fun y v hv => values y v (List.mem_of_mem_filter hv)) defs
    (fun x hx => (List.mem_filter.mp hx).2)
    (fun y v hv => by
      have mem : Node.define y v ∈ body := List.mem_of_mem_filter hv
      obtain ⟨_, _, same, core⟩ := parts.defines _ hv
      cases same
      have known : y ∈ ds := List.mem_map.mpr ⟨_, hv, rfl⟩
      refine ⟨.inr known, SourceName.mono (binder y (by simp [known])).1 (by omega) le_rfl, core,
        ⟨_, by simpa [wellFormed] using formed _ mem, inner_scope inScope⟩, fun z hz => plain z ?_,
        over_mono (over_define.mp (names.2 _ mem)).2 (by omega) le_rfl⟩
      simp only [List.mem_append, mem_bindersAll]
      exact .inr ⟨_, mem, by simp [binders, hz]⟩)
    (freshΔ.mono le le_rfl) hr named
  rw [Option.toList_some, clean_function ht, accepts]
  have lastOf : body.getLastD (.const .null) = last := by
    rw [parts.split, List.getLastD_eq_getLast?, List.getLast?_append, hlast]
    rfl
  rw [lastOf]
  conv_rhs => rw [parts.split]
  have split : acceptsSeq .tail false last (definesOf body ++ expressionsOf body) = true ↔
      (∀ d ∈ definesOf body, accepts .tail false d = true) ∧
        acceptsSeq .tail false last (expressionsOf body) = true :=
    acceptsSeq_defines parts.some fun x hx => (List.mem_filter.mp hx).2
  simp only [Bool.not_false, Bool.true_and, split]
  refine defined.trans (and_congr_right fun _ => later.trans ?_)
  simp only [bound, and_true]
  exact Iff.rfl

end sequences

section verdicts
variable {Γ Δ : Symbol → Prop} {res : Option Node} {pos : Position} {m m' k : Nat}
  {a b f p t x : Node} {args xs : List Node}

theorem rest_within (lt : k < m) (hres : ∀ r ∈ res, r.Over (SourceName m m'))
    {temps : List Symbol} (gen : ∀ s ∈ temps, Generated m m' s) :
    Rest (within Γ temps) (varName k) res ↔ Rest Γ (varName k) res := by
  cases res with
  | none =>
    have : varName k ∉ temps := fun mem => sourceName_varName (.inl lt) (gen _ mem)
    simp [Rest, within, this]
  | some r =>
    refine cleanSplice_congr fun y hy => ?_
    have : y ∉ temps := fun mem => hres r rfl y hy (gen y mem)
    simp [within, this]

theorem branch_verdict (verdict : Verdict a) {a' : Node}
    (ran : Returns (convert none a (varName k)) m a' m') (source : Source Δ m m' a)
    (fresh : Fresh Δ m m') (lt : k < m) :
    Clean Δ a' ↔ (accepts .tail false a = true ∧ startsWithSet a = false) ∧ Δ (varName k) := by
  have shape := convert_shape a source.core _ _ _ _ _ (by simp) ran
  rw [clean_iff, shape.2, verdict .tail none k m a' m' Δ source fresh lt (by simp) (by simp) ran]
  simp only [resBegins, Rest]
  tauto

theorem Source.ite (h : Source Γ m m' (.ite p a b)) :
    Source Γ m m' p ∧ Source Γ m m' a ∧ Source Γ m m' b := by
  obtain ⟨core, ⟨bound, formed, inScope⟩, plain, names⟩ := h
  simp only [isCore, Bool.and_eq_true] at core
  simp only [wellFormed, Bool.and_eq_true] at formed
  simp only [binders] at plain
  rw [over_ite] at names
  exact ⟨⟨core.1.1, ⟨bound, formed.1.1, inScope⟩, fun y hy => plain y (by simp [hy]), names.1⟩,
    ⟨core.1.2, ⟨bound, formed.1.2, inScope⟩, fun y hy => plain y (by simp [hy]), names.2.1⟩,
    ⟨core.2, ⟨bound, formed.2, inScope⟩, fun y hy => plain y (by simp [hy]), names.2.2⟩⟩

/-- Both branches of an `if` are accepted. -/
def Branches (a b : Node) : Prop :=
  (accepts .tail false a = true ∧ startsWithSet a = false) ∧
    (accepts .tail false b = true ∧ startsWithSet b = false)

theorem condition_verdict (ha : Verdict a) (hb : Verdict b) {n n' l : Nat} {pred a' b' : Node}
    (ranA : Returns (convert none a (if res.isNone then varName k else varName l)) m a' n)
    (ranB : Returns (convert none b (if res.isNone then varName k else varName l)) n b' n')
    (sourceA : Source Δ m n' a) (sourceB : Source Δ m n' b) (fresh : Fresh Δ m n') (lt : k < l)
    (lt' : l < m) (hres : ∀ r ∈ res, Body r)
    (hpred : Clean (within Δ [varName l]) pred ↔ Clean Δ pred) :
    CleanSplice Δ (joinExpr res (varName k) (varName l) (.ite pred a' b')) ↔
      resBegins res = false ∧ Clean Δ pred ∧ Branches a b ∧ Rest Δ (varName k) res := by
  have le := convert_rising _ _ _ _ _ _ ranA
  have le' := convert_rising _ _ _ _ _ _ ranB
  rw [clean_joinExpr hres]
  refine and_congr_right fun _ => ?_
  cases res with
  | none =>
    simp only [Option.isNone_none, if_true] at ranA ranB
    simp only [Clean]
    rw [branch_verdict ha ranA (sourceA.mono le_rfl le') (fresh.mono le_rfl le') (by omega),
      branch_verdict hb ranB (sourceB.mono le le_rfl) (fresh.mono le le_rfl) (by omega)]
    simp only [Branches, Rest]
    tauto
  | some r =>
    simp only [Option.isNone_some, Bool.false_eq_true, if_false] at ranA ranB
    have joined := fresh.name (i := l) (.inl lt')
    have bound : within Δ [varName l] (varName l) := .inr (by simp)
    simp only [Clean]
    rw [hpred,
      branch_verdict ha ranA ((sourceA.mono le_rfl le').within _) (joined.mono le_rfl le') lt',
      branch_verdict hb ranB ((sourceB.mono le le_rfl).within _) (joined.mono le le_rfl) (by omega)]
    simp only [Branches, Rest, bound]
    tauto

theorem ite_verdict (hp : Verdict p) (ha : Verdict a) (hb : Verdict b) :
    Verdict (.ite p a b) := by
  intro pos res k m t m' Γ source fresh lt _ waits ran
  obtain ⟨sourceP, sourceA, sourceB⟩ := source.ite
  rw [convert_ite] at ran
  simp only [returns_bind, returns_genName] at ran
  obtain ⟨pred, n, named, _, _, ⟨rfl, rfl⟩, a', i, ranA, b', j, ranB, last⟩ := ran
  have le := convert_rising _ _ _ _ _ _ ranA
  have le' := convert_rising _ _ _ _ _ _ ranB
  have hres : ∀ r ∈ res, Body r := fun r hr => (waits r hr).body
  have acc : accepts pos (resBegins res) (.ite p a b) = true ↔
      resBegins res = false ∧ accepts .value false p = true ∧ Branches a b := by
    simp [accepts, Branches, and_assoc]
  cases simple : selfEval p with
  | true =>
    simp only [predName, simple, if_true, returns_pure] at named last
    obtain ⟨rfl, rfl⟩ := named
    obtain ⟨rfl, rfl⟩ := last
    rw [condition_verdict ha hb ranA ranB (sourceA.mono (by omega) le_rfl)
      (sourceB.mono (by omega) le_rfl) (fresh.mono (by omega) le_rfl) lt (by omega) hres
      (iff_of_true ((sourceP.within _).clean simple) (sourceP.clean simple)), acc]
    simp only [sourceP.clean simple, accepts_selfEval simple, Bool.not_false, true_and, and_assoc]
  | false =>
    simp only [predName, simple, Bool.false_eq_true, if_false, returns_map, returns_genName] at named
    obtain ⟨_, ⟨rfl, rfl⟩, rfl⟩ := named
    simp only [simple, Bool.false_eq_true, if_false, symbolOf] at last
    have le'' := convert_rising _ _ _ _ _ _ last
    have expr {Δ : Symbol → Prop} (grow : ∀ y, Γ y → Δ y) (fresh : Fresh Δ (m + 1 + 1) j) :=
      condition_verdict ha hb ranA ranB ((sourceA.grow grow).mono (by omega) (by omega))
        ((sourceB.grow grow).mono (by omega) (by omega)) fresh (by omega) (by omega) hres
        (show Clean (within Δ [varName (m + 1)]) (.sym (varName m)) ↔ Clean Δ (.sym (varName m)) by
          simp [clean_name, within])
    have unused : ¬ Γ (varName m) := fresh.unused m le_rfl (by omega)
    have names : (joinExpr res (varName k) (varName (m + 1)) (.ite (.sym (varName m)) a' b')).Over
        (SourceName j m') := by
      have before (i : Nat) (h : i < j) : SourceName j m' (varName i) :=
        sourceName_varName (.inl h)
      have escape : SourceName j m' (if res.isNone then varName k else varName (m + 1)) := by
        split
        · exact before k (by omega)
        · exact before (m + 1) (by omega)
      refine over_joinExpr (fun r hr => over_mono (waits r hr).names (by omega) le_rfl)
        (before k (by omega)) (before (m + 1) (by omega)) ?_
      rw [over_ite, over_sym]
      refine ⟨before m (by omega), ?_, ?_⟩
      · exact convert_names sourceName_void a (over_mono sourceA.names (by omega) le_rfl) none _
          (by simp) escape _ _ _ ranA fun i _ h => before i (by omega)
      · exact convert_names sourceName_void b (over_mono sourceB.names (by omega) le_rfl) none _
          (by simp) escape _ _ _ ranB fun i _ h => before i (by omega)
    have shape : Body (joinExpr res (varName k) (varName (m + 1)) (.ite (.sym (varName m)) a' b')) ∧
        isBegin (joinExpr res (varName k) (varName (m + 1)) (.ite (.sym (varName m)) a' b')) =
          false := by
      cases res with
      | none => exact ⟨body_notBegin (t := .ite (.sym (varName m)) a' b') rfl (by simp), rfl⟩
      | some r => exact ⟨body_app _ _, rfl⟩
    have waitsHere : Waits Γ .value (varName m) j m'
        (joinExpr res (varName k) (varName (m + 1)) (.ite (.sym (varName m)) a' b')) := by
      refine ⟨shape.1, names, by simp, unused, fun _ clean => ?_, by simp⟩
      rw [expr (fun _ h => h) (fresh.mono (by omega) (by omega)), clean_name] at clean
      exact unused clean.2.1
    have here := hp .value (some _) m j t m' Γ (sourceP.mono (by omega) le_rfl)
      (fresh.mono (by omega) le_rfl) (by omega) (by simp) (by simpa using waitsHere) last
    rw [here, resBegins, shape.2, Rest, expr (fun _ h => .inl h)
      ((fresh.mono (by omega) (by omega)).name (.inl (by omega))), clean_name, acc,
      rest_within lt (fun r hr => (waits r hr).names) (by
        simp only [List.mem_singleton, forall_eq]
        exact ⟨m, le_rfl, by omega, rfl⟩)]
    have bound : within Γ [varName m] (varName m) := .inr (by simp)
    simp only [bound, true_and]
    tauto

theorem acceptsOperand_iff (x : Node) (rb : Bool) :
    accepts .value (rb && !(selfEval x || inlinable x)) x = true ↔
      glueOk rb x = true ∧ (inlinable x = true → accepts .tail false x = true) := by
  cases simple : selfEval x with
  | true => simp [glueOk, simple, accepts_selfEval simple]
  | false =>
    cases lam : inlinable x with
    | true =>
      cases x <;> simp [inlinable] at lam
      simp [glueOk, inlinable, accepts]
    | false => simp [glueOk, simple, lam]

theorem acceptsArgs_iff : acceptsArgs xs = true ↔
    glueAll xs = true ∧ ∀ x ∈ xs, inlinable x = true → accepts .tail false x = true := by
  induction xs with
  | nil => simp [acceptsArgs, glueAll]
  | cons x xs ih =>
    rw [acceptsArgs, glueAll, Bool.and_eq_true, Bool.and_eq_true, acceptsOperand_iff, ih]
    simp only [List.mem_cons, forall_eq_or_imp]
    tauto

theorem clean_callExpr {ctl lf : Node} {largs : List Node} (ctlOp : isOperator ctl = false)
    (ctlNamed : isBuiltinCall ctl = false) (lfNamed : isBuiltinCall lf = false)
    (same : isOperator f = true → lf = f) (notOp : isOperator f = false → isOperator lf = false)
    (fits : isOperator f = true → Fits f largs) :
    CleanSplice Δ (callExpr ctl lf largs) ↔ (isOperator f = false → Clean Δ lf) ∧ Clean Δ ctl ∧
      ∀ x ∈ operandsOf f largs, Clean Δ x := by
  unfold callExpr
  cases op : isOperator f with
  | true =>
    rw [same op, if_pos op, cleanSplice_notBegin rfl, clean_call ctlOp ctlNamed (by simp), CleanAll,
      clean_operation op (fits op)]
    simp [CleanAll]
  | false =>
    have lfOp := notOp op
    simp only [lfOp, Bool.false_eq_true, if_false, forall_const]
    rw [cleanSplice_notBegin rfl, clean_call lfOp lfNamed (by simp), CleanAll, cleanAll_iff,
      operandsOf_call op]

theorem control_notOperator (res : Option Node) (k : Nat) :
    isOperator (Cps.control res (varName k)) = false := by
  cases res with
  | none => exact notOperator_name k
  | some r => rfl

theorem control_notBuiltinCall (res : Option Node) (k : Nat) :
    isBuiltinCall (Cps.control res (varName k)) = false := by
  cases res with
  | none => exact notBuiltinCall_name k
  | some r => rfl

theorem convertArg_operator {larg : Node} (ran : Returns (convertArg x) m larg m') :
    (selfEval x = true → larg = x) ∧ (isOperator x = false → isOperator larg = false) ∧
      (isBuiltinCall x = false → isBuiltinCall larg = false) := by
  rw [convertArg_eq] at ran
  split at ran
  · rw [returns_pure] at ran
    exact ⟨fun _ => ran.1.symm, fun h => ran.1 ▸ h, fun h => ran.1 ▸ h⟩
  · rename_i complex
    refine ⟨fun simple => absurd simple complex, ?_⟩
    cases x with
    | lambda args body =>
      simp only [convertFunc_eq, returns_bind, returns_pure] at ran
      obtain ⟨_, _, _, _, _, _, rfl, _⟩ := ran
      exact ⟨fun _ => rfl, fun _ => rfl⟩
    | _ =>
      simp only [returns_map, returns_genName] at ran
      obtain ⟨_, ⟨rfl, _⟩, rfl⟩ := ran
      exact ⟨fun _ => notOperator_name m, fun _ => notBuiltinCall_name m⟩

theorem convertArgs_length {largs : List Node} (ran : Returns (convertArgs xs) m largs m') :
    largs.length = xs.length := by
  induction xs generalizing largs m' with
  | nil =>
    rw [convertArgs_nil, returns_pure] at ran
    simp [← ran.1]
  | cons x xs ih =>
    rw [convertArgs_cons] at ran
    simp only [returns_bind, returns_pure] at ran
    obtain ⟨largs, _, first, _, _, _, rfl, _⟩ := ran
    simp [ih first]

theorem Fits.converted (h : Fits f args) {largs : List Node}
    (ran : Returns (convertArgs args) m largs m') : Fits f largs := by
  constructor
  · intro typed
    obtain ⟨type, x, rfl, mem⟩ := h.typed typed
    simp only [convertArgs_cons, convertArgs_nil, returns_bind, returns_pure] at ran
    obtain ⟨_, _, ⟨_, _, ⟨nil, _⟩, larg, _, _, rfl, _⟩, lt, _, second, rfl, _⟩ := ran
    exact ⟨type, larg, by rw [(convertArg_operator second).1 (by simp [selfEval]), nil], mem⟩
  · intro typed
    rw [convertArgs_length ran]
    exact h.count typed

theorem operandsOf_forall₂ {R : Node → Node → Prop} {largs : List Node}
    (h : List.Forall₂ R args largs) (f : Node) :
    List.Forall₂ R (operandsOf f args) (operandsOf f largs) := by
  unfold operandsOf
  split
  · cases h with
    | nil => exact .nil
    | cons _ rest => exact rest
  · exact h

theorem forall_of_forall₂ {P R : Node → Prop} {Q : Node → Prop} {ys : List Node}
    (h : List.Forall₂ (fun x y => P x → (Q y ↔ R x)) xs ys) (all : ∀ x ∈ xs, P x) :
    (∀ y ∈ ys, Q y) ↔ ∀ x ∈ xs, R x := by
  induction h with
  | nil => simp
  | cons here _ ih =>
    simp only [List.mem_cons, forall_eq_or_imp] at all ⊢
    rw [here all.1, ih all.2]

theorem temp_operand {largs : List Node} (fits : isOperator f = true → Fits f args)
    (ran : Returns (convertArgs args) m largs m') {s : Symbol}
    (mem : s ∈ tempNames args largs) : .sym s ∈ operandsOf f largs := by
  have all (xs ys : List Node) {m m' : Nat} (ran : Returns (convertArgs xs) m ys m')
      (mem : s ∈ tempNames xs ys) : .sym s ∈ ys := by
    induction xs generalizing ys m' with
    | nil => simp [tempNames] at mem
    | cons x xs ih =>
      rw [convertArgs_cons] at ran
      simp only [returns_bind, returns_pure] at ran
      obtain ⟨ys, _, first, y, _, second, rfl, _⟩ := ran
      rcases List.mem_append.mp mem with mem | mem
      · obtain ⟨rfl, rfl, _⟩ := convertArg_temp second mem
        simp
      · exact List.mem_cons_of_mem _ (ih ys first mem)
  have here := all args largs ran mem
  unfold operandsOf
  split
  · rename_i typed
    obtain ⟨type, x, rfl, _⟩ := (fits (typeTest_operator typed)).typed typed
    rw [convertArgs_cons] at ran
    simp only [returns_bind, returns_pure] at ran
    obtain ⟨ys, _, first, y, _, second, rfl, _⟩ := ran
    have none : tempName (.sym type) y = [] := by simp [tempName, selfEval]
    rw [tempNames, none, List.nil_append] at mem
    exact all [x] ys first mem
  · exact here

/-- The parts of a well formed application. -/
structure AppParts (Γ : Symbol → Prop) (m m' : Nat) (f : Node) (args : List Node) : Prop where
  plain : isBuiltinCall f = false
  fits : isOperator f = true → Fits f args
  func : isOperator f = false → Source Γ m m' f
  operands : ∀ x ∈ operandsOf f args, Source Γ m m' x
  hard : ∀ x ∈ args, selfEval x = false → Source Γ m m' x
  core : ∀ x ∈ args, isCore x = true
  overFunc : f.Over (SourceName m m')
  named : ∀ x ∈ args, x.Over (SourceName m m')

theorem operandsOf_subset (f : Node) (args : List Node) : operandsOf f args ⊆ args := by
  intro x hx
  unfold operandsOf at hx
  split at hx
  · exact List.mem_of_mem_tail hx
  · exact hx

theorem hard_operand (fits : isOperator f = true → Fits f args) (hx : x ∈ args)
    (hard : selfEval x = false ∨ inlinable x = true) : x ∈ operandsOf f args := by
  unfold operandsOf
  split
  · rename_i typed
    obtain ⟨type, y, rfl, _⟩ := (fits (typeTest_operator typed)).typed typed
    rcases List.mem_cons.mp hx with rfl | hx
    · simp [selfEval, inlinable] at hard
    · exact hx
  · exact hx

theorem wellFormed_notBuiltinCall {bound : List Symbol} (free : ¬ Γ "builtin-call")
    (inScope : ∀ x ∈ bound, Γ x) (formed : wellFormed bound f = true) : isBuiltinCall f = false := by
  cases f with
  | sym s =>
    rw [isBuiltinCall, beq_eq_false_iff_ne]
    rintro rfl
    simp only [wellFormed, Bool.or_eq_true, List.contains_eq_mem, decide_eq_true_eq] at formed
    rcases formed with member | builtin
    · exact free (inScope _ member)
    · exact absurd builtin (by decide)
  | _ => rfl

theorem Source.app (h : Source Γ m m' (.app f args)) (free : ¬ Γ "builtin-call") :
    AppParts Γ m m' f args := by
  obtain ⟨core, ⟨bound, formed, inScope⟩, plain, names⟩ := h
  obtain ⟨fits, formedF, formedArgs⟩ := wellFormed_app formed
  simp only [isCore, Bool.and_eq_true, isCoreAll_iff] at core
  simp only [binders] at plain
  rw [over_app] at names
  have operand (x : Node) (hx : x ∈ operandsOf f args) : Source Γ m m' x := by
    have mem := operandsOf_subset f args hx
    refine ⟨core.2 x mem, ⟨bound, formedArgs x hx, inScope⟩, fun y hy => plain y ?_, names.2 x mem⟩
    simp only [List.mem_append, mem_bindersAll]
    exact .inr ⟨x, mem, hy⟩
  have named : isBuiltinCall f = false := by
    cases op : isOperator f with
    | true =>
      rw [← Bool.not_eq_true]
      intro builtin
      exact not_operator_builtin builtin op
    | false => exact wellFormed_notBuiltinCall free inScope (formedF op)
  exact ⟨named, fits, fun op => ⟨core.1.2, ⟨bound, formedF op, inScope⟩,
    fun y hy => plain y (by simp [hy]), names.1⟩, operand,
    fun x hx hard => operand x (hard_operand fits hx (.inl hard)), core.2, names.1, names.2⟩

theorem AppParts.mono {n n' : Nat} (h : AppParts Γ m m' f args) (grow : ∀ y, Γ y → Δ y)
    (le : m ≤ n) (le' : n' ≤ m') : AppParts Δ n n' f args :=
  ⟨h.plain, h.fits, fun op => ((h.func op).grow grow).mono le le',
    fun x hx => ((h.operands x hx).grow grow).mono le le',
    fun x hx hard => ((h.hard x hx hard).grow grow).mono le le', h.core,
    over_mono h.overFunc le le', fun x hx => over_mono (h.named x hx) le le'⟩

theorem call_clean {largs : List Node} {lf : Node} {n n' : Nat} (parts : AppParts Δ m n' f args)
    (hf : FuncsOf f) (hargs : ∀ x ∈ args, FuncsOf x) (argsRan : Returns (convertArgs args) m largs n)
    (argRan : Returns (convertArg f) n lf n') (plain : ∀ s ∈ reserved, ¬ Δ s)
    (tempF : ∀ s ∈ tempName f lf, Δ s) (tempArgs : ∀ s ∈ tempNames args largs, Δ s)
    (only : ∀ i, m ≤ i → i < n' → Δ (varName i) →
      varName i ∈ tempName f lf ∨ varName i ∈ tempNames args largs)
    (hres : ∀ r ∈ res, Body r) :
    CleanSplice Δ (callExpr (Cps.control res (varName k)) lf largs) ↔
      (inlinable f = true → accepts .tail false f = true) ∧ Rest Δ (varName k) res ∧
        ∀ x ∈ args, inlinable x = true → accepts .tail false x = true := by
  have le := convertArgs_rising (fun y _ => convert_rising y) _ _ _ argsRan
  have le' := (convert_rising f).arg _ _ _ argRan
  have place := convertArg_operator argRan
  have self (op : isOperator f = true) : selfEval f = true := by
    cases f <;> simp [isOperator] at op
    simp [selfEval]
  rw [clean_callExpr (control_notOperator res k) (control_notBuiltinCall res k)
    (place.2.2 parts.plain) (fun op => place.1 (self op)) place.2.1 (fun op => (parts.fits op).converted argsRan), clean_cont hres]
  refine and_congr ?_ (and_congr_right fun _ => ?_)
  · cases op : isOperator f with
    | true =>
      have : inlinable f = false := by cases f <;> first | rfl | simp [isOperator] at op
      simp [this]
    | false =>
      simp only [forall_const]
      refine convertArg_clean hf argRan ((parts.func op).mono le le_rfl) plain tempF
        fun i hi hn bound => ?_
      rcases only i (by omega) hn bound with mem | mem
      · exact mem
      · obtain ⟨j, _, lt, same⟩ := convertArgs_temps argsRan mem
        have := varName_injective same
        omega
  · have each := convertArgs_clean hargs argsRan plain tempArgs fun i hi hn bound => by
      rcases only i hi (by omega) bound with mem | mem
      · have := varName_injective (convertArg_temp argRan mem).1
        omega
      · exact mem
    rw [forall_of_forall₂ (operandsOf_forall₂ each f)
      fun x hx => (parts.operands x hx).mono le_rfl le']
    constructor
    · intro all x hx lam
      exact all x (hard_operand parts.fits hx (.inr lam)) lam
    · intro all x hx
      exact all x (operandsOf_subset f args hx)

theorem call_needs {largs : List Node} {lf : Node} {n n' : Nat} (parts : AppParts Γ m n' f args)
    (argsRan : Returns (convertArgs args) m largs n) (argRan : Returns (convertArg f) n lf n')
    {s : Symbol} (mem : s ∈ tempName f lf ∨ s ∈ tempNames args largs)
    (clean : CleanSplice Δ (callExpr (Cps.control res (varName k)) lf largs)) : Δ s := by
  have place := convertArg_operator argRan
  have self (op : isOperator f = true) : selfEval f = true := by
    cases f <;> simp [isOperator] at op
    simp [selfEval]
  rw [clean_callExpr (control_notOperator res k) (control_notBuiltinCall res k)
    (place.2.2 parts.plain) (fun op => place.1 (self op)) place.2.1 (fun op => (parts.fits op).converted argsRan)] at clean
  rcases mem with mem | mem
  · obtain ⟨rfl, rfl, _⟩ := convertArg_temp argRan mem
    cases op : isOperator f with
    | true => simp [tempName, self op] at mem
    | false => exact clean_name.mp (clean.1 op)
  · have here := clean.2.2 _ (temp_operand parts.fits argsRan mem)
    obtain ⟨i, _, _, rfl⟩ := convertArgs_temps argsRan mem
    exact clean_name.mp here

theorem app_verdict (complex : selfEval (.app f args) = false) (hf : Verdict f ∧ FuncsOf f)
    (hargs : ∀ x ∈ args, Verdict x ∧ FuncsOf x) : Verdict (.app f args) := by
  intro pos res k m t m' Γ source fresh lt _ waits ran
  have parts := source.app (fresh.plain _ (by simp [reserved]))
  rw [convert_app _ _ complex] at ran
  simp only [returns_bind] at ran
  obtain ⟨largs, n, argsRan, lf, n', argRan, inner, i, glue, outer⟩ := ran
  have le := convertArgs_rising (fun y _ => convert_rising y) _ _ _ argsRan
  have le' := (convert_rising f).arg _ _ _ argRan
  have le₁ := glueArgs_rising (fun y _ => convert_rising y) _ _ _ _ _ glue
  have le₂ := (convert_rising f).glue _ _ _ _ _ outer
  have hres (r : Node) (hr : r ∈ res) : Body r := (waits r hr).body
  have before {a b j : Nat} (h : j < a) : SourceName a b (varName j) := sourceName_varName (.inl h)
  have shape : Body (callExpr (Cps.control res (varName k)) lf largs) ∧
      isBegin (callExpr (Cps.control res (varName k)) lf largs) = false := by
    unfold callExpr
    split <;> exact ⟨body_app _ _, rfl⟩
  obtain ⟨hinner, begins⟩ := glueArgs_shape (fun x hx => convert_shape x (parts.core x hx))
    shape.1 shape.2 argsRan glue
  have argNames (j : Nat) (h : n ≤ j) : List.Forall₂ (ArgOver (SourceName j m')) args largs :=
    convertArgs_names (fun y _ => convert_names sourceName_void y)
      (fun x hx => over_mono (parts.named x hx) (by omega) le_rfl) _ _ _ argsRan
      fun _ _ lt => before (by omega)
  have exprNames (j : Nat) (h : n' ≤ j) :
      (callExpr (Cps.control res (varName k)) lf largs).Over (SourceName j m') := by
    have func := (convert_names sourceName_void f).arg
      (over_mono parts.overFunc (by omega) le_rfl) _ _ _ argRan fun _ _ lt => before (a := j) (by omega)
    exact over_callExpr (fun r hr => over_mono (waits r hr).names (by omega) le_rfl)
      (before (by omega)) func.1 (argsOver (argNames j (by omega)))
  have innerNames : inner.Over (SourceName i m') :=
    glueArgs_names (fun y _ => convert_names sourceName_void y)
      (fun x hx => over_mono (parts.named x hx) (by omega) le_rfl) (exprNames i le₁)
      (argNames i (by omega)) _ _ _ glue fun _ _ lt => before lt
  have needs {s : Symbol} (mem : s ∈ tempName f lf ∨ s ∈ tempNames args largs) {Δ : Symbol → Prop}
      (clean : CleanSplice Δ (callExpr (Cps.control res (varName k)) lf largs)) : Δ s :=
    call_needs (parts.mono (fun _ h => h) le_rfl (by omega)) argsRan argRan mem clean
  have temp {s : Symbol} (mem : s ∈ tempName f lf) : Generated n n' s := by
    obtain ⟨rfl, _, rfl⟩ := convertArg_temp argRan mem
    exact ⟨n, le_rfl, by omega, rfl⟩
  have temps {s : Symbol} (mem : s ∈ tempNames args largs) : Generated m n s :=
    convertArgs_temps argsRan mem
  have glued {Δ : Symbol → Prop} (grow : ∀ y, Γ y → Δ y) (fa : Fresh Δ m n) (fg : Fresh Δ n' i) :=
    glueArgs_verdict (fun x hx => (hargs x hx).1) parts.core argsRan le' glue
      (fun x hx hard => ((parts.hard x hx hard).grow grow).mono le_rfl le₂)
      (fun x hx => over_mono (parts.named x hx) le_rfl le₂) fa fg shape.1 shape.2
      (over_mono (exprNames n' le_rfl) le_rfl le₂)
      fun s hs Δ unbound clean => unbound (needs (.inr hs) clean)
  have step := glueArg_verdict hf.1 argRan le₁ outer
    (fun hard => (parts.func (by
      cases f <;> simp [selfEval] at hard <;> simp [isOperator])).mono (by omega) le_rfl)
    (fresh.mono le (by omega)) (fresh.mono (by omega) le_rfl) hinner innerNames
    (fun s hs clean => by
      have := (glued (fun _ h => h) (fresh.mono le_rfl (by omega))
        (fresh.mono (by omega) (by omega))).mp clean
      obtain ⟨j, hj, lt, rfl⟩ := temp hs
      rcases needs (.inl hs) this.2 with bound | mem
      · exact fresh.unused j (by omega) (by omega) bound
      · obtain ⟨l, _, lt, same⟩ := temps mem
        have := varName_injective same
        omega)
  have scope : ∀ y, Γ y → within (within Γ (tempName f lf)) (tempNames args largs) y :=
    fun _ h => .inl (.inl h)
  have call := call_clean (k := k) (parts.mono scope le_rfl (by omega)) hf.2
    (fun x hx => (hargs x hx).2) argsRan argRan
    (fun s hs bound => by
      rcases bound with (bound | mem) | mem
      · exact fresh.plain s hs bound
      · obtain ⟨j, _, _, rfl⟩ := temp mem
        exact varName_not_reserved j hs
      · obtain ⟨j, _, _, rfl⟩ := temps mem
        exact varName_not_reserved j hs)
    (fun s hs => .inl (.inr hs)) (fun s hs => .inr hs)
    (fun j hj lt bound => by
      rcases bound with (bound | mem) | mem
      · exact absurd bound (fresh.unused j hj (by omega))
      · exact .inl mem
      · exact .inr mem) hres
  rw [step, glued (fun _ => .inl)
      ((fresh.mono le_rfl (by omega)).temps fun s hs => ⟨n, n', temp hs, .inr le_rfl⟩)
      ((fresh.mono (by omega) le₂).temps fun s hs => ⟨n, n', temp hs, .inl le_rfl⟩),
    call, rest_within lt (fun r hr => (waits r hr).names) (fun s hs => by
      obtain ⟨j, _, _, same⟩ := temps hs
      exact ⟨j, by omega, by omega, same⟩),
    rest_within lt (fun r hr => (waits r hr).names) (fun s hs => by
      obtain ⟨j, _, _, same⟩ := temp hs
      exact ⟨j, by omega, by omega, same⟩), accepts, if_neg (by simp [complex]), Bool.and_eq_true,
    acceptsOperand_iff, acceptsArgs_iff, begins]
  tauto

theorem set_verdict {x : Symbol} (hv : Verdict a ∧ FuncsOf a) : Verdict (.set x a) := by
  intro pos res k m t m' Γ source fresh lt _ waits ran
  obtain ⟨core, ⟨bound, formed, inScope⟩, plain, names⟩ := source
  simp only [wellFormed, Bool.and_eq_true, Bool.or_eq_true, List.contains_eq_mem,
    decide_eq_true_eq] at formed
  rw [over_set] at names
  rw [convert_set] at ran
  have target : Γ x ↔ x ∉ builtinNames :=
    ⟨fun bound builtin => fresh.plain x (List.mem_cons_of_mem _ builtin) bound,
      fun other => inScope x (formed.1.resolve_right other)⟩
  rw [convertSet_clean hv.1 hv.2 ran
    ⟨by simpa [isCore] using core, ⟨bound, formed.2, inScope⟩, by simpa [binders] using plain, names.2⟩
    fresh lt names.1 fun r hr => ⟨(waits r hr).body, (waits r hr).names⟩, target]
  have value : accepts pos (resBegins res) (.set x a) = true ↔ pos ≠ .value ∧ x ∉ builtinNames ∧
      accepts .tail false a = true ∧ startsWithSet a = false := by
    simp [accepts, and_assoc]
  rw [value]
  cases res with
  | none =>
    have : pos = .tail := by tauto
    subst this
    simp [RestAfter, Rest, and_assoc]
  | some r =>
    have here := waits r rfl
    cases pos with
    | tail => exact absurd rfl here.notTail
    | value => simp [RestAfter, here.value rfl]
    | effect =>
      have same : CleanSplice (within Γ [varName k]) r ↔ CleanSplice Γ r :=
        cleanSplice_within fun y hy => by simpa using here.effect rfl y hy
      simp [RestAfter, Rest, same, and_assoc]

theorem begin_verdict {forms : List Node} (h : ∀ x ∈ forms, Verdict x) :
    Verdict (.begin forms) := by
  intro pos res k m t m' Γ source fresh lt tail waits ran
  obtain ⟨core, ⟨bound, formed, inScope⟩, plain, names⟩ := source
  simp only [isCore, Bool.and_eq_true, isCoreAll_iff] at core
  simp only [wellFormed, wellFormedAll_iff] at formed
  rw [over_begin] at names
  rw [convert_begin] at ran
  simp only [returns_bind, returns_pure] at ran
  obtain ⟨o, _, seq, rfl, rfl⟩ := ran
  cases forms with
  | nil => simp at core
  | cons x xs =>
    rw [convertSeq_cons] at seq
    obtain ⟨t, rfl, main⟩ := seqLoop_verdict h seq
      (fun y hy => ⟨core.2 y hy, ⟨bound, formed y hy, inScope⟩, fun z hz => plain z (by
        simp only [binders, mem_bindersAll]
        exact ⟨y, hy, hz⟩), names y hy⟩) fresh lt tail waits (by simp)
    rw [Option.getD_some, main, accepts, List.getLastD_eq_getLast?,
      List.getLast?_eq_some_getLast (by simp), Option.getD_some]

theorem lambda_verdict {formals : Formals} {body : List Node} (h : FuncVerdict formals body) :
    Verdict (.lambda formals body) := by
  intro pos res k m t m' Γ source fresh _ _ waits ran
  rw [convert_lambda] at ran
  simp only [returns_bind, returns_pure] at ran
  obtain ⟨func, _, ran, rfl, rfl⟩ := ran
  rw [clean_deliver fun r hr => (waits r hr).body, h m func _ Γ source fresh ran, accepts, accepts]
  simp only [Bool.not_false, Bool.true_and, Bool.and_eq_true, Bool.not_eq_true']
  tauto

theorem convert_verdict (n : Node) : Verdict n ∧ FuncsOf n := by
  induction n using bodyInduct with
  | simple n h =>
    refine ⟨verdict_simple h, ?_⟩
    rintro args body rfl
    simp [selfEval] at h
  | lambda args body ih values =>
    have func : FuncVerdict args body := convertFunc_verdict (fun x hx => (ih x hx).1) values
    refine ⟨lambda_verdict func, ?_⟩
    rintro _ _ ⟨rfl, rfl⟩
    exact func
  | ite p a b hp ha hb => exact ⟨ite_verdict hp.1 ha.1 hb.1, fun _ _ h => by cases h⟩
  | set x v hv => exact ⟨set_verdict hv, fun _ _ h => by cases h⟩
  | define x v =>
    refine ⟨fun _ _ _ _ _ _ _ source => ?_, fun _ _ h => by cases h⟩
    simpa [isCore] using source.core
  | begin forms ih => exact ⟨begin_verdict fun x hx => (ih x hx).1, fun _ _ h => by cases h⟩
  | extend names =>
    refine ⟨fun _ _ _ _ _ _ _ source => ?_, fun _ _ h => by cases h⟩
    simpa [isCore] using source.core
  | app f args complex hf ih => exact ⟨app_verdict complex hf ih, fun _ _ h => by cases h⟩

end verdicts

theorem converted_accepts {args : Formals} {body : List Node} {lastName lastName' : Nat}
    {program : Node} (core : isCore (.lambda args body) = true)
    (formed : wellFormed [] (.lambda args body) = true)
    (plain : Plain (binders (.lambda args body)))
    (conv : cpsConvert (.lambda args body) lastName = .ok (program, lastName'))
    (names : (Node.lambda args body).Over (SourceName lastName lastName')) :
    (∃ ilr, startCompile program = .ok ilr) ↔ accepts .tail false (.lambda args body) = true := by
  rw [startCompile_accepts]
  exact (convert_verdict (.lambda args body)).2 args body rfl lastName program lastName' _
    ⟨core, ⟨[], formed, by simp⟩, plain, names⟩ ⟨fun _ _ _ h => h, fun _ _ h => h⟩ conv

/- A closed program is converted, and the code generator accepts the result exactly when
   every assignment stands where the conversion splices it, no sequence outside tail position
   ends with a form that evaluates itself, and no builtin is assigned. -/
theorem startCompile_converted (args : Formals) (body : List Node)
    (core : isCore (.lambda args body) = true) (formed : wellFormed [] (.lambda args body) = true)
    (plain : Plain (binders (.lambda args body))) (lastName : Nat) :
    ∃ program lastName', cpsConvert (.lambda args body) lastName = .ok (program, lastName') ∧
      ((Node.lambda args body).Over (SourceName lastName lastName') →
        ((∃ ilr, startCompile program = .ok ilr) ↔
          accepts .tail false (.lambda args body) = true)) := by
  obtain ⟨program, lastName', conv⟩ := (convert_total core).func lastName
  exact ⟨program, lastName', conv, converted_accepts core formed plain conv⟩

/-- (define f (lambda (x . r) (set! x 1) (if x (f r) (begin (display x) x)))) (f ($+ 1 2)) -/
def assignments : List Node :=
  [.define "f" (.lambda ⟨["x"], some "r"⟩ [.set "x" (.const (.num 1)),
      .ite (.sym "x") (.app (.sym "f") [.sym "r"])
        (.begin [.app (.sym "display") [.sym "x"], .sym "x"])]),
    .app (.sym "f") [.app (.sym "$+") [.const (.num 1), .const (.num 2)]]]

theorem startCompile_assignments :
    ∃ program lastName', cpsConvert (.lambda ⟨[], none⟩ assignments) 0 = .ok (program, lastName') ∧
      ∃ ilr, startCompile program = .ok ilr := by
  obtain ⟨program, lastName', conv, main⟩ := startCompile_converted ⟨[], none⟩ assignments
    (by decide) (by decide) (by unfold Plain; decide) 0
  refine ⟨program, lastName', conv, (main ?_).mpr (by decide)⟩
  have plain : ∀ x ∈ (Node.lambda ⟨[], none⟩ assignments).syms,
      x.toList.take 5 ≠ "_var.".toList := by decide
  rintro x hx ⟨i, _, _, rfl⟩
  exact varName_ne (plain _ hx) i rfl

/-- (lambda (x) (if x (set! x 1) 2)) -/
def setBranch : List Node := [.ite (.sym "x") (.set "x" (.const (.num 1))) (.const (.num 2))]

/- The branch is converted to a `begin` that nothing splices. -/
theorem startCompile_rejects :
    ¬ ∀ args body, isCore (.lambda args body) = true → wellFormed [] (.lambda args body) = true →
      Plain (binders (.lambda args body)) → ∀ lastName program lastName',
        cpsConvert (.lambda args body) lastName = .ok (program, lastName') →
        (Node.lambda args body).Over (SourceName lastName lastName') →
        ∃ ilr, startCompile program = .ok ilr := by
  intro claim
  have core : isCore (.lambda ⟨["x"], none⟩ setBranch) = true := by decide
  have plain : Plain (binders (.lambda ⟨["x"], none⟩ setBranch)) := by unfold Plain; decide
  obtain ⟨program, lastName', conv⟩ := (convert_total core).func 0
  have names : (Node.lambda ⟨["x"], none⟩ setBranch).Over (SourceName 0 lastName') := by
    have plain : ∀ x ∈ (Node.lambda ⟨["x"], none⟩ setBranch).syms,
        x.toList.take 5 ≠ "_var.".toList := by decide
    rintro x hx ⟨i, _, _, rfl⟩
    exact varName_ne (plain _ hx) i rfl
  have ran := claim ⟨["x"], none⟩ setBranch core (by decide) plain 0 program lastName' conv names
  rw [converted_accepts core (by decide) plain conv names] at ran
  revert ran
  decide

end LGears.CpsAccepted
