import LGears.Compiler
import LGears.Library.Returns
import Mathlib.Data.List.Forall2

/- What the code generator accepts, and what compiling a node does to its tables. -/
namespace LGears.Compiler
open PrimitivesInfo Opcode StateExcept

/-- The literals that have an instruction of their own. -/
def loadable : Datum → Bool
  | .bool _ | .char _ | .num _ | .str _ => true
  | _ => false

/-- A type test names a type of the table. -/
def namesType (args : List Node) : Prop := ∃ type rest, args = .sym type :: rest ∧ type ∈ typeTests

/-- The names in scope behind a list of binders. -/
def within (Γ : Symbol → Prop) (names : List Symbol) : Symbol → Prop := fun x => Γ x ∨ x ∈ names

@[simp] theorem within_nil (Γ : Symbol → Prop) : within Γ [] = Γ := by
  funext x
  simp [within]

/- Nodes the code generator accepts when the variables of Γ are bound. -/
mutual
def Clean (Γ : Symbol → Prop) : Node → Prop
  | .const d => loadable d = true
  | .quote _ => True
  | .sym s => Γ s ∨ s ∈ builtinNames
  | .lambda args body => CleanBody (within Γ args.names) body
  | .ite pred conseq alt => Clean Γ pred ∧ Clean Γ conseq ∧ Clean Γ alt
  | .set x value => Γ x ∧ Clean Γ value
  | .app f args =>
    if isOperator f then
      (isTypeTest f = true → namesType args) ∧ CleanOperands Γ (isTypeTest f) args
    else if isBuiltinCall f then CleanBuiltin Γ args
    else Clean Γ f ∧ CleanAll Γ args ∧ (isSymbol f = true → args ≠ [])
  | .begin _ | .define _ _ | .extend _ => False
def CleanAll (Γ : Symbol → Prop) : List Node → Prop
  | [] => True
  | x :: xs => Clean Γ x ∧ CleanAll Γ xs
def CleanBuiltin (Γ : Symbol → Prop) : List Node → Prop
  | [] | [_] => False
  | cont :: name :: args => Clean Γ cont ∧ isSymbol name = true ∧ CleanAll Γ args
def CleanOperands (Γ : Symbol → Prop) (typed : Bool) : List Node → Prop
  | [] => False
  | [x] => typed = false ∧ Clean Γ x
  | x :: y :: _ => (typed = false → Clean Γ x) ∧ Clean Γ y
def CleanBody (Γ : Symbol → Prop) : List Node → Prop
  | [] => False
  | .extend names :: code => CleanAll (within Γ names) code
  | x :: xs => Clean Γ x ∧ CleanAll Γ xs
end

theorem cleanAll_iff {Γ : Symbol → Prop} {xs : List Node} :
    CleanAll Γ xs ↔ ∀ x ∈ xs, Clean Γ x := by
  induction xs with
  | nil => simp [CleanAll]
  | cons x xs ih => simp [CleanAll, ih]

/-- The names a body defines at its head. -/
def extendNames : List Node → List Symbol
  | .extend names :: _ => names
  | _ => []

/-- The forms of a body that are compiled. -/
def bodyForms : List Node → List Node
  | .extend _ :: code => code
  | body => body

theorem bodyForms_subset (body : List Node) : bodyForms body ⊆ body := by
  intro x hx
  unfold bodyForms at hx
  split at hx
  · exact List.mem_cons_of_mem _ hx
  · exact hx

theorem cleanBody_iff {Γ : Symbol → Prop} {body : List Node} : CleanBody Γ body ↔
    body ≠ [] ∧ CleanAll (within Γ (extendNames body)) (bodyForms body) := by
  cases body with
  | nil => simp [CleanBody]
  | cons x xs =>
    cases x with
    | extend names => simp [CleanBody, extendNames, bodyForms]
    | _ => simp [CleanBody, extendNames, bodyForms, CleanAll]

theorem cleanOperands_congr {Γ Δ : Symbol → Prop} {xs : List Node}
    (h : ∀ x ∈ xs, Clean Γ x ↔ Clean Δ x) (typed : Bool) :
    CleanOperands Γ typed xs ↔ CleanOperands Δ typed xs := by
  match xs with
  | [] => rfl
  | [x] => simp only [CleanOperands, h x (by simp)]
  | x :: y :: _ => simp only [CleanOperands, h x (by simp), h y (by simp)]

theorem cleanBuiltin_congr {Γ Δ : Symbol → Prop} {xs : List Node}
    (h : ∀ x ∈ xs, Clean Γ x ↔ Clean Δ x) : CleanBuiltin Γ xs ↔ CleanBuiltin Δ xs := by
  match xs with
  | [] | [_] => rfl
  | cont :: name :: args =>
    have rest : CleanAll Γ args ↔ CleanAll Δ args := by
      rw [cleanAll_iff, cleanAll_iff]
      exact forall₂_congr fun x member => h x (by simp [member])
    simp only [CleanBuiltin, h cont (by simp), rest]

theorem over_within {Γ Δ : Symbol → Prop} {n : Node} (same : n.Over fun y => Γ y ↔ Δ y)
    (names : List Symbol) : n.Over fun y => within Γ names y ↔ within Δ names y := by
  intro y hy
  simp only [within, same y hy]

theorem clean_congr {n : Node} {Γ Δ : Symbol → Prop} (same : n.Over fun y => Γ y ↔ Δ y) :
    Clean Γ n ↔ Clean Δ n := by
  induction n generalizing Γ Δ with
  | const d => rfl
  | quote d => rfl
  | sym s => simp only [Clean, over_sym.mp same]
  | lambda args body ih =>
    rw [over_lambda] at same
    simp only [Clean, cleanBody_iff, cleanAll_iff]
    refine and_congr_right fun _ => forall₂_congr fun x hx => ih x (bodyForms_subset body hx) ?_
    exact over_within (over_within (same.2 x (bodyForms_subset body hx)) _) _
  | ite p a b hp ha hb =>
    rw [over_ite] at same
    simp only [Clean, hp same.1, ha same.2.1, hb same.2.2]
  | set x v hv =>
    rw [over_set] at same
    simp only [Clean, same.1, hv same.2]
  | define | begin | extend => rfl
  | app f args hf ih =>
    rw [over_app] at same
    have each (x : Node) (hx : x ∈ args) : Clean Γ x ↔ Clean Δ x := ih x hx (same.2 x hx)
    unfold Clean
    split
    · rw [cleanOperands_congr each]
    split
    · rw [cleanBuiltin_congr each]
    · rw [hf same.1, cleanAll_iff, cleanAll_iff]
      exact and_congr_right fun _ => and_congr_left fun _ => forall₂_congr each

/-- A later state of an environment: its variables stay, its tables grow at the front. -/
structure EnvGrows (env env' : FuncEnv) : Prop where
  tbl : env'.tbl = env.tbl
  size : env'.size = env.size
  argc : env'.argc = env.argc
  swallow : env'.swallow = env.swallow
  depth : env'.depth = env.depth
  onheap : env.onheap = true → env'.onheap = true
  bindings : env.bindings <:+ env'.bindings
  bindmap : env.bindmap <:+ env'.bindmap

theorem EnvGrows.refl (env : FuncEnv) : EnvGrows env env :=
  ⟨rfl, rfl, rfl, rfl, rfl, id, List.suffix_rfl, List.suffix_rfl⟩

theorem EnvGrows.trans {a b c : FuncEnv} (first : EnvGrows a b) (second : EnvGrows b c) :
    EnvGrows a c where
  tbl := by rw [second.tbl, first.tbl]
  size := by rw [second.size, first.size]
  argc := by rw [second.argc, first.argc]
  swallow := by rw [second.swallow, first.swallow]
  depth := by rw [second.depth, first.depth]
  onheap h := second.onheap (first.onheap h)
  bindings := first.bindings.trans second.bindings
  bindmap := first.bindmap.trans second.bindmap

/-- A later state of the code generator with the same chain of environments. -/
structure Grows (s s' : CompState) : Prop where
  envs : List.Forall₂ EnvGrows s.envs s'.envs
  codeStore : s.codeStore <:+ s'.codeStore
  consts : s.consts <:+ s'.consts

theorem envsGrow_refl (envs : List FuncEnv) : List.Forall₂ EnvGrows envs envs :=
  List.forall₂_same.mpr fun env _ => .refl env

theorem Grows.refl (s : CompState) : Grows s s :=
  ⟨envsGrow_refl _, List.suffix_rfl, List.suffix_rfl⟩

theorem envsGrow_trans {as bs cs : List FuncEnv} (first : List.Forall₂ EnvGrows as bs)
    (second : List.Forall₂ EnvGrows bs cs) : List.Forall₂ EnvGrows as cs := by
  induction first generalizing cs with
  | nil => exact second
  | cons h _ ih =>
    cases second with
    | cons g rest => exact .cons (h.trans g) (ih rest)

theorem Grows.trans {a b c : CompState} (first : Grows a b) (second : Grows b c) : Grows a c :=
  ⟨envsGrow_trans first.envs second.envs, first.codeStore.trans second.codeStore,
    first.consts.trans second.consts⟩

/-- Every run of the computation only adds to the tables. -/
def Growing {α : Type} (c : CompM α) : Prop := ∀ s a s', Returns c s a s' → Grows s s'

section returns
variable {α : Type} {s s' : CompState} {a : α}

@[simp] theorem returns_fail {e : CompileError} : ¬ Returns (fail e) s a s' := by
  simp [Returns, fail]

@[simp] theorem returns_pushCode {f : IFunc} {i : Nat} :
    Returns (pushCode f) s i s' ↔
      i = s.codeStore.length ∧ s' = { s with codeStore := f :: s.codeStore } := by
  simp [Returns, pushCode, eq_comm]

@[simp] theorem returns_pushEnv {args : Formals} {u : PUnit} :
    Returns (pushEnv args) s u s' ↔ s' = { s with envs := makeEnv s.envs args :: s.envs } := by
  simp [Returns, pushEnv, eq_comm]

@[simp] theorem returns_popEnv {env : FuncEnv} :
    Returns popEnv s env s' ↔ ∃ envs, s.envs = env :: envs ∧ s' = { s with envs := envs } := by
  obtain ⟨envs, code, consts⟩ := s
  cases envs with
  | nil => simp [Returns, popEnv]
  | cons e envs =>
    simp only [Returns, popEnv, Except.ok.injEq, Prod.mk.injEq, List.cons.injEq]
    constructor
    · rintro ⟨rfl, rfl⟩
      exact ⟨envs, ⟨rfl, rfl⟩, rfl⟩
    · rintro ⟨envs, ⟨rfl, rfl⟩, rfl⟩
      exact ⟨rfl, rfl⟩

@[simp] theorem returns_defineAll {names : List Symbol} {u : PUnit} {env : FuncEnv}
    {envs : List FuncEnv} : Returns (defineAll names) { s with envs := env :: envs } u s' ↔
      s' = { s with envs := names.foldl envDefine env :: envs } := by
  simp [Returns, defineAll, eq_comm]

end returns

section growing
variable {α β : Type}

theorem Growing.pure (a : α) : Growing (pure a) := by
  intro s b s' h
  simp only [returns_pure] at h
  exact h.2 ▸ .refl s

theorem Growing.bind {c : CompM α} {f : α → CompM β} (hc : Growing c) (hf : ∀ a, Growing (f a)) :
    Growing (c >>= f) := by
  intro s b s' h
  rw [returns_bind] at h
  obtain ⟨a, t, first, second⟩ := h
  exact (hc _ _ _ first).trans (hf a _ _ _ second)

theorem Growing.map {c : CompM α} {f : α → β} (hc : Growing c) : Growing (f <$> c) := by
  intro s b s' h
  rw [returns_map] at h
  obtain ⟨a, first, _⟩ := h
  exact hc _ _ _ first

theorem Growing.fail (e : CompileError) : Growing (fail e : CompM α) :=
  fun _ _ _ h => absurd h returns_fail

theorem Growing.makeConst (c : Const) : Growing (makeConst c) := by
  intro s i s' h
  simp only [Returns, Compiler.makeConst] at h
  split at h <;> cases h
  · exact .refl s
  · exact ⟨envsGrow_refl _, List.suffix_rfl, List.suffix_cons _ _⟩

theorem intern_suffix {γ : Type} [DecidableEq γ] (key : γ) (table : List γ) :
    table <:+ (intern key table).2 := by
  unfold intern
  split
  · exact List.suffix_cons _ _
  · exact List.suffix_rfl

theorem envBind_grows (env : FuncEnv) (up idx : Nat) : EnvGrows env (envBind env up idx).2 :=
  ⟨rfl, rfl, rfl, rfl, rfl, id, intern_suffix _ _, intern_suffix _ _⟩

theorem lookupParent_grows {envs envs' : List FuncEnv} {name : Symbol} {depth idx : Nat}
    (h : lookupParent envs name = some (depth, idx, envs')) : List.Forall₂ EnvGrows envs envs' := by
  induction envs generalizing envs' with
  | nil => simp [lookupParent] at h
  | cons env envs ih =>
    rw [lookupParent] at h
    split at h
    · cases h
      exact .cons ⟨rfl, rfl, rfl, rfl, rfl, fun _ => rfl, List.suffix_rfl, List.suffix_rfl⟩
        (envsGrow_refl _)
    · simp only [Option.map_eq_some_iff, Prod.exists, Prod.mk.injEq] at h
      obtain ⟨_, _, envs₁, found, rfl, rfl, rfl⟩ := h
      exact .cons (.refl env) (ih found)

theorem Growing.lookupStatic (name : Symbol) : Growing (lookupStatic name) := by
  unfold Compiler.lookupStatic
  split
  · exact (Growing.makeConst _).map
  · exact .fail _

theorem Growing.envLookup (name : Symbol) : Growing (envLookup name) := by
  intro s slot s' h
  simp only [Returns, Compiler.envLookup] at h
  split at h
  · exact Growing.lookupStatic name _ _ _ h
  · rename_i env envs same
    split at h
    · cases h
      exact .refl s
    · split at h
      · rename_i found
        cases h
        refine ⟨?_, List.suffix_rfl, List.suffix_rfl⟩
        rw [same]
        exact .cons (envBind_grows _ _ _) (lookupParent_grows found)
      · exact Growing.lookupStatic name _ _ _ h

theorem Growing.compileConst (d : Datum) : Growing (compileConst d) := by
  cases d <;> unfold Compiler.compileConst
  all_goals first
    | exact .pure _
    | exact .fail _
    | exact .bind (.makeConst _) fun _ => .pure _

theorem Growing.compileQuote (d : Datum) : Growing (compileQuote d) := by
  unfold Compiler.compileQuote
  split
  · exact .pure _
  · exact .bind (.makeConst _) fun _ => .pure _

theorem Growing.compileSym (name : Symbol) : Growing (compileSym name) := by
  unfold Compiler.compileSym
  refine .bind (.envLookup name) fun slot => ?_
  cases slot <;> exact .pure _

theorem Growing.setInstr (name : Symbol) (slot : Slot) : Growing (setInstr name slot) := by
  cases slot
  · exact .pure _
  · exact .pure _
  · exact .fail _

theorem Growing.operationInstr (op : Symbol) (args : List Node) :
    Growing (operationInstr op args) := by
  unfold Compiler.operationInstr
  split
  · split
    · exact .pure _
    · exact .fail _
  · exact .fail _
  · exact .pure _
  · exact .fail _

theorem Growing.compileAll {xs : List Node} (h : ∀ x ∈ xs, Growing (compile x)) :
    Growing (compileAll xs) := by
  induction xs with
  | nil => exact .pure _
  | cons x xs ih =>
    exact .bind (h x (by simp)) fun _ => .bind (ih fun y hy => h y (by simp [hy])) fun _ => .pure _

theorem Growing.makeBuiltin (name : Node) : Growing (makeBuiltin name) := by
  cases name with
  | sym x => exact .makeConst _
  | _ => exact .fail _

theorem Growing.compileBuiltin {xs : List Node} (h : ∀ x ∈ xs, Growing (compile x)) :
    Growing (compileBuiltin xs) := by
  match xs with
  | [] | [_] => exact .fail _
  | cont :: name :: args =>
    exact .bind (h cont (by simp)) fun _ => .bind (.makeBuiltin name) fun _ =>
      .bind (.compileAll fun x member => h x (by simp [member])) fun _ => .pure _

theorem Growing.compileOperands {xs : List Node} (h : ∀ x ∈ xs, Growing (compile x))
    (typed : Bool) : Growing (compileOperands typed xs) := by
  match xs with
  | [] => exact .fail _
  | [x] =>
    unfold Compiler.compileOperands
    split
    · exact .fail _
    · exact h x (by simp)
  | x :: y :: rest =>
    unfold Compiler.compileOperands
    refine .bind ?_ fun _ => .bind (h y (by simp)) fun _ => .pure _
    split
    · exact .pure _
    · exact h x (by simp)

theorem compileBody_eq {body : List Node} (some : body ≠ []) :
    compileBody body = (do
      defineAll (extendNames body)
      compileAll (bodyForms body)) := by
  cases body with
  | nil => exact absurd rfl some
  | cons x xs =>
    cases x with
    | extend names => rfl
    | _ =>
      unfold compileBody extendNames bodyForms
      have none : defineAll [] = pure ⟨⟩ := by
        funext s
        obtain ⟨envs, code, consts⟩ := s
        cases envs <;> rfl
      rw [none, pure_bind, Compiler.compileAll]

theorem returns_body {body : List Node} (some : body ≠ []) (s : CompState) (env : FuncEnv)
    (envs : List FuncEnv) {code : List Instr} {s' : CompState} :
    Returns (compileBody body) { s with envs := env :: envs } code s' ↔
      Returns (Compiler.compileAll (bodyForms body))
        { s with envs := (extendNames body).foldl envDefine env :: envs } code s' := by
  rw [compileBody_eq some, returns_bind]
  simp only [returns_defineAll]
  constructor
  · rintro ⟨_, _, rfl, ran⟩
    exact ran
  · intro ran
    exact ⟨⟨⟩, _, rfl, ran⟩

theorem compileBody_grows {body : List Node} (h : ∀ x ∈ body, Growing (compile x))
    {s s' : CompState} {env : FuncEnv} {envs : List FuncEnv} {code : List Instr}
    (ran : Returns (compileBody body) { s with envs := env :: envs } code s') :
    Grows { s with envs := (extendNames body).foldl envDefine env :: envs } s' := by
  have some : body ≠ [] := by
    rintro rfl
    simp [Compiler.compileBody] at ran
  rw [returns_body some] at ran
  exact Growing.compileAll (fun x hx => h x (bodyForms_subset body hx)) _ _ _ ran

/-- What compiling a lambda expression goes through: the environment `env` of the function
    is pushed, the body compiled in it, and the function added to the code. -/
theorem returns_lambda {args : Formals} {body : List Node} {s s' : CompState}
    {code : List Instr} : Returns (compile (.lambda args body)) s code s' ↔
      ∃ compiled env envs t,
        Returns (compileBody body) { s with envs := makeEnv s.envs args :: s.envs } compiled t ∧
        t.envs = env :: envs ∧ code = [⟨.loadClosure, t.codeStore.length⟩] ∧
        s' = { t with envs := envs, codeStore := makeFunc compiled env :: t.codeStore } := by
  unfold compile
  simp only [returns_bind, returns_pushEnv, returns_popEnv, returns_pushCode, returns_pure]
  constructor
  · rintro ⟨_, _, rfl, compiled, t, ran, env, _, ⟨envs, same, rfl⟩, _, _, ⟨rfl, rfl⟩, rfl, rfl⟩
    exact ⟨compiled, env, envs, t, ran, same, rfl, rfl⟩
  · rintro ⟨compiled, env, envs, t, ran, same, rfl, rfl⟩
    exact ⟨⟨⟩, _, rfl, compiled, t, ran, env, _, ⟨envs, same, rfl⟩, _, _, ⟨rfl, rfl⟩, rfl, rfl⟩

theorem Growing.lambda {args : Formals} {body : List Node}
    (h : ∀ x ∈ body, Growing (compile x)) : Growing (compile (.lambda args body)) := by
  intro s code s' ran
  rw [returns_lambda] at ran
  obtain ⟨compiled, env, envs, t, ran, same, rfl, rfl⟩ := ran
  have grow := compileBody_grows h ran
  have envs := grow.envs
  rw [same] at envs
  exact ⟨(List.forall₂_cons.mp envs).2, grow.codeStore.trans (List.suffix_cons _ _), grow.consts⟩

theorem compile_growing (n : Node) : Growing (compile n) := by
  induction n with
  | const d => exact .compileConst d
  | sym s => exact .compileSym s
  | quote d => exact .compileQuote d
  | lambda args body ih => exact .lambda ih
  | ite p a b hp ha hb => exact .bind hp fun _ => .bind ha fun _ => .bind hb fun _ => .pure _
  | set x v hv =>
    exact .bind (.envLookup x) fun _ => .bind hv fun _ => .bind (.setInstr _ _) fun _ => .pure _
  | define | begin | extend => exact .fail _
  | app f args hf ih =>
    unfold compile
    split
    · exact .bind (.compileOperands ih _) fun _ => .bind (.operationInstr _ _) fun _ => .pure _
    split
    · exact .compileBuiltin ih
    · refine .bind hf fun _ => .bind (.compileAll ih) fun _ => ?_
      split
      · exact .fail _
      · exact .pure _

end growing

/-- The variables the environments of the chain hold. -/
def scope (envs : List FuncEnv) : Symbol → Prop := fun x => ∃ env ∈ envs, (envRef env x).isSome

theorem scope_grows {envs envs' : List FuncEnv} (grow : List.Forall₂ EnvGrows envs envs') :
    scope envs' = scope envs := by
  funext x
  induction grow with
  | nil => rfl
  | cons h _ ih =>
    simp only [scope, List.mem_cons, exists_eq_or_imp, envRef, h.tbl, eq_iff_iff] at ih ⊢
    rw [ih]

/-- The computation returns in every state whose scope is Γ exactly when P holds of Γ. -/
def Accepts {α : Type} (c : CompM α) (P : (Symbol → Prop) → Prop) : Prop :=
  ∀ s, (∃ a s', Returns c s a s') ↔ P (scope s.envs)

section accepts
variable {α β : Type} {P Q : (Symbol → Prop) → Prop}

theorem Accepts.pure (a : α) : Accepts (pure a) fun _ => True := by
  intro s
  simp

theorem Accepts.fail (e : CompileError) : Accepts (fail e : CompM α) fun _ => False := by
  intro s
  simp

theorem Accepts.bind {c : CompM α} {f : α → CompM β} (grow : Growing c) (hc : Accepts c P)
    (hf : ∀ a, Accepts (f a) Q) : Accepts (c >>= f) fun Γ => P Γ ∧ Q Γ := by
  intro s
  simp only [returns_bind]
  constructor
  · rintro ⟨b, s', a, t, first, second⟩
    have same := scope_grows (grow _ _ _ first).envs
    exact ⟨(hc s).mp ⟨a, t, first⟩, same ▸ (hf a t).mp ⟨b, s', second⟩⟩
  · rintro ⟨hP, hQ⟩
    obtain ⟨a, t, first⟩ := (hc s).mpr hP
    have same := scope_grows (grow _ _ _ first).envs
    obtain ⟨b, s', second⟩ := (hf a t).mpr (same ▸ hQ)
    exact ⟨b, s', a, t, first, second⟩

theorem Accepts.then {c : CompM α} {f : α → CompM β} (grow : Growing c) (hc : Accepts c P)
    (hf : ∀ a, Accepts (f a) fun _ => True) : Accepts (c >>= f) P := by
  have := Accepts.bind grow hc hf
  simpa only [and_true] using this

theorem Accepts.map {c : CompM α} (hc : Accepts c P) (f : α → β) : Accepts (f <$> c) P := by
  intro s
  rw [← hc s]
  simp only [returns_map]
  constructor
  · rintro ⟨_, s', a, ran, _⟩
    exact ⟨a, s', ran⟩
  · rintro ⟨a, s', ran⟩
    exact ⟨_, s', a, ran, rfl⟩

theorem Accepts.congr {c : CompM α} (hc : Accepts c P) (same : ∀ Γ, P Γ ↔ Q Γ) : Accepts c Q :=
  fun s => (hc s).trans (same _)

theorem Accepts.makeConst (c : Const) : Accepts (makeConst c) fun _ => True := by
  intro s
  simp only [Returns, Compiler.makeConst, iff_true]
  split <;> exact ⟨_, _, rfl⟩

theorem lookupParent_isSome {envs : List FuncEnv} {name : Symbol} :
    (lookupParent envs name).isSome ↔ scope envs name := by
  induction envs with
  | nil => simp [lookupParent, scope]
  | cons env envs ih =>
    rw [lookupParent]
    cases h : envRef env name with
    | some idx => simp [scope, h]
    | none =>
      simp only [Option.isSome_map, ih]
      simp [scope, h]

theorem Accepts.lookupStatic (name : Symbol) :
    Accepts (lookupStatic name) fun _ => name ∈ builtinNames := by
  unfold Compiler.lookupStatic
  split
  · rename_i builtin
    exact ((Accepts.makeConst _).map _).congr fun _ => by simpa using builtin
  · rename_i other
    exact (Accepts.fail _).congr fun _ => by simpa using other

theorem lookupStatic_slot {name : Symbol} {s s' : CompState} {slot : Slot}
    (h : Returns (lookupStatic name) s slot s') : ∃ idx, slot = .inStatic idx := by
  unfold Compiler.lookupStatic at h
  split at h
  · rw [returns_map] at h
    obtain ⟨idx, _, same⟩ := h
    exact ⟨idx, same.symm⟩
  · simp at h

theorem envLookup_cases (name : Symbol) (s : CompState) :
    (scope s.envs name ∧ ∃ slot s', Returns (envLookup name) s slot s' ∧
        ∀ idx, slot ≠ .inStatic idx) ∨
      (¬ scope s.envs name ∧ ∀ r, envLookup name s = r ↔ lookupStatic name s = r) := by
  obtain ⟨envs, code, consts⟩ := s
  cases envs with
  | nil =>
    right
    simp [scope, envLookup]
  | cons env envs =>
    cases h : envRef env name with
    | some idx =>
      left
      refine ⟨⟨env, by simp, by simp [h]⟩, .inLocal idx, ⟨env :: envs, code, consts⟩, ?_, by simp⟩
      simp [Returns, envLookup, h]
    | none =>
      cases found : lookupParent envs name with
      | some p =>
        left
        obtain ⟨depth, idx, envs'⟩ := p
        have : scope envs name := lookupParent_isSome.mp (by simp [found])
        obtain ⟨e, he, hx⟩ := this
        refine ⟨⟨e, by simp [he], hx⟩, .inBind (envBind env depth idx).1,
          ⟨(envBind env depth idx).2 :: envs', code, consts⟩, ?_, by simp⟩
        simp [Returns, envLookup, h, found]
      | none =>
        right
        have : ¬ scope envs name := by
          rw [← lookupParent_isSome, found]
          simp
        refine ⟨?_, fun r => by simp [envLookup, h, found]⟩
        rintro ⟨e, he, hx⟩
        rcases List.mem_cons.mp he with rfl | he
        · simp [h] at hx
        · exact this ⟨e, he, hx⟩

theorem Accepts.envLookup (name : Symbol) :
    Accepts (envLookup name) fun Γ => Γ name ∨ name ∈ builtinNames := by
  intro s
  rcases envLookup_cases name s with ⟨bound, slot, s', ran, _⟩ | ⟨free, same⟩
  · simp only [bound, true_or, iff_true]
    exact ⟨slot, s', ran⟩
  · simp only [Returns, same, free, false_or]
    exact Accepts.lookupStatic name s

theorem Accepts.compileConst (d : Datum) :
    Accepts (compileConst d) fun _ => loadable d = true := by
  cases d <;> unfold Compiler.compileConst
  all_goals first
    | exact (Accepts.pure _).congr (by simp [loadable])
    | exact (Accepts.fail _).congr (by simp [loadable])
    | exact (Accepts.then (.makeConst _) (.makeConst _) fun _ => .pure _).congr (by simp [loadable])

theorem Accepts.compileQuote (d : Datum) : Accepts (compileQuote d) fun _ => True := by
  unfold Compiler.compileQuote
  split
  · exact .pure _
  · exact .then (.makeConst _) (.makeConst _) fun _ => .pure _

theorem Accepts.compileSym (name : Symbol) :
    Accepts (compileSym name) fun Γ => Γ name ∨ name ∈ builtinNames := by
  unfold Compiler.compileSym
  refine .then (.envLookup name) (.envLookup name) fun slot => ?_
  cases slot <;> exact .pure _

theorem operator_opcode {f : Node} (h : isOperator f = true) :
    ∃ op, operatorToOpcode (symName f) = some op ∧ (op = .opTypeTest ↔ isTypeTest f = true) := by
  cases f with
  | sym s =>
    simp only [isOperator, List.contains_eq_mem, decide_eq_true_eq] at h
    simp only [symName, isTypeTest, beq_iff_eq]
    revert s
    decide
  | _ => simp [isOperator] at h

theorem Accepts.operationInstr {f : Node} (operator : isOperator f = true) (args : List Node) :
    Accepts (operationInstr (symName f) args) fun _ => isTypeTest f = true → namesType args := by
  obtain ⟨op, found, typed⟩ := operator_opcode operator
  unfold Compiler.operationInstr
  by_cases h : isTypeTest f = true
  · have : op = .opTypeTest := typed.mpr h
    subst this
    rw [found]
    simp only [h, forall_const]
    match args with
    | .sym type :: rest =>
      have named : namesType (.sym type :: rest) ↔ type ∈ typeTests := by
        simp [namesType]
      simp only [named, ← typeTest_isSome]
      cases typeTest type with
      | some i => exact (Accepts.pure _).congr (by simp)
      | none => exact (Accepts.fail _).congr (by simp)
    | [] => exact (Accepts.fail _).congr (by simp [namesType])
    | .const _ :: _ | .quote _ :: _ | .lambda _ _ :: _ | .ite _ _ _ :: _ | .set _ _ :: _
    | .define _ _ :: _ | .begin _ :: _ | .extend _ :: _ | .app _ _ :: _ =>
      exact (Accepts.fail _).congr (by simp [namesType])
  · have other : op ≠ .opTypeTest := fun same => h (typed.mp same)
    rw [found]
    refine Accepts.congr ?_ fun _ => (iff_true_intro fun typed => absurd typed h).symm
    split
    · exact absurd (by simpa using ‹some op = some Op.opTypeTest›) other
    · exact absurd (by simpa using ‹some op = some Op.opTypeTest›) other
    · exact .pure _
    · exact absurd ‹some op = none› (by simp)

theorem Accepts.compileAll {xs : List Node}
    (h : ∀ x ∈ xs, Accepts (compile x) fun Γ => Clean Γ x) :
    Accepts (compileAll xs) fun Γ => CleanAll Γ xs := by
  induction xs with
  | nil => exact .pure _
  | cons x xs ih =>
    have rest := ih fun y hy => h y (by simp [hy])
    exact .bind (compile_growing x) (h x (by simp)) fun _ =>
      .then (.compileAll fun y _ => compile_growing y) rest fun _ => .pure _

theorem Accepts.makeBuiltin (name : Node) :
    Accepts (makeBuiltin name) fun _ => isSymbol name = true := by
  cases name with
  | sym x => exact (Accepts.makeConst _).congr fun _ => by simp [isSymbol]
  | _ => exact (Accepts.fail _).congr fun _ => by simp [isSymbol]

theorem Accepts.compileBuiltin {xs : List Node}
    (h : ∀ x ∈ xs, Accepts (compile x) fun Γ => Clean Γ x) :
    Accepts (compileBuiltin xs) fun Γ => CleanBuiltin Γ xs := by
  match xs with
  | [] | [_] => exact .fail _
  | cont :: name :: args =>
    unfold Compiler.compileBuiltin CleanBuiltin
    exact .bind (compile_growing cont) (h cont (by simp)) fun _ =>
      .bind (.makeBuiltin name) (.makeBuiltin name) fun _ =>
        .then (.compileAll fun x _ => compile_growing x)
          (.compileAll fun x member => h x (by simp [member])) fun _ => .pure _

theorem Accepts.compileOperands {xs : List Node}
    (h : ∀ x ∈ xs, Accepts (compile x) fun Γ => Clean Γ x) (typed : Bool) :
    Accepts (compileOperands typed xs) fun Γ => CleanOperands Γ typed xs := by
  match xs with
  | [] => exact .fail _
  | [x] =>
    unfold Compiler.compileOperands CleanOperands
    cases typed
    · simpa using h x (by simp)
    · exact (Accepts.fail _).congr (by simp)
  | x :: y :: rest =>
    unfold Compiler.compileOperands CleanOperands
    cases typed
    · simp only [Bool.false_eq_true, if_false, forall_const]
      exact .bind (compile_growing x) (h x (by simp)) fun _ =>
        .then (compile_growing y) (h y (by simp)) fun _ => .pure _
    · refine (Accepts.bind (.pure _) (.pure _) fun _ =>
        .then (compile_growing y) (h y (by simp)) fun _ => .pure _).congr ?_
      simp

theorem lookup_setFuncArgs {x : Symbol} (xs : List Symbol) (i : Nat) (tbl : List (Symbol × Nat)) :
    ((setFuncArgs xs i tbl).lookup x).isSome = (xs.contains x || (tbl.lookup x).isSome) := by
  induction xs generalizing i tbl with
  | nil => simp only [setFuncArgs, List.contains_nil, Bool.false_or]
  | cons y xs ih =>
    rw [setFuncArgs, ih, List.lookup_cons]
    by_cases h : x = y
    · simp [h]
    · simp [h, beq_false_of_ne h]

theorem makeEnv_scope (envs : List FuncEnv) (args : Formals) :
    scope (makeEnv envs args :: envs) = within (scope envs) args.names := by
  funext x
  have here : (envRef (makeEnv envs args) x).isSome ↔ x ∈ args.names := by
    obtain ⟨fixed, rest⟩ := args
    cases rest with
    | none =>
      simp only [envRef, makeEnv, lookup_setFuncArgs, Formals.names]
      simp
    | some r =>
      simp only [envRef, makeEnv, Formals.names, List.lookup_cons]
      by_cases h : x = r
      · simp [h]
      · simp only [beq_false_of_ne h, lookup_setFuncArgs]
        simp [h]
  simp only [scope, within, List.mem_cons, exists_eq_or_imp, here, eq_iff_iff]
  exact or_comm

theorem defineAll_scope (names : List Symbol) (env : FuncEnv) (envs : List FuncEnv) :
    scope (names.foldl envDefine env :: envs) = within (scope (env :: envs)) names := by
  induction names generalizing env with
  | nil => simp
  | cons y names ih =>
    rw [List.foldl_cons, ih]
    funext x
    simp only [scope, within, List.mem_cons, exists_eq_or_imp, envRef, envDefine, List.lookup_cons,
      eq_iff_iff]
    by_cases h : x = y
    · simp [h]
    · simp [h, beq_false_of_ne h]

theorem Accepts.lambda {args : Formals} {body : List Node}
    (h : ∀ x ∈ body, Accepts (compile x) fun Γ => Clean Γ x) :
    Accepts (compile (.lambda args body)) fun Γ => Clean Γ (.lambda args body) := by
  intro s
  simp only [returns_lambda, Clean, cleanBody_iff]
  by_cases some : body = []
  · subst some
    simp [Compiler.compileBody]
  have forms : Accepts (Compiler.compileAll (bodyForms body)) fun Γ => CleanAll Γ (bodyForms body) := by
    exact Accepts.compileAll fun x hx => h x (bodyForms_subset body hx)
  rw [← makeEnv_scope, ← defineAll_scope]
  have inner := forms { s with envs := (extendNames body).foldl envDefine (makeEnv s.envs args) ::
    s.envs }
  simp only [some, ne_eq, not_false_eq_true, true_and]
  simp only at inner
  rw [← inner]
  constructor
  · rintro ⟨_, _, compiled, _, _, t, ran, _⟩
    exact ⟨compiled, t, (returns_body some s _ _).mp ran⟩
  · rintro ⟨compiled, t, ran⟩
    have grow := (Growing.compileAll (fun x _ => compile_growing x) _ _ _ ran).envs
    obtain ⟨env, envs, _, _, same⟩ := List.forall₂_cons_left_iff.mp grow
    exact ⟨_, _, compiled, env, envs, t, (returns_body some s _ _).mpr ran, same, rfl, rfl⟩

theorem Accepts.set {x : Symbol} {v : Node} (h : Accepts (compile v) fun Γ => Clean Γ v) :
    Accepts (compile (.set x v)) fun Γ => Clean Γ (.set x v) := by
  intro s
  unfold compile Clean
  simp only [returns_bind, returns_pure]
  rcases envLookup_cases x s with ⟨bound, slot, t, found, notStatic⟩ | ⟨free, same⟩
  · simp only [bound, true_and]
    have valueOk := h t
    simp only [scope_grows (Growing.envLookup x _ _ _ found).envs] at valueOk
    rw [← valueOk]
    constructor
    · rintro ⟨_, _, slot', t', found', code, u, ran, _⟩
      obtain ⟨rfl, rfl⟩ := found.unique found'
      exact ⟨code, u, ran⟩
    · rintro ⟨code, u, ran⟩
      have instr : ∃ i, Returns (setInstr x slot) u i u := by
        cases slot with
        | inLocal idx => exact ⟨_, rfl⟩
        | inBind idx => exact ⟨_, rfl⟩
        | inStatic idx => exact absurd rfl (notStatic idx)
      obtain ⟨i, instr⟩ := instr
      exact ⟨_, u, slot, t, found, code, u, ran, i, u, instr, rfl, rfl⟩
  · simp only [free, false_and, iff_false]
    rintro ⟨_, _, slot, t, found, code, u, ran, i, w, instr, _⟩
    obtain ⟨idx, rfl⟩ := lookupStatic_slot ((same _).mp found)
    simp [Compiler.setInstr] at instr

/- Compiling a node succeeds exactly when it is clean for the variables in scope. -/
theorem compile_accepts (n : Node) : Accepts (compile n) fun Γ => Clean Γ n := by
  induction n with
  | const d => exact .compileConst d
  | sym s => exact .compileSym s
  | quote d => exact .compileQuote d
  | lambda args body ih => exact .lambda ih
  | ite p a b hp ha hb =>
    exact .bind (compile_growing p) hp fun _ => .bind (compile_growing a) ha fun _ =>
      .then (compile_growing b) hb fun _ => .pure _
  | set x v hv => exact .set hv
  | define | begin | extend => exact .fail _
  | app f args hf ih =>
    unfold compile Clean
    split
    · rename_i operator
      refine (Accepts.bind (.compileOperands (fun x _ => compile_growing x) _)
        (.compileOperands ih _) fun _ => .then (.operationInstr _ _)
          (.operationInstr operator args) fun _ => .pure _).congr fun Γ => and_comm
    split
    · exact .compileBuiltin ih
    · refine Accepts.bind (compile_growing f) hf fun _ =>
        .bind (.compileAll fun x _ => compile_growing x) (.compileAll ih) fun _ => ?_
      split
      · rename_i empty
        simp only [Bool.and_eq_true, List.isEmpty_iff] at empty
        exact (Accepts.fail _).congr fun _ => by simp [empty]
      · rename_i full
        simp only [Bool.and_eq_true, List.isEmpty_iff, not_and] at full
        exact (Accepts.pure _).congr fun _ => by simpa using full

/- The code generator accepts exactly the closed clean programs. -/
theorem startCompile_accepts (root : Node) :
    (∃ ilr, startCompile root = .ok ilr) ↔ Clean (fun _ => False) root := by
  have none : scope [] = fun _ => False := by
    funext x
    simp [scope]
  have := compile_accepts root ⟨[], [], []⟩
  simp only [none] at this
  rw [← this]
  simp only [startCompile, Returns]
  cases compile root ⟨[], [], []⟩ with
  | error e => simp
  | ok p => simp [Prod.ext_iff]

end accepts

end LGears.Compiler
