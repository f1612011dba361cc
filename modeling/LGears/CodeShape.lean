import LGears.CodeEmitted

/- What else is known of compiled code: where functions are loaded without an environment,
   which functions keep their variables on the heap, and what the bindmaps are for. -/
namespace LGears.CodeShape
open PrimitivesInfo Opcode StateExcept Compiler CodeTables CodeEmitted

/- The first instruction of the code of a node makes a closure. -/
mutual
def startsWithLambda : Node → Bool
  | .lambda _ _ => true
  | .ite pred _ _ => startsWithLambda pred
  | .set _ value => startsWithLambda value
  | .app f args =>
    if isOperator f then
      (if isTypeTest f then secondStarts args else firstStarts args)
    else if optimizeCont f args then false
    else match args with
      | [] => false
      | x :: _ => startsWithLambda x
  | _ => false
def firstStarts : List Node → Bool
  | [] => false
  | x :: _ => startsWithLambda x
def secondStarts : List Node → Bool
  | [] => false
  | _ :: xs => firstStarts xs
end

/-- The code of the operator of a call, which is about to be called. -/
def calledBare (f : Node) (code : List Bool) : List Bool :=
  if startsWithLambda f then true :: code.tail else code

/-- The code of the operands of a call. -/
def passedBare (f : Node) (args : List Node) (code : List Bool) : List Bool :=
  if optimizeCont f args then true :: code.tail else code

/- For each instruction of a node, whether it loads a function without an environment. -/
mutual
def bare : Node → List Bool
  | .ite pred conseq alt => bare pred ++ false :: bare conseq ++ false :: bare alt
  | .set _ value => bare value ++ [false]
  | .app f args =>
    if isOperator f then bareOperands (isTypeTest f) args ++ [false]
    else if isBuiltinCall f then bareBuiltin args ++ [false, false]
    else passedBare f args (bareAll args) ++ calledBare f (bare f) ++ [false]
  | .begin _ | .define _ _ | .extend _ => []
  | _ => [false]
def bareAll : List Node → List Bool
  | [] => []
  | x :: xs => bare x ++ bareAll xs
def bareBuiltin : List Node → List Bool
  | [] | [_] => []
  | cont :: _ :: args => bare cont ++ bareAll args
def bareOperands (typed : Bool) : List Node → List Bool
  | [] => []
  | [x] => bare x
  | x :: y :: _ => (if typed then [] else bare x) ++ bare y
end

/- The variables that a node looks up, those of its lambda expressions included. -/
mutual
def free : Node → List Symbol
  | .sym x => [x]
  | .lambda args body => (freeAll body).filter (· ∉ frameOf args body)
  | .ite pred conseq alt => free pred ++ free conseq ++ free alt
  | .set x value => x :: free value
  | .app f args =>
    if isOperator f then freeOperands (isTypeTest f) args
    else if isBuiltinCall f then freeBuiltin args
    else free f ++ freeAll args
  | _ => []
def freeAll : List Node → List Symbol
  | [] => []
  | x :: xs => free x ++ freeAll xs
def freeBuiltin : List Node → List Symbol
  | [] | [_] => []
  | cont :: _ :: args => free cont ++ freeAll args
def freeOperands (typed : Bool) : List Node → List Symbol
  | [] => []
  | [x] => free x
  | x :: y :: _ => (if typed then [] else free x) ++ free y
end

/- The variables that the lambda expressions of a node look up. -/
mutual
def caught : Node → List Symbol
  | .lambda args body => (freeAll body).filter (· ∉ frameOf args body)
  | .ite pred conseq alt => caught pred ++ caught conseq ++ caught alt
  | .set _ value => caught value
  | .app f args =>
    if isOperator f then caughtOperands (isTypeTest f) args
    else if isBuiltinCall f then caughtBuiltin args
    else caught f ++ caughtAll args
  | _ => []
def caughtAll : List Node → List Symbol
  | [] => []
  | x :: xs => caught x ++ caughtAll xs
def caughtBuiltin : List Node → List Symbol
  | [] | [_] => []
  | cont :: _ :: args => caught cont ++ caughtAll args
def caughtOperands (typed : Bool) : List Node → List Symbol
  | [] => []
  | [x] => caught x
  | x :: y :: _ => (if typed then [] else caught x) ++ caught y
end

/-- Whether the instruction loads a function without an environment. -/
def isBare (instr : Instr) : Bool := instr.op == .loadFunc

/-- What is known of the function of a lambda expression beside `FuncOf`. -/
structure Snug (l : Lambda) (f : IFunc) : Prop where
  heap : ∀ x ∈ caughtAll l.body, x ∈ l.frame → f.heap = true
  bindmap : ∀ depth ∈ f.bindmap, ∃ x ∈ freeAll l.body, x ∉ l.frame ∧
    ∃ idx, Enclosing l.scope x depth idx
  code : f.code.map isBare = bareAll (bodyForms l.body)

/- The instructions of a node. -/

/-- Whatever the computation returns has P. -/
structure Produces {α : Type} (c : CompM α) (P : α → Prop) : Prop where
  returned : ∀ s a s', Returns c s a s' → P a

/-- What is known of the code of a node without its tables. -/
structure Shaped (n : Node) (code : List Instr) : Prop where
  some : code ≠ []
  bare : code.map isBare = bare n
  first : lambdaCall code = startsWithLambda n

section produces
variable {α β : Type} {P : α → Prop} {Q : β → Prop}

theorem Produces.pure {a : α} (right : P a) : Produces (pure a) P := by
  constructor
  intro s b s' ran
  rw [returns_pure] at ran
  exact ran.1 ▸ right

theorem Produces.fail {e : CompileError} : Produces (fail e : CompM α) P :=
  ⟨fun _ _ _ ran => absurd ran returns_fail⟩

theorem Produces.bind {c : CompM α} {f : α → CompM β} (first : Produces c P)
    (rest : ∀ a, P a → Produces (f a) Q) : Produces (c >>= f) Q := by
  constructor
  intro s b s' ran
  rw [returns_bind] at ran
  obtain ⟨a, t, ran, later⟩ := ran
  exact (rest a (first.returned s a t ran)).returned t b s' later

theorem Produces.any (c : CompM α) : Produces c fun _ => True :=
  ⟨fun _ _ _ _ => trivial⟩

end produces

section shape
variable {code code' : List Instr}

theorem startsWithLambda_operation {f : Node} {args : List Node} (operator : isOperator f = true) :
    startsWithLambda (.app f args) =
      if isTypeTest f then secondStarts args else firstStarts args := by
  rw [startsWithLambda.eq_def]
  simp only [operator, if_true]

theorem startsWithLambda_call {f : Node} {args : List Node} (other : ¬ isOperator f = true) :
    startsWithLambda (.app f args) = if optimizeCont f args then false else firstStarts args := by
  rw [startsWithLambda.eq_def]
  cases args <;> simp [other, firstStarts]

theorem lambdaCall_append (some : code ≠ []) : lambdaCall (code ++ code') = lambdaCall code := by
  cases code with
  | nil => exact absurd rfl some
  | cons instr code => rfl

theorem rewriteFunc_some (some : code ≠ []) : rewriteFunc code ≠ [] := by
  cases code with
  | nil => exact some
  | cons instr code => simp [rewriteFunc]

theorem rewriteFunc_bare (some : code ≠ []) :
    (rewriteFunc code).map isBare = true :: (code.map isBare).tail := by
  cases code with
  | nil => exact absurd rfl some
  | cons instr code => rfl

theorem rewriteFunc_first : lambdaCall (rewriteFunc code) = false := by
  cases code <;> rfl

theorem shaped_one {n : Node} {instr : Instr} (plain : instr.op ≠ .loadFunc)
    (open' : instr.op ≠ .loadClosure) (one : bare n = [false]) (none : startsWithLambda n = false) :
    Shaped n [instr] := by
  constructor
  · simp
  · rw [one]
    simp [isBare, plain]
  · rw [none]
    simp [lambdaCall, open']

theorem produces_const (d : Datum) : Produces (compileConst d) (Shaped (.const d)) := by
  cases d <;> unfold compileConst
  all_goals first
    | exact .fail
    | exact .pure (shaped_one (by simp) (by simp) rfl rfl)
    | exact .bind (.any _) fun _ _ => .pure (shaped_one (by simp) (by simp) rfl rfl)

theorem produces_quote (d : Datum) : Produces (compileQuote d) (Shaped (.quote d)) := by
  unfold compileQuote
  split
  · exact .pure (shaped_one (by simp) (by simp) rfl rfl)
  · exact .bind (.any _) fun _ _ => .pure (shaped_one (by simp) (by simp) rfl rfl)

theorem produces_sym (x : Symbol) : Produces (compileSym x) (Shaped (.sym x)) := by
  apply Produces.bind (.any _)
  intro slot _
  cases slot <;> exact .pure (shaped_one (by simp) (by simp) rfl rfl)

theorem produces_set (name : Symbol) (slot : Slot) :
    Produces (setInstr name slot) fun instr => isBare instr = false := by
  cases slot with
  | inLocal => exact .pure rfl
  | inBind => exact .pure rfl
  | inStatic => exact .fail

theorem produces_operation (op : Symbol) (args : List Node) :
    Produces (operationInstr op args) fun instr => isBare instr = false ∧ instr.op ≠ .loadClosure := by
  have plain : ∀ {c : Op}, operatorToOpcode op = some c → c ≠ .loadFunc ∧ c ≠ .loadClosure := by
    intro c found
    unfold operatorToOpcode at found
    split at found <;> simp at found <;> simp [← found]
  unfold operationInstr
  split
  · split
    · exact .pure ⟨rfl, by simp⟩
    · exact .fail
  · exact .fail
  · rename_i found _
    exact .pure ⟨by simp [isBare, plain found], (plain found).2⟩
  · exact .fail

/-- The codes of several nodes. -/
structure ShapedAll (xs : List Node) (code : List Instr) : Prop where
  bare : code.map isBare = bareAll xs
  some : xs ≠ [] → code ≠ []
  first : ∀ x ys, xs = x :: ys → lambdaCall code = startsWithLambda x

theorem produces_all {xs : List Node} (each : ∀ x ∈ xs, Produces (compile x) (Shaped x)) :
    Produces (compileAll xs) (ShapedAll xs) := by
  induction xs with
  | nil => exact .pure ⟨rfl, by simp, by simp⟩
  | cons x xs ih =>
    apply Produces.bind (each x (by simp))
    intro code shaped
    apply Produces.bind (ih fun y member => each y (by simp [member]))
    intro rest others
    apply Produces.pure
    constructor
    · rw [List.map_append, shaped.bare, others.bare, bareAll]
    · intro _
      simp [shaped.some]
    · intro y ys same
      cases same
      rw [lambdaCall_append shaped.some, shaped.first]

theorem produces_ite {p a b : Node} (pred : Produces (compile p) (Shaped p))
    (conseq : Produces (compile a) (Shaped a)) (alt : Produces (compile b) (Shaped b)) :
    Produces (compile (.ite p a b)) (Shaped (.ite p a b)) := by
  unfold compile
  apply Produces.bind pred
  intro code₁ first
  apply Produces.bind conseq
  intro code₂ second
  apply Produces.bind alt
  intro code₃ third
  apply Produces.pure
  constructor
  · simp [ifCode]
  · simp [ifCode, bare, first.bare, second.bare, third.bare, isBare]
  · rw [ifCode, List.append_assoc, lambdaCall_append first.some, first.first, startsWithLambda]

/-- The code of the operands of an operation. -/
structure ShapedOperands (typed : Bool) (args : List Node) (code : List Instr) : Prop where
  some : code ≠ []
  bare : code.map isBare = bareOperands typed args
  first : lambdaCall code = if typed then secondStarts args else firstStarts args

theorem produces_operands {typed : Bool} {args : List Node}
    (each : ∀ x ∈ args, Produces (compile x) (Shaped x)) :
    Produces (compileOperands typed args) (ShapedOperands typed args) := by
  match args with
  | [] => exact .fail
  | [x] =>
    cases typed with
    | true => exact .fail
    | false =>
      constructor
      intro s code s' ran
      have shaped := (each x (by simp)).returned s code s' ran
      exact ⟨shaped.some, shaped.bare, shaped.first⟩
  | x :: y :: rest =>
    unfold compileOperands
    cases typed with
    | true =>
      apply Produces.bind (P := fun first => first = []) (.pure rfl)
      intro first empty
      apply Produces.bind (each y (by simp))
      intro second shaped
      apply Produces.pure
      rw [empty, List.nil_append]
      exact ⟨shaped.some, shaped.bare, shaped.first⟩
    | false =>
      apply Produces.bind (each x (by simp))
      intro first before
      apply Produces.bind (each y (by simp))
      intro second shaped
      apply Produces.pure
      constructor
      · simp [before.some]
      · rw [List.map_append, before.bare, shaped.bare]
        rfl
      · rw [lambdaCall_append before.some, before.first]
        rfl

theorem optimizeCont_builtin {f : Node} (builtin : isBuiltinCall f = true) (args : List Node) :
    optimizeCont f args = false := by
  cases f with
  | sym s =>
    rw [isBuiltinCall, beq_iff_eq] at builtin
    subst builtin
    have unsafe' : contSafe "builtin-call" = false := by decide
    cases args <;> simp [optimizeCont, unsafe']
  | _ => cases builtin

theorem produces_builtin {args : List Node} (each : ∀ x ∈ args, Produces (compile x) (Shaped x)) :
    Produces (compileBuiltin args) fun code =>
      code ≠ [] ∧ code.map isBare = bareBuiltin args ++ [false, false] ∧
        lambdaCall code = firstStarts args := by
  match args with
  | [] | [_] => exact .fail
  | cont :: name :: args =>
    unfold compileBuiltin
    apply Produces.bind (each cont (by simp))
    intro first shaped
    apply Produces.bind (.any _)
    intro k _
    apply Produces.bind (produces_all fun x member => each x (by simp [member]))
    intro rest others
    apply Produces.pure
    refine ⟨by simp, ?_, ?_⟩
    · rw [List.map_append, List.map_append, shaped.bare, others.bare, bareBuiltin]
      rfl
    · rw [List.append_assoc, lambdaCall_append shaped.some, shaped.first, firstStarts]

theorem produces_builtinCall {f : Node} {args : List Node} (builtin : isBuiltinCall f = true)
    (each : ∀ x ∈ args, Produces (compile x) (Shaped x)) :
    Produces (compileBuiltin args) (Shaped (.app f args)) := by
  have other := not_operator_builtin builtin
  constructor
  intro s code s' ran
  obtain ⟨some, bares, first⟩ := (produces_builtin each).returned s code s' ran
  constructor
  · exact some
  · rw [bares, bare, if_neg other, if_pos builtin]
  · rw [first, startsWithLambda_call other, optimizeCont_builtin builtin]
    rfl

theorem produces_app {f : Node} {args : List Node} (func : Produces (compile f) (Shaped f))
    (each : ∀ x ∈ args, Produces (compile x) (Shaped x)) :
    Produces (compile (.app f args)) (Shaped (.app f args)) := by
  unfold compile
  split
  · rename_i operator
    apply Produces.bind (produces_operands each)
    intro operands shaped
    apply Produces.bind (produces_operation _ _)
    intro instr plain
    apply Produces.pure
    constructor
    · simp
    · rw [List.map_append, shaped.bare, bare, if_pos operator]
      simp [plain.1]
    · rw [lambdaCall_append shaped.some, shaped.first, startsWithLambda_operation operator]
  · rename_i other
    split
    · rename_i builtin
      exact produces_builtinCall builtin each
    rename_i plain
    apply Produces.bind func
    intro fcode head
    apply Produces.bind (produces_all each)
    intro code shaped
    split
    · exact .fail
    rename_i passed
    apply Produces.pure
    have fsome : (if lambdaCall fcode then rewriteFunc fcode else fcode) ≠ [] := by
      split
      · exact rewriteFunc_some head.some
      · exact head.some
    constructor
    · simp [callCode]
    · rw [callCode, List.map_append, List.map_append, bare, if_neg other, if_neg plain]
      congr 2
      · unfold passedBare
        split
        · rename_i optimized
          have args' : args ≠ [] := by
            intro empty
            rw [empty] at optimized
            cases f <;> simp [optimizeCont] at optimized
          rw [rewriteFunc_bare (shaped.some args'), shaped.bare]
        · exact shaped.bare
      · unfold calledBare
        rw [head.first]
        split
        · rw [rewriteFunc_bare head.some, head.bare]
        · exact head.bare
    · rw [startsWithLambda_call other, callCode]
      cases args with
      | nil =>
        have empty : code = [] := List.map_eq_nil_iff.mp shaped.bare
        have none : optimizeCont f [] = false := by cases f <;> rfl
        simp only [none, Bool.false_eq_true, if_false, empty, List.nil_append, firstStarts]
        rw [lambdaCall_append fsome]
        split
        · exact rewriteFunc_first
        · rename_i plain
          simpa using plain
      | cons x xs =>
        have some := shaped.some (by simp)
        by_cases optimized : optimizeCont f (x :: xs) = true
        · rw [if_pos optimized, if_pos optimized, List.append_assoc,
            lambdaCall_append (rewriteFunc_some some), rewriteFunc_first]
        · rw [if_neg optimized, if_neg optimized, List.append_assoc, lambdaCall_append some]
          exact shaped.first x xs rfl

theorem compile_shaped (n : Node) : Produces (compile n) (Shaped n) := by
  induction n with
  | const d => exact produces_const d
  | sym x => exact produces_sym x
  | quote d => exact produces_quote d
  | lambda args body _ =>
    constructor
    intro s code s' ran
    rw [returns_lambda] at ran
    obtain ⟨_, _, _, _, _, _, rfl, _⟩ := ran
    exact ⟨by simp, rfl, rfl⟩
  | ite p a b hp ha hb => exact produces_ite hp ha hb
  | set x v hv =>
    unfold compile
    apply Produces.bind (.any _)
    intro slot _
    apply Produces.bind hv
    intro code shaped
    apply Produces.bind (produces_set x slot)
    intro instr plain
    apply Produces.pure
    constructor
    · simp
    · rw [List.map_append, shaped.bare, bare]
      simp [plain]
    · rw [lambdaCall_append shaped.some, shaped.first, startsWithLambda]
  | define | begin | extend =>
    unfold compile
    exact .fail
  | app f args hf ih => exact produces_app hf ih

end shape

/- The environments of the functions that are being compiled. -/

/-- The environment of the function of this depth is on the heap. -/
def OnHeap (envs : List FuncEnv) (depth : Nat) : Prop :=
  ∀ env, envs.reverse[depth]? = some env → env.onheap = true

/-- The variable belongs to a function around the innermost one. -/
def Outer (scope : List (List Symbol)) (x : Symbol) (depth idx : Nat) : Prop :=
  ∃ frame outer, scope = frame :: outer ∧ x ∉ frame ∧ Enclosing outer x depth idx

/-- What the computation has done to the environments when the node looks up the names, and its
    lambda expressions those that are caught. -/
structure Tracked (scope : List (List Symbol)) (s : CompState) (names inner : List Symbol)
    (ls : List Lambda) (s' : CompState) : Prop where
  stands : Stands scope s'
  grows : Grows s s'
  bindmap : ∀ env rest, s.envs = env :: rest → ∀ env' rest', s'.envs = env' :: rest' →
    ∀ depth ∈ env'.bindmap, depth ∈ env.bindmap ∨ ∃ x ∈ names, ∃ idx, Outer scope x depth idx
  others : ∀ env rest, s.envs = env :: rest → ∀ env' rest', s'.envs = env' :: rest' →
    rest'.map (·.bindmap) = rest.map (·.bindmap)
  outer : ∀ x ∈ names, ∀ depth idx, Outer scope x depth idx → OnHeap s'.envs depth
  caught : ∀ x ∈ inner, ∀ depth idx, Enclosing scope x depth idx → OnHeap s'.envs depth
  funcs : ∃ new, s'.codeStore = new.reverse ++ s.codeStore ∧ List.Forall₂ Snug ls new

/-- Every run of the computation does so. -/
structure Tracks {α : Type} (scope : List (List Symbol)) (names inner : List Symbol)
    (ls : List Lambda) (c : CompM α) : Prop where
  tracked : ∀ s a s', Stands scope s → Returns c s a s' → Tracked scope s names inner ls s'

section tracks
variable {α β : Type} {scope : List (List Symbol)} {s s' t : CompState}
  {names names' inner inner' : List Symbol} {ls ms : List Lambda}

theorem OnHeap.later {depth : Nat} (here : OnHeap s.envs depth) (grows : Grows s s') :
    OnHeap s'.envs depth := by
  intro env' found
  have both : List.Forall₂ EnvGrows s.envs.reverse s'.envs.reverse :=
    List.rel_reverse grows.envs
  have inside := (List.getElem?_eq_some_iff.mp found).1
  have length := both.length_eq
  obtain ⟨env, at_depth⟩ : ∃ env, s.envs.reverse[depth]? = some env :=
    ⟨_, List.getElem?_eq_getElem (by omega)⟩
  have grown : EnvGrows env env' := by
    have each := (List.forall₂_iff_get.mp both).2 depth (by omega) (by omega)
    rw [List.getElem?_eq_some_iff] at at_depth found
    obtain ⟨_, rfl⟩ := at_depth
    obtain ⟨_, rfl⟩ := found
    exact each
  exact grown.onheap (here env at_depth)

theorem Tracked.refl (stands : Stands scope s) : Tracked scope s [] [] [] s where
  stands := stands
  grows := .refl s
  bindmap env rest same env' rest' same' depth member := by
    rw [same] at same'
    cases same'
    exact .inl member
  others env rest same env' rest' same' := by
    rw [same] at same'
    cases same'
    rfl
  outer := by simp
  caught := by simp
  funcs := ⟨[], rfl, .nil⟩

theorem Tracked.trans (first : Tracked scope s names inner ls t)
    (second : Tracked scope t names' inner' ms s') :
    Tracked scope s (names ++ names') (inner ++ inner') (ls ++ ms) s' where
  stands := second.stands
  grows := first.grows.trans second.grows
  bindmap env rest same env' rest' same' depth member := by
    obtain ⟨env₁, rest₁, _, _, mid⟩ := List.forall₂_cons_left_iff.mp (same ▸ first.grows.envs)
    rcases second.bindmap env₁ rest₁ mid env' rest' same' depth member with before | found
    · rcases first.bindmap env rest same env₁ rest₁ mid depth before with early | found
      · exact .inl early
      · obtain ⟨x, named, idx, outer⟩ := found
        exact .inr ⟨x, by simp [named], idx, outer⟩
    · obtain ⟨x, named, idx, outer⟩ := found
      exact .inr ⟨x, by simp [named], idx, outer⟩
  others env rest same env' rest' same' := by
    obtain ⟨env₁, rest₁, _, _, mid⟩ := List.forall₂_cons_left_iff.mp (same ▸ first.grows.envs)
    rw [second.others env₁ rest₁ mid env' rest' same', first.others env rest same env₁ rest₁ mid]
  outer x named depth idx outer := by
    rcases List.mem_append.mp named with early | late
    · exact (first.outer x early depth idx outer).later second.grows
    · exact second.outer x late depth idx outer
  caught x named depth idx enclosing := by
    rcases List.mem_append.mp named with early | late
    · exact (first.caught x early depth idx enclosing).later second.grows
    · exact second.caught x late depth idx enclosing
  funcs := by
    obtain ⟨new, store, right⟩ := first.funcs
    obtain ⟨new', store', right'⟩ := second.funcs
    exact ⟨new ++ new', by simp [store, store'], List.rel_append right right'⟩

theorem Tracks.pure (a : α) : Tracks scope [] [] [] (pure a) := by
  constructor
  intro s b s' stands ran
  rw [returns_pure] at ran
  exact ran.2 ▸ .refl stands

theorem Tracks.fail {e : CompileError} : Tracks scope names inner ls (fail e : CompM α) :=
  ⟨fun _ _ _ _ ran => absurd ran returns_fail⟩

theorem Tracks.bind {c : CompM α} {k : α → CompM β} (first : Tracks scope names inner ls c)
    (second : ∀ a, Tracks scope names' inner' ms (k a)) :
    Tracks scope (names ++ names') (inner ++ inner') (ls ++ ms) (c >>= k) := by
  constructor
  intro s b s' stands ran
  rw [returns_bind] at ran
  obtain ⟨a, t, ran, later⟩ := ran
  have before := first.tracked s a t stands ran
  exact before.trans ((second a).tracked t b s' before.stands later)

theorem Tracks.quiet {c : CompM α} {Q : Tables → IFunc → α → Prop} (emits : Emits scope [] c Q)
    (same : ∀ s a s', Returns c s a s' → s'.envs = s.envs ∧ s'.codeStore = s.codeStore)
    (grows : Growing c) : Tracks scope [] [] [] c := by
  constructor
  intro s a s' stands ran
  obtain ⟨envs, store⟩ := same s a s' ran
  constructor
  · exact (emits s a s' stands ran).1.stands
  · exact grows s a s' ran
  · intro env rest here env' rest' there depth member
    rw [envs, here] at there
    cases there
    exact .inl member
  · intro env rest here env' rest' there
    rw [envs, here] at there
    cases there
    rfl
  · simp
  · simp
  · exact ⟨[], by simp [store], .nil⟩

theorem Tracks.makeConst (c : Const) : Tracks scope [] [] [] (makeConst c) := by
  apply Tracks.quiet (Emits.makeConst c) _ (.makeConst c)
  intro s i s' ran
  simp only [Returns, Compiler.makeConst] at ran
  split at ran <;> cases ran <;> exact ⟨rfl, rfl⟩

/- A variable that is looked up. -/

theorem chain_length {envs : List FuncEnv} {scope : List (List Symbol)} (chain : Chain envs scope) :
    envs.length = scope.length := by
  induction envs generalizing scope with
  | nil =>
    cases scope with
    | nil => rfl
    | cons => exact chain.elim
  | cons env envs ih =>
    cases scope with
    | nil => exact chain.elim
    | cons frame outer => rw [List.length_cons, List.length_cons, ih chain.2]

theorem enclosing_lt {scope : List (List Symbol)} {x : Symbol} {depth idx : Nat}
    (enclosing : Enclosing scope x depth idx) : depth < scope.length := by
  obtain ⟨frame, there, _⟩ := enclosing_frame enclosing
  simpa using (List.getElem?_eq_some_iff.mp there).1

theorem enclosing_unique {scope : List (List Symbol)} {x : Symbol} {depth idx depth' idx' : Nat}
    (one : Enclosing scope x depth idx) (other : Enclosing scope x depth' idx') :
    depth = depth' ∧ idx = idx' := by
  have slots : ∀ {frame : List Symbol} {i j : Nat}, SlotOf frame x i → SlotOf frame x j → i ≤ j := by
    intro frame i j first second
    by_contra after
    exact second.last i (by omega) first.named
  induction scope with
  | nil => exact one.elim
  | cons frame outer ih =>
    rcases one with ⟨slot, here⟩ | ⟨absent, further⟩
    · rcases other with ⟨slot', here'⟩ | ⟨absent', _⟩
      · exact ⟨here.trans here'.symm, Nat.le_antisymm (slots slot slot') (slots slot' slot)⟩
      · exact absurd (List.mem_of_getElem? slot.named) absent'
    · rcases other with ⟨slot', _⟩ | ⟨_, further'⟩
      · exact absurd (List.mem_of_getElem? slot'.named) absent
      · exact ih further further'

theorem slotOf_mem {frame : List Symbol} {x : Symbol} (member : x ∈ frame) :
    ∃ idx, SlotOf frame x idx := by
  cases found : frame.zipIdx.reverse.lookup x with
  | none => exact absurd member (lookup_absent.mp found)
  | some idx => exact ⟨idx, lookup_frame.mp found⟩

theorem enclosing_mem {scope : List (List Symbol)} {x : Symbol} {depth idx : Nat}
    (enclosing : Enclosing scope x depth idx) : ∃ frame ∈ scope, x ∈ frame := by
  induction scope with
  | nil => exact enclosing.elim
  | cons frame outer ih =>
    rcases enclosing with ⟨slot, _⟩ | ⟨_, further⟩
    · exact ⟨frame, by simp, List.mem_of_getElem? slot.named⟩
    · obtain ⟨frame', member, named⟩ := ih further
      exact ⟨frame', by simp [member], named⟩

theorem lookupParent_bindmap {envs envs' : List FuncEnv} {x : Symbol} {depth idx : Nat}
    (found : lookupParent envs x = some (depth, idx, envs')) :
    envs'.map (·.bindmap) = envs.map (·.bindmap) := by
  induction envs generalizing envs' with
  | nil => simp [lookupParent] at found
  | cons env envs ih =>
    rw [lookupParent] at found
    split at found
    · cases found
      rfl
    · simp only [Option.map_eq_some_iff, Prod.exists, Prod.mk.injEq] at found
      obtain ⟨_, _, rest, found, rfl, rfl, rfl⟩ := found
      rw [List.map_cons, List.map_cons, ih found]

theorem lookupParent_onHeap {envs envs' : List FuncEnv} {outer : List (List Symbol)} {x : Symbol}
    {depth idx : Nat} (chain : Chain envs outer)
    (found : lookupParent envs x = some (depth, idx, envs')) : OnHeap envs' depth := by
  induction envs generalizing outer envs' with
  | nil => simp [lookupParent] at found
  | cons env envs ih =>
    cases outer with
    | nil => exact chain.elim
    | cons frame outer =>
      obtain ⟨of, chain⟩ := chain
      rw [lookupParent] at found
      cases here : envRef env x with
      | some i =>
        rw [here] at found
        cases found
        intro env' at_depth
        rw [of.depth, List.reverse_cons, ← chain_length chain, ← List.length_reverse,
          List.getElem?_concat_length, Option.some.injEq] at at_depth
        rw [← at_depth]
      | none =>
        rw [here] at found
        simp only [Option.map_eq_some_iff, Prod.exists, Prod.mk.injEq] at found
        obtain ⟨d, i, rest, found, rfl, rfl, rfl⟩ := found
        obtain ⟨chain', enclosing⟩ := lookupParent_chain chain found
        have inside : d < rest.reverse.length := by
          rw [List.length_reverse, chain_length chain']
          exact enclosing_lt enclosing
        intro env' at_depth
        rw [List.reverse_cons, List.getElem?_append_left inside] at at_depth
        exact ih chain found env' at_depth

theorem lookupStatic_quiet {x : Symbol} {s s' : CompState} {slot : Slot}
    (ran : Returns (lookupStatic x) s slot s') :
    s'.envs = s.envs ∧ s'.codeStore = s.codeStore := by
  unfold lookupStatic at ran
  split at ran
  · rw [returns_map] at ran
    obtain ⟨i, ran, _⟩ := ran
    simp only [Returns, Compiler.makeConst] at ran
    split at ran <;> cases ran <;> exact ⟨rfl, rfl⟩
  · exact absurd ran returns_fail

theorem Tracked.still {x : Symbol} (stands : Stands scope s') (grows : Grows s s')
    (envs : s'.envs = s.envs) (store : s'.codeStore = s.codeStore)
    (own : ∀ depth idx, ¬ Outer scope x depth idx) : Tracked scope s [x] [] [] s' where
  stands := stands
  grows := grows
  bindmap env rest same env' rest' same' depth member := by
    rw [envs, same] at same'
    cases same'
    exact .inl member
  others env rest same env' rest' same' := by
    rw [envs, same] at same'
    cases same'
    rfl
  outer y named depth idx outer := by
    rw [List.mem_singleton] at named
    exact absurd (named ▸ outer) (own depth idx)
  caught := by simp
  funcs := ⟨[], by simp [store], .nil⟩

theorem Tracks.envLookup (x : Symbol) : Tracks scope [x] [] [] (envLookup x) := by
  constructor
  intro s slot s' stands ran
  have stands' := (Emits.envLookup x s slot s' stands ran).1.stands
  have grows := Growing.envLookup x s slot s' ran
  obtain ⟨envs, code, consts⟩ := s
  have chain := stands.chain
  cases envs with
  | nil =>
    cases scope with
    | nil =>
      obtain ⟨same, store⟩ := lookupStatic_quiet ran
      refine .still stands' grows same store ?_
      rintro depth idx ⟨frame, outer, none, _⟩
      cases none
    | cons frame outer => exact chain.elim
  | cons env envs =>
    cases scope with
    | nil => exact chain.elim
    | cons frame outer =>
      obtain ⟨of, chain⟩ := chain
      cases here : envRef env x with
      | some idx =>
        simp only [Returns, Compiler.envLookup, here] at ran
        cases ran
        refine .still stands' grows rfl rfl ?_
        rintro depth i ⟨_, _, same, absent, _⟩
        cases same
        exact absent (List.mem_of_getElem? (of.find.mp here).named)
      | none =>
        have absent := of.absent.mp here
        cases found : lookupParent envs x with
        | some place =>
          obtain ⟨depth, idx, envs'⟩ := place
          obtain ⟨chain', enclosing⟩ := lookupParent_chain chain found
          simp only [Returns, Compiler.envLookup, here, found] at ran
          cases ran
          constructor
          · exact stands'
          · exact grows
          · intro env₀ rest same env' rest' same' d member
            cases same
            cases same'
            rcases mem_intern member with this | before
            · exact .inr ⟨x, by simp, idx, frame, outer, rfl, absent, this ▸ enclosing⟩
            · exact .inl before
          · intro env₀ rest same env' rest' same'
            cases same
            cases same'
            exact lookupParent_bindmap found
          · intro y named d i outside env' at_d
            rw [List.mem_singleton] at named
            obtain ⟨_, _, same, _, enclosing'⟩ := outside
            cases same
            obtain ⟨rfl, -⟩ := enclosing_unique (named ▸ enclosing') enclosing
            have inside : d < envs'.reverse.length := by
              rw [List.length_reverse, chain_length chain']
              exact enclosing_lt enclosing
            rw [List.reverse_cons, List.getElem?_append_left inside] at at_d
            exact lookupParent_onHeap chain found env' at_d
          · simp
          · exact ⟨[], rfl, .nil⟩
        | none =>
          simp only [Returns, Compiler.envLookup, here, found] at ran
          obtain ⟨same, store⟩ := lookupStatic_quiet ran
          refine .still stands' grows same store ?_
          rintro depth idx ⟨_, _, same, _, enclosing⟩
          cases same
          obtain ⟨frame', member, named⟩ := enclosing_mem enclosing
          exact lookupParent_none chain found frame' member named

/- Nodes. -/

attribute [local simp] free caught lambdasOf

/-- What compiling the node does. -/
def Follows (n : Node) : Prop :=
  ∀ scope, Tracks scope (free n) (caught n) (lambdasOf scope n) (compile n)

theorem Tracks.all {xs : List Node} (each : ∀ x ∈ xs, Follows x) :
    Tracks scope (freeAll xs) (caughtAll xs) (lambdasAll scope xs) (compileAll xs) := by
  induction xs with
  | nil => exact Tracks.pure _
  | cons x xs ih =>
    apply Tracks.bind (each x (by simp) scope)
    intro code
    have rest := ih fun y member => each y (by simp [member])
    have last := Tracks.bind rest fun rest => Tracks.pure (code ++ rest)
    simpa using last

theorem Tracks.map {c : CompM α} (g : α → β) (tracks : Tracks scope names inner ls c) :
    Tracks scope names inner ls (c >>= fun a => Pure.pure (g a)) := by
  have both := Tracks.bind tracks fun a => Tracks.pure (g a)
  simpa using both

theorem Follows.const (d : Datum) : Follows (.const d) := by
  intro scope
  unfold compile compileConst
  cases d with
  | bool => exact .pure _
  | char c => exact (Tracks.makeConst _).map _
  | num i => exact (Tracks.makeConst _).map _
  | str s => exact (Tracks.makeConst _).map _
  | null | sym | pair | vec => exact .fail

theorem Follows.quote (d : Datum) : Follows (.quote d) := by
  intro scope
  unfold compile compileQuote
  split
  · exact .pure _
  · exact (Tracks.makeConst _).map _

theorem Follows.sym (x : Symbol) : Follows (.sym x) := by
  intro scope
  have both : Tracks scope ([x] ++ []) ([] ++ []) ([] ++ []) (compileSym x) := by
    apply Tracks.bind (Tracks.envLookup x)
    intro slot
    cases slot <;> exact .pure _
  simpa [compile] using both

theorem Follows.ite {p a b : Node} (pred : Follows p) (conseq : Follows a) (alt : Follows b) :
    Follows (.ite p a b) := by
  intro scope
  unfold compile
  have all := Tracks.bind (pred scope) fun code₁ => Tracks.bind (conseq scope) fun code₂ =>
    (alt scope).map fun code₃ => ifCode code₁ code₂ code₃
  simpa using all

theorem Tracks.setInstr (name : Symbol) (slot : Slot) : Tracks scope [] [] [] (setInstr name slot) := by
  cases slot with
  | inLocal | inBind => exact .pure _
  | inStatic => exact .fail

theorem Follows.set {x : Symbol} {v : Node} (value : Follows v) : Follows (.set x v) := by
  intro scope
  unfold compile
  have found : Tracks scope [x] [] [] (envLookup x) := .envLookup x
  have all := Tracks.bind found fun slot =>
    Tracks.bind (value scope) fun code => (Tracks.setInstr x slot).map fun instr => code ++ [instr]
  simpa using all

theorem Tracks.operationInstr (op : Symbol) (args : List Node) :
    Tracks scope [] [] [] (operationInstr op args) := by
  unfold Compiler.operationInstr
  split
  · split
    · exact .pure _
    · exact .fail
  · exact .fail
  · exact .pure _
  · exact .fail

theorem Tracks.operands {typed : Bool} {args : List Node} (each : ∀ x ∈ args, Follows x)
    (few : args.length ≤ 2) (named : typed = true → ∃ type rest, args = .sym type :: rest) :
    Tracks scope (freeOperands typed args) (caughtOperands typed args) (lambdasAll scope args)
      (compileOperands typed args) := by
  match args with
  | [] => exact .fail
  | [x] =>
    cases typed with
    | true => exact .fail
    | false => simpa [freeOperands, caughtOperands, lambdasAll, compileOperands] using each x (by simp) scope
  | [x, y] =>
    unfold compileOperands
    cases typed with
    | true =>
      obtain ⟨type, rest, same⟩ := named rfl
      obtain rfl := (List.cons.inj same).1
      have nothing : Tracks scope [] [] [] (Pure.pure ([] : List Instr)) := .pure _
      have both := Tracks.bind nothing fun first =>
        (each y (by simp) scope).map fun second => first ++ second
      simpa [freeOperands, caughtOperands, lambdasAll] using both
    | false =>
      have both := Tracks.bind (each x (by simp) scope) fun first =>
        (each y (by simp) scope).map fun second => first ++ second
      simpa [freeOperands, caughtOperands, lambdasAll] using both
  | x :: y :: z :: rest => simp at few

theorem Follows.operation {g : Node} {args : List Node} (operator : isOperator g = true)
    (each : ∀ x ∈ args, Follows x) (proper : args.length = operandCount (symName g)) :
    Follows (.app g args) := by
  intro scope
  have none : lambdasOf scope g = [] := by
    cases g with
    | sym s => rfl
    | _ => simp [isOperator] at operator
  unfold compile lambdasOf free caught
  rw [if_pos operator, if_pos operator, if_pos operator, none, List.nil_append]
  by_cases named : isTypeTest g = true → ∃ type rest, args = .sym type :: rest
  · have inner : Tracks scope (freeOperands (isTypeTest g) args) (caughtOperands (isTypeTest g) args)
        (lambdasAll scope args) (compileOperands (isTypeTest g) args) :=
      .operands each (proper ▸ operandCount_le _) named
    have all := Tracks.bind inner fun operands =>
      (Tracks.operationInstr (symName g) args).map fun instr => operands ++ [instr]
    simpa using all
  · rw [Classical.not_imp] at named
    obtain ⟨typed, other⟩ := named
    constructor
    intro s code s' _ ran
    simp only [returns_bind] at ran
    obtain ⟨_, _, _, instr, t, ran, _⟩ := ran
    have accepted := (Accepts.operationInstr operator args _).mp ⟨instr, t, ran⟩
    obtain ⟨type, rest, same, _⟩ := accepted typed
    exact absurd ⟨type, rest, same⟩ other

theorem Tracks.makeBuiltin (name : Node) : Tracks scope [] [] [] (makeBuiltin name) := by
  cases name with
  | sym x => exact .makeConst _
  | _ => exact .fail

theorem Tracks.builtin {args : List Node} (each : ∀ x ∈ args, Follows x) :
    Tracks scope (freeBuiltin args) (caughtBuiltin args) (lambdasAll scope args)
      (compileBuiltin args) := by
  match args with
  | [] | [_] => exact .fail
  | cont :: name :: args =>
    cases name with
    | sym x =>
      unfold compileBuiltin
      have inner : Tracks scope (freeAll args) (caughtAll args) (lambdasAll scope args)
          (compileAll args) := .all fun x member => each x (by simp [member])
      have all := Tracks.bind (each cont (by simp) scope) fun first =>
        Tracks.bind (Tracks.makeBuiltin (.sym x)) fun k => inner.map fun rest =>
          first ++ rest ++ [⟨.loadConst, k⟩, ⟨.funcCall, args.length + 1⟩]
      simpa [freeBuiltin, caughtBuiltin, lambdasAll] using all
    | _ =>
      constructor
      intro s code s' _ ran
      simp only [compileBuiltin, Compiler.makeBuiltin, returns_bind] at ran
      obtain ⟨_, _, _, _, _, failed, _⟩ := ran
      exact absurd failed returns_fail

theorem Follows.builtin {g : Node} {args : List Node} (builtin : isBuiltinCall g = true)
    (each : ∀ x ∈ args, Follows x) : Follows (.app g args) := by
  intro scope
  have other := not_operator_builtin builtin
  have none : lambdasOf scope g = [] := by
    cases g with
    | sym s => rfl
    | _ => cases builtin
  unfold compile lambdasOf free caught
  rw [if_neg other, if_neg other, if_neg other, if_pos builtin, if_pos builtin, if_pos builtin, none,
    List.nil_append]
  exact .builtin each

theorem Follows.call {g : Node} {args : List Node} (other : ¬ isOperator g = true)
    (named : ¬ isBuiltinCall g = true) (func : Follows g) (each : ∀ x ∈ args, Follows x) :
    Follows (.app g args) := by
  intro scope
  unfold compile lambdasOf free caught
  rw [if_neg other, if_neg other, if_neg other, if_neg named, if_neg named, if_neg named]
  apply Tracks.bind (func scope)
  intro fcode
  have inner : Tracks scope (freeAll args) (caughtAll args) (lambdasAll scope args)
      (compileAll args) := .all each
  have all := Tracks.bind inner fun code =>
    (show Tracks scope [] [] [] (if isSymbol g && args.isEmpty then fail .malformed
      else Pure.pure (callCode g args fcode code)) by
      split
      · exact .fail
      · exact .pure _)
  simpa using all

theorem freeAll_forms (body : List Node) : freeAll (bodyForms body) = freeAll body := by
  unfold bodyForms
  split
  · simp [freeAll]
  · rfl

theorem caughtAll_forms (body : List Node) : caughtAll (bodyForms body) = caughtAll body := by
  unfold bodyForms
  split
  · simp [caughtAll]
  · rfl

theorem onHeap_tail {env : FuncEnv} {envs : List FuncEnv} {depth : Nat} (inside : depth < envs.length)
    (here : OnHeap (env :: envs) depth) : OnHeap envs depth := by
  intro e found
  apply here e
  rw [List.reverse_cons, List.getElem?_append_left (by simpa using inside)]
  exact found

theorem foldl_bindmap (names : List Symbol) (env : FuncEnv) :
    (names.foldl envDefine env).bindmap = env.bindmap := by
  induction names generalizing env with
  | nil => rfl
  | cons x names ih => exact ih (envDefine env x)

theorem Follows.lambda {args : Formals} {body : List Node} (each : ∀ x ∈ body, Follows x)
    (compiles : ∀ x ∈ body, Compiles x) : Follows (.lambda args body) := by
  intro scope
  constructor
  intro s code s' stands ran
  have stands' := (Emits.lambda compiles scope s code s' stands ran).1.stands
  have grows := compile_growing _ s code s' ran
  rw [returns_lambda] at ran
  obtain ⟨compiled, env, envs, t, ran, same, rfl, rfl⟩ := ran
  have forms : body ≠ [] := by
    intro empty
    rw [empty] at ran
    simp [compileBody] at ran
  rw [returns_body forms] at ran
  have first := (makeEnv_of stands.chain args).define (extendNames body)
  have inner : Tracks (frameOf args body :: scope) (freeAll body) (caughtAll body)
      (lambdasAll (frameOf args body :: scope) body) (Compiler.compileAll (bodyForms body)) := by
    rw [← lambdasAll_forms, ← freeAll_forms, ← caughtAll_forms]
    exact Tracks.all fun x member => each x (bodyForms_subset body member)
  have entered : Stands (frameOf args body :: scope)
      { s with envs := (extendNames body).foldl envDefine (makeEnv s.envs args) :: s.envs } :=
    ⟨⟨first, stands.chain⟩, stands.numbered⟩
  have tracked := inner.tracked _ _ _ entered ran
  have chain := tracked.stands.chain
  rw [same] at chain
  obtain ⟨of, chain⟩ := chain
  have outside : ∀ x ∈ (freeAll body).filter (· ∉ frameOf args body), ∀ depth idx,
      Enclosing scope x depth idx → OnHeap envs depth := by
    intro x member depth idx enclosing
    simp only [List.mem_filter, decide_eq_true_eq] at member
    have here := tracked.outer x member.1 depth idx ⟨_, scope, rfl, member.2, enclosing⟩
    rw [same] at here
    apply onHeap_tail _ here
    rw [chain_length chain]
    exact enclosing_lt enclosing
  constructor
  · exact stands'
  · exact grows
  · intro env₀ rest here env' rest' there depth member
    have kept := tracked.others _ _ rfl _ _ same
    rw [here, show envs = env' :: rest' from there, List.map_cons, List.map_cons, List.cons.injEq]
      at kept
    exact .inl (kept.1 ▸ member)
  · intro env₀ rest here env' rest' there
    have kept := tracked.others _ _ rfl _ _ same
    rw [here, show envs = env' :: rest' from there, List.map_cons, List.map_cons, List.cons.injEq]
      at kept
    exact kept.2
  · intro x member depth idx outer
    obtain ⟨frame, rest, rfl, absent, enclosing⟩ := outer
    exact outside x member depth idx (.inr ⟨absent, enclosing⟩)
  · exact outside
  · obtain ⟨new, store, right⟩ := tracked.funcs
    refine ⟨new ++ [makeFunc compiled env], by simp [store], ?_⟩
    rw [lambdasOf]
    refine List.rel_append right (.cons ?_ .nil)
    constructor
    · intro x member named
      obtain ⟨idx, slot⟩ := slotOf_mem named
      have here := tracked.caught x member scope.length idx (.inl ⟨slot, rfl⟩)
      rw [same] at here
      apply here env
      rw [List.reverse_cons, ← chain_length chain, ← List.length_reverse]
      exact List.getElem?_concat_length
    · intro depth member
      have empty : ((extendNames body).foldl envDefine (makeEnv s.envs args)).bindmap = [] := by
        rw [foldl_bindmap]
        rfl
      rcases tracked.bindmap _ _ rfl _ _ same depth (List.mem_reverse.mp member) with before | found
      · rw [empty] at before
        cases before
      · obtain ⟨x, named, idx, _, _, here, absent, enclosing⟩ := found
        cases here
        exact ⟨x, named, absent, idx, enclosing⟩
    · have produced := (produces_all fun x (_ : x ∈ bodyForms body) => compile_shaped x).returned
        _ _ _ ran
      exact produced.bare

theorem compile_follows (n : Node) (proper : properOps n = true) : Follows n := by
  induction n with
  | const d => exact .const d
  | sym x => exact .sym x
  | quote d => exact .quote d
  | lambda args body ih =>
    rw [properOps, properOpsAll_iff] at proper
    exact .lambda (fun x member => ih x member (proper x member))
      fun x member => compile_emits x (proper x member)
  | ite p a b hp ha hb =>
    simp only [properOps, Bool.and_eq_true] at proper
    exact .ite (hp proper.1.1) (ha proper.1.2) (hb proper.2)
  | set x v hv => exact .set (hv proper)
  | define | begin | extend =>
    intro scope
    unfold compile
    exact .fail
  | app g args hg ih =>
    simp only [properOps, Bool.and_eq_true, properOpsAll_iff, Bool.or_eq_true, Bool.not_eq_true',
      beq_iff_eq] at proper
    obtain ⟨⟨count, func⟩, operands⟩ := proper
    have each : ∀ x ∈ args, Follows x := fun x member => ih x member (operands x member)
    by_cases operator : isOperator g = true
    · exact .operation operator each (count.resolve_left (by simp [operator]))
    · by_cases builtin : isBuiltinCall g = true
      · exact .builtin builtin each
      · exact .call operator builtin (hg func) each

theorem startCompile_snug {root : Node} {ilr : Ilr} (proper : properOps root = true)
    (compiled : startCompile root = .ok ilr) : List.Forall₂ Snug (lambdasOf [] root) ilr.code := by
  unfold startCompile at compiled
  cases result : compile root ⟨[], [], []⟩ with
  | error e => simp [result] at compiled
  | ok r =>
    obtain ⟨code, s⟩ := r
    rw [result] at compiled
    cases compiled
    have empty : Stands [] ⟨[], [], []⟩ := ⟨trivial, [], rfl⟩
    have tracked := (compile_follows root proper []).tracked _ _ _ empty result
    obtain ⟨new, store, right⟩ := tracked.funcs
    simpa [store] using right

end tracks

end LGears.CodeShape
