import LGears.CodeEmitted
import LGears.CoreArithmetic
import LGears.EvalThread

/- The code of fixnum expressions, run by a thread. -/
namespace LGears.FixnumCode
open PrimitivesInfo Opcode Compiler CodeTables CodeEmitted StateExcept
open Tagged Arithmetic CoreArithmetic EvalThread

inductive FixOp where
  | add
  | sub
  | mul
  | and
  | ior
  | xor
  deriving DecidableEq, Repr

def FixOp.name : FixOp → Symbol
  | .add => "$+"
  | .sub => "$-"
  | .mul => "$*"
  | .and => "$and"
  | .ior => "$ior"
  | .xor => "$xor"

def FixOp.op : FixOp → Op
  | .add => .opAdd
  | .sub => .opSub
  | .mul => .opMul
  | .and => .opBitAnd
  | .ior => .opBitIor
  | .xor => .opBitXor

def FixOp.exact : FixOp → Int → Int → Int
  | .add => fun m n => m + n
  | .sub => fun m n => m - n
  | .mul => fun m n => m * n
  | .and => Int.land
  | .ior => Int.lor
  | .xor => Int.xor

/-- Expressions over integer constants and variables. -/
inductive Expr where
  | const (i : Int)
  | var (x : Symbol)
  | op (o : FixOp) (a b : Expr)
  deriving DecidableEq, Repr

def Expr.node : Expr → Node
  | .const i => .const (.num i)
  | .var x => .sym x
  | .op o a b => .app (.sym o.name) [a.node, b.node]

def Expr.vars : Expr → List Symbol
  | .const _ => []
  | .var x => [x]
  | .op _ a b => a.vars ++ b.vars

/-- The number of instructions of the expression. -/
def Expr.length : Expr → Nat
  | .const _ | .var _ => 1
  | .op _ a b => a.length + b.length + 1

/-- The number of words the expression needs on the stack. -/
def Expr.height : Expr → Nat
  | .const _ | .var _ => 1
  | .op _ a b => max a.height (b.height + 1)

/-- The value of the expression in the integers. -/
def Expr.exact (ρ : Symbol → Int) : Expr → Int
  | .const i => i
  | .var x => ρ x
  | .op o a b => o.exact (a.exact ρ) (b.exact ρ)

/-- The signed 61-bit number with the same low bits. -/
def reduce (n : Int) : Int := n.bmod (2 ^ 61)

def comparisonName : Comparison → Symbol
  | .lessThan => "$<"
  | .greaterThan => "$>"
  | .equals => "$="

def comparisonOp : Comparison → Op
  | .lessThan => .opLt
  | .greaterThan => .opGt
  | .equals => .opEq

/-- An expression, or a comparison of two. -/
inductive Tree where
  | number (e : Expr)
  | compare (c : Comparison) (a b : Expr)

def Tree.node : Tree → Node
  | .number e => e.node
  | .compare c a b => .app (.sym (comparisonName c)) [a.node, b.node]

def Tree.vars : Tree → List Symbol
  | .number e => e.vars
  | .compare _ a b => a.vars ++ b.vars

def Tree.height : Tree → Nat
  | .number e => e.height
  | .compare _ a b => max a.height (b.height + 1)

/-- The exact value reduced to a fixnum, or the result of comparing the reduced values. -/
def Tree.result (ρ : Symbol → Int) : Tree → Word
  | .number e => makeFixnum (BitVec.ofInt 64 (reduce (e.exact ρ)))
  | .compare c a b => cif (decide (c.relation (reduce (a.exact ρ)) (reduce (b.exact ρ))))

/-- The slot holds the word w, on the stack below idx or in an environment. -/
def Holds (t : Thread) (idx : Nat) (w : Word) : Slot → Prop
  | .inLocal i => match t.objects with
    | .stack base => base + i < idx ∧ t.opstack (base + i) = w
    | .env objects => objects[i]? = some w
  | .inBind b => ∃ up i objects, t.func.bindings[b]? = some (up, i) ∧ t.bindmap + up < idx ∧
      t.envs (t.opstack (t.bindmap + up)) = some objects ∧ objects[i]? = some w
  | .inStatic k => t.consts[k]? = some w

/-- The constants of the module have been read, and the variables have these fixnums. -/
structure Ready (T : Tables) (f : IFunc) (scope : List (List Symbol)) (vars : List Symbol)
    (ρ : Symbol → Fixnum) (idx : Nat) (t : Thread) : Prop where
  func : t.func = f
  consts : ∀ (k : Nat) (i : Int), T.consts[k]? = some (.datum (.num i)) →
    t.consts[k]? = some (makeFixnum (BitVec.ofInt 64 i))
  vars : ∀ x ∈ vars, ∀ slot, Located T f scope x slot → Holds t idx (ρ x).word slot

section runs
variable {T : Tables} {f : IFunc} {scope : List (List Symbol)} {vars : List Symbol}
  {ρ : Symbol → Fixnum} {idx : Nat} {t t' : Thread}

theorem Holds.above {w : Word} {slot : Slot} (holds : Holds t idx w slot) (above : Above idx t t') :
    Holds t' idx w slot := by
  cases slot with
  | inLocal i =>
    rw [Holds, above.objects]
    cases objects : t.objects with
    | stack base =>
      rw [Holds, objects] at holds
      exact ⟨holds.1, (above.below _ holds.1).trans holds.2⟩
    | env objects' =>
      rw [Holds, objects] at holds
      exact holds
  | inBind b =>
    obtain ⟨up, i, objects, binding, below, env, object⟩ := holds
    refine ⟨up, i, objects, ?_, ?_, ?_, object⟩
    · rw [above.func]
      exact binding
    · rw [above.bindmap]
      exact below
    · rw [above.envs, above.bindmap, above.below _ below]
      exact env
  | inStatic k =>
    rw [Holds, above.consts]
    exact holds

theorem Ready.above (ready : Ready T f scope vars ρ idx t) (above : Above idx t t') :
    Ready T f scope vars ρ idx t' where
  func := above.func.trans ready.func
  consts k i const := by
    rw [above.consts]
    exact ready.consts k i const
  vars x member slot located := (ready.vars x member slot located).above above

theorem step_load {slot : Slot} {w : Word} (here : t.func.code[t.opcode]? = some (loadInstr slot))
    (holds : Holds t idx w slot) (room : t.opStackIdx + 1 < t.opStackSize) :
    ∃ t', step t = some t' ∧ Pushed t t' (t.opcode + 1) w := by
  apply step_push here _ room
  cases slot with
  | inLocal i =>
    have object : t.fetched.object i = some w := by
      unfold Thread.object
      cases objects : t.objects <;> simp_all [Holds, Thread.fetched]
    simp [execute, loadInstr, object]
  | inBind b =>
    obtain ⟨up, i, objects, binding, _, env, object⟩ := holds
    have bound : t.fetched.bound b = some w := by
      simp [Thread.bound, Thread.fetched, binding, env, object]
    simp [execute, loadInstr, bound]
  | inStatic k =>
    have const : t.fetched.consts[k]? = some w := holds
    simp [execute, loadInstr, const]

theorem Ready.mono {vars' : List Symbol} (ready : Ready T f scope vars ρ idx t)
    (fewer : vars' ⊆ vars) : Ready T f scope vars' ρ idx t :=
  { ready with vars := fun x member => ready.vars x (fewer member) }

theorem run_one (t : Thread) : run 1 t = step t := by
  rw [run, Option.bind_eq_bind]
  cases step t <;> rfl

theorem codeOf_binary {name : Symbol} {a b : Node} {i j : Nat}
    (operation : isOperator (.sym name) = true) (typed : isTypeTest (.sym name) = false)
    (code : CodeOf T f scope (.app (.sym name) [a, b]) i j) :
    ∃ m n instr, CodeOf T f scope a i m ∧ CodeOf T f scope b m n ∧ f.code[n]? = some instr ∧
      OperationInstr name [a, b] instr ∧ j = n + 1 := by
  rw [CodeOf, if_pos operation, typed] at code
  simp only [OperandsOf, Bool.false_eq_true, if_false] at code
  obtain ⟨n, operands, instr, here, operates, rfl⟩ := code
  obtain ⟨m, first, second⟩ := operands
  exact ⟨m, n, instr, first, second, here, operates, rfl⟩

theorem operationInstr_eq {name : Symbol} {op : Op} {args : List Node} {instr : Instr}
    (known : operatorToOpcode name = some op) (plain : op ≠ .opTypeTest)
    (operation : OperationInstr name args instr) : instr = ⟨op, 0⟩ := by
  obtain ⟨opcode, arg⟩ := operation
  rw [known, Option.some_inj] at opcode
  rw [← opcode, if_neg plain] at arg
  cases instr
  simp_all

theorem run_binary {u v : Thread} {op : Op} {i j m n : Nat} {a b w : Word}
    (operates : ∀ t : Thread, execute t ⟨op, 0⟩ = t.binary op)
    (ran : run m t = some u) (first : Pushed t u i a) (ran' : run n u = some v)
    (second : Pushed u v j b) (here : v.func.code[j]? = some ⟨op, 0⟩)
    (result : Arithmetic.binary op a b = some w) (room : t.opStackIdx + 1 < t.opStackSize) :
    ∃ v', run (m + n + 1) t = some v' ∧ Pushed t v' (j + 1) w := by
  obtain ⟨v', stepped, done⟩ := step_binary operates first second (second.opcode ▸ here) result room
  refine ⟨v', ?_, done⟩
  rw [run_add, run_add, ran, Option.bind_some, ran', Option.bind_some, run_one, stepped]

theorem payload_var (a : Fixnum) : payload a.word = BitVec.ofInt 61 a.value := by
  rw [Fixnum.value, value_eq, BitVec.ofInt_toInt]

theorem FixOp.operates (o : FixOp) (t : Thread) : execute t ⟨o.op, 0⟩ = t.binary o.op := by
  cases o <;> rfl

theorem FixOp.opcode (o : FixOp) : operatorToOpcode o.name = some o.op := by
  cases o <;> rfl

theorem FixOp.plain (o : FixOp) : o.op ≠ .opTypeTest := by
  cases o <;> decide

theorem FixOp.computes (o : FixOp) (m n : Int) :
    wordOp o.op (BitVec.ofInt 61 m) (BitVec.ofInt 61 n) = some (BitVec.ofInt 61 (o.exact m n)) := by
  rw [wordOp_ofInt]
  cases o <;> rfl

theorem FixOp.isOperator (o : FixOp) : isOperator (.sym o.name) = true := by
  cases o <;> decide

theorem FixOp.untyped (o : FixOp) : isTypeTest (.sym o.name) = false := by
  cases o <;> decide

theorem codeOf_length (e : Expr) {i j : Nat} (code : CodeOf T f scope e.node i j) :
    j = i + e.length := by
  induction e generalizing i j with
  | const | var =>
    obtain ⟨_, _, _, rfl⟩ := code
    rfl
  | op o a b iha ihb =>
    obtain ⟨m, n, _, first, second, _, _, rfl⟩ := codeOf_binary o.isOperator o.untyped code
    rw [ihb second, iha first, Expr.length]
    omega

theorem expr_runs (e : Expr) {j : Nat} (ready : Ready T f scope e.vars ρ idx t)
    (low : idx ≤ t.opStackIdx) (code : CodeOf T f scope e.node t.opcode j)
    (room : t.opStackIdx + e.height < t.opStackSize) :
    j = t.opcode + e.length ∧ ∃ t' c, run e.length t = some t' ∧ Pushed t t' j (Fixnum.word c) ∧
      payload c.word = BitVec.ofInt 61 (e.exact fun x => (ρ x).value) := by
  induction e generalizing t j with
  | const i =>
    obtain ⟨instr, here, ⟨_, k, rfl, const⟩, rfl⟩ := code
    rw [← ready.func] at here
    have holds : Holds t idx (fixnumOf i).word (.inStatic k) := ready.consts k i const
    obtain ⟨t', stepped, pushed⟩ := step_load here holds room
    refine ⟨rfl, t', fixnumOf i, ?_, pushed, ?_⟩
    · exact (run_one t).trans stepped
    · rw [fixnumOf_word, initWord, payload_makeFixnum, TwosComplement.setWidth_ofInt (by decide)]
      rfl
  | var x =>
    obtain ⟨instr, here, ⟨slot, located, rfl⟩, rfl⟩ := code
    rw [← ready.func] at here
    have holds := ready.vars x (by simp [Expr.vars]) slot located
    obtain ⟨t', stepped, pushed⟩ := step_load here holds room
    exact ⟨rfl, t', ρ x, (run_one t).trans stepped, pushed, payload_var _⟩
  | op o a b iha ihb =>
    obtain ⟨m, n, instr, first, second, here, operation, rfl⟩ :=
      codeOf_binary o.isOperator o.untyped code
    have height : (Expr.op o a b).height = max a.height (b.height + 1) := rfl
    have positive : 1 ≤ a.height := by cases a <;> simp [Expr.height]
    obtain ⟨rfl, u, c, ran, pushed, left⟩ :=
      iha (ready.mono (by simp [Expr.vars])) low first (by omega)
    have above : Above idx t u := pushed.above.mono low
    have ready' : Ready T f scope b.vars ρ idx u :=
      (ready.above above).mono (by simp [Expr.vars])
    have idx' := pushed.opStackIdx
    have size := pushed.above.opStackSize
    obtain ⟨rfl, v, d, ran', pushed', right⟩ :=
      ihb ready' (by omega) (pushed.opcode ▸ second) (by omega)
    have computes := o.computes (a.exact fun x => (ρ x).value) (b.exact fun x => (ρ x).value)
    rw [← left, ← right] at computes
    obtain ⟨w, result, exact⟩ := binary_payload computes
    have func : v.func = f := pushed'.above.func.trans ready'.func
    rw [operationInstr_eq o.opcode o.plain operation, ← func] at here
    obtain ⟨v', ran'', done⟩ := run_binary o.operates ran pushed ran' pushed' here result (by omega)
    refine ⟨?_, v', w, ran'', done, exact⟩
    rw [pushed.opcode, Expr.length]
    omega

theorem reduced_word {c : Fixnum} {n : Int} (same : payload c.word = BitVec.ofInt 61 n) :
    c.word = makeFixnum (BitVec.ofInt 64 (reduce n)) := by
  apply @payload_inj c (fixnumOf (reduce n))
  rw [same, fixnumOf_word, initWord, payload_makeFixnum, TwosComplement.setWidth_ofInt (by decide)]
  apply BitVec.eq_of_toInt_eq
  rw [BitVec.toInt_ofInt, BitVec.toInt_ofInt, reduce, Int.bmod_bmod]

theorem reduced_value {c : Fixnum} {n : Int} (same : payload c.word = BitVec.ofInt 61 n) :
    value c.word = reduce n := by
  rw [value_eq, same, BitVec.toInt_ofInt, reduce]

theorem comparison_binary (c : Comparison) (a b : Word) :
    binary (comparisonOp c) a b = some (cif (decide (c.relation (value a) (value b)))) := by
  cases c with
  | lessThan => exact binary_lt a b
  | greaterThan => exact binary_gt a b
  | equals => exact binary_eq a b

theorem tree_runs (tree : Tree) {j : Nat} (ready : Ready T f scope tree.vars ρ idx t)
    (low : idx ≤ t.opStackIdx) (code : CodeOf T f scope tree.node t.opcode j)
    (room : t.opStackIdx + tree.height < t.opStackSize) :
    ∃ t', run (j - t.opcode) t = some t' ∧
      Pushed t t' j (tree.result fun x => (ρ x).value) := by
  cases tree with
  | number e =>
    obtain ⟨rfl, t', c, ran, pushed, exact⟩ := expr_runs e ready low code room
    refine ⟨t', ?_, ?_⟩
    · rw [Nat.add_sub_cancel_left]
      exact ran
    · rw [Tree.result, ← reduced_word exact]
      exact pushed
  | compare c a b =>
    have operation : isOperator (.sym (comparisonName c)) = true := by cases c <;> decide
    have untyped : isTypeTest (.sym (comparisonName c)) = false := by cases c <;> decide
    have opcode : operatorToOpcode (comparisonName c) = some (comparisonOp c) := by
      cases c <;> rfl
    have plain : comparisonOp c ≠ .opTypeTest := by cases c <;> decide
    have operates : ∀ t : Thread, execute t ⟨comparisonOp c, 0⟩ = t.binary (comparisonOp c) := by
      intro t
      cases c <;> rfl
    obtain ⟨m, n, instr, first, second, here, compares, rfl⟩ :=
      codeOf_binary operation untyped code
    have height : (Tree.compare c a b).height = max a.height (b.height + 1) := rfl
    have positive : 1 ≤ a.height := by cases a <;> simp [Expr.height]
    obtain ⟨rfl, u, x, ran, pushed, left⟩ :=
      expr_runs a (ready.mono (by simp [Tree.vars])) low first (by omega)
    have ready' : Ready T f scope b.vars ρ idx u :=
      (ready.above (pushed.above.mono low)).mono (by simp [Tree.vars])
    have idx' := pushed.opStackIdx
    have size := pushed.above.opStackSize
    obtain ⟨rfl, v, y, ran', pushed', right⟩ :=
      expr_runs b ready' (by omega) (pushed.opcode ▸ second) (by omega)
    have func : v.func = f := pushed'.above.func.trans ready'.func
    rw [operationInstr_eq opcode plain compares, ← func] at here
    obtain ⟨v', ran'', done⟩ :=
      run_binary operates ran pushed ran' pushed' here (comparison_binary c _ _) (by omega)
    refine ⟨v', ?_, ?_⟩
    · rw [pushed.opcode, show t.opcode + a.length + b.length + 1 - t.opcode =
        a.length + b.length + 1 by omega]
      exact ran''
    · rw [Tree.result, ← reduced_value left, ← reduced_value right]
      exact done

theorem loaded_start {full code : List Instr} {i : Nat} (starts : code <+: full.drop i) :
    Loaded full code i := by
  induction code generalizing i with
  | nil => trivial
  | cons instr code ih =>
    have here : full[i]? = some instr := by
      obtain ⟨rest, same⟩ := starts
      rw [← List.head?_drop, ← same]
      rfl
    have inside : i < full.length := (List.getElem?_eq_some_iff.mp here).1
    rw [List.drop_eq_getElem_cons inside, List.cons_prefix_cons] at starts
    exact ⟨⟨instr, here, .inl rfl⟩, ih starts.2⟩

theorem Expr.properOps (e : Expr) : properOps e.node = true := by
  induction e with
  | const | var => rfl
  | op o a b iha ihb =>
    have count : operandCount o.name = 2 := by cases o <;> rfl
    simp [Expr.node, CodeTables.properOps, properOpsAll, iha, ihb, symName, count]

theorem Expr.lambdas (e : Expr) : lambdasOf scope e.node = [] := by
  induction e with
  | const | var => rfl
  | op o a b iha ihb => simp [Expr.node, lambdasOf, lambdasAll, iha, ihb]

theorem Tree.properOps (tree : Tree) : properOps tree.node = true := by
  cases tree with
  | number e => exact e.properOps
  | compare c a b =>
    have count : operandCount (comparisonName c) = 2 := by cases c <;> rfl
    simp [Tree.node, CodeTables.properOps, properOpsAll, a.properOps, b.properOps, symName, count]

theorem Tree.lambdas (tree : Tree) : lambdasOf scope tree.node = [] := by
  cases tree with
  | number e => exact e.lambdas
  | compare c a b => simp [Tree.node, lambdasOf, lambdasAll, a.lambdas, b.lambdas]

/- What the compiler emits for a tree leaves the stack as it was, with the result on top, when
   there is room for it and the variables that are on the stack are below its top. -/
theorem compile_computes (tree : Tree) {s s' : CompState} {code : List Instr}
    (stands : Stands scope s) (compiled : Returns (compile tree.node) s code s')
    (final : Final T f s') (loaded : code <+: f.code.drop t.opcode)
    (ready : Ready T f scope tree.vars ρ t.opStackIdx t)
    (room : t.opStackIdx + tree.height < t.opStackSize) :
    ∃ t', run code.length t = some t' ∧
      Pushed t t' (t.opcode + code.length) (tree.result fun x => (ρ x).value) := by
  obtain ⟨_, emits⟩ := compile_emits tree.node tree.properOps scope s code s' stands compiled
  have none : Listed T s.codeStore.length (lambdasOf scope tree.node) := by
    rw [tree.lambdas]
    exact List.nil_prefix
  have codes := emits T f final none t.opcode (loaded_start loaded)
  obtain ⟨t', ran, pushed⟩ := tree_runs tree ready (le_refl _) codes room
  rw [Nat.add_sub_cancel_left] at ran
  exact ⟨t', ran, pushed⟩

end runs

/-- (lambda (k x) ...) while it is compiled. -/
def smallState : CompState := ⟨[makeEnv [] ⟨["k", "x"], none⟩], [], []⟩

/-- ($< ($- x 5) x) -/
def smallTree : Tree := .compare .lessThan (.op .sub (.var "x") (.const 5)) (.var "x")

def smallCode : List Instr :=
  [⟨.loadLocal, 1⟩, ⟨.loadConst, 0⟩, ⟨.opSub, 0⟩, ⟨.loadLocal, 1⟩, ⟨.opLt, 0⟩]

def smallThread : Thread :=
  { opstack := fun i => if i = 1 then initWord (-2 ^ 60) else 0
    opStackIdx := 2
    opStackSize := 512
    objects := .stack 0
    bindmap := 2
    envs := fun _ => none
    consts := [initWord 5]
    func := ⟨smallCode, 2, 2, false, false, 0, [], []⟩
    opcode := 0 }

/- -2 ^ 60 - 5 wraps around to a large number. -/
theorem smallCode_computes : ∃ t', run 5 smallThread = some t' ∧
    Pushed smallThread t' 5 (smallTree.result fun _ => -2 ^ 60) ∧
    smallTree.result (fun _ => -2 ^ 60) = cfalse := by
  have stands : Stands [["k", "x"]] smallState :=
    ⟨⟨@makeEnv_of [] [] trivial ⟨["k", "x"], none⟩, trivial⟩, [], rfl⟩
  have compiled : Returns (compile smallTree.node) smallState smallCode
      { smallState with consts := [(.datum (.num 5), 0)] } := by
    rfl
  have final : Final ⟨[.datum (.num 5)], []⟩ smallThread.func
      { smallState with consts := [(.datum (.num 5), 0)] } := by
    constructor
    · intro c i member
      simp only [List.mem_singleton, Prod.mk.injEq] at member
      obtain ⟨rfl, rfl⟩ := member
      rfl
    · intro env first
      cases first
      exact ⟨List.nil_prefix, List.nil_prefix⟩
  have ready : Ready ⟨[.datum (.num 5)], []⟩ smallThread.func [["k", "x"]] smallTree.vars
      (fun _ => fixnumOf (-2 ^ 60)) 2 smallThread := by
    constructor
    · rfl
    · intro k i const
      cases k with
      | zero =>
        cases const
        rfl
      | succ k => cases const
    · intro x member slot located
      have same : x = "x" := by simpa [smallTree, Tree.vars, Expr.vars] using member
      subst same
      cases slot with
      | inLocal i =>
        obtain ⟨frame, outer, scope, slot⟩ := located
        cases scope
        have one : i = 1 := by
          have inside : i < 2 := slot.lt
          have named := slot.named
          rcases i with _ | _ | i
          · exact absurd named (by decide)
          · rfl
          · omega
        subst one
        exact ⟨by decide, rfl⟩
      | inBind b =>
        obtain ⟨_, _, _, _, _, scope, _, enclosing, _⟩ := located
        cases scope
        exact enclosing.elim
      | inStatic k => exact absurd (located.1 _ (List.mem_singleton_self _)) (by decide)
  obtain ⟨t', ran, pushed⟩ := @compile_computes _ _ _ (fun _ => fixnumOf (-2 ^ 60)) smallThread
    smallTree _ _ _ stands compiled final (List.prefix_refl _) ready (by decide)
  exact ⟨t', ran, pushed, by decide⟩

/-- ($+ 1 ($+ 1 ... 1)) -/
def nested : Nat → Expr
  | 0 => .const 1
  | n + 1 => .op .add (.const 1) (nested n)

theorem compile_one (s : CompState) : ∃ code s',
    Returns (compile (.const (.num 1))) s code s' := by
  obtain ⟨k, s', made⟩ : ∃ k s', Returns (makeConst (.datum (.num 1))) s k s' := by
    unfold Returns makeConst
    cases s.consts.lookup (.datum (.num 1)) with
    | none => exact ⟨_, _, rfl⟩
    | some k => exact ⟨_, _, rfl⟩
  refine ⟨[⟨.loadConst, k⟩], s', ?_⟩
  rw [compile, compileConst]
  exact returns_bind.mpr ⟨k, s', made, rfl⟩

theorem compile_nested (n : Nat) (s : CompState) : ∃ code s',
    Returns (compile (nested n).node) s code s' := by
  induction n generalizing s with
  | zero => exact compile_one s
  | succ n ih =>
    obtain ⟨first, u, one⟩ := compile_one s
    obtain ⟨second, v, rest⟩ := ih u
    have operation : isOperator (.sym "$+") = true := by decide
    have operands : Returns (compileOperands false [.const (.num 1), (nested n).node]) s
        (first ++ second) v := by
      simp only [compileOperands]
      exact returns_bind.mpr ⟨first, u, one, returns_bind.mpr ⟨second, v, rest, rfl⟩⟩
    refine ⟨first ++ second ++ [⟨.opAdd, 0⟩], v, ?_⟩
    rw [nested, Expr.node, compile, FixOp.name, if_pos operation]
    exact returns_bind.mpr ⟨_, v, operands, returns_bind.mpr ⟨_, v, rfl, rfl⟩⟩

section deep
variable {T : Tables} {f : IFunc} {scope : List (List Symbol)} {t : Thread}

theorem step_full {k : Nat} {w : Word} (here : t.func.code[t.opcode]? = some ⟨.loadConst, k⟩)
    (const : t.consts[k]? = some w) (full : t.opStackIdx = t.opStackSize - 1) : step t = none := by
  have none : t.fetched.push w = none := if_pos full
  have const' : t.fetched.consts[k]? = some w := const
  rw [step, here, Option.bind_eq_bind, Option.bind_some, execute]
  simp [const', none]

theorem nested_overflows (n : Nat) {j : Nat} (func : t.func = f)
    (consts : ∀ k : Nat, T.consts[k]? = some (Const.datum (.num 1)) →
      t.consts[k]? = some (initWord 1))
    (code : CodeOf T f scope (nested n).node t.opcode j) (low : t.opStackIdx < t.opStackSize)
    (deep : t.opStackSize ≤ t.opStackIdx + n + 1) : run (nested n).length t = none := by
  induction n generalizing t j with
  | zero =>
    obtain ⟨instr, here, ⟨_, k, rfl, const⟩, rfl⟩ := code
    rw [← func] at here
    exact (run_one t).trans (step_full here (consts k const) (by omega))
  | succ n ih =>
    obtain ⟨m, i, instr, first, second, _, _, rfl⟩ :=
      codeOf_binary FixOp.add.isOperator FixOp.add.untyped code
    obtain ⟨load, here, ⟨_, k, rfl, const⟩, rfl⟩ := first
    rw [← func] at here
    have parts : (nested (n + 1)).length = 1 + (nested n).length + 1 := rfl
    rw [parts, run_add, run_add, run_one]
    by_cases full : t.opStackIdx = t.opStackSize - 1
    · rw [step_full here (consts k const) full]
      rfl
    · have holds : Holds t t.opStackIdx (initWord 1) (.inStatic k) := consts k const
      obtain ⟨t', stepped, pushed⟩ := step_load here holds (by omega)
      have idx := pushed.opStackIdx
      have size := pushed.above.opStackSize
      have rest := ih (pushed.above.func.trans func) (by rw [pushed.above.consts]; exact consts)
        (pushed.opcode ▸ second) (by omega) (by omega)
      rw [stepped, Option.bind_some, rest]
      rfl

end deep

/-- ($+ ($* 3 3) e) -/
def clobbered : Expr := .op .add (.op .mul (.const 3) (.const 3)) (.var "e")

/-- A function with the internal definitions d and e, which no other function uses. -/
def definesProgram : Node :=
  .lambda ⟨["k"], none⟩ [.extend ["d", "e"], .set "d" (.const (.num 1)),
    .set "e" (.const (.num 2)), .app (.sym "k") [clobbered.node]]

def definesFunc : IFunc :=
  ⟨[⟨.loadConst, 0⟩, ⟨.setLocal, 1⟩, ⟨.loadConst, 1⟩, ⟨.setLocal, 2⟩, ⟨.loadConst, 2⟩,
    ⟨.loadConst, 2⟩, ⟨.opMul, 0⟩, ⟨.loadLocal, 2⟩, ⟨.opAdd, 0⟩, ⟨.loadLocal, 0⟩, ⟨.funcCall, 1⟩],
    3, 1, false, false, 0, [], []⟩

/-- The thread that has entered the function with one argument. -/
def definesThread : Thread :=
  { opstack := fun _ => 0
    opStackIdx := 1
    opStackSize := 512
    objects := .stack 0
    bindmap := 1
    envs := fun _ => none
    consts := [initWord 1, initWord 2, initWord 3]
    func := definesFunc
    opcode := 0 }

/-- The word of a fixnum; there are no other constants in such an expression. -/
def wordOf : Const → Word
  | .datum (.num i) => initWord i
  | _ => 0

theorem deep_expression (n : Nat) (deep : 511 ≤ n) : ∃ code s', ∃ t : Thread,
    Returns (compile (nested n).node) ⟨[], [], []⟩ code s' ∧ t.func.code = code ∧ t.opcode = 0 ∧
      t.opStackSize = 512 ∧
      (∀ (i : Int) (k : Nat), (.datum (.num i), k) ∈ s'.consts → t.consts[k]? = some (initWord i)) ∧
      run code.length t = none := by
  have stands : Stands [] ⟨[], [], []⟩ := ⟨trivial, [], rfl⟩
  obtain ⟨code, s', compiled⟩ := compile_nested n ⟨[], [], []⟩
  obtain ⟨added, emits⟩ := compile_emits _ (nested n).properOps [] _ code s' stands compiled
  obtain ⟨consts, numbered⟩ := added.stands.numbered
  have envs : s'.envs = [] := by
    have chain := added.stands.chain
    cases envs : s'.envs with
    | nil => rfl
    | cons env envs' =>
      rw [envs] at chain
      exact chain.elim
  have entries : ∀ c (k : Nat), (c, k) ∈ s'.consts → consts[k]? = some c := by
    intro c k member
    rw [numbered, List.mem_reverse] at member
    exact List.mem_zipIdx_iff_getElem?.mp member
  let func : IFunc := ⟨code, 0, 0, false, false, 0, [], []⟩
  let t : Thread := { definesThread with
    func := func
    consts := consts.map wordOf }
  have final : Final ⟨consts, []⟩ func s' := by
    constructor
    · exact entries
    · intro env first
      simp [envs] at first
  have none : Listed ⟨consts, []⟩ 0 (lambdasOf [] (nested n).node) := by
    rw [(nested n).lambdas]
    exact List.nil_prefix
  have codes := emits _ func final none 0 loaded_refl
  rw [Nat.zero_add] at codes
  have loads : ∀ (i : Int) (k : Nat), consts[k]? = some (.datum (.num i)) →
      t.consts[k]? = some (initWord i) := by
    intro i k const
    simp [t, const, wordOf]
  have length : code.length = (nested n).length := (codeOf_length _ codes).trans (Nat.zero_add _)
  refine ⟨code, s', t, compiled, rfl, rfl, rfl, ?_, ?_⟩
  · exact fun i k member => loads i k (entries _ k member)
  rw [length]
  apply nested_overflows n rfl (loads 1) codes
  · show 1 < 512
    decide
  · show 512 ≤ 1 + n + 1
    omega

/- The code overwrites e with an operand before it is read, and 3 is added to 9; an expression
   that is too deep stops the process. -/
theorem fixnum_code_fails :
    (startCompile definesProgram =
        .ok ⟨[.datum (.num 1), .datum (.num 2), .datum (.num 3)], [definesFunc], 0⟩ ∧
      (run 4 definesThread).map (fun t => (t.opStackIdx, t.object 2)) =
        some (1, some (initWord 2)) ∧
      (run 9 definesThread).map (fun t => (t.opStackIdx, t.opstack 1)) = some (2, initWord 12) ∧
      (Tree.number clobbered).result (fun _ => 2) = initWord 11) ∧
    ∃ code s', ∃ t : Thread,
      Returns (compile (nested 511).node) ⟨[], [], []⟩ code s' ∧ t.func.code = code ∧
        t.opcode = 0 ∧ t.opStackSize = 512 ∧
        (∀ (i : Int) (k : Nat), (.datum (.num i), k) ∈ s'.consts →
          t.consts[k]? = some (initWord i)) ∧
        run code.length t = none :=
  ⟨⟨rfl, by decide, by decide, by decide⟩, deep_expression 511 (le_refl _)⟩

end LGears.FixnumCode
