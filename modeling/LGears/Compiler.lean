import LGears.Opcode
import LGears.PrimitivesInfo

/- The code generator. The environments of the functions that are being compiled form a
   chain, innermost first, and are part of the state: looking a variable up marks the
   environment that holds it and adds to the tables of the innermost one. -/
namespace LGears.Compiler
open PrimitivesInfo Opcode

/-- An entry of the constant area: a literal, the static variable of a builtin, or the one that
    `builtin-call` has made for a name, a record of its own. -/
inductive Const where
  | datum (d : Datum)
  | static (name : Symbol)
  | builtin (name : Symbol)
  deriving DecidableEq, Repr

/-- Environment of a function that is being compiled; a hash table is a list of its
    entries, newest first. -/
structure FuncEnv where
  tbl : List (Symbol × Nat)
  size : Nat
  argc : Nat
  swallow : Bool
  depth : Nat
  onheap : Bool
  bindings : List (Nat × Nat)
  bindmap : List Nat
  deriving DecidableEq, Repr

/-- A compiled function. -/
structure IFunc where
  code : List Instr
  size : Nat
  argc : Nat
  swallow : Bool
  heap : Bool
  depth : Nat
  bindings : List (Nat × Nat)
  bindmap : List Nat
  deriving DecidableEq, Repr

structure Ilr where
  consts : List Const
  code : List IFunc
  entryPoint : Nat
  deriving DecidableEq, Repr

inductive CompileError where
  | undefined (name : Symbol)
  | invalidSet (name : Symbol)
  | unknownTypeTest (name : Symbol)
  | malformed
  deriving DecidableEq, Repr

structure CompState where
  envs : List FuncEnv
  codeStore : List IFunc
  consts : List (Const × Nat)
  deriving DecidableEq, Repr

abbrev CompM := StateT CompState (Except CompileError)

def fail {α : Type} (e : CompileError) : CompM α := fun _ => .error e

def setFuncArgs (fixed : List Symbol) (idx : Nat) (tbl : List (Symbol × Nat)) :
    List (Symbol × Nat) :=
  match fixed with
  | [] => tbl
  | x :: xs => setFuncArgs xs (idx + 1) ((x, idx) :: tbl)

/-- (make-env prev args) -/
def makeEnv (envs : List FuncEnv) (args : Formals) : FuncEnv :=
  let tbl := setFuncArgs args.fixed 0 []
  let argc := args.fixed.length
  { tbl := match args.rest with
      | none => tbl
      | some x => (x, argc) :: tbl
    size := if args.rest.isSome then argc + 1 else argc
    argc := argc
    swallow := args.rest.isSome
    depth := match envs with
      | [] => 0
      | env :: _ => env.depth + 1
    onheap := false
    bindings := []
    bindmap := [] }

def envDefine (env : FuncEnv) (name : Symbol) : FuncEnv :=
  { env with tbl := (name, env.size) :: env.tbl, size := env.size + 1 }

def envRef (env : FuncEnv) (name : Symbol) : Option Nat := env.tbl.lookup name

/-- The index of key, counted from the end of the list, to which it is added when absent. -/
def intern {α : Type} [DecidableEq α] (key : α) (table : List α) : Nat × List α :=
  match table.dropWhile (· ≠ key) with
  | [] => (table.length, key :: table)
  | found => (found.length - 1, table)

/-- (env-bind env up idx) -/
def envBind (env : FuncEnv) (up idx : Nat) : Nat × FuncEnv :=
  let (midx, bindmap) := intern up env.bindmap
  let (bidx, bindings) := intern (midx, idx) env.bindings
  (bidx, { env with bindings := bindings, bindmap := bindmap })

def makeFunc (code : List Instr) (env : FuncEnv) : IFunc :=
  { code := code
    size := env.size
    argc := env.argc
    swallow := env.swallow
    heap := env.onheap
    depth := env.depth
    bindings := env.bindings.reverse
    bindmap := env.bindmap.reverse }

/-- (make-const datum) -/
def makeConst (c : Const) : CompM Nat := fun s =>
  match s.consts.lookup c with
  | some idx => .ok (idx, s)
  | none => .ok (s.consts.length, { s with consts := (c, s.consts.length) :: s.consts })

/-- (make-builtin name): a name has one record, so it is found in `builtins` when its record is
    found in `consts`. -/
def makeBuiltin : Node → CompM Nat
  | .sym name => makeConst (.builtin name)
  | _ => fail .malformed

def pushCode (code : IFunc) : CompM Nat := fun s =>
  .ok (s.codeStore.length, { s with codeStore := code :: s.codeStore })

/-- What (env-lookup env name) returns. -/
inductive Slot where
  | inLocal (idx : Nat)
  | inBind (idx : Nat)
  | inStatic (idx : Nat)
  deriving DecidableEq, Repr

/-- The environments above the innermost one: the depth and the index of the variable, and
    the chain with the environment that holds it on the heap. -/
def lookupParent (envs : List FuncEnv) (name : Symbol) : Option (Nat × Nat × List FuncEnv) :=
  match envs with
  | [] => none
  | env :: envs =>
    match envRef env name with
    | some idx => some (env.depth, idx, { env with onheap := true } :: envs)
    | none => (lookupParent envs name).map fun (depth, idx, envs) => (depth, idx, env :: envs)

def lookupStatic (name : Symbol) : CompM Slot :=
  if builtinNames.contains name then Slot.inStatic <$> makeConst (.static name)
  else fail (.undefined name)

def envLookup (name : Symbol) : CompM Slot := fun s =>
  match s.envs with
  | [] => lookupStatic name s
  | env :: envs =>
    match envRef env name with
    | some idx => .ok (.inLocal idx, s)
    | none =>
      match lookupParent envs name with
      | some (depth, idx, envs) =>
        let (bidx, env) := envBind env depth idx
        .ok (.inBind bidx, { s with envs := env :: envs })
      | none => lookupStatic name s

/-- A new environment is the innermost one until its function is compiled. -/
def pushEnv (args : Formals) : CompM PUnit := fun s =>
  .ok (⟨⟩, { s with envs := makeEnv s.envs args :: s.envs })

def defineAll (names : List Symbol) : CompM PUnit := fun s =>
  match s.envs with
  | [] => .ok (⟨⟩, s)
  | env :: envs => .ok (⟨⟩, { s with envs := names.foldl envDefine env :: envs })

def popEnv : CompM FuncEnv := fun s =>
  match s.envs with
  | [] => .error .malformed
  | env :: envs => .ok (env, { s with envs := envs })

def isLambda : Node → Bool
  | .lambda _ _ => true
  | _ => false

def contSafe (var : Symbol) : Bool :=
  match lookupBuiltin var with
  | some b => !b.changeCont
  | none => false

def isSymbol : Node → Bool
  | .sym _ => true
  | _ => false

/-- A builtin that leaves its continuation alone gets it as a function of the module. -/
def optimizeCont (func : Node) (args : List Node) : Bool :=
  match func, args with
  | .sym s, arg :: _ => isLambda arg && contSafe s
  | _, _ => false

def lambdaCall (func : List Instr) : Bool :=
  match func with
  | i :: _ => i.op == .loadClosure
  | [] => false

def rewriteFunc (args : List Instr) : List Instr :=
  match args with
  | i :: is => ⟨.loadFunc, i.arg⟩ :: is
  | [] => []

def callCode (func : Node) (operands : List Node) (fcode args : List Instr) : List Instr :=
  (if optimizeCont func operands then rewriteFunc args else args) ++
    (if lambdaCall fcode then rewriteFunc fcode else fcode) ++ [⟨.funcCall, operands.length⟩]

def ifCode (pred conseq alt : List Instr) : List Instr :=
  pred ++ ⟨.jumpIfFalse, conseq.length + 1⟩ :: conseq ++ ⟨.jumpForward, alt.length⟩ :: alt

def symName : Node → Symbol
  | .sym s => s
  | _ => ""

/-- The operand of an operation's instruction: a type test holds the number of the type. -/
def operationInstr (op : Symbol) (args : List Node) : CompM Instr :=
  match operatorToOpcode op, args with
  | some .opTypeTest, .sym type :: _ =>
    match typeTest type with
    | some i => pure ⟨.opTypeTest, i⟩
    | none => fail (.unknownTypeTest type)
  | some .opTypeTest, _ => fail .malformed
  | some code, _ => pure ⟨code, 0⟩
  | none, _ => fail .malformed

def compileConst : Datum → CompM (List Instr)
  | .bool b => pure [⟨.pushBool, if b then 1 else 0⟩]
  | .char c => do return [⟨.loadConst, ← makeConst (.datum (.char c))⟩]
  | .num i => do return [⟨.loadConst, ← makeConst (.datum (.num i))⟩]
  | .str s => do return [⟨.loadConst, ← makeConst (.datum (.str s))⟩]
  | _ => fail .malformed

def compileQuote (d : Datum) : CompM (List Instr) :=
  if d = .null then pure [⟨.pushNull, 0⟩]
  else do return [⟨.loadConst, ← makeConst (.datum d)⟩]

def compileSym (name : Symbol) : CompM (List Instr) := do
  match ← envLookup name with
  | .inLocal idx => pure [⟨.loadLocal, idx⟩]
  | .inBind idx => pure [⟨.loadBind, idx⟩]
  | .inStatic idx => pure [⟨.loadConst, idx⟩]

def setInstr (name : Symbol) (slot : Slot) : CompM Instr :=
  match slot with
  | .inLocal idx => pure ⟨.setLocal, idx⟩
  | .inBind idx => pure ⟨.setBind, idx⟩
  | .inStatic _ => fail (.invalidSet name)

/- `begin`, `define` and a misplaced `extend` are taken for calls of a variable of that
   name; no binder is a keyword, so the variable is undefined. -/
mutual
def compile : Node → CompM (List Instr)
  | .const d => compileConst d
  | .sym name => compileSym name
  | .quote d => compileQuote d
  | .lambda args body => do
    pushEnv args
    let compiled ← compileBody body
    let env ← popEnv
    let idx ← pushCode (makeFunc compiled env)
    return [⟨.loadClosure, idx⟩]
  | .ite pred conseq alt => do
    let pred ← compile pred
    let conseq ← compile conseq
    let alt ← compile alt
    return ifCode pred conseq alt
  | .set name value => do
    let slot ← envLookup name
    let code ← compile value
    let instr ← setInstr name slot
    return code ++ [instr]
  | .app f args =>
    if isOperator f then do
      let operands ← compileOperands (isTypeTest f) args
      let instr ← operationInstr (symName f) args
      return operands ++ [instr]
    else if isBuiltinCall f then compileBuiltin args
    else do
      let func ← compile f
      let args' ← compileAll args
      if isSymbol f && args.isEmpty then fail .malformed
      else return callCode f args func args'
  | .begin _ => fail (.undefined "begin")
  | .define _ _ => fail (.undefined "define")
  | .extend _ => fail (.undefined "extend")
/-- (map-append (lambda (x) (compile env x)) lst) -/
def compileAll : List Node → CompM (List Instr)
  | [] => pure []
  | x :: xs => do
    let code ← compile x
    let rest ← compileAll xs
    return code ++ rest
/-- (compile-builtin env node) -/
def compileBuiltin : List Node → CompM (List Instr)
  | [] | [_] => fail .malformed
  | cont :: name :: args => do
    let cont ← compile cont
    let func ← makeBuiltin name
    let args' ← compileAll args
    return cont ++ args' ++ [⟨.loadConst, func⟩, ⟨.funcCall, args.length + 1⟩]
/-- The first two operands; a type test has only one, after the type. -/
def compileOperands (typed : Bool) : List Node → CompM (List Instr)
  | [] => fail .malformed
  | [x] => if typed then fail .malformed else compile x
  | x :: y :: _ => do
    let first ← (if typed then pure [] else compile x)
    let second ← compile y
    return first ++ second
/-- (compile-body env body) -/
def compileBody : List Node → CompM (List Instr)
  | [] => fail .malformed
  | .extend names :: code => do
    defineAll names
    compileAll code
  | x :: xs => do
    let code ← compile x
    let rest ← compileAll xs
    return code ++ rest
end

/-- (start-compile root) -/
def startCompile (root : Node) : Except CompileError Ilr :=
  match compile root ⟨[], [], []⟩ with
  | .error e => .error e
  | .ok (_, s) => .ok ⟨s.consts.reverse.map (·.1), s.codeStore.reverse, s.codeStore.length - 1⟩

end LGears.Compiler
