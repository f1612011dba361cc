import LGears.CompilerScope

/- What the instructions of the compiled functions stand for: a relation between the nodes
   of a program and the segments of code in the final tables. -/
namespace LGears.CodeTables
open PrimitivesInfo Opcode StateExcept Compiler

/-- A lambda expression where it stands; the frames of the enclosing functions are listed
    innermost first. -/
structure Lambda where
  scope : List (List Symbol)
  args : Formals
  body : List Node

/-- The variables of a function in the order of their slots. -/
def frameOf (args : Formals) (body : List Node) : List Symbol := args.names ++ extendNames body

def Lambda.frame (l : Lambda) : List Symbol := frameOf l.args l.body

/- The lambda expressions of a node in the order in which their functions are finished. -/
mutual
def lambdasOf (scope : List (List Symbol)) : Node → List Lambda
  | .const _ | .sym _ | .quote _ | .begin _ | .define _ _ | .extend _ => []
  | .lambda args body => lambdasAll (frameOf args body :: scope) body ++ [⟨scope, args, body⟩]
  | .ite pred conseq alt => lambdasOf scope pred ++ lambdasOf scope conseq ++ lambdasOf scope alt
  | .set _ value => lambdasOf scope value
  | .app f args => lambdasOf scope f ++ lambdasAll scope args
def lambdasAll (scope : List (List Symbol)) : List Node → List Lambda
  | [] => []
  | x :: xs => lambdasOf scope x ++ lambdasAll scope xs
end

/-- The number of operands of an operation; the first one of a type test is the type. -/
def operandCount (op : Symbol) : Nat :=
  if ["$car", "$cdr", "$!", "$not"].contains op then 1 else 2

/- Every operation has its proper number of operands. -/
mutual
def properOps : Node → Bool
  | .const _ | .sym _ | .quote _ | .extend _ => true
  | .lambda _ body => properOpsAll body
  | .ite pred conseq alt => properOps pred && properOps conseq && properOps alt
  | .set _ value | .define _ value => properOps value
  | .begin forms => properOpsAll forms
  | .app f args =>
    (!isOperator f || args.length == operandCount (symName f)) && properOps f && properOpsAll args
def properOpsAll : List Node → Bool
  | [] => true
  | x :: xs => properOps x && properOpsAll xs
end

theorem properOpsAll_iff {xs : List Node} :
    properOpsAll xs = true ↔ ∀ x ∈ xs, properOps x = true := by
  induction xs with
  | nil => simp [properOpsAll]
  | cons x xs ih => simp [properOpsAll, ih]

/-- The last of the slots of a frame with the name x. -/
structure SlotOf (frame : List Symbol) (x : Symbol) (idx : Nat) : Prop where
  named : frame[idx]? = some x
  last : ∀ k, idx < k → frame[k]? ≠ some x

theorem SlotOf.lt {frame : List Symbol} {x : Symbol} {idx : Nat} (slot : SlotOf frame x idx) :
    idx < frame.length :=
  (List.getElem?_eq_some_iff.mp slot.named).1

/-- The innermost of the frames that holds x belongs to the function of this depth. -/
def Enclosing : List (List Symbol) → Symbol → Nat → Nat → Prop
  | [], _, _, _ => False
  | frame :: scope, x, depth, idx =>
    (SlotOf frame x idx ∧ depth = scope.length) ∨ (x ∉ frame ∧ Enclosing scope x depth idx)

/-- The constants of a module and its functions, as far as code refers to them. -/
structure Tables where
  consts : List Const
  lambdas : List Lambda

/-- The slot holds the variable x for the code of f, which stands in the given scope. -/
def Located (T : Tables) (f : IFunc) (scope : List (List Symbol)) (x : Symbol) : Slot → Prop
  | .inLocal idx => ∃ frame outer, scope = frame :: outer ∧ SlotOf frame x idx
  | .inBind b => ∃ frame outer depth idx up, scope = frame :: outer ∧ x ∉ frame ∧
      Enclosing outer x depth idx ∧ f.bindings[b]? = some (up, idx) ∧ f.bindmap[up]? = some depth
  | .inStatic k => (∀ frame ∈ scope, x ∉ frame) ∧ x ∈ builtinNames ∧
      T.consts[k]? = some (.static x)

def loadInstr : Slot → Instr
  | .inLocal idx => ⟨.loadLocal, idx⟩
  | .inBind idx => ⟨.loadBind, idx⟩
  | .inStatic idx => ⟨.loadConst, idx⟩

/-- A builtin is not assigned. -/
def StoreInstr : Slot → Instr → Prop
  | .inLocal idx, instr => instr = ⟨.setLocal, idx⟩
  | .inBind idx, instr => instr = ⟨.setBind, idx⟩
  | .inStatic _, _ => False

def LiteralInstr (T : Tables) (d : Datum) (instr : Instr) : Prop :=
  match d with
  | .bool b => instr = ⟨.pushBool, if b then 1 else 0⟩
  | d => loadable d = true ∧ ∃ k, instr = ⟨.loadConst, k⟩ ∧ T.consts[k]? = some (.datum d)

def QuoteInstr (T : Tables) (d : Datum) (instr : Instr) : Prop :=
  if d = .null then instr = ⟨.pushNull, 0⟩
  else ∃ k, instr = ⟨.loadConst, k⟩ ∧ T.consts[k]? = some (.datum d)

/-- The function of the lambda expression, as a closure or without an environment. -/
def LambdaInstr (T : Tables) (l : Lambda) (instr : Instr) : Prop :=
  (instr.op = .loadClosure ∨ instr.op = .loadFunc) ∧ T.lambdas[instr.arg]? = some l

/-- The operand of a type test is the number of the type that its first argument names. -/
def OperationInstr (op : Symbol) (args : List Node) (instr : Instr) : Prop :=
  operatorToOpcode op = some instr.op ∧
    if instr.op = .opTypeTest then
      ∃ type rest, args = .sym type :: rest ∧ typeTest type = some instr.arg
    else instr.arg = 0

/-- The static variable that `builtin-call` has made for the name. -/
def BuiltinInstr (T : Tables) (name : Node) (instr : Instr) : Prop :=
  ∃ x k, name = .sym x ∧ instr = ⟨.loadConst, k⟩ ∧ T.consts[k]? = some (.builtin x)

/-- One instruction of f at i. -/
def One (f : IFunc) (p : Instr → Prop) (i j : Nat) : Prop :=
  ∃ instr, f.code[i]? = some instr ∧ p instr ∧ j = i + 1

/- The instructions of f from i up to j are the code of the node. -/
mutual
def CodeOf (T : Tables) (f : IFunc) (scope : List (List Symbol)) : Node → Nat → Nat → Prop
  | .const d, i, j => One f (LiteralInstr T d) i j
  | .quote d, i, j => One f (QuoteInstr T d) i j
  | .sym x, i, j => One f (fun instr => ∃ slot, Located T f scope x slot ∧ instr = loadInstr slot) i j
  | .lambda args body, i, j => One f (LambdaInstr T ⟨scope, args, body⟩) i j
  | .ite pred conseq alt, i, j => ∃ test skip n m, CodeOf T f scope pred i test ∧
      f.code[test]? = some ⟨.jumpIfFalse, n⟩ ∧ CodeOf T f scope conseq (test + 1) skip ∧
      f.code[skip]? = some ⟨.jumpForward, m⟩ ∧ CodeOf T f scope alt (skip + 1) j ∧
      test + 1 + n = skip + 1 ∧ skip + 1 + m = j
  | .set x value, i, j => ∃ m, CodeOf T f scope value i m ∧
      One f (fun instr => ∃ slot, Located T f scope x slot ∧ StoreInstr slot instr) m j
  | .app g args, i, j =>
    if isOperator g then
      ∃ m, OperandsOf T f scope (isTypeTest g) args i m ∧
        One f (OperationInstr (symName g) args) m j
    else if isBuiltinCall g then BuiltinOf T f scope args i j
    else
      ∃ m n, CodeAll T f scope args i m ∧ CodeOf T f scope g m n ∧
        One f (· = ⟨.funcCall, args.length⟩) n j
  | .begin _, _, _ | .define _ _, _, _ | .extend _, _, _ => False
def CodeAll (T : Tables) (f : IFunc) (scope : List (List Symbol)) : List Node → Nat → Nat → Prop
  | [], i, j => i = j
  | x :: xs, i, j => ∃ m, CodeOf T f scope x i m ∧ CodeAll T f scope xs m j
def BuiltinOf (T : Tables) (f : IFunc) (scope : List (List Symbol)) : List Node → Nat → Nat → Prop
  | [], _, _ | [_], _, _ => False
  | cont :: name :: args, i, j => ∃ m n k, CodeOf T f scope cont i m ∧ CodeAll T f scope args m n ∧
      One f (BuiltinInstr T name) n k ∧ One f (· = ⟨.funcCall, args.length + 1⟩) k j
def OperandsOf (T : Tables) (f : IFunc) (scope : List (List Symbol)) (typed : Bool) :
    List Node → Nat → Nat → Prop
  | [x], i, j => typed = false ∧ CodeOf T f scope x i j
  | [x, y], i, j =>
    if typed then CodeOf T f scope y i j
    else ∃ m, CodeOf T f scope x i m ∧ CodeOf T f scope y m j
  | _, _, _ => False
end

/-- The entry leads to a variable in the frame of an enclosing function. -/
def Binds (bindmap : List Nat) (scope : List (List Symbol)) (b : Nat × Nat) : Prop :=
  ∃ depth frame, bindmap[b.1]? = some depth ∧ scope.reverse[depth]? = some frame ∧
    b.2 < frame.length

/-- f is the function of the lambda expression. -/
structure FuncOf (T : Tables) (l : Lambda) (f : IFunc) : Prop where
  size : f.size = l.frame.length
  argc : f.argc = l.args.fixed.length
  swallow : f.swallow = l.args.rest.isSome
  depth : f.depth = l.scope.length
  bindings : ∀ b ∈ f.bindings, Binds f.bindmap l.scope b
  code : CodeAll T f (l.frame :: l.scope) (bodyForms l.body) 0 f.code.length

end LGears.CodeTables
