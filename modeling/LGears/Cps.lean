import LGears.GenName
import LGears.PrimitivesInfo

/- CPS conversion. `res` is the rest of the computation, absent in tail position;
   `name` is then the continuation, and otherwise the variable `res` waits for.
   The state of `Conv` is the counter of the name generator. -/
namespace LGears.Cps
open GenName PrimitivesInfo

/-- The two `syntax-violation`s of the conversion. -/
inductive Violation where
  | misplacedDefinition (node : Node)
  | emptyBody
  deriving Repr

abbrev Conv := StateT Nat (Except Violation)

def genName : Conv Symbol := fun n => .ok (GenName.genName n)

def violation {α : Type} (v : Violation) : Conv α := fun _ => .error v

mutual
def selfEval : Node → Bool
  | .const _ | .sym _ | .quote _ => true
  | .app f args => isOperator f && simpleOperation args
  | .lambda _ _ | .ite _ _ _ | .set _ _ | .define _ _ | .begin _ | .extend _ => false
def simpleOperation : List Node → Bool
  | [] => true
  | x :: xs => selfEval x && simpleOperation xs
end

theorem simpleOperation_iff {xs : List Node} :
    simpleOperation xs = true ↔ ∀ x ∈ xs, selfEval x = true := by
  induction xs with
  | nil => simp [simpleOperation]
  | cons x xs ih => simp [simpleOperation, ih]

def inlinable : Node → Bool
  | .lambda _ _ => true
  | _ => false

def isDefine : Node → Bool
  | .define _ _ => true
  | _ => false

/- `begin` forms introduced by convertSet are spliced into the surrounding body. -/
mutual
def spliceBegin : List Node → List Node
  | [] => []
  | x :: xs => spliceNode x (spliceBegin xs)
def spliceNode : Node → List Node → List Node
  | .begin forms, y => spliceBegin forms ++ y
  | x, y => x :: y
end

/-- `eq?` on two forms of one sequence: symbols and immediate objects by value, while every
   pair and every string of a program is an object of its own, as the reader makes them. What
   the optimizer has inlined may be shared by several places. -/
def eqObject : Node → Node → Bool
  | .sym a, .sym b => a == b
  | .const (.num a), .const (.num b) => a == b
  | .const (.bool a), .const (.bool b) => a == b
  | .const (.char a), .const (.char b) => a == b
  | .const .null, .const .null => true
  | _, _ => false

def symbolOf : Node → Symbol
  | .sym s => s
  | _ => ""

/-- ((lambda (name) res) node), or (name node) in tail position. -/
def deliver (res : Option Node) (name : Symbol) (node : Node) : Node :=
  match res with
  | none => .app (.sym name) [node]
  | some r => .app (.lambda ⟨[name], none⟩ [r]) [node]

/-- What the converted `if` tests. -/
def predName (pred : Node) : Conv Node :=
  if selfEval pred then pure pred else Node.sym <$> genName

/-- Outside tail position both branches pass their value to one join continuation. -/
def joinExpr (res : Option Node) (name lname : Symbol) (condition : Node) : Node :=
  match res with
  | none => condition
  | some r => .app (.lambda ⟨[lname], none⟩ [condition]) [.lambda ⟨[name], none⟩ [r]]

/-- What takes the value of a form of a sequence: only the last form keeps `name`. -/
def seqName (tail : Bool) (name : Symbol) : Conv Symbol :=
  if tail then pure name else genName

/-- The local set-body of convert-set. -/
def setBody (target : Symbol) (res : Option Node) (name : Symbol) (val : Node) : List Node :=
  .set target val ::
    match res with
    | none => [.app (.sym "void") [.sym name]]
    | some r => spliceBegin [r]

/-- The continuation a converted call passes on. -/
def control (res : Option Node) (name : Symbol) : Node :=
  match res with
  | none => .sym name
  | some r => .lambda ⟨[name], none⟩ (spliceBegin [r])

/-- The innermost term of a converted call: an operation goes to the control,
   a function takes the control as its first argument. -/
def callExpr (ctl func : Node) (args : List Node) : Node :=
  if isOperator func then .app ctl [.app func args] else .app func (ctl :: args)

def extendForm (names : List Symbol) : List Node :=
  if names.isEmpty then [] else [.extend names]

def defineName : Node → Symbol
  | .define x _ => x
  | _ => ""

/-- The two halves of (partition defination? body). -/
def definesOf (body : List Node) : List Node := body.filter isDefine

def expressionsOf (body : List Node) : List Node := body.filter fun x => !isDefine x

mutual
def convert (res : Option Node) (node : Node) (name : Symbol) : Conv Node :=
  if selfEval node then pure (deliver res name node)
  else match node with
  | .lambda args body => do
    let func ← convertFunc args body
    pure (deliver res name func)
  | .ite pred conseq alt => do
    let predname ← predName pred
    let lname ← genName
    let escape := if res.isNone then name else lname
    let conseq' ← convert none conseq escape
    let alt' ← convert none alt escape
    let expr := joinExpr res name lname (.ite predname conseq' alt')
    if selfEval pred then pure expr else convert (some expr) pred (symbolOf predname)
  | .begin forms => do
    let seq ← convertSeq res forms name
    pure (seq.getD (.const .null))
  | .set x value => convertSet res x value name
  | .app f args => do
    let largs ← convertArgs args
    let lf ← convertArg f
    let expr := callExpr (control res name) lf largs
    let inner ← glueArgs expr args largs
    glueArg inner f lf
  | node => violation (.misplacedDefinition node)
termination_by 4 * sizeOf node
decreasing_by all_goals (simp; try omega)

/-- What stands for an operand in the call itself. -/
def convertArg (x : Node) : Conv Node :=
  if selfEval x then pure x
  else match x with
  | .lambda args body => convertFunc args body
  | _ => Node.sym <$> genName
termination_by 4 * sizeOf x
decreasing_by all_goals (simp; try omega)

/-- The reversed list is mapped from its head, so the last operand goes first. -/
def convertArgs (xs : List Node) : Conv (List Node) :=
  match xs with
  | [] => pure []
  | x :: xs => do
    let largs ← convertArgs xs
    let larg ← convertArg x
    pure (larg :: largs)
termination_by 4 * sizeOf xs
decreasing_by all_goals (simp; try omega)

def glueArg (prev x larg : Node) : Conv Node :=
  if selfEval x || inlinable x then pure prev
  else convert (some prev) x (symbolOf larg)
termination_by 4 * sizeOf x + 1
decreasing_by all_goals (simp; try omega)

def glueArgs (expr : Node) (xs largs : List Node) : Conv Node :=
  match xs, largs with
  | x :: xs, larg :: largs => do
    let prev ← glueArgs expr xs largs
    glueArg prev x larg
  | _, _ => pure expr
termination_by 4 * sizeOf xs
decreasing_by all_goals (simp; try omega)

def convertSeq (res : Option Node) (source : List Node) (name : Symbol) : Conv (Option Node) :=
  match source with
  | [] => pure none
  | x :: xs => seqLoop res ((x :: xs).getLast (by simp)) name (x :: xs)
termination_by 4 * sizeOf source + 1
decreasing_by all_goals (simp; try omega)

/-- The fold over the reversed sequence; `frst` is the form it starts from. -/
def seqLoop (res : Option Node) (frst : Node) (name : Symbol) (xs : List Node) :
    Conv (Option Node) :=
  match xs with
  | [] => pure res
  | x :: xs => do
    let prev ← seqLoop res frst name xs
    let tail := xs.isEmpty || eqObject x frst
    if selfEval x then pure (if tail then some (.app (.sym name) [x]) else prev)
    else do
      let value ← seqName tail name
      some <$> convert prev x value
termination_by 4 * sizeOf xs
decreasing_by all_goals (simp; try omega)

def convertSet (res : Option Node) (x : Symbol) (value : Node) (name : Symbol) : Conv Node :=
  if selfEval value then pure (.begin (setBody x res name value))
  else match value with
  | .lambda args body => do
    let func ← convertFunc args body
    pure (.begin (setBody x res name func))
  | value => do
    let setter ← genName
    let nv ← genName
    let term ← convert none value setter
    pure (.app (.lambda ⟨[setter], none⟩ [term])
      [.lambda ⟨[nv], none⟩ (setBody x res name (.sym nv))])
termination_by 4 * sizeOf value + 1
decreasing_by all_goals (simp; try omega)

def convertFunc (args : Formals) (body : List Node) : Conv Node := do
  let name ← genName
  let body' ← convertBody body name
  pure (.lambda ⟨name :: args.fixed, args.rest⟩ (spliceBegin body'))
termination_by 4 * sizeOf body + 3
decreasing_by all_goals (simp; try omega)

def convertBody (body : List Node) (name : Symbol) : Conv (List Node) := do
  if (expressionsOf body).isEmpty then violation .emptyBody
  else do
    let rest ← convertSeq none (expressionsOf body) name
    let term ← convertDefines rest (definesOf body)
    pure (extendForm ((definesOf body).map defineName) ++ term.toList)
termination_by 4 * sizeOf body + 2
decreasing_by
  · have := sizeOf_filter_le (fun x => !isDefine x) body
    simp only [expressionsOf]
    omega
  · have := sizeOf_filter_le isDefine body
    simp only [definesOf]
    omega

def convertDefines (rest : Option Node) (defines : List Node) : Conv (Option Node) :=
  match defines with
  | [] => pure rest
  | x :: xs => do
    let prev ← convertDefines rest xs
    match x with
    | .define y value => do
      let name ← genName
      some <$> convertSet prev y value name
    | _ => pure prev
termination_by 4 * sizeOf defines
decreasing_by all_goals (simp; try omega)
end

def convertLambda : Node → Conv Node
  | .lambda args body => convertFunc args body
  | node => violation (.misplacedDefinition node)

/-- `last-name` is the value of the generator's counter when the conversion starts. -/
def cpsConvert (source : Node) (lastName : Nat) : Except Violation (Node × Nat) :=
  convertLambda source lastName

end LGears.Cps
