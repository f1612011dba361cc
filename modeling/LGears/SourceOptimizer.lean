import LGears.Analyze

/- The source optimizer: statements without effects and definitions without uses are dropped,
   and an immediately applied lambda loses the parameters whose arguments stand for their own
   value. What a use of such a parameter becomes is kept in its binding record. -/
namespace LGears.SourceOptimizer
open Analyze PrimitivesInfo

abbrev Optimization := StateT Heap (Except Failure)

/-- `self-eval?` on an analysed node: references and analysed functions are records. -/
def selfEval : Analyzed → Bool
  | .raw (.const _) | .raw (.quote _) | .reference _ | .function _ _ _ _ => true
  | _ => false

/-- What `side-effects-free?` asks of the head of a list. -/
def effectFreeHead : Analyzed → Bool
  | .raw (.sym s) =>
    match lookupBuiltin s with
    | some res => !(res.sideEffect || res.changeCont)
    | none => primitivesOperators.contains s
  | _ => false

def sideEffectsFree : Analyzed → Bool
  | .app func _ => effectFreeHead func
  | node => selfEval node

/-- (assq name (function-bindings func)) -/
def findBinding (bindings : Frame) (name : Symbol) : Optimization Nat :=
  match bindings.lookup name with
  | some b => pure b
  | none => throw (.unbound name)

def mutated (h : Heap) : Analyzed → Bool
  | .reference b => (h.get b).mutate
  | _ => false

def mayInline (bindings : Frame) (arg : Symbol) (val : Analyzed) : Optimization Bool := do
  let bind ← findBinding bindings arg
  let h ← get
  pure (!(h.get bind).mutate && selfEval val && !mutated h val)

/-- (exists may-inline? args vals), which stops at the first success. -/
def existsInline (bindings : Frame) : List Symbol → Option Symbol → List Analyzed →
    Optimization Bool
  | [], none, [] => pure false
  | arg :: args, rest, val :: vals => do
    if ← mayInline bindings arg val then pure true else existsInline bindings args rest vals
  | _, some _, [] => throw .improperList
  | [], some _, _ => throw .improperList
  | _, _, _ => throw .lengthMismatch

/-- may-inline-lambda? -/
def mayInlineLambda (bindings : Frame) (args : Formals) (vals : List Analyzed) :
    Optimization Bool := do
  if ← existsInline bindings args.fixed args.rest vals then pure !args.names.isEmpty
  else pure false

/-- inline-binding! -/
def inlineBinding (bindings : Frame) (name : Symbol) (value : Node) : Optimization Unit := do
  let b ← findBinding bindings name
  modify fun h => h.put b { h.get b with value := value }

/- `map` runs over a form that was never analysed and changes nothing, but it fails on a
   parameter list with a dot. -/
mutual
def mappable : Node → Bool
  | .const _ | .quote _ | .sym _ | .extend _ => true
  | .lambda args body => (args.fixed.isEmpty || args.rest.isNone) && mappableAll body
  | .ite pred conseq alt => mappable pred && mappable conseq && mappable alt
  | .set _ value | .define _ value => mappable value
  | .begin forms => mappableAll forms
  | .app func args => mappable func && mappableAll args
def mappableAll : List Node → Bool
  | [] => true
  | x :: xs => mappable x && mappableAll xs
end

mutual
def optimize : Analyzed → Optimization Node
  | .function _ args body _ => do
    let body' ← optimizeBody body
    pure (.lambda args body')
  | .app (.function bindings args body hasDefines) vals => do
    if ← mayInlineLambda bindings args vals then
      let (rused, sused) ← inlineLambda bindings args.rest args.fixed vals
      let body' ← optimizeBody body
      if rused.isEmpty && !hasDefines then pure (.begin body')
      else pure (.app (.lambda ⟨rused, none⟩ body') sused)
    else
      let body' ← optimizeBody body
      let vals' ← optimizeAll vals
      pure (.app (.lambda args body') vals')
  | .app func args => do
    let func' ← optimize func
    let args' ← optimizeAll args
    pure (.app func' args')
  | .reference b => do
    pure ((← get).get b).value
  | .raw node => if mappable node then pure node else throw .improperList
  | .ite pred conseq alt => do
    let pred' ← optimize pred
    let conseq' ← optimize conseq
    let alt' ← optimize alt
    pure (.ite pred' conseq' alt')
  | .set b value => do
    -- a variable that is assigned to is never inlined, so its value is its name
    let name := Cps.symbolOf ((← get).get b).value
    let value' ← optimize value
    pure (.set name value')
  | .define _ _ _ =>
    -- `map` meets the pair of the name and its record, which is no proper list
    throw .improperList
  | .begin forms => do
    let forms' ← optimizeAll forms
    pure (.begin forms')
/-- (map optimize nodes) -/
def optimizeAll : List Analyzed → Optimization (List Node)
  | [] => pure []
  | x :: xs => do
    let x' ← optimize x
    let xs' ← optimizeAll xs
    pure (x' :: xs')
def optimizeBody : List Analyzed → Optimization (List Node)
  | [] => pure []
  | .define name b value :: next => do
    if 0 < ((← get).get b).refCount then
      let value' ← optimize value
      let rest ← optimizeBody next
      pure (.define name value' :: rest)
    else optimizeBody next
  | node :: next => do
    if !next.isEmpty && sideEffectsFree node then optimizeBody next
    else
      let node' ← optimize node
      let rest ← optimizeBody next
      pure (node' :: rest)
/-- The parameters and the arguments that are left, once the others are inlined. -/
def inlineLambda (bindings : Frame) (rest : Option Symbol) :
    List Symbol → List Analyzed → Optimization (List Symbol × List Node)
  | [], _ => if rest.isNone then pure ([], []) else throw .improperList
  | _ :: _, [] => throw .lengthMismatch
  | arg :: args, val :: vals => do
    if ← mayInline bindings arg val then
      let val' ← optimize val
      inlineBinding bindings arg val'
      inlineLambda bindings rest args vals
    else
      let val' ← optimize val
      let (rused, sused) ← inlineLambda bindings rest args vals
      pure (arg :: rused, val' :: sused)
end

def optimizeSource (node : Node) : Except Failure Node :=
  match analyze node start with
  | .ok (node', s) => (optimize node' s.heap).map Prod.fst
  | .error e => .error e

end LGears.SourceOptimizer
