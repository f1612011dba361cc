import LGears.CoreProgram
import LGears.Library.Returns

/- Analysis of core programs: every variable that is in scope when it is met becomes a
   reference to a binding record, which counts the uses and notes assignments. Records live in
   a heap, and an environment is the list of its frames, the innermost first. -/
namespace LGears.Analyze

/-- A binding record. Its value is the name of the variable until the variable is inlined. -/
structure Binding where
  refCount : Nat
  mutate : Bool
  value : Node

structure Heap where
  next : Nat
  get : Nat → Binding

/-- The bindings of an environment record: names with the addresses of their records. -/
abbrev Frame := List (Symbol × Nat)

structure State where
  heap : Heap
  env : List Frame

/-- A definition outside every lambda has no environment to be entered in; a parameter list
   with a dot is no proper list, and two lists of an iteration can differ in length. -/
inductive Failure where
  | noEnvironment
  | improperList
  | lengthMismatch
  | unbound (name : Symbol)
  deriving DecidableEq, Repr

/-- A node in which the variables found in scope are references. A constant, a quotation, an
   unbound variable and an assignment to an unbound variable are returned as they are. -/
inductive Analyzed where
  | raw (node : Node)
  | reference (bind : Nat)
  | function (bindings : Frame) (args : Formals) (body : List Analyzed) (hasDefines : Bool)
  | ite (pred conseq alt : Analyzed)
  | set (bind : Nat) (value : Analyzed)
  | define (name : Symbol) (bind : Nat) (value : Analyzed)
  | begin (forms : List Analyzed)
  | app (func : Analyzed) (args : List Analyzed)
  deriving Inhabited

abbrev Analysis := StateT State (Except Failure)

def Heap.put (h : Heap) (i : Nat) (b : Binding) : Heap :=
  { h with get := fun j => if j = i then b else h.get j }

def Heap.alloc (h : Heap) (b : Binding) : Heap :=
  { next := h.next + 1, get := fun j => if j = h.next then b else h.get j }

def envLookup : List Frame → Symbol → Option Nat
  | [], _ => none
  | bindings :: prev, name =>
    match bindings.lookup name with
    | some b => some b
    | none => envLookup prev name

def bindingIncref (h : Heap) (b : Nat) : Heap :=
  h.put b { h.get b with refCount := (h.get b).refCount + 1 }

def bindingMutateSet (h : Heap) (b : Nat) : Heap :=
  h.put b { h.get b with mutate := true }

def freshReference (b : Nat) : Analysis Analyzed := do
  modify fun s => { s with heap := bindingIncref s.heap b }
  pure (.reference b)

def freshBind (name : Symbol) : Analysis (Symbol × Nat) := do
  let s ← get
  set { s with heap := s.heap.alloc ⟨0, false, .sym name⟩ }
  pure (name, s.heap.next)

/-- make-bindings; the parameter behind a dot comes last. -/
def makeBindings : List Symbol → Analysis Frame
  | [] => pure []
  | name :: lst => do
    let b ← freshBind name
    let bs ← makeBindings lst
    pure (b :: bs)

/- What stands for (analyze env x) is given to the three forms as a computation, and
   `map` processes a body from left to right. -/

/-- The environment of a lambda is a frame of its own while its body is analysed. -/
def analyzeLambda (args : Formals) (body : List Node) (analyzed : Analysis (List Analyzed)) :
    Analysis Analyzed := do
  let bindings ← makeBindings args.names
  modify fun s => { s with env := bindings :: s.env }
  let body' ← analyzed
  let s ← get
  set { s with env := s.env.tail }
  pure (.function (s.env.headD []) args body' (body.any Cps.isDefine))

def analyzeAssigment (name : Symbol) (value : Node) (analyzed : Analysis Analyzed) :
    Analysis Analyzed := do
  let s ← get
  match envLookup s.env name with
  | some b => do
    set { s with heap := bindingIncref (bindingMutateSet s.heap b) b }
    let value' ← analyzed
    pure (.set b value')
  | none => pure (.raw (.set name value))

def analyzeDefine (name : Symbol) (analyzed : Analysis Analyzed) : Analysis Analyzed := do
  let bind ← freshBind name
  let s ← get
  match s.env with
  | [] => throw .noEnvironment
  | bindings :: prev => do
    set { s with env := (bind :: bindings) :: prev }
    let value' ← analyzed
    pure (.define name bind.2 value')

mutual
def analyze : Node → Analysis Analyzed
  | .const d => pure (.raw (.const d))
  | .quote d => pure (.raw (.quote d))
  | .sym name => do
    match envLookup (← get).env name with
    | some b => freshReference b
    | none => pure (.raw (.sym name))
  | .lambda args body => analyzeLambda args body (analyzeAll body)
  | .set name value => analyzeAssigment name value (analyze value)
  | .define name value => analyzeDefine name (analyze value)
  | .ite pred conseq alt => do
    let pred' ← analyze pred
    let conseq' ← analyze conseq
    let alt' ← analyze alt
    pure (.ite pred' conseq' alt')
  | .begin forms => do
    let forms' ← analyzeAll forms
    pure (.begin forms')
  | .app func args => do
    let func' ← analyze func
    let args' ← analyzeAll args
    pure (.app func' args')
  | .extend names => pure (.raw (.extend names))
def analyzeAll : List Node → Analysis (List Analyzed)
  | [] => pure []
  | x :: xs => do
    let x' ← analyze x
    let xs' ← analyzeAll xs
    pure (x' :: xs')
end

/-- No record has been made, and no environment entered: (analyze '() node). -/
def start : State := ⟨⟨0, fun _ => ⟨0, false, .const .null⟩⟩, []⟩

end LGears.Analyze
