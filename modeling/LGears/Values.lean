import LGears.Cps
import Mathlib.Logic.Relator
import Mathlib.Data.List.Forall2
import Mathlib.Data.Option.Basic
import Mathlib.Data.Int.Bitwise

/- Run-time values and the meaning of the primitive operations, shared by the direct
   semantics of core programs and by the semantics of CPS terms. Variables, pairs,
   closures and the objects made by builtins all live in one heap. -/
namespace LGears.Values
open PrimitivesInfo

inductive Atom where
  | data (d : Datum)
  | void
  | eof
  | prim (name : Symbol)
  | done
  deriving DecidableEq, Repr

inductive Value where
  | atom (a : Atom)
  | ref (n : Nat)
  | proc (n : Nat)
  deriving DecidableEq, Repr

abbrev Env := Symbol → Option Nat

def Env.empty : Env := fun _ => none

def Env.bind (ρ : Env) (x : Symbol) (l : Nat) : Env := fun y => if y = x then some l else ρ y

/-- A cell holds a variable, and nothing before its definition has run. A pair keeps the
   length `_cons` computes for a proper list. -/
inductive Obj where
  | cell (v : Option Value)
  | pair (a d : Value) (length : Option Nat)
  | closure (args : Formals) (body : List Node) (env : Env)
  | foreign (kind : Symbol)

/-- A call of a builtin function that is marked as having a side effect. -/
structure Event where
  name : Symbol
  args : List Value
  result : Value
  deriving DecidableEq, Repr

structure State where
  heap : List Obj
  trace : List Event

def State.empty : State := ⟨[], []⟩

def State.alloc (s : State) (o : Obj) : State := { s with heap := s.heap ++ [o] }

/-- Where the next object goes. -/
def State.top (s : State) : Nat := s.heap.length

def State.get (s : State) (l : Nat) : Option Obj := s.heap[l]?

def State.put (s : State) (l : Nat) (o : Obj) : State := { s with heap := s.heap.set l o }

/-- Numbers are fixnums of 61 bits. -/
def wrap (i : Int) : Int := (i + 2 ^ 60) % 2 ^ 61 - 2 ^ 60

mutual
def loadDatum : Datum → Datum
  | .num i => .num (wrap i)
  | .pair a d => .pair (loadDatum a) (loadDatum d)
  | .vec xs => .vec (loadAll xs)
  | d => d
def loadAll : List Datum → List Datum
  | [] => []
  | x :: xs => loadDatum x :: loadAll xs
end

def literal (d : Datum) : Value := .atom (.data (loadDatum d))

def void : Value := .atom .void

def bool (b : Bool) : Value := .atom (.data (.bool b))

def truthy (v : Value) : Bool := v != bool false

def num? : Value → Option Int
  | .atom (.data (.num i)) => some i
  | _ => none

/-- The list length of a literal: none when it is not a proper list. -/
def datumLength : Datum → Option Nat
  | .null => some 0
  | .pair _ d => (datumLength d).map (· + 1)
  | _ => none

/-- The list length `_cons` finds in the cdr. -/
def listLength (s : State) : Value → Option Nat
  | .atom (.data d) => datumLength d
  | .ref n => match s.get n with
    | some (.pair _ _ len) => len
    | _ => none
  | _ => none

def State.cons (s : State) (a d : Value) : Value × State :=
  (.ref s.top, s.alloc (.pair a d ((listLength s d).map (· + 1))))

def pairParts (s : State) : Value → Option (Value × Value)
  | .atom (.data (.pair a d)) => some (.atom (.data a), .atom (.data d))
  | .ref n => match s.get n with
    | some (.pair a d _) => some (a, d)
    | _ => none
  | _ => none

def arith (op : Symbol) (a b : Int) : Option Int :=
  if op = "$+" then some (wrap (a + b))
  else if op = "$-" then some (wrap (a - b))
  else if op = "$*" then some (wrap (a * b))
  else if op = "$/" then if b = 0 then none else some (wrap (a.tdiv b))
  else if op = "$%" then if b = 0 then none else some (wrap (a.tmod b))
  else if op = "$and" then some (wrap (Int.land a b))
  else if op = "$ior" then some (wrap (Int.lor a b))
  else if op = "$xor" then some (wrap (Int.xor a b))
  else none

def compare (op : Symbol) (a b : Int) : Option Bool :=
  if op = "$<" then some (decide (a < b))
  else if op = "$>" then some (decide (b < a))
  else if op = "$=" then some (decide (a = b))
  else none

def numeric (op : Symbol) (a b : Int) : Option Value :=
  match arith op a b with
  | some i => some (.atom (.data (.num i)))
  | none => (compare op a b).map bool

def foreignKind (s : State) : Value → Option Symbol
  | .ref n => match s.get n with
    | some (.foreign kind) => some kind
    | _ => none
  | _ => none

def typeTest (s : State) (t : Symbol) (v : Value) : Option Bool :=
  if t = "TT_FIXNUM" then some (num? v).isSome
  else if t = "TT_NULL" then some (v == .atom (.data .null))
  else if t = "TT_LIST" then some (listLength s v).isSome
  else if t = "TT_PAIR" then some (pairParts s v).isSome
  else if t = "TT_PROCEDURE" then some (match v with
    | .proc _ | .atom (.prim _) | .atom .done => true
    | _ => false)
  else if t = "TT_BOOLEAN" then some (match v with | .atom (.data (.bool _)) => true | _ => false)
  else if t = "TT_CHAR" then some (match v with | .atom (.data (.char _)) => true | _ => false)
  else if t = "TT_SYMBOL" then some (match v with | .atom (.data (.sym _)) => true | _ => false)
  else if t = "TT_STRUCT" then
    some (match v with
      | .atom (.data (.vec _)) => true
      | v => foreignKind s v == some "struct")
  else if t = "TT_STRING" then
    some (match v with
      | .atom (.data (.str _)) => true
      | v => foreignKind s v == some "string")
  else if t = "TT_BYTEVECTOR" then some (foreignKind s v == some "bytevector")
  else if t = "TT_EOF" then some (v == .atom .eof)
  else none

/-- What a builtin function makes of its arguments. -/
inductive Answer where
  | value (v : Value)
  | fresh (kind : Symbol)
  | cons (a d : Answer)

def State.build (s : State) : Answer → Value × State
  | .value v => (v, s)
  | .fresh kind => (.ref s.top, s.alloc (.foreign kind))
  | .cons a d =>
    let (d', s) := s.build d
    let (a', s) := s.build a
    s.cons a' d'

/-- Values that correspond under a renaming β of the objects and γ of the procedures. The
   halting continuation is not a value of the source language. -/
inductive ValueRel (β γ : Nat → Nat → Prop) : Value → Value → Prop where
  | atom {a : Atom} (h : a ≠ .done) : ValueRel β γ (.atom a) (.atom a)
  | ref {m n : Nat} (h : β m n) : ValueRel β γ (.ref m) (.ref n)
  | proc {m n : Nat} (h : γ m n) : ValueRel β γ (.proc m) (.proc n)

inductive AnswerRel (β γ : Nat → Nat → Prop) : Answer → Answer → Prop where
  | value {v w : Value} (h : ValueRel β γ v w) : AnswerRel β γ (.value v) (.value w)
  | fresh (kind : Symbol) : AnswerRel β γ (.fresh kind) (.fresh kind)
  | cons {a b d e : Answer} (car : AnswerRel β γ a b) (cdr : AnswerRel β γ d e) :
      AnswerRel β γ (.cons a d) (.cons b e)

structure EventRel (β γ : Nat → Nat → Prop) (e f : Event) : Prop where
  name : e.name = f.name
  args : List.Forall₂ (ValueRel β γ) e.args f.args
  result : ValueRel β γ e.result f.result

/-- The contents of a pair and its list length, as a builtin may inspect them. -/
abbrev Deref := Nat → Option (Value × Value × Option Nat)

def DerefRel (β γ : Nat → Nat → Prop) (d e : Deref) : Prop :=
  ∀ m n, β m n → Option.Rel (fun p q => ValueRel β γ p.1 q.1 ∧ ValueRel β γ p.2.1 q.2.1 ∧
    p.2.2 = q.2.2) (d m) (e n)

/-- The builtin functions, which live outside the compiler. What a call returns may depend
   on all side effects so far; it cannot depend on where objects happen to be, nor on the
   identity of procedures. A call of `__exit` does not return. `eqProcs` says whether `$eq?`
   may compare procedures. -/
structure World where
  call : List Event → Deref → Symbol → List Value → Option Answer
  void_call : ∀ h d, call h d "void" [] = some (.value void)
  exit_call : ∀ h d vs, call h d "__exit" vs = none
  natural : ∀ {β γ : Nat → Nat → Prop}, Relator.BiUnique β →
    ∀ {h h' : List Event} {d d' : Deref} {vs vs' : List Value} (name : Symbol),
      List.Forall₂ (EventRel β γ) h h' → DerefRel β γ d d' → List.Forall₂ (ValueRel β γ) vs vs' →
      Option.Rel (AnswerRel β γ) (call h d name vs) (call h' d' name vs')
  eqProcs : Bool

/-- The builtins `void`, `display` and `list` alone. -/
def basicCall (name : Symbol) (vs : List Value) : Option Answer :=
  if name = "void" then (if vs.isEmpty then some (.value void) else none)
  else if name = "display" then (if vs.length = 1 then some (.value void) else none)
  else if name = "list" then
    some (vs.foldr (fun v rest => .cons (.value v) rest) (.value (.atom (.data .null))))
  else none

theorem basicCall_rel {β γ : Nat → Nat → Prop} (name : Symbol) {vs ws : List Value}
    (rel : List.Forall₂ (ValueRel β γ) vs ws) :
    Option.Rel (AnswerRel β γ) (basicCall name vs) (basicCall name ws) := by
  have empty : vs.isEmpty = ws.isEmpty := by
    rw [Bool.eq_iff_iff]
    simp only [List.isEmpty_iff_length_eq_zero, rel.length_eq]
  unfold basicCall
  rw [empty, rel.length_eq]
  split_ifs
  · exact .some (.value (.atom (by simp)))
  · exact .none
  · exact .some (.value (.atom (by simp)))
  · exact .none
  · clear empty
    refine .some ?_
    induction rel with
    | nil => exact .value (.atom (by simp))
    | cons hv _ ih => exact .cons (.value hv) ih
  · exact .none

/-- A world in which examples run. -/
def basicWorld : World where
  call _ _ name vs := basicCall name vs
  void_call _ _ := rfl
  exit_call _ _ _ := rfl
  natural _ _ _ _ _ _ _ name _ _ rel := basicCall_rel name rel
  eqProcs := true

def hasSideEffect (name : Symbol) : Bool :=
  match lookupBuiltin name with
  | some b => b.sideEffect
  | none => false

def State.deref (s : State) : Deref := fun n =>
  match s.get n with
  | some (.pair a d len) => some (a, d, len)
  | _ => none

def callBuiltin (W : World) (name : Symbol) (vs : List Value) (s : State) :
    Option (Value × State) :=
  match W.call s.trace s.deref name vs with
  | none => none
  | some answer =>
    let (v, s) := s.build answer
    some (v, if hasSideEffect name then { s with trace := s.trace ++ [⟨name, vs, v⟩] } else s)

def isProc : Value → Bool
  | .proc _ => true
  | _ => false

def eqValue (W : World) (v w : Value) : Option Value :=
  if (isProc v || isProc w) && !W.eqProcs then none else some (bool (v == w))

def applyOp (W : World) (op : Symbol) (vs : List Value) (s : State) : Option (Value × State) :=
  match vs with
  | [v] =>
    if op = "$car" then (pairParts s v).map fun p => (p.1, s)
    else if op = "$cdr" then (pairParts s v).map fun p => (p.2, s)
    else if op = "$!" then some (bool (!truthy v), s)
    else if op = "$not" then (num? v).map fun i => (.atom (.data (.num (wrap (-i - 1)))), s)
    else none
  | [v, w] =>
    if op = "$cons" then some (s.cons v w)
    else if op = "$eq?" then (eqValue W v w).map (·, s)
    else match num? v, num? w with
      | some a, some b => (numeric op a b).map (·, s)
      | _, _ => none
  | _ => none

def finishOp (W : World) (op : Node) (args : List Node) (vs : List Value) (s : State) :
    Option (Value × State) :=
  if isTypeTest op then
    match args, vs with
    | .sym t :: _, [v] => (typeTest s t v).map fun b => (bool b, s)
    | _, _ => none
  else match op with
  | .sym op => applyOp W op vs s
  | _ => none

def lookupVar (ρ : Env) (s : State) (x : Symbol) : Option Value :=
  match ρ x with
  | some l => match s.get l with
    | some (.cell v) => v
    | _ => none
  | none => if x ∈ builtinNames then some (.atom (.prim x)) else none

def assign (ρ : Env) (s : State) (x : Symbol) (v : Value) : Option State :=
  match ρ x with
  | some l => match s.get l with
    | some (.cell _) => some (s.put l (.cell (some v)))
    | _ => none
  | none => none

/- Nodes that need no control: constants, variables, operations over them, and lambda. -/
mutual
def evalSimple (W : World) (ρ : Env) : Node → State → Option (Value × State)
  | .const d, s | .quote d, s => some (literal d, s)
  | .sym x, s => (lookupVar ρ s x).map (·, s)
  | .lambda args body, s => some (.proc s.top, s.alloc (.closure args body ρ))
  | .app op args, s =>
    if isOperator op then do
      let (vs, s) ← if isTypeTest op then evalTail W ρ args s else evalSimples W ρ args s
      finishOp W op args vs s
    else none
  | _, _ => none
def evalSimples (W : World) (ρ : Env) : List Node → State → Option (List Value × State)
  | [], s => some ([], s)
  | x :: xs, s => do
    let (v, s) ← evalSimple W ρ x s
    let (vs, s) ← evalSimples W ρ xs s
    pure (v :: vs, s)
def evalTail (W : World) (ρ : Env) : List Node → State → Option (List Value × State)
  | [], s => some ([], s)
  | _ :: xs, s => evalSimples W ρ xs s
end

theorem evalTail_eq (W : World) (ρ : Env) (xs : List Node) (s : State) :
    evalTail W ρ xs s = evalSimples W ρ xs.tail s := by
  cases xs <;> simp [evalTail, evalSimples]

/-- A list of the values, built from its end as `_list` does. -/
def mkList (s : State) : List Value → Value × State
  | [] => (.atom (.data .null), s)
  | v :: vs =>
    let (d, s) := mkList s vs
    s.cons v d

def bindFixed : List Symbol → List Value → Env → State → Option ((List Value × Env) × State)
  | [], vs, ρ, s => some ((vs, ρ), s)
  | x :: xs, v :: vs, ρ, s => bindFixed xs vs (ρ.bind x s.top) (s.alloc (.cell (some v)))
  | _ :: _, [], _, _ => none

/-- Binds the parameters to fresh cells; none when the argument count is wrong. -/
def bindArgs (args : Formals) (vs : List Value) (ρ : Env) (s : State) : Option (Env × State) := do
  let ((left, ρ), s) ← bindFixed args.fixed vs ρ s
  match args.rest with
  | none => if left.isEmpty then some (ρ, s) else none
  | some r =>
    let (v, s) := mkList s left
    some (ρ.bind r s.top, s.alloc (.cell (some v)))

/-- Fresh cells without a value, for internal definitions. -/
def bindNames : List Symbol → Env → State → Env × State
  | [], ρ, s => (ρ, s)
  | x :: xs, ρ, s => bindNames xs (ρ.bind x s.top) (s.alloc (.cell none))

end LGears.Values
