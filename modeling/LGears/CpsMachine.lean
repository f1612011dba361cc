import LGears.Values
import LGears.CpsFacts
import LGears.Library.Machine

/- Semantics of CPS terms: a machine whose states are the body being run or a call.
   `begin` forms inside code are read as if they were spliced. -/
namespace LGears.CpsMachine
open PrimitivesInfo Values Machine Cps

inductive Config where
  | code (body : List Node) (ρ : Env) (s : State)
  | call (f : Value) (args : List Value) (s : State)

/-- How a run ends: through the halting continuation or through the builtin `__exit`. -/
inductive Final where
  | done (v : Value) (s : State)
  | exit (v : Value) (s : State)

def start (body : List Node) (ρ : Env) (s : State) : Config := .code (spliceBegin body) ρ s

/-- The operands of a call are evaluated first, then the operator. -/
def stepCode (W : World) (body : List Node) (ρ : Env) (s : State) : Next Config Final :=
  match body with
  | .extend names :: rest =>
    let (ρ, s) := bindNames names ρ s
    .next (start rest ρ s)
  | .set x value :: rest =>
    match evalSimple W ρ value s with
    | some (v, s) => match assign ρ s x v with
      | some s => .next (start rest ρ s)
      | none => .stuck
    | none => .stuck
  | .ite pred conseq alt :: rest =>
    match evalSimple W ρ pred s with
    | some (v, s) => .next (start ((if truthy v then conseq else alt) :: rest) ρ s)
    | none => .stuck
  | .app func args :: _ =>
    if isOperator func then .stuck
    else match evalSimples W ρ args s with
    | some (vs, s) => match evalSimple W ρ func s with
      | some (f, s) => .next (.call f vs s)
      | none => .stuck
    | none => .stuck
  | _ => .stuck

def stepCall (W : World) (f : Value) (vs : List Value) (s : State) : Next Config Final :=
  match f with
  | .proc n => match s.get n with
    | some (.closure args body ρ) => match bindArgs args vs ρ s with
      | some (ρ, s) => .next (start body ρ s)
      | none => .stuck
    | _ => .stuck
  | .atom .done => match vs with
    | [v] => .halt (.done v s)
    | _ => .stuck
  | .atom (.prim name) =>
    if name = "__exit" then match vs with
      | [v] => .halt (.exit v s)
      | _ => .stuck
    else match vs with
      | κ :: vs => match callBuiltin W name vs s with
        | some (v, s) => .next (.call κ [v] s)
        | none => .stuck
      | [] => .stuck
  | _ => .stuck

def step (W : World) : Config → Next Config Final
  | .code body ρ s => stepCode W body ρ s
  | .call f vs s => stepCall W f vs s

/-- The state in which a converted program is given its continuation. -/
def initial (program : Node) (κ : Value) : Config :=
  match program with
  | .lambda args body =>
    match bindArgs args [κ] Env.empty State.empty with
    | some (ρ, s) => start body ρ s
    | none => .call κ [] State.empty
  | _ => .call κ [] State.empty

section steps
variable {W : World} {ρ : Env} {s : State}

example (d : Datum) (rest : List Node) : step W (start (.const d :: rest) ρ s) = .stuck := by
  simp [start, spliceBegin, spliceNode, step, stepCode]

example (d : Datum) (vs : List Value) : step W (.call (.atom (.data d)) vs s) = .stuck := by
  simp [step, stepCall]

@[simp] theorem start_splice (body : List Node) : start (spliceBegin body) ρ s = start body ρ s := by
  simp [start]

@[simp] theorem start_begin (forms : List Node) : start [.begin forms] ρ s = start forms ρ s := by
  simp [start, spliceBegin, spliceNode]

@[simp] theorem evalSimple_lambda (args : Formals) (body : List Node) :
    evalSimple W ρ (.lambda args body) s = some (.proc s.top, s.alloc (.closure args body ρ)) := by
  simp [evalSimple]

theorem step_app {f : Node} {args rest : List Node} (fn : isOperator f = false)
    {vs : List Value} {fv : Value} {s₁ s₂ : State}
    (operands : evalSimples W ρ args s = some (vs, s₁))
    (operator : evalSimple W ρ f s₁ = some (fv, s₂)) :
    step W (start (.app f args :: rest) ρ s) = .next (.call fv vs s₂) := by
  simp [start, spliceBegin, spliceNode, step, stepCode, fn, operands, operator]

theorem step_app_fails {f : Node} {args rest : List Node} (fn : isOperator f = false)
    (operands : evalSimples W ρ args s = none) :
    step W (start (.app f args :: rest) ρ s) = .stuck := by
  simp [start, spliceBegin, spliceNode, step, stepCode, fn, operands]

theorem step_operator_fails {f : Node} {args rest : List Node} (fn : isOperator f = false)
    {vs : List Value} {s₁ : State} (operands : evalSimples W ρ args s = some (vs, s₁))
    (operator : evalSimple W ρ f s₁ = none) :
    step W (start (.app f args :: rest) ρ s) = .stuck := by
  simp [start, spliceBegin, spliceNode, step, stepCode, fn, operands, operator]

theorem step_ite {p a b : Node} {v : Value} {s₁ : State}
    (pred : evalSimple W ρ p s = some (v, s₁)) :
    step W (start [.ite p a b] ρ s) = .next (start [if truthy v then a else b] ρ s₁) := by
  simp [start, spliceBegin, spliceNode, step, stepCode, pred]

theorem step_ite_fails {p a b : Node} (pred : evalSimple W ρ p s = none) :
    step W (start [.ite p a b] ρ s) = .stuck := by
  simp [start, spliceBegin, spliceNode, step, stepCode, pred]

theorem step_set {x : Symbol} {value : Node} {rest : List Node} {v : Value} {s₁ s₂ : State}
    (val : evalSimple W ρ value s = some (v, s₁)) (put : assign ρ s₁ x v = some s₂) :
    step W (start (.set x value :: rest) ρ s) = .next (start rest ρ s₂) := by
  simp [start, spliceBegin, spliceNode, step, stepCode, val, put]

theorem step_set_fails {x : Symbol} {value : Node} {rest : List Node}
    (val : evalSimple W ρ value s = none) :
    step W (start (.set x value :: rest) ρ s) = .stuck := by
  simp [start, spliceBegin, spliceNode, step, stepCode, val]

theorem step_assign_fails {x : Symbol} {value : Node} {rest : List Node} {v : Value} {s₁ : State}
    (val : evalSimple W ρ value s = some (v, s₁)) (put : assign ρ s₁ x v = none) :
    step W (start (.set x value :: rest) ρ s) = .stuck := by
  simp [start, spliceBegin, spliceNode, step, stepCode, val, put]

theorem step_extend (names : List Symbol) (rest : List Node) :
    step W (start (.extend names :: rest) ρ s) =
      .next (start rest (bindNames names ρ s).1 (bindNames names ρ s).2) := by
  simp [start, spliceBegin, spliceNode, step, stepCode]

theorem step_proc {k : Nat} {args : Formals} {body : List Node} {vs : List Value} {ρ₁ : Env}
    {s₁ : State} (closure : s.get k = some (.closure args body ρ))
    (bound : bindArgs args vs ρ s = some (ρ₁, s₁)) :
    step W (.call (.proc k) vs s) = .next (start body ρ₁ s₁) := by
  simp [step, stepCall, closure, bound]

theorem step_proc_fails {k : Nat} {args : Formals} {body : List Node} {vs : List Value}
    (closure : s.get k = some (.closure args body ρ)) (bound : bindArgs args vs ρ s = none) :
    step W (.call (.proc k) vs s) = .stuck := by
  simp [step, stepCall, closure, bound]

theorem step_cont {k : Nat} {x : Symbol} {body : List Node} {v : Value}
    (closure : s.get k = some (.closure ⟨[x], none⟩ body ρ)) :
    step W (.call (.proc k) [v] s) =
      .next (start body (ρ.bind x s.top) (s.alloc (.cell (some v)))) :=
  step_proc closure (by simp [bindArgs, bindFixed])

theorem step_prim {name : Symbol} {κ v : Value} {vs : List Value} {s₁ : State}
    (ne : name ≠ "__exit") (call : callBuiltin W name vs s = some (v, s₁)) :
    step W (.call (.atom (.prim name)) (κ :: vs) s) = .next (.call κ [v] s₁) := by
  simp [step, stepCall, ne, call]

theorem step_prim_fails {name : Symbol} {κ : Value} {vs : List Value} (ne : name ≠ "__exit")
    (call : callBuiltin W name vs s = none) :
    step W (.call (.atom (.prim name)) (κ :: vs) s) = .stuck := by
  simp [step, stepCall, ne, call]

end steps

end LGears.CpsMachine
