import LGears.Values
import LGears.Library.Machine

/- Direct semantics of core programs: an interpreter with fuel, which only procedure calls
   use up. `late` says which operands a call evaluates after the other ones. -/
namespace LGears.Direct
open PrimitivesInfo Values Machine

/-- What a call of a procedure does with its body. -/
abbrev Enter := Formals → List Node → Env → List Value → State → Outcome (Value × State)

def applyProc (W : World) (enter : Enter) (f : Value) (vs : List Value) (s : State) :
    Outcome (Value × State) :=
  match f with
  | .proc n => match s.get n with
    | some (.closure args body ρ) => enter args body ρ vs s
    | _ => .stuck
  | .atom (.prim name) => .ofOption (callBuiltin W name vs s)
  | _ => .stuck

section
variable (W : World) (late : Node → Bool) (enter : Enter)

/-- The operands left for last, from left to right. -/
def evalLate (ρ : Env) : List Node → List (Option Value) → State → Option (List Value × State)
  | _ :: xs, some v :: vs, s => do
    let (ws, s) ← evalLate ρ xs vs s
    pure (v :: ws, s)
  | x :: xs, none :: vs, s => do
    let (w, s) ← evalSimple W ρ x s
    let (ws, s) ← evalLate ρ xs vs s
    pure (w :: ws, s)
  | [], [], s => some ([], s)
  | _, _, _ => none

def evalLateOne (ρ : Env) (x : Node) (v : Option Value) (s : State) : Option (Value × State) :=
  match v with
  | some v => some (v, s)
  | none => evalSimple W ρ x s

/-- The value of an operand, none when it is left for last. -/
def earlyOf (skip : Bool) (value : Outcome (Value × State)) (s : State) :
    Outcome (Option Value × State) :=
  if skip then pure (none, s)
  else do
    let (v, s) ← value
    pure (some v, s)

mutual
def eval (ρ : Env) (node : Node) (s : State) : Outcome (Value × State) :=
  if late node then .ofOption (evalSimple W ρ node s)
  else match node with
  | .ite pred conseq alt => do
    let (v, s) ← eval ρ pred s
    if truthy v then eval ρ conseq s else eval ρ alt s
  | .set x value => do
    let (v, s) ← eval ρ value s
    let s ← .ofOption (assign ρ s x v)
    pure (void, s)
  | .begin forms => evalSeq ρ forms s
  | .app func args =>
    if isOperator func then do
      let (early, s) ← if isTypeTest func then evalEarlyTail ρ args s else evalEarly ρ args s
      let (vs, s) ← .ofOption
        (evalLate W ρ (if isTypeTest func then args.tail else args) early s)
      .ofOption (finishOp W func args vs s)
    else do
      let (fv, s) ← earlyOf (late func) (eval ρ func s) s
      let (early, s) ← evalEarly ρ args s
      let (vs, s) ← .ofOption (evalLate W ρ args early s)
      let (f, s) ← .ofOption (evalLateOne W ρ func fv s)
      applyProc W enter f vs s
  | .define _ _ | .extend _ => .stuck
  | node => .ofOption (evalSimple W ρ node s)

def evalEarly (ρ : Env) (xs : List Node) (s : State) : Outcome (List (Option Value) × State) :=
  match xs with
  | [] => pure ([], s)
  | x :: xs => do
    let (v, s) ← earlyOf (late x) (eval ρ x s) s
    let (vs, s) ← evalEarly ρ xs s
    pure (v :: vs, s)

def evalEarlyTail (ρ : Env) (xs : List Node) (s : State) :
    Outcome (List (Option Value) × State) :=
  match xs with
  | [] => pure ([], s)
  | _ :: xs => evalEarly ρ xs s

def evalSeq (ρ : Env) (forms : List Node) (s : State) : Outcome (Value × State) :=
  match forms with
  | [] => .stuck
  | [x] => eval ρ x s
  | x :: xs => do
    let (_, s) ← eval ρ x s
    evalSeq ρ xs s
end

/-- One operand, evaluated unless it is left for last. -/
def evalEarlyOne (ρ : Env) (x : Node) (s : State) : Outcome (Option Value × State) :=
  earlyOf (late x) (eval W late enter ρ x s) s

def evalItem (ρ : Env) (item : Node) (s : State) : Outcome (Value × State) :=
  match item with
  | .define x value => do
    let (v, s) ← eval W late enter ρ value s
    let s ← .ofOption (assign ρ s x v)
    pure (void, s)
  | x => eval W late enter ρ x s

def evalItems (ρ : Env) (items : List Node) (s : State) : Outcome (Value × State) :=
  match items with
  | [] => .stuck
  | [x] => evalItem W late enter ρ x s
  | x :: xs => do
    let (_, s) ← evalItem W late enter ρ x s
    evalItems ρ xs s

/-- The definitions of a body are cells of their own, visible in the whole body. -/
def evalBody (ρ : Env) (body : List Node) (s : State) : Outcome (Value × State) :=
  let (ρ, s) := bindNames ((Cps.definesOf body).map Cps.defineName) ρ s
  evalItems W late enter ρ body s
end

def enterN (W : World) (late : Node → Bool) : Nat → Enter
  | 0 => fun _ _ _ _ _ => .timeout
  | n + 1 => fun args body ρ vs s =>
    match bindArgs args vs ρ s with
    | none => .stuck
    | some (ρ, s) => evalBody W late (enterN W late n) ρ body s

def run (W : World) (late : Node → Bool) (n : Nat) (program : Node) : Outcome (Value × State) :=
  eval W late (enterN W late n) Env.empty program State.empty

section equations
variable {W : World} {late : Node → Bool} {enter : Enter} {ρ : Env} {s : State}

example (d : Datum) : eval W late enter ρ (.const d) s = .ofOption (evalSimple W ρ (.const d) s) := by
  rw [eval.eq_def, ite_eq_left_iff]
  simp

theorem eval_late {node : Node} (h : late node = true) :
    eval W late enter ρ node s = .ofOption (evalSimple W ρ node s) := by
  rw [eval.eq_def, if_pos h]

theorem eval_lambda {args : Formals} {body : List Node} :
    eval W late enter ρ (.lambda args body) s =
      .ofOption (evalSimple W ρ (.lambda args body) s) := by
  rw [eval.eq_def, ite_eq_left_iff]
  simp

theorem eval_ite {p a b : Node}
    (h : late (.ite p a b) = false) :
    eval W late enter ρ (.ite p a b) s = (do
      let (v, s) ← eval W late enter ρ p s
      if truthy v then eval W late enter ρ a s else eval W late enter ρ b s) := by
  rw [eval.eq_def, if_neg (by simp [h])]

theorem eval_set {x : Symbol} {value : Node}
    (h : late (.set x value) = false) :
    eval W late enter ρ (.set x value) s = (do
      let (v, s) ← eval W late enter ρ value s
      let s ← .ofOption (assign ρ s x v)
      pure (void, s)) := by
  rw [eval.eq_def, if_neg (by simp [h])]

theorem eval_begin {forms : List Node}
    (h : late (.begin forms) = false) :
    eval W late enter ρ (.begin forms) s = evalSeq W late enter ρ forms s := by
  rw [eval.eq_def, if_neg (by simp [h])]

theorem evalEarlyTail_eq (xs : List Node) :
    evalEarlyTail W late enter ρ xs s = evalEarly W late enter ρ xs.tail s := by
  cases xs <;> simp [evalEarlyTail, evalEarly]

theorem eval_op {f : Node} {args : List Node}
    (h : late (.app f args) = false) (op : isOperator f = true) :
    eval W late enter ρ (.app f args) s = (do
      let (early, s) ← evalEarly W late enter ρ (if isTypeTest f then args.tail else args) s
      let (vs, s) ← .ofOption
        (evalLate W ρ (if isTypeTest f then args.tail else args) early s)
      .ofOption (finishOp W f args vs s)) := by
  rw [eval.eq_def, if_neg (by simp [h])]
  simp only [op, if_true, evalEarlyTail_eq]
  split <;> rfl

theorem eval_call {f : Node} {args : List Node}
    (h : late (.app f args) = false) (fn : isOperator f = false) :
    eval W late enter ρ (.app f args) s = (do
      let (fv, s) ← evalEarlyOne W late enter ρ f s
      let (early, s) ← evalEarly W late enter ρ args s
      let (vs, s) ← .ofOption (evalLate W ρ args early s)
      let (f, s) ← .ofOption (evalLateOne W ρ f fv s)
      applyProc W enter f vs s) := by
  rw [eval.eq_def, if_neg (by simp [h])]
  simp only [fn, Bool.false_eq_true, if_false]
  rfl

theorem evalEarly_cons (x : Node) (xs : List Node) :
    evalEarly W late enter ρ (x :: xs) s = (do
      let (v, s) ← evalEarlyOne W late enter ρ x s
      let (vs, s) ← evalEarly W late enter ρ xs s
      pure (v :: vs, s)) := by
  rw [evalEarly]
  rfl

@[simp] theorem evalSeq_one (x : Node) :
    evalSeq W late enter ρ [x] s = eval W late enter ρ x s := by rw [evalSeq]

theorem evalSeq_cons (x : Node) {xs : List Node} (more : xs ≠ []) :
    evalSeq W late enter ρ (x :: xs) s =
      (eval W late enter ρ x s >>= fun p => evalSeq W late enter ρ xs p.2) := by
  cases xs with
  | nil => exact absurd rfl more
  | cons y ys => rw [evalSeq]; simp

theorem evalItems_cons (x : Node) {xs : List Node} (more : xs ≠ []) :
    evalItems W late enter ρ (x :: xs) s =
      (evalItem W late enter ρ x s >>= fun p => evalItems W late enter ρ xs p.2) := by
  cases xs with
  | nil => exact absurd rfl more
  | cons y ys => rfl

theorem evalItems_plain {xs : List Node} (plain : ∀ x ∈ xs, Cps.isDefine x = false) :
    evalItems W late enter ρ xs s = evalSeq W late enter ρ xs s := by
  induction xs generalizing s with
  | nil => simp [evalItems, evalSeq]
  | cons x xs ih =>
    have item (t : State) : evalItem W late enter ρ x t = eval W late enter ρ x t := by
      have := plain x (by simp)
      cases x <;> first | rfl | simp [Cps.isDefine] at this
    by_cases more : xs = []
    · subst more
      rw [evalSeq_one, evalItems, item]
    · rw [evalItems_cons x more, evalSeq_cons x more, item]
      congr 1
      funext p
      exact ih fun y hy => plain y (by simp [hy])

end equations

end LGears.Direct
