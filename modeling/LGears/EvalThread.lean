import LGears.Arithmetic
import LGears.Compiler
import Mathlib.Logic.Function.Basic

/- The thread that runs a compiled function: the operand stack, which also holds the arguments
   of a function without an environment, and the instructions that work on it alone. -/
namespace LGears.EvalThread
open Opcode Compiler Tagged Arithmetic

/-- Where thread->objects points to: into the operand stack or to an environment. -/
inductive Objects where
  | stack (base : Nat)
  | env (objects : List Word)

structure Thread where
  opstack : Nat → Word
  opStackIdx : Nat
  opStackSize : Nat
  objects : Objects
  bindmap : Nat
  /-- The objects of the environment a pointer leads to. -/
  envs : Word → Option (List Word)
  consts : List Word
  func : IFunc
  /-- The place of the next instruction in the code of func. -/
  opcode : Nat

/-- STACK_PUSH, which checks for an overflow. -/
def Thread.push (t : Thread) (obj : Word) : Option Thread :=
  if t.opStackIdx = t.opStackSize - 1 then none
  else some { t with
    opstack := Function.update t.opstack t.opStackIdx obj
    opStackIdx := t.opStackIdx + 1 }

/-- STACK_POP -/
def Thread.pop (t : Thread) : Option (Word × Thread) :=
  if t.opStackIdx = 0 then none
  else some (t.opstack (t.opStackIdx - 1), { t with opStackIdx := t.opStackIdx - 1 })

def Thread.object (t : Thread) (i : Nat) : Option Word :=
  match t.objects with
  | .stack base => some (t.opstack (base + i))
  | .env objects => objects[i]?

def Thread.setObject (t : Thread) (i : Nat) (obj : Word) : Option Thread :=
  match t.objects with
  | .stack base => some { t with opstack := Function.update t.opstack (base + i) obj }
  | .env objects =>
    if i < objects.length then some { t with objects := .env (objects.set i obj) } else none

def Thread.bound (t : Thread) (b : Nat) : Option Word := do
  let (up, idx) ← t.func.bindings[b]?
  let objects ← t.envs (t.opstack (t.bindmap + up))
  objects[idx]?

def Thread.binary (t : Thread) (op : Op) : Option Thread := do
  let (b, t) ← t.pop
  let (a, t) ← t.pop
  t.push (← Arithmetic.binary op a b)

/-- An instruction; those that allocate, call a function or look into the heap are not here. -/
def execute (t : Thread) (instr : Instr) : Option Thread :=
  match instr.op with
  | .loadLocal => do t.push (← t.object instr.arg)
  | .loadConst => do t.push (← t.consts[instr.arg]?)
  | .loadBind => do t.push (← t.bound instr.arg)
  | .jumpIfFalse => do
    let (a, t) ← t.pop
    some (if a = cfalse then { t with opcode := t.opcode + instr.arg } else t)
  | .jumpForward => some { t with opcode := t.opcode + instr.arg }
  | .setLocal => do
    let (a, t) ← t.pop
    t.setObject instr.arg a
  | .pushBool => t.push (cif (instr.arg ≠ 0))
  | .pushNull => t.push cnull
  | .opNot => do
    let (a, t) ← t.pop
    t.push (cif (a = cfalse))
  | .opBitNot => do
    let (a, t) ← t.pop
    t.push (~~~fixnum a)
  | .opEqPtr | .opEq | .opGt | .opLt | .opMod | .opDiv | .opMul | .opAdd | .opSub | .opBitAnd
  | .opBitIor | .opBitXor => t.binary instr.op
  | _ => none

/-- The thread after the instruction has been fetched. -/
def Thread.fetched (t : Thread) : Thread := { t with opcode := t.opcode + 1 }

def step (t : Thread) : Option Thread := do
  let instr ← t.func.code[t.opcode]?
  execute t.fetched instr

def run : Nat → Thread → Option Thread
  | 0, t => some t
  | n + 1, t => do run n (← step t)

theorem run_add (m n : Nat) (t : Thread) : run (m + n) t = (run m t).bind (run n) := by
  induction m generalizing t with
  | zero => simp [run]
  | succ m ih =>
    rw [Nat.succ_add, run, run]
    cases step t with
    | none => rfl
    | some t' => exact ih t'

/-- Nothing but the operand stack from idx on and the place in the code differs. -/
structure Above (idx : Nat) (t t' : Thread) : Prop where
  below : ∀ i, i < idx → t'.opstack i = t.opstack i
  opStackSize : t'.opStackSize = t.opStackSize
  objects : t'.objects = t.objects
  bindmap : t'.bindmap = t.bindmap
  envs : t'.envs = t.envs
  consts : t'.consts = t.consts
  func : t'.func = t.func

theorem Above.trans {idx : Nat} {t u v : Thread} (first : Above idx t u) (second : Above idx u v) :
    Above idx t v where
  below i inside := (second.below i inside).trans (first.below i inside)
  opStackSize := second.opStackSize.trans first.opStackSize
  objects := second.objects.trans first.objects
  bindmap := second.bindmap.trans first.bindmap
  envs := second.envs.trans first.envs
  consts := second.consts.trans first.consts
  func := second.func.trans first.func

theorem Above.mono {idx idx' : Nat} {t u : Thread} (above : Above idx' t u) (less : idx ≤ idx') :
    Above idx t u :=
  { above with below := fun i inside => above.below i (by omega) }

/-- The thread goes on with one more word on its stack, w. -/
structure Pushed (t t' : Thread) (opcode : Nat) (w : Word) : Prop where
  above : Above t.opStackIdx t t'
  opStackIdx : t'.opStackIdx = t.opStackIdx + 1
  top : t'.opstack t.opStackIdx = w
  opcode : t'.opcode = opcode

theorem push_pushed {t : Thread} (room : t.opStackIdx + 1 < t.opStackSize) (obj : Word) :
    ∃ t', t.push obj = some t' ∧ Pushed t t' t.opcode obj := by
  have fits : t.opStackIdx ≠ t.opStackSize - 1 := by omega
  refine ⟨_, if_neg fits, ⟨⟨?_, rfl, rfl, rfl, rfl, rfl, rfl⟩, rfl, ?_, rfl⟩⟩
  · intro i inside
    exact Function.update_of_ne (by omega) _ _
  · exact Function.update_self _ _ _

theorem step_push {t : Thread} {instr : Instr} {w : Word}
    (here : t.func.code[t.opcode]? = some instr)
    (pushes : execute t.fetched instr = t.fetched.push w)
    (room : t.opStackIdx + 1 < t.opStackSize) :
    ∃ t', step t = some t' ∧ Pushed t t' (t.opcode + 1) w := by
  obtain ⟨t', pushed, result⟩ := @push_pushed t.fetched room w
  refine ⟨t', ?_, { result with above := { result.above with } }⟩
  rw [step, here, Option.bind_eq_bind, Option.bind_some, pushes, pushed]

theorem binary_eq {v : Thread} {k : Nat} (two : v.opStackIdx = k + 2) (op : Op) :
    v.binary op = (Arithmetic.binary op (v.opstack k) (v.opstack (k + 1))).bind
      fun w => { v with opStackIdx := k }.push w := by
  simp only [Thread.binary, Thread.pop, two, Option.bind_eq_bind]
  rfl

theorem step_binary {t u v : Thread} {op : Op} {i j : Nat} {a b w : Word}
    (operates : ∀ t : Thread, execute t ⟨op, 0⟩ = t.binary op)
    (first : Pushed t u i a) (second : Pushed u v j b)
    (here : v.func.code[v.opcode]? = some ⟨op, 0⟩) (result : Arithmetic.binary op a b = some w)
    (room : t.opStackIdx + 1 < t.opStackSize) :
    ∃ v', step v = some v' ∧ Pushed t v' (j + 1) w := by
  have two : v.fetched.opStackIdx = t.opStackIdx + 2 := by
    have idx : v.opStackIdx = u.opStackIdx + 1 := second.opStackIdx
    rw [Thread.fetched, idx, first.opStackIdx]
  have low : v.fetched.opstack t.opStackIdx = a := by
    have below := second.above.below t.opStackIdx (by rw [first.opStackIdx]; omega)
    exact below.trans first.top
  have high : v.fetched.opstack (t.opStackIdx + 1) = b := by
    rw [← first.opStackIdx]
    exact second.top
  have above : Above t.opStackIdx t v :=
    first.above.trans (second.above.mono (by rw [first.opStackIdx]; omega))
  have size : v.fetched.opStackSize = t.opStackSize := above.opStackSize
  obtain ⟨v', pushed, done⟩ :=
    @push_pushed { v.fetched with opStackIdx := t.opStackIdx } (size ▸ room) w
  refine ⟨v', ?_, ?_⟩
  · rw [step, here, Option.bind_eq_bind, Option.bind_some, operates, binary_eq two, low, high,
      result,
      Option.bind_some, pushed]
  · exact {
      above := above.trans { done.above with }
      opStackIdx := done.opStackIdx
      top := done.top
      opcode := by rw [done.opcode, ← second.opcode]; rfl }

end LGears.EvalThread
