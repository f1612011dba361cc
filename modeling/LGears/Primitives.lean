import LGears.VmFrames

/- The builtins of primitives.c that just return, and make-string. -/
namespace LGears.Primitives
open Opcode Compiler StateExcept Vm VmFrames Relation
open Gc hiding State copied

section code
variable (img : Image)

/-- argv[i] -/
def argument (argc i : Nat) : VmM Nat := do
  let t := (← get).thread
  return t.opstack (t.opStackIdx - argc + i)

/-- MAKE_FIXNUM(num), for what is no negative number. -/
def fixnumWord (n : Nat) : Nat := (Tagged.makeFixnum (BitVec.ofNat 64 n)).toNat

/-- FIXNUM(o) -/
def fixnumOf (o : Nat) : Tagged.Word := Tagged.fixnum (BitVec.ofNat 64 o)

def isFixnum (o : Nat) : Bool := o % 8 == 0

def isChar (o : Nat) : Bool := o % 8 == 3

/- A builtin returns an object, or RC_ERROR. -/

def list (argc : Nat) : VmM (Option Nat) := do
  let argv := (← get).thread.opStackIdx - argc
  return some (← Vm.list img (argv + 1) (argc - 1))

def listLength : VmM (Option Nat) := do
  let obj ← argument 2 1
  let h := (← get).heap
  if obj = cnull then return some (fixnumWord 0)
  else if isPair img h obj then
    let words ← ofOption (wordsAt img h obj)
    if words 2 % 2 = 1 then return some (fixnumWord (words 2 / 2 % 2 ^ 31)) else return none
  else return none

/-- int size = FIXNUM(*count), as the loop counts it. -/
def listSize (count : Nat) : Nat := ((fixnumOf count).setWidth 32).toInt.toNat

def makeList : VmM (Option Nat) := do
  let argv := (← get).thread.opStackIdx - 3
  let count ← argument 3 1
  if isFixnum count then
    return some (← localList img (fun _ t => some (t.opstack (argv + 2))) (listSize count))
  else return none

/-- What is printed is not part of the thread. -/
def display : VmM (Option Nat) := return some cvoid

def getVoid : VmM (Option Nat) := return some cvoid

def getEof : VmM (Option Nat) := return some ceof

def charToInteger : VmM (Option Nat) := do
  let chr ← argument 2 1
  if isChar chr then return some (Tagged.charToInteger (BitVec.ofNat 64 chr)).toNat
  else return none

def integerToChar : VmM (Option Nat) := do
  let i ← argument 2 1
  if isFixnum i then return some (Tagged.makeObj (fixnumOf i) Tagged.tagChar).toNat
  else return none

/-- One byte of what a string of len times the byte fill has behind its header. -/
def filledByte (len fill i : Nat) : Nat := if i < len then fill else 0

/-- The words of a string that make_string has made at mem. -/
def filledWords (mem len fill i : Nat) : Nat :=
  match i with
  | 0 => mem + 16
  | 1 => (len + 1) % 2 ^ 32 + 2 ^ 32
  | i + 2 => (List.range 8).foldr (fun k w => filledByte len fill (8 * i + k) + 256 * w) 0

/-- A negative length is not defined. -/
def makeString : VmM (Option Nat) := do
  let olen ← argument 3 1
  let ofill ← argument 3 2
  if isFixnum olen && isChar ofill then
    if (fixnumOf olen).toInt < 0 then stop .undefined
    else
      let len := (fixnumOf olen).toInt.toNat
      let fill := ((Tagged.char (BitVec.ofNat 64 ofill)).setWidth 8).toNat
      let mem ← alloc (16 + len + 1) .string
      modifyBlock mem fun b => { b with words := filledWords mem len fill }
      return some (makeHeapPtr mem)
  else return none

/-- func->call(thread, func, argv, op_arg) -/
def call (argc : Nat) : Native → Option (VmM (Option Nat))
  | .list => some (list img argc)
  | .listLength => some (listLength img)
  | .makeList => some (makeList img)
  | .display => some display
  | .getVoid => some getVoid
  | .getEof => some getEof
  | .charToInteger => some charToInteger
  | .integerToChar => some integerToChar
  | .makeString => some makeString
  | _ => none

/-- A builtin is called, and its continuation is where the thread goes on. -/
def callNative (n : Native) (opArg : Int) (called : VmM (Option Nat)) : VmM PUnit := do
  let argv := (← get).thread.opStackIdx - opArg.toNat
  match ← called with
  | some obj =>
    stackPush img obj
    Vm.modify fun s => { s with control := .dispatch (s.thread.opstack argv) 1 }
  | none => raise img ("call: " ++ n.name ++ " failed")

/-- One step of the thread; other builtins are not called. -/
def next (fuel : Nat) : VmM PUnit := do
  match (← get).control with
  | .opcode => execute img (← fetch)
  | .dispatch fp opArg =>
    match ← dispatchFunc img fuel fp opArg with
    | none => return
    | some n =>
      match call img opArg.toNat n with
      | some called => callNative img n opArg called
      | none => stop .undefined

end code

section spec
variable {img : Image} {s u s' : State} {n : Native} {opArg : Int} {argc : Nat}
  {called : VmM (Option Nat)} {r : Option Nat}

theorem kept_allocates (allocates : Allocates s s') : Kept s s' := by
  have calm := Allocates.calm allocates
  exact ⟨Allocates.opStackIdx allocates, fun i _ => Allocates.opstack allocates i, calm.libCache,
    calm.exceptionHandlers, calm.bindmap, calm.func, calm.opcode, calm.aligned⟩

theorem returns_argument {i w : Nat} (ran : Returns (argument argc i) s w s') :
    w = s.thread.opstack (s.thread.opStackIdx - argc + i) ∧ s' = s := by
  simp only [argument, returns_bind, returns_get, returns_pure] at ran
  obtain ⟨_, _, ⟨rfl, rfl⟩, rfl, rfl⟩ := ran
  exact ⟨rfl, rfl⟩

theorem makeList_allocates (ran : Returns (makeList img) s r s') : Allocates s s' := by
  simp only [makeList, returns_bind, returns_get] at ran
  obtain ⟨_, _, ⟨rfl, rfl⟩, count, u, read, ran⟩ := ran
  obtain ⟨_, rfl⟩ := returns_argument read
  split at ran
  · simp only [returns_bind] at ran
    obtain ⟨w, v, listed, done⟩ := ran
    rw [← (returns_pure.mp done).2]
    exact Allocates.localList listed
  · rw [(returns_pure.mp ran).2]
    exact .refl

theorem makeString_allocates (ran : Returns makeString s r s') : Allocates s s' := by
  simp only [makeString, returns_bind] at ran
  obtain ⟨olen, u, read, ofill, v, read', ran⟩ := ran
  obtain ⟨_, rfl⟩ := returns_argument read
  obtain ⟨_, rfl⟩ := returns_argument read'
  split at ran
  · split at ran
    · exact absurd ran returns_stop
    · simp only [returns_bind] at ran
      obtain ⟨mem, t, allocated, _, t', wrote, done⟩ := ran
      rw [returns_pure] at done
      rw [← done.2]
      exact (Allocates.alloc allocated).trans (.write wrote)
  · rw [returns_pure] at ran
    rw [ran.2]
    exact .refl

theorem listLength_same (ran : Returns (listLength img) s r s') : s' = s := by
  simp only [listLength, returns_bind, returns_get] at ran
  obtain ⟨obj, u, read, _, _, ⟨rfl, rfl⟩, ran⟩ := ran
  obtain ⟨_, rfl⟩ := returns_argument read
  split at ran
  · exact (returns_pure.mp ran).2.symm
  · split at ran
    · simp only [returns_bind, returns_ofOption] at ran
      obtain ⟨words, _, ⟨_, rfl⟩, ran⟩ := ran
      split at ran <;> exact (returns_pure.mp ran).2.symm
    · exact (returns_pure.mp ran).2.symm

theorem converted_same {test : Nat → Bool} {f : Nat → Nat}
    (ran : Returns (do
      let w ← argument 2 1
      if test w then return some (f w) else return none) s r s') : s' = s := by
  simp only [returns_bind] at ran
  obtain ⟨w, u, read, ran⟩ := ran
  obtain ⟨_, rfl⟩ := returns_argument read
  split at ran <;> exact (returns_pure.mp ran).2.symm

theorem call_allocates (known : call img argc n = some called) (ran : Returns called s r s') :
    Allocates s s' := by
  cases n <;> simp only [call, Option.some.injEq, reduceCtorEq] at known <;> subst known
  case list =>
    simp only [list, returns_bind, returns_get] at ran
    obtain ⟨_, _, ⟨rfl, rfl⟩, w, v, listed, done⟩ := ran
    rw [returns_pure] at done
    rw [← done.2]
    exact Allocates.list listed
  case makeList => exact makeList_allocates ran
  case makeString => exact makeString_allocates ran
  case listLength =>
    rw [listLength_same ran]
    exact .refl
  case charToInteger | integerToChar =>
    rw [converted_same ran]
    exact .refl
  all_goals
    rw [(returns_pure.mp ran).2]
    exact .refl

theorem call_just (known : call img argc n = some called) : JustReturns n opArg := by
  cases n <;> simp only [call, reduceCtorEq] at known <;> simp [JustReturns]

theorem list_nothing {start w : Nat} (ran : Returns (Vm.list img start 0) s w s') : w = cnull := by
  simp only [Vm.list, localList, consLoop, returns_bind, returns_setThread, returns_pure, returns_get,
    returns_ofOption] at ran
  obtain ⟨_, _, rfl, _, _, ⟨_, rfl⟩, _, _, ⟨rfl, rfl⟩, res, _, ⟨found, _⟩, _, _, _, rfl, _⟩ := ran
  exact (Option.some.inj found).symm

theorem call_constant (known : call img (Int.toNat 1) n = some called)
    (args : argsError n.hdr 1 = none) {obj : Nat} (ran : Returns called s (some obj) s') :
    Constant s' n obj := by
  cases n <;> simp only [call, Option.some.injEq, reduceCtorEq] at known <;> subst known
  case list =>
    simp only [list, returns_bind, returns_get] at ran
    obtain ⟨_, _, ⟨rfl, rfl⟩, w, v, listed, done⟩ := ran
    rw [returns_pure, Option.some.injEq] at done
    rw [← done.1]
    exact list_nothing listed
  case getVoid | getEof =>
    exact (Option.some.inj (returns_pure.mp ran).1).symm
  all_goals exact absurd args (by decide)

/-- n steps of the thread. -/
def steps (img : Image) (fuel : Nat) : Nat → VmM PUnit
  | 0 => pure ⟨⟩
  | n + 1 => do
    next img fuel
    steps img fuel n

end spec

end LGears.Primitives
