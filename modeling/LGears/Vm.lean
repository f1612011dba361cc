import LGears.Arithmetic
import LGears.Compiler
import LGears.ErrorHandlers
import LGears.GcAligned

/- The thread that runs a module: eval_thread on the heap of the collector. -/
namespace LGears.Vm
open Opcode Compiler Gc StateExcept

/-- The builtins of the virtual machine. -/
inductive Native where
  | list
  | listLength
  | makeList
  | display
  | vmExit
  | callCc
  | exceptionHandlers
  | apply
  | getVoid
  | getEof
  | charToInteger
  | integerToChar
  | makeString
  | stringConcat
  | stringCopyTo
  | stringCopy
  | symbolToString
  | stringRef
  | stringSet
  | stringLength
  | stringEq
  | substring
  | makeStruct
  | allocStruct
  | structSize
  | structSet
  | structRef
  | structType
  | structToList
  | makeBytevector
  | bytevectorLength
  | isBytevector
  | bytevector8Set
  | loadLibrary
  | libraryCache
  deriving DecidableEq, Repr

/-- MAKE_NATIVE: the arguments and the continuation are counted. -/
def makeNative (argc : Int) (swallow : Bool) : ErrorHandlers.FuncHdr := ⟨argc + 1, swallow⟩

def Native.hdr : Native → ErrorHandlers.FuncHdr
  | .list | .exceptionHandlers | .makeStruct | .libraryCache => makeNative 0 true
  | .vmExit | .getVoid | .getEof => makeNative 0 false
  | .callCc | .loadLibrary => makeNative 1 false
  | .listLength | .display | .charToInteger | .integerToChar | .stringCopy | .symbolToString
  | .stringLength | .structSize | .structType | .structToList | .bytevectorLength
  | .isBytevector => makeNative 1 false
  | .apply => makeNative 2 false
  | .makeList | .makeString | .stringConcat | .stringRef | .stringEq | .structRef
  | .makeBytevector => makeNative 2 false
  | .stringCopyTo | .stringSet | .substring | .allocStruct | .structSet
  | .bytevector8Set => makeNative 3 false

/-- The types of the blocks of the constant areas. -/
inductive ConstType where
  | pair
  | struct
  | string
  | symbol
  deriving DecidableEq, Repr

structure ConstBlock where
  type : ConstType
  words : Nat → Nat

/-- sizeof(func_t) -/
def FUNC_SIZE : Nat := 80

/-- What belongs to a process and not to the heap of its thread. -/
structure Image where
  /-- The module that is run. -/
  functions : List IFunc
  entryPoint : Nat
  consts : List Nat
  /-- The address of the table of its functions. -/
  base : Nat
  natives : Nat → Option Native
  /-- The blocks of the constant areas, by the addresses of their payloads. -/
  area : Nat → Option ConstBlock
  apart : ∀ a b, area a = some b → isHeapPtr (b.words 0) = false ∧ isHeapPtr (b.words 1) = false
  /-- &vm_exit_nt -/
  vmExit : Nat
  opStackSize : Nat

/-- MODULE_FUNC(module, idx) -/
def Image.moduleFunc (img : Image) (idx : Nat) : Nat := img.base + idx * FUNC_SIZE

/-- The function of the module at an address. -/
def Image.inter (img : Image) (a : Nat) : Option IFunc :=
  if img.base ≤ a ∧ (a - img.base) % FUNC_SIZE = 0 then img.functions[(a - img.base) / FUNC_SIZE]?
  else none

def Image.hdr (img : Image) (a : Nat) : Option ErrorHandlers.FuncHdr :=
  match img.inter a with
  | some f => some ⟨f.argc, f.swallow⟩
  | none => (img.natives a).map Native.hdr

/-- MAKE_FUNC(a) -/
def makeFunc (a : Nat) : Nat := a - a % 8 + ErrorHandlers.tagFunc

def cnull : Nat := 5
def ctrue : Nat := 13
def cfalse : Nat := 21
def cvoid : Nat := 29
def ceof : Nat := 37

def cif (b : Bool) : Nat := if b then ctrue else cfalse

/-- The pair at the address, if it is one of the constant areas. -/
def Image.pairs (img : Image) (a : Nat) : Option (Nat × Nat) :=
  match img.area a with
  | some b => if b.type = .pair then some (b.words 0, b.words 1) else none
  | none => none

theorem Image.pairs_apart (img : Image) (a : Nat) (p : Nat × Nat) (pair : img.pairs a = some p) :
    isHeapPtr p.1 = false ∧ isHeapPtr p.2 = false := by
  unfold Image.pairs at pair
  split at pair
  · rename_i b here
    by_cases isPair : b.type = .pair
    · rw [if_pos isPair] at pair
      cases pair
      exact img.apart a b here
    · rw [if_neg isPair] at pair
      cases pair
  · cases pair

/-- What push_exception_handler sees of the process. -/
def Image.static (img : Image) : ErrorHandlers.Static where
  pairs := img.pairs
  apart := img.pairs_apart
  functions := img.hdr
  vmExit := makeFunc img.vmExit
  opStackSize := img.opStackSize

/-- Where control is: at the next instruction, or at dispatch_func with a function. -/
inductive Control where
  | opcode
  | dispatch (fp : Nat) (opArg : Int)
  deriving DecidableEq

structure State where
  thread : Thread
  heap : Heap
  /-- The index of thread->bindmap in the operand stack. -/
  bindmap : Option Nat
  func : IFunc
  opcode : Nat
  control : Control

/-- Why a thread does not go on. -/
inductive Stop where
  | gc (e : Abort)
  | stackOverflow
  | fatal
  | exit
  | unhandled
  | undefined
  | fuel
  deriving DecidableEq

abbrev VmM := StateT State (Except Stop)

def stop {α : Type} (e : Stop) : VmM α := fun _ => .error e

def modify (f : State → State) : VmM PUnit := fun s => .ok (⟨⟩, f s)

def ofOption {α : Type} (x : Option α) : VmM α := fun s =>
  match x with
  | some a => .ok (a, s)
  | none => .error .undefined

def setThread (f : Thread → Thread) : VmM PUnit := modify fun s => { s with thread := f s.thread }

/-- STACK_POP -/
def stackPop : VmM Nat := fun s =>
  let t := s.thread
  if t.opStackIdx = 0 then .error .stackOverflow
  else .ok (t.opstack (t.opStackIdx - 1), { s with
    thread := { t with opStackIdx := t.opStackIdx - 1 } })

/-- (heap_alloc heap size type_id) -/
def alloc (size : Nat) (type : BlockType) : VmM Nat := fun s =>
  match heapAlloc s.thread size type s.heap with
  | .ok ((t, mem), h) => .ok (mem, { s with thread := t, heap := h })
  | .error e => .error (.gc e)

/-- The block with the payload at mem is written to. -/
def modifyBlock (mem : Nat) (f : Block → Block) : VmM PUnit := modify fun s =>
  { s with heap := { s.heap with
    cells := Function.update s.heap.cells (mem - BHDR_SIZE)
      ((s.heap.cells (mem - BHDR_SIZE)).map f) } }

section returns
variable {s s' : State}

@[simp] theorem returns_modify {f : State → State} {u : PUnit} :
    Returns (Vm.modify f) s u s' ↔ f s = s' := by
  simp [Returns, Vm.modify]

@[simp] theorem returns_setThread {f : Thread → Thread} {u : PUnit} :
    Returns (setThread f) s u s' ↔ { s with thread := f s.thread } = s' := by
  simp [setThread]

@[simp] theorem returns_get {r : State} :
    Returns (get : VmM State) s r s' ↔ s = r ∧ s = s' := by
  simp [Returns, get, getThe, MonadStateOf.get, StateT.get, pure, Except.pure]

@[simp] theorem returns_ofOption {α : Type} {x : Option α} {a : α} :
    Returns (ofOption x) s a s' ↔ x = some a ∧ s = s' := by
  cases x <;> simp [Returns, ofOption]

@[simp] theorem returns_stop {α : Type} {e : Stop} {a : α} :
    ¬ Returns (stop e : VmM α) s a s' := by
  simp [Returns, stop]

@[simp] theorem returns_modifyBlock {mem : Nat} {f : Block → Block} {u : PUnit} :
    Returns (modifyBlock mem f) s u s' ↔ { s with heap := { s.heap with
      cells := Function.update s.heap.cells (mem - BHDR_SIZE)
        ((s.heap.cells (mem - BHDR_SIZE)).map f) } } = s' := by
  simp [modifyBlock]

theorem returns_stackPop {w : Nat} (ran : Returns stackPop s w s') :
    0 < s.thread.opStackIdx ∧ w = s.thread.opstack (s.thread.opStackIdx - 1) ∧
      s' = { s with thread := { s.thread with opStackIdx := s.thread.opStackIdx - 1 } } := by
  rw [Returns, stackPop] at ran
  by_cases empty : s.thread.opStackIdx = 0
  · simp [empty] at ran
  · simp only [empty, if_false] at ran
    cases ran
    exact ⟨Nat.pos_of_ne_zero empty, rfl, rfl⟩

end returns

section code
variable (img : Image)

/-- STACK_PUSH(obj) -/
def stackPush (obj : Nat) : VmM PUnit := fun s =>
  match ErrorHandlers.stackPush img.static s.thread obj with
  | some t => .ok (⟨⟩, { s with thread := t })
  | none => .error .stackOverflow

theorem returns_stackPush {s s' : State} {obj : Nat} {u : PUnit}
    (ran : Returns (stackPush img obj) s u s') :
    s' = { s with thread := { s.thread with
      opstack := Function.update s.thread.opstack s.thread.opStackIdx obj
      opStackIdx := s.thread.opStackIdx + 1 } } := by
  rw [Returns, stackPush, ErrorHandlers.stackPush] at ran
  by_cases full : s.thread.opStackIdx + 1 = img.static.opStackSize
  · simp [full] at ran
  · simp only [full, if_false] at ran
    cases ran
    rfl

/-- Whether o is a pointer to a block of the type; a constant area has types of its own. -/
def isType (h : Heap) (o : Nat) (type : BlockType) (const : Option ConstType) : Bool :=
  if isHeapPtr o then
    match h.cells (hdrOf o) with
    | some b => b.type == type
    | none => false
  else if o % 8 = ErrorHandlers.tagConstPtr then
    match img.area (ptr o) with
    | some b => some b.type == const
    | none => false
  else false

def isPair (h : Heap) (o : Nat) : Bool := isType img h o .pair (some .pair)

/-- The words of the block that o points to. -/
def wordsAt (h : Heap) (o : Nat) : Option (Nat → Nat) :=
  if isHeapPtr o then (h.cells (hdrOf o)).map Block.words else (img.area (ptr o)).map ConstBlock.words

/-- pair->list and pair->length in one word, for a pair with the given cdr; they are left as they
    are when the cdr is a pair that is not known to be a list. -/
def pairMark (h : Heap) (cdr old : Nat) : Nat :=
  if cdr = cnull then 1 + 2 * 1
  else if isPair img h cdr then
    match wordsAt img h cdr with
    | some words => if words 2 % 2 = 1 then 1 + 2 * ((words 2 / 2 + 1) % 2 ^ 31) else old
    | none => old
  else old / 2 * 2

/-- What _cons writes. -/
def pairWords (car cdr mark : Nat) (words : Nat → Nat) (i : Nat) : Nat :=
  match i with
  | 0 => car
  | 1 => cdr
  | 2 => mark
  | i => words i

/-- (_cons al car cdr): the arguments are read where they are after the allocation. -/
def cons (car cdr : Thread → Option Nat) : VmM Nat := do
  let mem ← alloc 24 .pair
  let s ← get
  let car ← ofOption (car s.thread)
  let cdr ← ofOption (cdr s.thread)
  modifyBlock mem fun b =>
    { b with words := pairWords car cdr (pairMark img s.heap cdr (b.words 2)) b.words }
  return makeHeapPtr mem

def localRoot (i : Nat) (t : Thread) : Option Nat := t.localRoots[i]?

/-- res = _cons(al, car, &res) for one i after the other, down to 0; res is a local root. -/
def consLoop (car : Nat → Thread → Option Nat) : Nat → VmM PUnit
  | 0 => pure ⟨⟩
  | i + 1 => do
    let res ← cons img (car i) (localRoot 0)
    setThread fun t => { t with localRoots := [res] }
    consLoop car i

/-- A list of n elements, made in a local root. -/
def localList (car : Nat → Thread → Option Nat) (n : Nat) : VmM Nat := do
  setThread fun t => { t with localRoots := [cnull] }
  consLoop img car n
  let res ← ofOption (localRoot 0 (← get).thread)
  setThread fun t => { t with localRoots := [] }
  return res

/-- (_list thread argv argc), argv being at start. -/
def list (start argc : Nat) : VmM Nat :=
  localList img (fun i t => some (t.opstack (start + i))) argc

/-- What env_new writes into a block of zeros. -/
def envWords (prev size depth objects i : Nat) : Nat :=
  match i with
  | 0 => prev
  | 1 => size + depth * 2 ^ 32
  | 2 => objects
  | _ => 0

/-- (env_new heap prev size depth) -/
def envNew (prev : Thread → Nat) (size depth : Nat) : VmM Nat := do
  let mem ← alloc (24 + 8 * size) .env
  let s ← get
  modifyBlock mem fun b => { b with words := envWords (prev s.thread) size depth (mem + 24) }
  return mem

def closureWords (env func : Nat) (words : Nat → Nat) (i : Nat) : Nat :=
  match i with
  | 0 => env
  | 1 => func
  | i => words i

/-- (closure_new heap func env), the environment being the current one. -/
def closureNew (idx : Nat) (f : IFunc) : VmM Nat := do
  let mem ← alloc (16 + 8 * f.bindmap.length) .closure
  let s ← get
  modifyBlock mem fun b =>
    { b with words := closureWords s.thread.env (img.moduleFunc idx) b.words }
  return makeHeapPtr mem

/-- (env_display env idx); each environment on the way takes one unit of fuel. -/
def envDisplay (h : Heap) : Nat → Nat → Nat → Except Stop Nat
  | 0, _, _ => .error .fuel
  | fuel + 1, env, idx =>
    match h.cells (env - BHDR_SIZE) with
    | none => .error .undefined
    | some b =>
      if env = 0 then .error .undefined
      else if b.words 1 / 2 ^ 32 = idx then .ok env
      else if b.words 0 = 0 then .error .fatal
      else envDisplay h fuel (b.words 0) idx

/-- (bindmap_init bindmap senv func), the bindmap being at base. -/
def bindmapInit (fuel base : Nat) : List Nat → VmM PUnit
  | [] => pure ⟨⟩
  | idx :: bindmap => do
    let s ← get
    match envDisplay s.heap fuel s.thread.env idx with
    | .error e => stop e
    | .ok env =>
      setThread fun t => { t with opstack := Function.update t.opstack base (makeHeapPtr env) }
      bindmapInit fuel (base + 1) bindmap

/-- The first part of enter_interp: the arguments that a function swallows become a list. The result
    is the new count of arguments. -/
def swallowRest (f : IFunc) (opArg : Nat) : VmM Nat := do
  if f.swallow then
    let i := opArg - f.argc
    if i ≠ 0 then
      let args := (← get).thread.opStackIdx - i
      setThread fun t => { t with opStackIdx := args }
      stackPush img (← list img args i)
      return opArg - (i - 1)
    else
      stackPush img cnull
      return opArg + 1
  else return opArg

/-- n words from start on, each at its place above base. -/
def copied (words : Nat → Nat) (base : Nat) (source : Nat → Nat) (start n : Nat) : Nat → Nat :=
  fun i => if base ≤ i ∧ i < base + n then source (start + (i - base)) else words i

/-- The arguments are moved to an environment. -/
def storeEnv (f : IFunc) (opArg : Nat) : VmM PUnit := do
  let args := (← get).thread.opStackIdx - opArg
  let mem ← envNew (fun t => t.env) f.size f.depth
  setThread fun t => { t with env := mem, objects := .env (mem + 24) }
  if opArg ≠ 0 then
    if f.size < opArg then stop .undefined
    else
      let s ← get
      modifyBlock mem fun b => { b with words := copied b.words 3 s.thread.opstack args opArg }
      setThread fun t => { t with opStackIdx := 0 }
  else return

/-- The arguments stay on the stack, or are moved to its bottom. -/
def storeStack (opArg : Nat) : VmM PUnit := setThread fun t =>
  if opArg * 2 < t.opStackIdx then { t with
    opstack := copied t.opstack 0 t.opstack (t.opStackIdx - opArg) opArg
    objects := .stack 0
    opStackIdx := opArg }
  else { t with objects := .stack (t.opStackIdx - opArg) }

/-- The last part of enter_interp: the environments of the captured variables. -/
def initBindmap (fuel : Nat) (f : IFunc) : VmM PUnit := do
  let s ← get
  if f.bindings.length ≠ 0 ∧ s.bindmap = none then
    let base := s.thread.opStackIdx
    modify fun s => { s with bindmap := some base }
    setThread fun t => { t with opStackIdx := base + f.bindmap.length }
    bindmapInit fuel base f.bindmap
  else return

/-- (enter_interp thread func op_arg tag); arguments below the stack are not defined. -/
def enterInterp (fuel : Nat) (f : IFunc) (opArg : Nat) : VmM PUnit := do
  if (← get).thread.opStackIdx < opArg then stop .undefined
  modify fun s => { s with func := f }
  let opArg ← swallowRest img f opArg
  if f.heap then storeEnv f opArg else storeStack opArg
  setThread fun t => { t with heapEnv := f.heap }
  initBindmap fuel f

/-- The place of an object behind a pointer to the objects of an environment. -/
def objectsHdr (objects : Nat) : Nat := objects - 24 - BHDR_SIZE

/-- objects[i] of an environment -/
def envObject (h : Heap) (objects i : Nat) : Option Nat :=
  match h.cells (objectsHdr objects) with
  | some b => if 8 * (3 + i) < b.size then some (b.words (3 + i)) else none
  | none => none

def setEnvObject (objects i obj : Nat) : VmM PUnit := fun s =>
  match envObject s.heap objects i with
  | some _ => modifyBlock (objects - 24) (fun b => b.setWord (3 + i) obj) s
  | none => .error .undefined

/-- thread->objects[i] -/
def object (s : State) (i : Nat) : Option Nat :=
  match s.thread.objects with
  | .stack base => some (s.thread.opstack (base + i))
  | .env objects => envObject s.heap objects i

def setObject (i obj : Nat) : VmM PUnit := do
  match (← get).thread.objects with
  | .stack base => setThread fun t => { t with opstack := Function.update t.opstack (base + i) obj }
  | .env objects => setEnvObject objects i obj

/-- The objects of the environment that a binding leads to, and the index of the variable. -/
def binding (s : State) (i : Nat) : Option (Nat × Nat) := do
  let (up, idx) ← s.func.bindings[i]?
  let bindmap ← s.bindmap
  let words ← wordsAt img s.heap (s.thread.opstack (bindmap + up))
  return (words 2, idx)

/-- IS_LIST(o) -/
def isList (h : Heap) (o : Nat) : Bool :=
  isPair img h o && ((wordsAt img h o).map fun words => words 2 % 2 == 1).getD false || o == cnull

def typeTest (h : Heap) (o : Nat) : Nat → Option Bool
  | 0 => some (o % 8 == 0)
  | 1 => some (o == cnull)
  | 2 => some (isList img h o)
  | 3 => some (isPair img h o)
  | 4 => some (ErrorHandlers.isFunc h o)
  | 5 => some (o == ctrue || o == cfalse)
  | 6 => some (o % 8 == 3)
  | 7 => some (isType img h o .plain (some .symbol))
  | 8 => some (isType img h o .struct (some .struct))
  | 9 => some (isType img h o .string (some .string))
  | 10 => some (isType img h o .bytevector none)
  | 11 => some (o == ceof)
  | _ => none

def cstring (s : String) : Tagged.CString := .truncate s.toUTF8.data.toList

/-- RAISE: the handler of the thread is called with two arguments. -/
def raise (msg : String) : VmM PUnit := fun s =>
  match ErrorHandlers.pushExceptionHandler img.static s.thread (cstring msg) s.heap with
  | .error e => .error (.gc e)
  | .ok (.unhandled, _) => .error .unhandled
  | .ok (.stackFull, _) => .error .stackOverflow
  | .ok (.handler t, h) => (do
    let fp ← stackPop
    modify fun s => { s with control := .dispatch fp 2 }) { s with thread := t, heap := h }

def jump (n : Nat) : VmM PUnit := modify fun s => { s with opcode := s.opcode + n }

def binary (op : Op) : VmM PUnit := do
  let b ← stackPop
  let a ← stackPop
  let c ← ofOption (Arithmetic.binary op (BitVec.ofNat 64 a) (BitVec.ofNat 64 b))
  stackPush img c.toNat

/-- One field of a pair, or an error. -/
def field (i : Nat) (msg : String) : VmM PUnit := do
  let a ← stackPop
  let s ← get
  if isPair img s.heap a then
    let words ← ofOption (wordsAt img s.heap a)
    stackPush img (words i)
  else raise img msg

/-- An instruction, which has been fetched. -/
def execute (instr : Instr) : VmM PUnit := do
  match instr.op with
  | .loadLocal => stackPush img (← ofOption (object (← get) instr.arg))
  | .loadConst => stackPush img (← ofOption img.consts[instr.arg]?)
  | .jumpIfFalse =>
    if (← stackPop) = cfalse then jump instr.arg else return
  | .jumpForward => jump instr.arg
  | .loadFunc => stackPush img (makeFunc (img.moduleFunc instr.arg))
  | .funcCall =>
    let fp ← stackPop
    modify fun s => { s with control := .dispatch fp instr.arg }
  | .setLocal => setObject instr.arg (← stackPop)
  | .setBind =>
    let (objects, idx) ← ofOption (binding img (← get) instr.arg)
    setEnvObject objects idx (← stackPop)
  | .loadBind =>
    let s ← get
    let (objects, idx) ← ofOption (binding img s instr.arg)
    stackPush img (← ofOption (envObject s.heap objects idx))
  | .loadClosure =>
    let f ← ofOption img.functions[instr.arg]?
    stackPush img (← closureNew img instr.arg f)
  | .pushBool => stackPush img (cif (instr.arg ≠ 0))
  | .pushNull => stackPush img cnull
  | .opNot => stackPush img (cif ((← stackPop) = cfalse))
  | .opBitNot =>
    let a ← stackPop
    stackPush img (~~~Tagged.fixnum (BitVec.ofNat 64 a)).toNat
  | .opCons =>
    let b ← stackPop
    let a ← stackPop
    setThread fun t => { t with localRoots := [a, b] }
    stackPush img (← cons img (localRoot 0) (localRoot 1))
    setThread fun t => { t with localRoots := [] }
  | .opCar => field img 0 "car: expected pair"
  | .opCdr => field img 1 "cdr: expected pair"
  | .opTypeTest =>
    let a ← stackPop
    match typeTest img (← get).heap a instr.arg with
    | some b => stackPush img (cif b)
    | none => stop .fatal
  | op => binary img op

/-- The instruction at thread->func->opcode is fetched. -/
def fetch : VmM Instr := do
  let s ← get
  let instr ← ofOption s.func.code[s.opcode]?
  jump 1
  return instr

/-- The error of a wrong count of arguments. -/
def argsError (hdr : ErrorHandlers.FuncHdr) (opArg : Int) : Option String :=
  if hdr.swallow then
    if opArg < hdr.argc then
      some ("call: try to pass " ++ toString (opArg - 1) ++ " args when at least " ++
        toString (hdr.argc - 1) ++ " requred")
    else none
  else if opArg ≠ hdr.argc then
    some ("call: try to pass " ++ toString (opArg - 1) ++ " args when " ++
      toString (hdr.argc - 1) ++ " requred")
  else none

/-- What dispatch_func comes to. -/
inductive Target where
  | function (a : Nat)
  | again (fp : Nat) (opArg : Int)
  | error (msg : String)

/-- The switch on the tag of fp. -/
def target (fp : Nat) (opArg : Int) : VmM Target := do
  if isHeapPtr fp then
    let b ← ofOption ((← get).heap.cells (hdrOf fp))
    match b.type with
    | .closure =>
      -- the function of a closure is a func_t
      let _ ← ofOption (img.inter (b.words 1))
      modify fun s => { s with
        bindmap := none
        thread := { s.thread with env := b.words 0, closure := ptr fp } }
      return .function (b.words 1)
    | .cont => return .again (b.words 0) (opArg - 1)
    | _ => stop .fatal
  else if fp % 8 = ErrorHandlers.tagFunc then
    modify fun s => { s with bindmap := none, thread := { s.thread with closure := 0 } }
    return .function (ptr fp)
  else return .error ("call: expected function or closure but got tag " ++ toString (fp % 8) ++ "\n")

/-- The function at a is called, or a builtin is about to be. -/
def callFunc (fuel a : Nat) (opArg : Int) : VmM (Option Native) := do
  let hdr ← ofOption (img.hdr a)
  match argsError hdr opArg with
  | some msg =>
    raise img msg
    return none
  | none =>
    match img.inter a with
    | some f =>
      modify fun s => { s with opcode := 0, control := .opcode }
      enterInterp img fuel f opArg.toNat
      return none
    | none => some <$> ofOption (img.natives a)

/-- dispatch_func up to the call of a builtin, which is the result. A function of the module is
    entered. -/
def dispatchFunc (fuel fp : Nat) (opArg : Int) : VmM (Option Native) := do
  match ← target img fp opArg with
  | .again fp opArg =>
    modify fun s => { s with control := .dispatch fp opArg }
    return none
  | .error msg =>
    raise img msg
    return none
  | .function a => callFunc img fuel a opArg

/-- vm_thread_init and the first part of eval_thread; stack is what mem_alloc returns for the operand
    stack, and memory for the heap. -/
def start (stack : Nat → Nat) (memory oldArea : Nat) : Except Stop State :=
  match img.functions[img.entryPoint]? with
  | none => .error .undefined
  | some f =>
    let thread : Thread := {
      env := 0
      opstack := stack
      opStackIdx := 0
      closure := 0
      libCache := cnull
      exceptionHandlers := cnull
      localRoots := []
      heapEnv := false
      objects := .stack 0 }
    let first : VmM PUnit := do
      let mem ← envNew (fun _ => 0) f.size f.depth
      setThread fun t => { t with env := mem, objects := .env (mem + 24), heapEnv := true }
      setObject 0 (makeFunc img.vmExit)
    (first ⟨thread, heapInit memory oldArea, none, f, 0, .opcode⟩).map Prod.snd

end code

/- Builtins. Their code is not here; what they leave of the thread is. -/

/-- A word that a collection may have updated. -/
def Updated (w w' : Nat) : Prop := w' = w ∨ isHeapPtr w = true ∧ isHeapPtr w' = true

theorem Updated.refl (w : Nat) : Updated w w := Or.inl rfl

theorem Updated.trans {u v w : Nat} (first : Updated u v) (second : Updated v w) : Updated u w := by
  rcases first with rfl | ⟨pointer, pointer'⟩
  · exact second
  · rcases second with rfl | ⟨_, pointer''⟩
    · exact Or.inr ⟨pointer, pointer'⟩
    · exact Or.inr ⟨pointer, pointer''⟩

/-- The heap may be another one, and collections may have run. -/
structure Kept (s s' : State) : Prop where
  opStackIdx : s'.thread.opStackIdx = s.thread.opStackIdx
  opstack : ∀ i, i < s.thread.opStackIdx → Updated (s.thread.opstack i) (s'.thread.opstack i)
  libCache : Updated s.thread.libCache s'.thread.libCache
  exceptionHandlers : Updated s.thread.exceptionHandlers s'.thread.exceptionHandlers
  bindmap : s'.bindmap = s.bindmap
  func : s'.func = s.func
  opcode : s'.opcode = s.opcode
  aligned : FreshAligned s.heap → FreshAligned s'.heap

/-- A builtin that does no more than to return a value: it does not end the thread, passes control
    on to no function, and sets no register of the thread. -/
def JustReturns (n : Native) (opArg : Int) : Prop :=
  n ≠ .vmExit ∧ n ≠ .callCc ∧ n ≠ .apply ∧ n ≠ .loadLibrary ∧
    ¬ (n = .exceptionHandlers ∧ opArg = 2) ∧ ¬ (n = .libraryCache ∧ opArg = 2)

/-- The value of a builtin that is called with a continuation alone. -/
def Constant (s : State) : Native → Nat → Prop
  | .list, obj => obj = cnull
  | .getVoid, obj => obj = cvoid
  | .getEof, obj => obj = ceof
  | .exceptionHandlers, obj => obj = s.thread.exceptionHandlers
  | .libraryCache, obj => obj = s.thread.libCache
  | .makeStruct, obj => isHeapPtr obj = true
  | _, _ => False

/-- RETURN_OBJ(obj), at the end of a builtin. -/
def Returned (img : Image) (n : Native) (opArg : Int) (s s' : State) : Prop :=
  ∃ u obj, Kept s u ∧ (opArg = 1 → Constant u n obj) ∧ Returns (stackPush img obj) u ⟨⟩ s'

def Native.name : Native → String
  | .list => "list"
  | .listLength => "list_length"
  | .makeList => "make_list"
  | .display => "display"
  | .vmExit => "vm_exit"
  | .callCc => "call_cc"
  | .exceptionHandlers => "exception_handlers"
  | .apply => "apply"
  | .getVoid => "get_void"
  | .getEof => "get_eof"
  | .charToInteger => "char_to_integer"
  | .integerToChar => "integer_to_char"
  | .makeString => "make_string"
  | .stringConcat => "string_concat"
  | .stringCopyTo => "string_copy_to"
  | .stringCopy => "string_copy"
  | .symbolToString => "symbol_to_string"
  | .stringRef => "string_ref"
  | .stringSet => "string_set"
  | .stringLength => "string_length"
  | .stringEq => "string_eq"
  | .substring => "substring"
  | .makeStruct => "make_struct"
  | .allocStruct => "alloc_struct"
  | .structSize => "struct_size"
  | .structSet => "struct_set"
  | .structRef => "struct_ref"
  | .structType => "struct_type"
  | .structToList => "struct_to_list"
  | .makeBytevector => "make_bytevector"
  | .bytevectorLength => "bytevector_length"
  | .isBytevector => "is_bytevector"
  | .bytevector8Set => "bytevector_8_set"
  | .loadLibrary => "load_library"
  | .libraryCache => "library_cache"

/-- One step of the loop of eval_thread, or of the dispatch of a call. -/
inductive Step (img : Image) (s : State) : State → Prop where
  | instruction {s' : State} (here : s.control = .opcode)
      (ran : Returns (do execute img (← fetch)) s ⟨⟩ s') : Step img s s'
  | dispatch {s' : State} {fuel fp : Nat} {opArg : Int} (here : s.control = .dispatch fp opArg)
      (ran : Returns (dispatchFunc img fuel fp opArg) s none s') : Step img s s'
  | returns {s₁ s₂ : State} {fuel fp : Nat} {opArg : Int} {n : Native}
      (here : s.control = .dispatch fp opArg)
      (ran : Returns (dispatchFunc img fuel fp opArg) s (some n) s₁) (just : JustReturns n opArg)
      (returned : Returned img n opArg s₁ s₂) :
      Step img s { s₂ with
        control := .dispatch (s₂.thread.opstack (s₁.thread.opStackIdx - opArg.toNat)) 1 }
  | fails {s₁ s₂ s' : State} {fuel fp : Nat} {opArg : Int} {n : Native}
      (here : s.control = .dispatch fp opArg)
      (ran : Returns (dispatchFunc img fuel fp opArg) s (some n) s₁) (kept : Kept s₁ s₂)
      (raised : Returns (raise img ("call: " ++ n.name ++ " failed")) s₂ ⟨⟩ s') : Step img s s'

end LGears.Vm
