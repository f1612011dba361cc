import Mathlib.Algebra.GroupWithZero.Nat
import Mathlib.Order.Basic
import LGears.Library.Returns

/- The heap of a thread and its collector. Memory maps the address of a header to its
   block; a word is a number, and an object is a heap pointer when its tag is 1. -/
namespace LGears.Gc

def FRESH_SIZE : Nat := 1024 * 128
def SURVIVED_SIZE : Nat := 1024 * 128
def OLD_SIZE : Nat := SURVIVED_SIZE * 5

/-- The size of a header. -/
def BHDR_SIZE : Nat := 8

def isHeapPtr (o : Nat) : Bool := o % 8 == 1

/-- PTR(o) -/
def ptr (o : Nat) : Nat := o - o % 8

def makeHeapPtr (a : Nat) : Nat := a - a % 8 + 1

def alignUp (size : Nat) : Nat := (size + 7) / 8 * 8

scoped instance generations : NeZero 4 := ⟨by decide⟩

/-- The types of blocks, by their visitors; a plain block has none. -/
inductive BlockType where
  | pair
  | cont
  | env
  | closure
  | struct
  | string
  | bytevector
  | plain
  deriving DecidableEq, Repr

/-- A header and the words of its payload. -/
structure Block where
  type : BlockType
  forward : Bool
  generation : Fin 4
  remembered : Bool
  size : Nat
  words : Nat → Nat

def Block.setWord (b : Block) (i : Nat) (w : Nat) : Block :=
  { b with words := Function.update b.words i w }

/-- A space; its headers in the order of their addresses stand for the count of blocks. -/
structure Space where
  mem : Nat
  pos : Nat
  size : Nat
  freeMem : Nat
  hdrs : List Nat
  deriving DecidableEq, Repr

abbrev Cells := Nat → Option Block

structure Heap where
  mem : Nat
  memSize : Nat
  fresh : Space
  survived : Space
  futureSurvived : Space
  old : Space
  remembered : List Nat
  fullGc : Bool
  oldMap : Option (List (Nat × Nat))
  cells : Cells
  /-- What mem_alloc returns when the old space is allocated. -/
  oldArea : Nat

inductive Abort where
  | survivedFull
  | oldFull
  | freshFull
  | foreign (p : Nat)
  | undefined
  | fuel
  deriving DecidableEq, Repr

abbrev GcM := StateT Heap (Except Abort)

def abort {α : Type} (e : Abort) : GcM α := fun _ => .error e

def update (f : Heap → Heap) : GcM PUnit := fun h => .ok (⟨⟩, f h)

/- Memory. -/

/-- The blocks at a and at c have a byte in common. -/
def overlap (a : Nat) (size : Nat) (c : Nat) (size' : Nat) : Prop :=
  a < c + (BHDR_SIZE + size') ∧ c < a + (BHDR_SIZE + size)

instance (a : Nat) (size : Nat) (c : Nat) (size' : Nat) : Decidable (overlap a size c size') :=
  inferInstanceAs (Decidable (_ ∧ _))

/-- A block is stored; what it overwrites is lost. -/
def Cells.put (cells : Cells) (a : Nat) (b : Block) : Cells := fun c =>
  if c = a then some b
  else (cells c).filter fun d => ¬ overlap a b.size c d.size

/-- The memory of a space is filled with zeros. -/
def Cells.clear (cells : Cells) (space : Space) : Cells := fun c =>
  if space.mem ≤ c ∧ c < space.mem + space.size then none else cells c

def readHdr (a : Nat) : GcM Block := fun h =>
  match h.cells a with
  | some b => .ok (b, h)
  | none => .error .undefined

def modifyHdr (a : Nat) (f : Block → Block) : GcM PUnit :=
  update fun h => { h with cells := Function.update h.cells a ((h.cells a).map f) }

/- Spaces. -/

def Space.reset (space : Space) : Space :=
  { space with pos := space.mem, freeMem := space.size, hdrs := [] }

def Space.init (mem : Nat) (size : Nat) : Space := ⟨mem, mem, size, size, []⟩

def Space.append (space : Space) (size : Nat) : Space :=
  { space with
    pos := space.pos + size
    freeMem := space.freeMem - size
    hdrs := space.hdrs ++ [space.pos] }

/-- Whether (space_alloc space size type_id) in the fresh space succeeds. -/
def enoughFresh (h : Heap) (size : Nat) : Bool := alignUp size + BHDR_SIZE ≤ h.fresh.freeMem

/-- (space_alloc space size type_id) in the fresh space, when there is room. -/
def spaceAlloc (size : Nat) (type : BlockType) : GcM Nat := fun h =>
  let size := alignUp size
  .ok (h.fresh.pos + BHDR_SIZE,
    { h with
      fresh := h.fresh.append (size + BHDR_SIZE)
      cells := h.cells.put h.fresh.pos ⟨type, false, 0, false, size, fun _ => 0⟩ })

/-- (space_put space p size put) into the future survived space. -/
def copyToSurvived (b : Block) : GcM Nat := fun h =>
  let size := b.size + BHDR_SIZE
  if h.futureSurvived.freeMem < size then .error .survivedFull
  else .ok (h.futureSurvived.pos,
    { h with
      futureSurvived := h.futureSurvived.append size
      cells := h.cells.put h.futureSurvived.pos b })

/-- (space_put space p size put) into the old space. -/
def copyToOld (b : Block) : GcM Nat := fun h =>
  let size := b.size + BHDR_SIZE
  if h.old.freeMem < size then .error .oldFull
  else .ok (h.old.pos,
    { h with old := h.old.append size, cells := h.cells.put h.old.pos b })

def inSpace (space : Space) (p : Nat) : Bool := space.mem ≤ p && p < space.mem + space.size

def heapRemember (hdr : Nat) : GcM PUnit :=
  update fun h => { h with remembered := h.remembered ++ [hdr] }

/-- The old space is allocated on demand. -/
def requireOld : GcM PUnit :=
  update fun h => if h.old.mem = 0 then { h with old := .init h.oldArea OLD_SIZE } else h

/- Marking. -/

/-- The place to which an old block was moved. -/
def lookupOld (obj : Nat) (hdr : Nat) : GcM Nat := fun h =>
  match h.oldMap.bind (List.lookup hdr) with
  | some res => .ok (makeHeapPtr (res + BHDR_SIZE), h)
  | none => .ok (obj, h)

/-- The visit of a pointer into the old space. -/
def markOld (obj : Nat) (hdr : Nat) : GcM Nat := do
  if (← get).fullGc then
    let b ← readHdr hdr
    if b.remembered then lookupOld obj hdr
    else
      modifyHdr hdr fun b => { b with remembered := true }
      heapRemember hdr
      return obj
  else lookupOld obj hdr

/-- Leaves the new address in the first word of the block that was copied. -/
def forwardTo (hdr new : Nat) : GcM Nat := do
  modifyHdr hdr fun b => { b.setWord 0 (new + BHDR_SIZE) with forward := true }
  modifyHdr new fun b => { b with forward := false, generation := b.generation + 1 }
  return makeHeapPtr (new + BHDR_SIZE)

/-- The visit of a pointer to a block that may be copied. -/
def markYoung (obj : Nat) (hdr : Nat) : GcM Nat := do
  let b ← readHdr hdr
  if b.forward then return makeHeapPtr (b.words 0)
  else if b.generation = 3 then
    if (← get).fullGc then
      if b.remembered then return obj
      else
        heapRemember hdr
        modifyHdr hdr fun b => { b with remembered := true }
        return obj
    else
      requireOld
      let new ← copyToOld b
      heapRemember new
      modifyHdr hdr fun b => { b with remembered := false }
      forwardTo hdr new
  else
    let new ← copyToSurvived b
    forwardTo hdr new

/-- (heap_mark visitor obj), whose result is the new content of the slot. -/
def heapMark (obj : Nat) : GcM Nat := do
  if !isHeapPtr obj then return obj
  else
    let h ← get
    let p := ptr obj
    if (p < h.mem || h.mem + h.memSize < p) && !inSpace h.old p then abort (.foreign p)
    else if inSpace h.futureSurvived p then return obj
    else if inSpace h.old p then markOld obj (p - BHDR_SIZE)
    else markYoung obj (p - BHDR_SIZE)

/-- (mark_env env visitor) -/
def markEnv (env : Nat) : GcM Nat :=
  if env = 0 then pure env
  else do return ptr (← heapMark (makeHeapPtr env))

/- Visitors. -/

/-- A word of a block that is visited: an object, or the address of an environment. -/
structure Slot where
  index : Nat
  isEnv : Bool
  deriving DecidableEq, Repr

/-- A count that is stored as an int in a word. -/
def intField (w : Nat) : Nat := if w % 2 ^ 32 < 2 ^ 31 then w % 2 ^ 32 else 0

/-- What the visitor of a type visits, in order. -/
def slots (b : Block) : List Slot :=
  match b.type with
  | .pair => [⟨0, false⟩, ⟨1, false⟩]
  | .cont => [⟨0, false⟩]
  | .env => (List.range (intField (b.words 1))).map (fun i => ⟨3 + i, false⟩) ++ [⟨0, true⟩]
  | .closure => [⟨0, true⟩]
  | .struct => (List.range (intField (b.words 1))).map fun i => ⟨3 + i, false⟩
  | _ => []

/-- The word with the address of the data inside the block, and the place of that data. -/
def innerPointer (b : Block) : Option (Nat × Nat) :=
  match b.type with
  | .env | .struct => some (2, 24)
  | .string => if b.words 1 / 2 ^ 32 % 2 = 1 then some (0, 16) else none
  | .bytevector => some (0, 16)
  | _ => none

def setInner (data : Nat) (b : Block) : Block :=
  match innerPointer b with
  | some (i, place) => b.setWord i (data + place)
  | none => b

/-- The new content of a word that holds an environment or an object. -/
def visitWord (isEnv : Bool) (w : Nat) : GcM Nat := if isEnv then markEnv w else heapMark w

/-- The visit of one word of the block at hdr. -/
def visitSlot (hdr : Nat) (slot : Slot) : GcM PUnit := do
  let b ← readHdr hdr
  if b.size ≤ 8 * slot.index then abort .undefined
  else
    let w ← visitWord slot.isEnv (b.words slot.index)
    modifyHdr hdr fun b => b.setWord slot.index w

def visitSlots (hdr : Nat) : List Slot → GcM PUnit
  | [] => return
  | slot :: slots => do
    visitSlot hdr slot
    visitSlots hdr slots

/-- (visit_hdr heap hdr) -/
def visitHdr (hdr : Nat) : GcM PUnit := do
  let b ← readHdr hdr
  modifyHdr hdr (setInner (hdr + BHDR_SIZE))
  visitSlots hdr (slots b)

/- The thread and its roots. -/

/-- Where the current locals are: on the operand stack or in an environment. -/
inductive Locals where
  | stack (idx : Nat)
  | env (objects : Nat)
  deriving DecidableEq, Repr

structure Thread where
  env : Nat
  opstack : Nat → Nat
  opStackIdx : Nat
  closure : Nat
  libCache : Nat
  exceptionHandlers : Nat
  localRoots : List Nat
  heapEnv : Bool
  objects : Locals

/-- The first words of the operand stack are visited. -/
def visitStack (opstack : Nat → Nat) : Nat → GcM (Nat → Nat)
  | 0 => return opstack
  | n + 1 => do
    let opstack ← visitStack opstack n
    let w ← heapMark (opstack n)
    return Function.update opstack n w

def visitAll : List Nat → GcM (List Nat)
  | [] => return []
  | w :: ws => do
    let w ← heapMark w
    return w :: (← visitAll ws)

/-- (thread_get_roots visitor thread) -/
def threadGetRoots (t : Thread) : GcM Thread := do
  let env ← markEnv t.env
  let opstack ← visitStack t.opstack t.opStackIdx
  let closure ← markEnv t.closure
  let libCache ← heapMark t.libCache
  let exceptionHandlers ← heapMark t.exceptionHandlers
  let localRoots ← visitAll t.localRoots
  return { t with
    env := env
    opstack := opstack
    closure := closure
    libCache := libCache
    exceptionHandlers := exceptionHandlers
    localRoots := localRoots }

/-- (thread_after_gc visitor thread) -/
def threadAfterGc (t : Thread) : GcM Thread := do
  if t.heapEnv then
    let b ← readHdr (t.env - BHDR_SIZE)
    return { t with objects := .env (b.words 2) }
  else return t

/- Scans. A loop takes one unit of fuel for each of its rounds. -/

/-- The blocks of a list that may grow are visited, from block i on; the result is the next
    one. -/
def scanFrom (list : Heap → List Nat) : Nat → Nat → GcM Nat
  | 0, _ => abort .fuel
  | fuel + 1, i => do
    match (list (← get))[i]? with
    | none => return i
    | some hdr =>
      visitHdr hdr
      scanFrom list fuel (i + 1)

/-- (heap_scan_references heap cont), where cont stands at block i. -/
def heapScanReferences (fuel i : Nat) : GcM Nat := scanFrom (·.futureSurvived.hdrs) fuel i

/-- (heap_scan_old heap), which a full collection leaves out. -/
def scanOldUnlessFull (fuel : Nat) : GcM PUnit := do
  if (← get).fullGc then return
  else
    let _ ← scanFrom (·.old.hdrs) fuel 0
    return

def forget : GcM PUnit := update fun h => { h with remembered := [] }

/-- (heap_scan_remebered heap) -/
def heapScanRemembered (fuel : Nat) : GcM PUnit := do
  let _ ← scanFrom (·.remembered) fuel 0
  forget

/-- The loop of (heap_gc_main heap). -/
def heapGcLoop : Nat → Nat → GcM PUnit
  | 0, _ => abort .fuel
  | fuel + 1, i => do
    if (← get).remembered = [] then return
    else
      heapScanRemembered fuel
      let i ← heapScanReferences fuel i
      heapGcLoop fuel i

/-- (heap_gc_main heap) -/
def heapGcMain (fuel : Nat) (t : Thread) : GcM Thread := do
  let t ← threadGetRoots t
  scanOldUnlessFull fuel
  let i ← heapScanReferences fuel 0
  heapGcLoop fuel i
  return t

/- Collection. -/

/-- The marked blocks among those at the given addresses. -/
def liveSet (cells : Cells) (hdrs : List Nat) : List Nat :=
  hdrs.filter fun hdr => ((cells hdr).map (·.remembered)).getD false

/-- One marked block is moved to the end of the old space. -/
def moveOld (hdr : Nat) : GcM PUnit := do
  modifyHdr hdr fun b => { b with remembered := false }
  let b ← readHdr hdr
  let new ← copyToOld b
  update fun h => { h with oldMap := h.oldMap.map fun map => (hdr, new) :: map }
  heapRemember new

def moveAll : List Nat → GcM PUnit
  | [] => return
  | hdr :: hdrs => do
    moveOld hdr
    moveAll hdrs

/-- (heap_gc_old heap) -/
def heapGcOld : GcM PUnit := do
  let h ← get
  update fun h => { h with old := h.old.reset, oldMap := some [] }
  moveAll (liveSet h.cells h.old.hdrs)

/-- (heap_swap_survived heap) -/
def heapSwapSurvived (h : Heap) : Heap :=
  { h with
    cells := h.cells.clear h.survived
    survived := h.futureSurvived
    futureSurvived := h.survived.reset }

def resetFresh (h : Heap) : Heap :=
  { h with cells := h.cells.clear h.fresh, fresh := h.fresh.reset }

/-- The two passes over the live blocks; a full collection compacts the old space between
    them. -/
def heapGcPasses (fuel : Nat) (t : Thread) : GcM Thread := do
  let t ← heapGcMain fuel t
  if (← get).fullGc then
    heapGcOld
    update fun h => { h with fullGc := false }
    let t ← heapGcMain fuel t
    update fun h => { h with oldMap := none }
    return t
  else return t

/-- A full collection is due when the old space may not take all that survives. -/
def scheduleFullGc (h : Heap) : Heap :=
  if h.old.mem ≠ 0 ∧ h.old.freeMem < SURVIVED_SIZE then { h with fullGc := true } else h

/-- Fuel for every loop: one unit for each byte of the heap and of the old space. -/
def gcFuel (h : Heap) : Nat := h.memSize + OLD_SIZE

/-- (heap_gc heap) -/
def heapGc (t : Thread) : GcM Thread := do
  let t ← heapGcPasses (gcFuel (← get)) t
  update resetFresh
  update heapSwapSurvived
  let t ← threadAfterGc t
  update scheduleFullGc
  return t

/-- (heap_alloc heap size type_id), with the thread whose roots a collection updates. -/
def heapAlloc (t : Thread) (size : Nat) (type : BlockType) : GcM (Thread × Nat) := do
  if enoughFresh (← get) size then
    return (t, ← spaceAlloc size type)
  else
    let t ← heapGc t
    if enoughFresh (← get) size then
      return (t, ← spaceAlloc size type)
    else abort .freshFull

/-- (heap_init heap thread); memory is the area that mem_alloc returns. -/
def heapInit (memory oldArea : Nat) : Heap :=
  { mem := memory
    memSize := FRESH_SIZE + SURVIVED_SIZE * 2
    fresh := .init memory FRESH_SIZE
    survived := .init (memory + FRESH_SIZE) SURVIVED_SIZE
    futureSurvived := .init (memory + FRESH_SIZE + SURVIVED_SIZE) SURVIVED_SIZE
    old := ⟨0, 0, 0, 0, []⟩
    remembered := []
    fullGc := false
    oldMap := none
    cells := fun _ => none
    oldArea := oldArea }

end LGears.Gc
