import LGears.GcMinor
import LGears.Tagged

/- The handlers of a thread. An error that the machine raises goes to the innermost one. -/
namespace LGears.ErrorHandlers
open Gc StateExcept

/-- func_hdr_t -/
structure FuncHdr where
  argc : Int
  swallow : Bool

/-- What does not belong to the heap of a thread. -/
structure Static where
  /-- The pairs of the constant areas, which hold no pointers to the heap. -/
  pairs : Nat → Option (Nat × Nat)
  apart : ∀ a p, pairs a = some p → isHeapPtr p.1 = false ∧ isHeapPtr p.2 = false
  functions : Nat → Option FuncHdr
  /-- MAKE_FUNC(&vm_exit_nt) -/
  vmExit : Nat
  opStackSize : Nat

def tagConstPtr : Nat := 2
def tagFunc : Nat := 4

section code
variable (st : Static)

/-- The pair at PTR(o), if IS_PAIR(o). -/
def pairAt (h : Heap) (o : Nat) : Option (Nat × Nat) :=
  if isHeapPtr o then
    match h.cells (hdrOf o) with
    | some b => if b.type = .pair then some (b.words 0, b.words 1) else none
    | none => none
  else if o % 8 = tagConstPtr then st.pairs (ptr o)
  else none

/-- The two words at PTR(o), whatever is there now. -/
def readPair (o : Nat) : GcM (Nat × Nat) := fun h =>
  if isHeapPtr o then
    match h.cells (hdrOf o) with
    | some b => .ok ((b.words 0, b.words 1), h)
    | none => .error .undefined
  else
    match st.pairs (ptr o) with
    | some p => .ok (p, h)
    | none => .error .undefined

/-- IS_FUNC(o) -/
def isFunc (h : Heap) (o : Nat) : Bool :=
  o % 8 == tagFunc || isHeapPtr o &&
    match h.cells (hdrOf o) with
    | some b => b.type == .closure || b.type == .cont
    | none => false

/-- STACK_PUSH(o), which stops the process when the stack is full. -/
def stackPush (t : Thread) (o : Nat) : Option Thread :=
  if t.opStackIdx + 1 = st.opStackSize then none
  else some { t with
    opstack := Function.update t.opstack t.opStackIdx o
    opStackIdx := t.opStackIdx + 1 }

/-- buf, after vsnprintf has written the message to it. -/
def buffer (msg : Tagged.CString) : List UInt8 := msg.bytes.take 255

/-- The bytes of a text as words. -/
def textWord (bytes : List UInt8) (i : Nat) : Nat :=
  ((bytes.drop (8 * i)).take 8).foldr (fun b acc => b.toNat + 256 * acc) 0

/-- What (_string al buf 1) writes behind the header. -/
def stringWords (mem : Nat) (bytes : List UInt8) (i : Nat) : Nat :=
  match i with
  | 0 => mem + 16
  | 1 => bytes.length + 1 + 2 ^ 32
  | i + 2 => textWord bytes i

def stringSize (bytes : List UInt8) : Nat := 16 + (bytes.length + 1)

/-- (_string al buf 1) -/
def newString (t : Thread) (bytes : List UInt8) : GcM (Thread × Nat) := do
  let (t, mem) ← heapAlloc t (stringSize bytes) .string
  modifyHdr (mem - BHDR_SIZE) fun b => { b with words := stringWords mem bytes }
  return (t, mem)

inductive Outcome where
  /-- Two arguments and a function are on the stack. -/
  | handler (t : Thread)
  | unhandled
  | stackFull

/-- (push_exception_handler thread msg); the pair is read through a pointer that was taken
    before the allocation. -/
def pushExceptionHandler (t : Thread) (msg : Tagged.CString) : GcM Outcome := do
  match pairAt st (← get) t.exceptionHandlers with
  | none => return .unhandled
  | some (car, _) =>
    if !isFunc (← get) car then return .unhandled
    else
      let pair := t.exceptionHandlers
      let (t, obj) ← newString t (buffer msg)
      match (stackPush st t st.vmExit).bind fun t => stackPush st t (makeHeapPtr obj) with
      | none => return .stackFull
      | some t =>
        let (car, cdr) ← readPair st pair
        match stackPush st t car with
        | none => return .stackFull
        | some t => return .handler { t with exceptionHandlers := cdr }

inductive Dispatch where
  /-- The function at func is entered with opArg arguments. -/
  | enter (func : Nat) (opArg : Int)
  | raise
  | fatal
  | undefined
  | fuel
  deriving DecidableEq

/-- The check of the count of arguments. -/
def checkArgs (func : Nat) (opArg : Int) : Dispatch :=
  match st.functions func with
  | some fhdr =>
    if fhdr.swallow then if opArg < fhdr.argc then .raise else .enter func opArg
    else if opArg ≠ fhdr.argc then .raise else .enter func opArg
  | none => .undefined

/-- dispatch_func; each continuation on the way takes one unit of fuel. -/
def dispatchFunc (h : Heap) : Nat → Nat → Int → Dispatch
  | 0, _, _ => .fuel
  | fuel + 1, fp, opArg =>
    if isHeapPtr fp then
      match h.cells (hdrOf fp) with
      | some b =>
        if b.type = .closure then checkArgs st (b.words 1) opArg
        else if b.type = .cont then dispatchFunc h fuel (b.words 0) (opArg - 1)
        else .fatal
      | none => .undefined
    else if fp % 8 = tagFunc then checkArgs st (ptr fp) opArg
    else .raise

end code

/-- The function of a closure or of a function object. -/
def funcOf (h : Heap) (o : Nat) : Option Nat :=
  if isHeapPtr o then
    match h.cells (hdrOf o) with
    | some b => if b.type = .closure then some (b.words 1) else none
    | none => none
  else if o % 8 = tagFunc then some (ptr o)
  else none

/-- The handler is no continuation, and its function takes two arguments. -/
def TakesTwo (st : Static) (h : Heap) (o : Nat) : Prop :=
  ∃ f, funcOf h o = some f ∧ checkArgs st f 2 = .enter f 2

/-- How the allocation has changed pointers: a collection moves blocks to their places. -/
def Relocates (t : Thread) (h : Heap) (size : Nat) (move : Nat → Nat) : Prop :=
  enoughFresh h size = true ∧ move = id ∨
    enoughFresh h size = false ∧ ∃ t' h' place, heapGc t h = .ok (t', h') ∧
      Isomorphic t h t' h' place ∧ (∀ a, Reach t h a → Held h' (place a)) ∧
      move = moveWord place false

/-- The exit continuation, the message and the handler are on the stack, the handler is the
    current one no longer, and it is what is entered next, with two arguments. -/
structure Reaches (st : Static) (t : Thread) (h : Heap) (msg : Tagged.CString) (car cdr : Nat)
    (t₁ : Thread) (obj : Nat) (h₁ : Heap) : Prop where
  entered : ∃ move t₂, Relocates t h (stringSize (buffer msg)) move ∧
    pushExceptionHandler st t msg h = .ok (.handler t₂, h₁) ∧
    t₂ = { t₁ with
      opstack := Function.update (Function.update (Function.update t₁.opstack
        t.opStackIdx st.vmExit) (t.opStackIdx + 1) (makeHeapPtr obj)) (t.opStackIdx + 2) (move car)
      opStackIdx := t.opStackIdx + 3
      exceptionHandlers := move cdr } ∧
    ∃ f, funcOf h₁ (move car) = some f ∧ ∀ fuel, dispatchFunc st h₁ (fuel + 1) (move car) 2 = .enter f 2
  message : ∃ b, h₁.cells (obj - BHDR_SIZE) = some b ∧ b.type = .string ∧
    b.words = stringWords obj (buffer msg)

/- The young spaces during a collection, and after it. -/

section young
variable {h₀ h : Heap} {full : Bool} {map : Option (List (Nat × Nat))}

/-- A collection leaves the places of the spaces it empties. -/
structure Framed (h₀ h : Heap) : Prop where
  fresh : h.fresh = h₀.fresh
  survived : h.survived = h₀.survived

theorem Framed.marked {h' : Heap} {obj w : Nat} (framed : Framed h₀ h)
    (marked : Marked h obj w h') : Framed h₀ h' := by
  cases marked <;> exact ⟨framed.fresh, framed.survived⟩

theorem steps_framed : Steps (fun h => Pass full map h ∧ Framed h₀ h) fun _ => True where
  mark := by
    intro obj h both
    have visit : Ends (heapMark obj) h (Marked h obj) (MarkFails h obj) :=
      ends_heapMark both.1.layout
    apply ((steps_pass.mark obj h both.1).and visit).mono
    · intro w h' after
      exact ⟨after.1, both.2.marked after.2⟩
    · intro _ _
      trivial
  words := fun hdr f same h both =>
    ⟨steps_pass.words hdr f same h both.1, both.2.fresh, both.2.survived⟩
  forget := fun h both => ⟨steps_pass.forget h both.1, both.2.fresh, both.2.survived⟩
  undefined := trivial
  fuel := trivial

theorem ends_heapGcPasses_framed (quiet : Quiet h) (fuel : Nat) (t : Thread) :
    Ends (heapGcPasses fuel t) h (fun _ h' => Framed h h') fun _ => True := by
  unfold heapGcPasses
  rw [ends_bind]
  apply (steps_framed.heapGcMain fuel t h ⟨quiet.pass, rfl, rfl⟩).post
  intro t h₁ first
  rw [ends_bind, ends_get]
  apply ends_ite.mpr
  constructor
  · intro full
    have pass : Pass true none h₁ :=
      ⟨first.1.layout, full, first.1.oldMap, first.1.present⟩
    rw [ends_bind]
    apply (pass.compact.and (ends_heapGcOld pass.layout)).mono
    · intro _ h₂ both
      obtain ⟨compacted, moves, moved⟩ := both
      have framed : Framed h h₂ := by
        rw [moved.frame]
        exact ⟨first.2.fresh, first.2.survived⟩
      rw [ends_bind, ends_update, ends_bind]
      have second : Pass false h₂.oldMap { h₂ with fullGc := false } :=
        ⟨compacted.layout.flags _ _ _, rfl, rfl, compacted.present⟩
      apply (steps_framed.heapGcMain fuel t _ ⟨second, framed.fresh, framed.survived⟩).post
      intro t h₃ last
      rw [ends_bind, ends_update]
      exact ⟨last.2.fresh, last.2.survived⟩
    · intro _ _
      trivial
  · intro _
    exact first.2

theorem ends_threadGetRoots_idx (t : Thread) :
    Ends (threadGetRoots t) h (fun t' _ => t'.opStackIdx = t.opStackIdx) fun _ => True := by
  unfold threadGetRoots
  iterate 6
    apply ends_last
    intro _ _
  rfl

theorem ends_heapGcMain_idx (fuel : Nat) (t : Thread) :
    Ends (heapGcMain fuel t) h (fun t' _ => t'.opStackIdx = t.opStackIdx) fun _ => True := by
  unfold heapGcMain
  rw [ends_bind]
  apply (ends_threadGetRoots_idx t).post
  intro t' h' same
  iterate 3
    apply ends_last
    intro _ _
  exact same

theorem ends_heapGc_idx (t : Thread) :
    Ends (heapGc t) h (fun t' _ => t'.opStackIdx = t.opStackIdx) fun _ => True := by
  unfold heapGc heapGcPasses
  rw [ends_bind, ends_get, ends_bind, ends_bind]
  apply (ends_heapGcMain_idx _ t).post
  intro t₁ h₁ same
  rw [ends_bind, ends_get]
  have after : ∀ t₂ h₂, t₂.opStackIdx = t.opStackIdx → Ends (do
      update resetFresh
      update heapSwapSurvived
      let t ← threadAfterGc t₂
      update scheduleFullGc
      return t) h₂ (fun t' _ => t'.opStackIdx = t.opStackIdx) fun _ => True := by
    intro t₂ h₂ same
    rw [ends_bind, ends_update, ends_bind, ends_update, ends_bind]
    apply ends_ite.mpr
    constructor
    · intro _
      apply ends_last
      intro _ _
      exact same
    · intro _
      exact same
  apply ends_ite.mpr
  constructor
  · intro _
    apply ends_last
    intro _ _
    rw [ends_bind, ends_update, ends_bind]
    apply (ends_heapGcMain_idx _ t₁).post
    intro t₂ h₂ same₂
    rw [ends_bind, ends_update]
    exact after t₂ _ (same₂.trans same)
  · intro _
    exact after t₁ h₁ same

theorem ends_threadAfterGc (t : Thread) :
    Ends (threadAfterGc t) h (fun _ h' => h' = h) fun _ => True := by
  apply ends_ite.mpr
  constructor
  · intro _
    rw [ends_bind]
    apply ends_readHdr trivial
    intro b _
    rfl
  · intro _
    rfl

theorem leave_young (quiet : Quiet h₀) (framed : Framed h₀ h) {a : Nat} (young : Young h₀ a) :
    (leave h).cells a = none := by
  obtain ⟨full, same⟩ := leave_eq (h := h)
  rw [same]
  simp only [heapSwapSurvived, resetFresh, Cells.clear, framed.fresh, framed.survived]
  rcases young with member | member
  · obtain ⟨b, _, low, high, bound⟩ := quiet.layout.fresh.inside member
    unfold BHDR_SIZE at high
    rw [if_pos (show h₀.fresh.mem ≤ a ∧ a < h₀.fresh.mem + h₀.fresh.size by omega), ite_self]
  · obtain ⟨b, _, low, high, bound⟩ := quiet.layout.survived.inside member
    unfold BHDR_SIZE at high
    rw [if_pos (by omega)]

theorem ends_heapGc_cleared (quiet : Quiet h) (t : Thread) :
    Ends (heapGc t) h (fun _ h' => ∀ a, Young h a → h'.cells a = none) fun _ => True := by
  unfold heapGc
  rw [ends_bind, ends_get, ends_bind]
  apply (ends_heapGcPasses_framed quiet _ t).post
  intro t₁ h₁ framed
  rw [ends_bind, ends_update, ends_bind, ends_update, ends_bind]
  apply (ends_threadAfterGc t₁).post
  intro t₂ h₂ same
  rw [ends_bind, ends_update, same]
  exact fun a young => leave_young quiet framed young

end young

section message
variable {t t₁ : Thread} {h h₀ h₁ : Heap} {bytes : List UInt8} {obj : Nat}

def messageBlock (mem : Nat) (bytes : List UInt8) : Block :=
  ⟨.string, false, 0, false, Gc.alignUp (stringSize bytes), stringWords mem bytes⟩

/-- The heap with the message at the end of the fresh space. -/
def withMessage (h : Heap) (bytes : List UInt8) : Heap :=
  { h with
    fresh := h.fresh.append (Gc.alignUp (stringSize bytes) + BHDR_SIZE)
    cells := h.cells.put h.fresh.pos (messageBlock (h.fresh.pos + BHDR_SIZE) bytes) }

/-- The thread and the heap in which the message is allocated: a collection comes first when
    there is no room. -/
inductive Prepared (t : Thread) (h : Heap) (size : Nat) : Thread → Heap → Prop where
  | room (enough : enoughFresh h size = true) : Prepared t h size t h
  | collected {t₁ : Thread} {h₀ : Heap} (full : enoughFresh h size = false)
      (result : heapGc t h = .ok (t₁, h₀)) : Prepared t h size t₁ h₀

theorem heapAlloc_ok {size : Nat} {type : BlockType}
    (done : heapAlloc t size type h = .ok ((t₁, obj), h₁)) :
    ∃ h₀, Prepared t h size t₁ h₀ ∧ enoughFresh h₀ size = true ∧
      spaceAlloc size type h₀ = .ok (obj, h₁) := by
  unfold heapAlloc at done
  have read := (returns_bind.mp done)
  obtain ⟨_, _, ⟨⟩, rest⟩ := read
  split at rest
  · rename_i enough
    obtain ⟨new, h', alloc, last⟩ := returns_bind.mp rest
    obtain ⟨⟨⟩, rfl⟩ := returns_pure.mp last
    exact ⟨h, .room enough, enough, alloc⟩
  · rename_i full
    obtain ⟨t', h₀, collected, rest⟩ := returns_bind.mp rest
    obtain ⟨_, _, ⟨⟩, rest⟩ := returns_bind.mp rest
    split at rest
    · rename_i enough
      obtain ⟨new, h', alloc, last⟩ := returns_bind.mp rest
      obtain ⟨⟨⟩, rfl⟩ := returns_pure.mp last
      exact ⟨h₀, .collected (Bool.eq_false_iff.mpr full) collected, enough, alloc⟩
    · cases rest

theorem update_put {cells : Cells} {a : Nat} {b b' : Block} (same : b'.size = b.size) :
    Function.update (cells.put a b) a (some b') = cells.put a b' := by
  funext c
  by_cases here : c = a
  · subst here
    simp
  · rw [Function.update_of_ne here]
    simp only [Cells.put, if_neg here, same]

theorem newString_ok (done : newString t bytes h = .ok ((t₁, obj), h₁)) :
    ∃ h₀, Prepared t h (stringSize bytes) t₁ h₀ ∧ enoughFresh h₀ (stringSize bytes) = true ∧
      obj = h₀.fresh.pos + BHDR_SIZE ∧ h₁ = withMessage h₀ bytes := by
  obtain ⟨⟨t', mem⟩, h', alloc, rest⟩ := returns_bind.mp done
  obtain ⟨h₀, prepared, enough, placed⟩ := heapAlloc_ok alloc
  obtain ⟨_, h'', written, last⟩ := returns_bind.mp rest
  obtain ⟨⟨⟩, rfl⟩ := returns_pure.mp last
  refine ⟨h₀, prepared, enough, ?_⟩
  cases placed
  refine ⟨rfl, ?_⟩
  cases written
  unfold withMessage
  dsimp only
  rw [Nat.add_sub_cancel, put_same, Option.map_some, update_put]
  · rfl
  · rfl

theorem withMessage_kept (layout : Layout h) (enough : enoughFresh h (stringSize bytes) = true)
    {a : Nat} {b : Block} (at_a : h.cells a = some b) :
    (withMessage h bytes).cells a = some b := by
  have room : Gc.alignUp (stringSize bytes) + BHDR_SIZE ≤ h.fresh.freeMem := by
    simpa [enoughFresh] using enough
  obtain ⟨memSize, fresh, sizes, halves, oldAt, positive, aligned, apart⟩ := layout.areas
  have total := layout.fresh.total
  have low := layout.fresh.le
  apply put_apart at_a
  change a + (BHDR_SIZE + b.size) ≤ h.fresh.pos ∨
    h.fresh.pos + (BHDR_SIZE + Gc.alignUp (stringSize bytes)) ≤ a
  rcases layout.placed a b at_a with (member | member | member) | ⟨present, start, stop⟩
  · obtain ⟨d, at_d, _, high, _⟩ := layout.fresh.inside member
    obtain rfl := Option.some.inj (at_a.symm.trans at_d)
    exact .inl high
  · obtain ⟨d, at_d, below, high, _⟩ := layout.survived.inside member
    obtain rfl := Option.some.inj (at_a.symm.trans at_d)
    omega
  · obtain ⟨d, at_d, below, high, _⟩ := layout.future.inside member
    obtain rfl := Option.some.inj (at_a.symm.trans at_d)
    omega
  · omega

theorem Prepared.layout (wf : WellFormed t h) {size : Nat} (prepared : Prepared t h size t₁ h₀) :
    Layout h₀ := by
  cases prepared with
  | room _ => exact wf.quiet.layout
  | collected _ result => exact ((ends_heapGc wf.quiet t).returned result).quiet.layout

theorem Prepared.idx {size : Nat} (prepared : Prepared t h size t₁ h₀) :
    t₁.opStackIdx = t.opStackIdx := by
  cases prepared with
  | room _ => rfl
  | collected _ result => exact (ends_heapGc_idx t).returned result

end message

section handler
variable {st : Static} {t t₁ : Thread} {h h₀ h₁ : Heap} {msg : Tagged.CString} {obj car cdr : Nat}

theorem pair_cases {o : Nat} (pair : pairAt st h o = some (car, cdr)) :
    (isHeapPtr o = true ∧ ∃ b, h.cells (hdrOf o) = some b ∧ b.type = .pair ∧ b.words 0 = car ∧
      b.words 1 = cdr) ∨ isHeapPtr o = false ∧ st.pairs (ptr o) = some (car, cdr) := by
  unfold pairAt at pair
  split at pair
  · rename_i pointer
    split at pair
    · rename_i b block
      split at pair
      · rename_i type
        cases pair
        exact .inl ⟨pointer, b, block, type, rfl, rfl⟩
      · cases pair
    · cases pair
  · rename_i other
    split at pair
    · exact .inr ⟨Bool.eq_false_iff.mpr other, pair⟩
    · cases pair

theorem reach_handlers (pointer : isHeapPtr t.exceptionHandlers = true) :
    Reach t h (hdrOf t.exceptionHandlers) := by
  apply Rooted.Reached.root
  refine ⟨(false, t.exceptionHandlers), ?_, target_object.mpr ⟨pointer, rfl⟩⟩
  simp [Thread.roots]

theorem reach_car (pair : pairAt st h t.exceptionHandlers = some (car, cdr)) {a : Nat}
    (points : target false car = some a) : Reach t h a := by
  rcases pair_cases pair with ⟨pointer, b, block, type, rfl, -⟩ | ⟨-, const⟩
  · apply (reach_handlers pointer).edge
    refine ⟨b, block, ⟨0, false⟩, ?_, points⟩
    simp [slots, type]
  · have pointer := (target_object.mp points).1
    rw [(st.apart _ _ const).1] at pointer
    cases pointer

theorem moveWord_other {place : Nat → Nat} {w : Nat} (other : isHeapPtr w = false) :
    moveWord place false w = w := by
  simp [moveWord, target, other]

theorem funcOf_moved (wf : WellFormed t h) (pair : pairAt st h t.exceptionHandlers = some (car, cdr))
    (func : isFunc h car = true) {bytes : List UInt8} {move : Nat → Nat}
    (prepared : Prepared t h (stringSize bytes) t₁ h₀)
    (enough : enoughFresh h₀ (stringSize bytes) = true)
    (relocates : Relocates t h (stringSize bytes) move) :
    funcOf (withMessage h₀ bytes) (move car) = funcOf h car := by
  have layout := prepared.layout wf
  cases pointer : isHeapPtr car with
  | false =>
    have same : move car = car := by
      rcases relocates with ⟨_, rfl⟩ | ⟨_, t', h', place, _, _, _, rfl⟩
      · rfl
      · exact moveWord_other pointer
    simp [same, funcOf, pointer]
  | true =>
    have points : target false car = some (hdrOf car) := target_object.mpr ⟨pointer, rfl⟩
    have present : ∃ b, h.cells (hdrOf car) = some b := by
      cases block : h.cells (hdrOf car) with
      | none =>
        have tag : car % 8 ≠ tagFunc := by
          simp only [isHeapPtr, beq_iff_eq] at pointer
          simp [tagFunc, pointer]
        simp [isFunc, pointer, block, tag] at func
      | some b => exact ⟨b, rfl⟩
    obtain ⟨b, block⟩ := present
    rcases relocates with ⟨room, rfl⟩ | ⟨full, t', h', place, collected, isomorphic, held, rfl⟩
    · cases prepared with
      | room _ =>
        have kept := withMessage_kept layout enough block
        simp only [funcOf, id_eq, pointer, if_true, block, kept]
      | collected full _ =>
        rw [full] at room
        cases room
    · cases prepared with
      | room room =>
        rw [full] at room
        cases room
      | collected _ result =>
        obtain ⟨⟨⟩, ⟨⟩⟩ : (t', h') = (t₁, h₀) := Except.ok.inj (collected.symm.trans result)
        have reach := reach_car pair points
        obtain ⟨d, b', at_d, moved, content⟩ := isomorphic.block _ reach
        obtain rfl := Option.some.inj (block.symm.trans at_d)
        have aligned := (layout.aligned (held _ reach)).1
        have word : moveWord place false car = makeHeapPtr (place (hdrOf car) + BHDR_SIZE) := by
          simp [moveWord, points, redirect]
        have place_of := hdrOf_makeHeapPtr aligned
        have kept := withMessage_kept layout enough moved
        rw [word]
        simp only [funcOf, place_of, pointer, if_true, block, kept, content.type]
        split
        · rename_i type
          rw [content.other 1]
          · intro s member
            simp only [slots, type, List.mem_singleton] at member
            simp [member]
          · intro at_ inner
            simp [innerPointer, type] at inner
        · rfl

/-- The handlers are a pair that a collection moves. -/
def PairYoung (t : Thread) (h : Heap) : Prop :=
  isHeapPtr t.exceptionHandlers = true ∧ Young h (hdrOf t.exceptionHandlers)

theorem readPair_block {o : Nat} {b : Block} (pointer : isHeapPtr o = true)
    (block : h.cells (hdrOf o) = some b) :
    readPair st o h = .ok ((b.words 0, b.words 1), h) := by
  simp [readPair, pointer, block]

theorem readPair_const {o : Nat} {p : Nat × Nat} (other : isHeapPtr o = false)
    (const : st.pairs (ptr o) = some p) : readPair st o h = .ok (p, h) := by
  simp [readPair, other, const]

theorem pair_stays (wf : WellFormed t h) (pair : pairAt st h t.exceptionHandlers = some (car, cdr))
    {bytes : List UInt8} (prepared : Prepared t h (stringSize bytes) t₁ h₀)
    (enough : enoughFresh h₀ (stringSize bytes) = true)
    (stays : enoughFresh h (stringSize bytes) = true ∨ h.fullGc = false ∧ ¬PairYoung t h) :
    ∃ move, Relocates t h (stringSize bytes) move ∧
      readPair st t.exceptionHandlers (withMessage h₀ bytes) =
        .ok ((move car, move cdr), withMessage h₀ bytes) := by
  have layout := prepared.layout wf
  cases prepared with
  | room room =>
    refine ⟨id, .inl ⟨room, rfl⟩, ?_⟩
    rcases pair_cases pair with ⟨pointer, b, block, -, rfl, rfl⟩ | ⟨other, const⟩
    · exact readPair_block pointer (withMessage_kept layout enough block)
    · exact readPair_const other const
  | collected full result =>
    have minor : h.fullGc = false ∧ ¬PairYoung t h := by
      rcases stays with room | both
      · rw [full] at room
        cases room
      · exact both
    have collected := (wf.ends_minor minor.1).returned result
    obtain ⟨place, isomorphic, held, fixed⟩ := collected.isomorphic wf minor.1
    have places : ∀ a, Reach t h a → Held h₀ (place a) := fun a reach =>
      held _ ((isomorphic.reach _).mpr ⟨a, reach, rfl⟩)
    refine ⟨moveWord place false, .inr ⟨full, t₁, h₀, place, result, isomorphic, places, rfl⟩, ?_⟩
    rcases pair_cases pair with ⟨pointer, b, block, type, rfl, rfl⟩ | ⟨other, const⟩
    · have reach := reach_handlers (h := h) pointer
      have old : hdrOf t.exceptionHandlers ∈ h.old.hdrs := by
        rcases wf.aimed.block _ reach.orOld with young | old
        · exact absurd ⟨pointer, young⟩ minor.2
        · exact old
      obtain ⟨d, b', at_d, moved, content⟩ := isomorphic.block _ reach
      obtain rfl := Option.some.inj (block.symm.trans at_d)
      rw [fixed _ old] at moved
      rw [readPair_block pointer (withMessage_kept layout enough moved),
        content.slot ⟨0, false⟩ (by simp [slots, type]),
        content.slot ⟨1, false⟩ (by simp [slots, type])]
    · rw [readPair_const other const, moveWord_other (st.apart _ _ const).1,
        moveWord_other (st.apart _ _ const).2]

theorem pair_lost (wf : WellFormed t h) {bytes : List UInt8}
    (prepared : Prepared t h (stringSize bytes) t₁ h₀)
    (full : enoughFresh h (stringSize bytes) = false) (young : PairYoung t h) :
    readPair st t.exceptionHandlers (withMessage h₀ bytes) = .error .undefined ∨
      ∃ car cdr, readPair st t.exceptionHandlers (withMessage h₀ bytes) =
        .ok ((car, cdr), withMessage h₀ bytes) ∧ car % 8 = 0 := by
  have layout := prepared.layout wf
  cases prepared with
  | room room =>
    rw [full] at room
    cases room
  | collected _ result =>
    have cleared := (ends_heapGc_cleared wf.quiet t).returned result _ young.2
    by_cases here : hdrOf t.exceptionHandlers = h₀.fresh.pos
    · right
      have block : (withMessage h₀ bytes).cells (hdrOf t.exceptionHandlers) =
          some (messageBlock (h₀.fresh.pos + BHDR_SIZE) bytes) := by
        rw [here]
        exact put_same
      refine ⟨_, _, readPair_block young.1 block, ?_⟩
      have aligned := (wf.quiet.layout.aligned (.inl young.2)).1
      simp only [messageBlock, stringWords, BHDR_SIZE]
      omega
    · left
      have none : (withMessage h₀ bytes).cells (hdrOf t.exceptionHandlers) = none := by
        simp [withMessage, Cells.put, here, cleared]
      simp [readPair, young.1, none]

/- What the code does once the message is there. -/
theorem push_eq (pair : pairAt st h t.exceptionHandlers = some (car, cdr))
    (func : isFunc h car = true) (alloc : newString t (buffer msg) h = .ok ((t₁, obj), h₁)) :
    pushExceptionHandler st t msg h =
      match (stackPush st t₁ st.vmExit).bind fun t => stackPush st t (makeHeapPtr obj) with
      | none => .ok (.stackFull, h₁)
      | some t₂ => match readPair st t.exceptionHandlers h₁ with
        | .error e => .error e
        | .ok ((car, cdr), h₂) => match stackPush st t₂ car with
          | none => .ok (.stackFull, h₂)
          | some t₃ => .ok (.handler { t₃ with exceptionHandlers := cdr }, h₂) := by
  unfold pushExceptionHandler
  simp only [bind, StateT.bind, Except.bind, get, getThe, MonadStateOf.get, StateT.get, pure,
    Except.pure, pair, func, alloc, Bool.not_true, Bool.false_eq_true, if_false]
  cases (stackPush st t₁ st.vmExit).bind fun t => stackPush st t (makeHeapPtr obj) with
  | none => rfl
  | some t₂ =>
    simp only [StateT.bind, bind, Except.bind]
    cases readPair st t.exceptionHandlers h₁ with
    | error e => rfl
    | ok r =>
      simp only
      cases stackPush st t₂ r.1.1 <;> rfl

theorem stackPush_some {o : Nat} (room : t.opStackIdx + 1 ≠ st.opStackSize) :
    stackPush st t o = some { t with
      opstack := Function.update t.opstack t.opStackIdx o
      opStackIdx := t.opStackIdx + 1 } := if_neg room

theorem stackPush_three {a b : Nat} {c : Nat} {t₃ : Thread} (bounded : t.opStackIdx < st.opStackSize)
    (done : ((stackPush st t a).bind fun t => stackPush st t b).bind (fun t => stackPush st t c) =
      some t₃) :
    t.opStackIdx + 3 < st.opStackSize ∧ t₃ = { t with
      opstack := Function.update (Function.update (Function.update t.opstack
        t.opStackIdx a) (t.opStackIdx + 1) b) (t.opStackIdx + 2) c
      opStackIdx := t.opStackIdx + 3 } := by
  by_cases first : t.opStackIdx + 1 = st.opStackSize
  · simp [stackPush, first] at done
  by_cases second : t.opStackIdx + 2 = st.opStackSize
  · simp [stackPush, first, second] at done
  by_cases third : t.opStackIdx + 3 = st.opStackSize
  · simp [stackPush, first, second, third] at done
  · simp only [stackPush, first, second, third, if_false, Option.bind_some, Option.some_inj] at done
    exact ⟨by omega, done.symm⟩

theorem push_handler {t₂ : Option Thread} {r : Except Abort ((Nat × Nat) × Heap)} {t₄ : Thread}
    {h₃ : Heap} {push : Thread → Nat → Option Thread}
    (result : (Except.ok (.handler t₄, h₃) : Except Abort (Outcome × Heap)) =
      match t₂ with
      | none => .ok (.stackFull, h₁)
      | some t₂ => match r with
        | .error e => .error e
        | .ok ((car, cdr), h₂) => match push t₂ car with
          | none => .ok (.stackFull, h₂)
          | some t₃ => .ok (.handler { t₃ with exceptionHandlers := cdr }, h₂)) :
    ∃ car cdr h₂ t₃, r = .ok ((car, cdr), h₂) ∧ t₂.bind (fun t => push t car) = some t₃ ∧
      t₄ = { t₃ with exceptionHandlers := cdr } := by
  cases t₂ with
  | none => cases result
  | some t₂ =>
    cases r with
    | error e => cases result
    | ok r =>
      obtain ⟨⟨car, cdr⟩, h₂⟩ := r
      simp only at result
      cases last : push t₂ car with
      | none =>
        rw [last] at result
        cases result
      | some t₃ =>
        rw [last] at result
        cases result
        exact ⟨car, cdr, _, t₃, rfl, last, rfl⟩

theorem funcOf_tag {o f : Nat} (known : funcOf h o = some f) : o % 8 ≠ 0 := by
  unfold funcOf at known
  split at known
  · rename_i pointer
    simp only [isHeapPtr, beq_iff_eq] at pointer
    omega
  · split at known
    · rename_i tag
      simp only [tagFunc] at tag
      omega
    · cases known

/-- The stack has room for what is pushed. -/
def StackRoom (st : Static) (t : Thread) : Prop := t.opStackIdx + 3 < st.opStackSize

instance (st : Static) (t : Thread) : Decidable (StackRoom st t) :=
  inferInstanceAs (Decidable (_ < _))

theorem dispatch_funcOf {o f : Nat} {n : Int} {fuel : Nat} (known : funcOf h o = some f) :
    dispatchFunc st h (fuel + 1) o n = checkArgs st f n := by
  unfold funcOf at known
  unfold dispatchFunc
  split at known
  · rename_i pointer
    rw [if_pos pointer]
    split at known
    · split at known
      · rename_i b block type
        cases known
        simp only [type, if_true]
      · cases known
    · cases known
  · rename_i other
    rw [if_neg other]
    split at known
    · rename_i tag
      cases known
      rw [if_pos tag]
    · cases known

theorem innermost_handler (wf : WellFormed t h)
    (pair : pairAt st h t.exceptionHandlers = some (car, cdr)) (func : isFunc h car = true)
    (bounded : t.opStackIdx < st.opStackSize)
    (alloc : newString t (buffer msg) h = .ok ((t₁, obj), h₁)) :
    (StackRoom st t ∧ TakesTwo st h car ∧
        (enoughFresh h (stringSize (buffer msg)) = true ∨ h.fullGc = false ∧ ¬PairYoung t h) →
      Reaches st t h msg car cdr t₁ obj h₁) ∧
    (Reaches st t h msg car cdr t₁ obj h₁ →
      StackRoom st t ∧ TakesTwo st h car ∧
        (enoughFresh h (stringSize (buffer msg)) = true ∨ ¬PairYoung t h)) := by
  obtain ⟨h₀, prepared, enough, rfl, rfl⟩ := newString_ok alloc
  have pushed := push_eq pair func alloc
  have idx := prepared.idx
  constructor
  · rintro ⟨room, takes, stays⟩
    unfold StackRoom at room
    obtain ⟨move, relocates, read⟩ := pair_stays wf pair prepared enough stays
    have same := funcOf_moved wf pair func prepared enough relocates
    obtain ⟨f, known, accepted⟩ := takes
    have result : pushExceptionHandler st t msg h = .ok (.handler { t₁ with
        opstack := Function.update (Function.update (Function.update t₁.opstack t₁.opStackIdx
          st.vmExit) (t₁.opStackIdx + 1) (makeHeapPtr (h₀.fresh.pos + BHDR_SIZE)))
          (t₁.opStackIdx + 2) (move car)
        opStackIdx := t₁.opStackIdx + 3
        exceptionHandlers := move cdr }, withMessage h₀ (buffer msg)) := by
      rw [pushed, stackPush_some (by omega), Option.bind_some, stackPush_some (by simp only; omega)]
      simp only [read]
      rw [stackPush_some (by simp only; omega)]
    rw [idx] at result
    constructor
    · refine ⟨move, _, relocates, result, rfl, f, same.trans known, ?_⟩
      intro fuel
      rw [dispatch_funcOf (same.trans known), accepted]
    · exact ⟨_, put_same, rfl, rfl⟩
  · intro reaches
    obtain ⟨move, t₂, relocates, result, rfl, f, known, enters⟩ := reaches.entered
    have same := funcOf_moved wf pair func prepared enough relocates
    obtain ⟨car', cdr', h₂, t₃, read, three, outcome⟩ := push_handler (result.symm.trans pushed)
    obtain ⟨room, stack⟩ := stackPush_three (idx ▸ bounded) three
    rw [idx] at room stack
    refine ⟨room, ⟨f, same.symm.trans known, ?_⟩, ?_⟩
    · rw [← dispatch_funcOf known]
      exact enters 0
    · by_contra lost
      rw [not_or, not_not, Bool.not_eq_true] at lost
      rcases pair_lost wf prepared lost.1 lost.2 with failed | ⟨car₂, cdr₂, other, untagged⟩
      · rw [failed] at read
        cases read
      · have top : move car = car' := by
          have tops := congrArg (fun t : Thread => t.opstack (t.opStackIdx - 1)) outcome
          rw [stack] at tops
          simpa using tops
        obtain ⟨⟨⟨⟩, -⟩, -⟩ := Prod.mk.inj (Except.ok.inj (read.symm.trans other))
        rw [top] at known
        have tag := funcOf_tag known
        omega

end handler

/- A thread with one handler, whose pair is the last block of a full fresh space. -/

section full

def fillBlock : Block := ⟨.bytevector, false, 0, false, 131032, fun _ => 0⟩

/-- A pair of a function and the empty list. -/
def handlerPair : Block := ⟨.pair, false, 0, false, 24, fun i => if i = 0 then 4004 else 5⟩

def fullHeap : Heap :=
  let h := heapInit 8 1000000
  { h with
    fresh := (h.fresh.append 131040).append 32
    cells := fun c =>
      if c = 8 then some fillBlock else if c = 131048 then some handlerPair else none }

def fullThread : Thread := { Thread.idle with exceptionHandlers := 131057 }

/-- One function of two arguments. -/
def oneFunction : Static where
  pairs := fun _ => none
  apart := fun _ _ none => by cases none
  functions := fun f => if f = 4000 then some ⟨2, false⟩ else none
  vmExit := 8004
  opStackSize := 512

def someError : Tagged.CString := ⟨[99, 97, 114], by decide⟩

theorem full_at {a : Nat} {b : Block} (at_a : fullHeap.cells a = some b) :
    (a = 8 ∧ b = fillBlock) ∨ a = 131048 ∧ b = handlerPair := by
  simp only [fullHeap] at at_a
  split at at_a
  case isTrue first => exact .inl ⟨first, (Option.some.inj at_a).symm⟩
  case isFalse =>
    split at at_a
    case isTrue second => exact .inr ⟨second, (Option.some.inj at_a).symm⟩
    case isFalse => cases at_a

theorem full_layout : Layout fullHeap where
  areas := ⟨rfl, ⟨rfl, rfl⟩, ⟨rfl, rfl⟩, .inl ⟨rfl, rfl⟩, .inl rfl, by decide, by decide, by decide⟩
  sized := by
    intro a b at_a
    rcases full_at at_a with ⟨_, rfl⟩ | ⟨_, rfl⟩ <;> decide
  fresh := ⟨⟨rfl, fillBlock, rfl, rfl, handlerPair, rfl, rfl⟩, rfl⟩
  survived := ⟨rfl, rfl⟩
  future := ⟨rfl, rfl⟩
  old := ⟨rfl, rfl⟩
  placed := by
    intro a b at_a
    rcases full_at at_a with ⟨rfl, _⟩ | ⟨rfl, _⟩ <;> exact .inl (.inl (by decide))

theorem handlerPair_leaf {cells : Cells} {a c : Nat} (at_a : cells a = some handlerPair)
    (edge : PointsTo cells a c) : False := by
  obtain ⟨b, at_b, s, member, points⟩ := edge
  obtain rfl := Option.some.inj (at_a.symm.trans at_b)
  simp only [slots, handlerPair, List.mem_cons, List.not_mem_nil, or_false] at member
  rcases member with rfl | rfl <;> simp [target, isHeapPtr, handlerPair] at points

theorem handlerPair_readable {cells : Cells} {a : Nat} (at_a : cells a = some handlerPair) :
    Readable cells a := by
  intro b at_b s member
  obtain rfl := Option.some.inj (at_a.symm.trans at_b)
  simp only [slots, handlerPair, List.mem_cons, List.not_mem_nil, or_false] at member
  rcases member with rfl | rfl <;> decide

theorem full_reach {a : Nat} (reach : ReachOrOld fullThread fullHeap a) : a = 131048 := by
  apply reach.closed
  · intro x root
    rcases root with ⟨r, member, points⟩ | old
    · simp only [Thread.roots, fullThread, Thread.idle, List.range_zero, List.map_nil,
        List.append_nil, List.cons_append, List.nil_append, List.mem_cons, List.not_mem_nil,
        or_false] at member
      rcases member with rfl | rfl | rfl | rfl
      · simp [target] at points
      · simp [target] at points
      · simp [target, isHeapPtr] at points
      · exact (Option.some.inj points).symm
    · cases old
  · intro x y here edge
    subst here
    exact (handlerPair_leaf rfl edge).elim

theorem full_wellFormed : WellFormed fullThread fullHeap := by
  constructor
  · constructor
    · exact full_layout
    · intro a b _ at_a
      rcases full_at at_a with ⟨_, rfl⟩ | ⟨_, rfl⟩ <;> rfl
    · rfl
    · rfl
    · rfl
  · constructor
    · intro a reach
      rw [full_reach reach]
      exact .inl (.inl (by decide))
    · intro a reach
      rw [full_reach reach]
      exact handlerPair_readable rfl
    · intro never
      cases never

/- The allocation of the message collects, and the pair has gone. -/
theorem handler_lost : WellFormed fullThread fullHeap ∧
    pairAt oneFunction fullHeap fullThread.exceptionHandlers = some (4004, 5) ∧
    isFunc fullHeap 4004 = true ∧ StackRoom oneFunction fullThread ∧
    TakesTwo oneFunction fullHeap 4004 ∧
    ∃ t₁ obj h₁, newString fullThread (buffer someError) fullHeap = .ok ((t₁, obj), h₁) ∧
      ¬Reaches oneFunction fullThread fullHeap someError 4004 5 t₁ obj h₁ := by
  have lost : pushExceptionHandler oneFunction fullThread someError fullHeap =
      .error .undefined := rfl
  refine ⟨full_wellFormed, rfl, rfl, by decide, ⟨4000, rfl, rfl⟩, ?_⟩
  obtain ⟨r, alloc⟩ : ∃ r, newString fullThread (buffer someError) fullHeap = .ok r := ⟨_, rfl⟩
  refine ⟨r.1.1, r.1.2, r.2, alloc, ?_⟩
  intro reaches
  obtain ⟨move, t₂, -, result, -⟩ := reaches.entered
  rw [lost] at result
  cases result

/-- One handler, whose pair is the only block of a heap. -/
def roomyHeap : Heap :=
  { pairHeap with cells := fun c => if c = 8 then some handlerPair else none }

def roomyThread : Thread := { Thread.idle with exceptionHandlers := 17 }

theorem roomy_reach {a : Nat} (reach : ReachOrOld roomyThread roomyHeap a) : a = 8 := by
  apply reach.closed
  · intro x root
    rcases root with ⟨r, member, points⟩ | old
    · simp only [Thread.roots, roomyThread, Thread.idle, List.range_zero, List.map_nil,
        List.append_nil, List.cons_append, List.nil_append, List.mem_cons, List.not_mem_nil,
        or_false] at member
      rcases member with rfl | rfl | rfl | rfl
      · simp [target] at points
      · simp [target] at points
      · simp [target, isHeapPtr] at points
      · exact (Option.some.inj points).symm
    · cases old
  · intro x y here edge
    subst here
    exact (handlerPair_leaf rfl edge).elim

theorem roomy_wellFormed : WellFormed roomyThread roomyHeap := by
  have aimed : Aimed roomyThread roomyHeap := by
    constructor
    · intro a reach
      rw [roomy_reach reach]
      exact .inl (.inl (by decide))
    · intro a reach
      rw [roomy_reach reach]
      exact handlerPair_readable rfl
    · intro never
      cases never
  have run : Run (fun _ => True) ⟨roomyThread, roomyHeap⟩ :=
    run_pairHeap.step (.mutate (pair_written _) aimed)
  exact ⟨run.rest.quiet, aimed⟩

theorem innermost_handler_roomy : ∃ t₁ obj h₁,
    newString roomyThread (buffer someError) roomyHeap = .ok ((t₁, obj), h₁) ∧
      Reaches oneFunction roomyThread roomyHeap someError 4004 5 t₁ obj h₁ := by
  obtain ⟨r, alloc⟩ : ∃ r, newString roomyThread (buffer someError) roomyHeap = .ok r := ⟨_, rfl⟩
  refine ⟨r.1.1, r.1.2, r.2, alloc, ?_⟩
  exact (innermost_handler roomy_wellFormed rfl rfl (by decide) alloc).1
    ⟨by decide, ⟨4000, rfl, rfl⟩, .inl (by decide)⟩

end full

end LGears.ErrorHandlers
