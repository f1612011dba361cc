import LGears.CodeFlow
import LGears.Vm

/- Calls in a bounded operand stack: where the arguments and the bindmap of a function are. -/
namespace LGears.VmFrames
open Opcode Compiler StateExcept Vm CodeFlow Relation
open Gc hiding State copied

/- What a collection leaves of the words of a thread. -/

section collector
variable {h : Heap} {t : Thread}

theorem isHeapPtr_makeHeapPtr (a : Nat) : isHeapPtr (makeHeapPtr a) = true := by
  rw [isHeapPtr, makeHeapPtr, beq_iff_eq]
  omega

theorem ends_lookupOld (obj hdr : Nat) :
    Ends (lookupOld obj hdr) h (fun w _ => w = obj ∨ isHeapPtr w = true) fun _ => True := by
  unfold Ends lookupOld
  cases h.oldMap.bind (List.lookup hdr) with
  | none => exact Or.inl rfl
  | some res => exact Or.inr (isHeapPtr_makeHeapPtr _)

theorem ends_markOld (obj hdr : Nat) :
    Ends (markOld obj hdr) h (fun w _ => w = obj ∨ isHeapPtr w = true) fun _ => True := by
  unfold markOld
  rw [ends_bind, ends_get, ends_ite]
  constructor
  · intro _
    apply ends_last
    intro b h'
    rw [ends_ite]
    constructor
    · intro _
      exact ends_lookupOld obj hdr
    · intro _
      iterate 2
        apply ends_last
        intro _ _
      exact Or.inl rfl
  · intro _
    exact ends_lookupOld obj hdr

theorem ends_forwardTo (hdr new : Nat) :
    Ends (forwardTo hdr new) h (fun w _ => isHeapPtr w = true) fun _ => True := by
  unfold forwardTo
  iterate 2
    apply ends_last
    intro _ _
  exact isHeapPtr_makeHeapPtr _

theorem ends_markYoung (obj hdr : Nat) :
    Ends (markYoung obj hdr) h (fun w _ => w = obj ∨ isHeapPtr w = true) fun _ => True := by
  unfold markYoung
  apply ends_last
  intro b h'
  have copied : ∀ {c : GcM Nat} {h : Heap}, Ends (c >>= forwardTo hdr) h
      (fun w _ => w = obj ∨ isHeapPtr w = true) fun _ => True := by
    intro c h
    apply ends_last
    intro new h
    exact (ends_forwardTo hdr new).post fun _ _ => Or.inr
  simp only [ends_ite]
  refine ⟨fun _ => Or.inr (isHeapPtr_makeHeapPtr _), fun _ => ⟨fun _ => ?_, fun _ => copied⟩⟩
  rw [ends_bind, ends_get, ends_ite]
  constructor
  · intro _
    rw [ends_ite]
    constructor
    · intro _
      exact Or.inl rfl
    · intro _
      iterate 2
        apply ends_last
        intro _ _
      exact Or.inl rfl
  · intro _
    iterate 4
      apply ends_last
      intro _ _
    exact (ends_forwardTo hdr _).post fun _ _ => Or.inr

theorem ends_heapMark_moved (obj : Nat) :
    Ends (heapMark obj) h (fun w _ => Updated obj w) fun _ => True := by
  unfold heapMark
  cases pointer : isHeapPtr obj with
  | false => exact Or.inl rfl
  | true =>
    have moved : ∀ {c : GcM Nat} {h : Heap}, Ends c h (fun w _ => w = obj ∨ isHeapPtr w = true)
        (fun _ => True) → Ends c h (fun w _ => Updated obj w) fun _ => True := by
      intro c h ends
      apply ends.post
      intro w _ either
      exact either.imp_right fun isPointer => ⟨pointer, isPointer⟩
    simp only [Bool.not_true, Bool.false_eq_true, if_false, ends_bind, ends_get, ends_ite]
    refine ⟨fun _ => trivial, fun _ => ⟨fun _ => Or.inl rfl, fun _ => ⟨fun _ => ?_, fun _ => ?_⟩⟩⟩
    · exact moved (ends_markOld obj _)
    · exact moved (ends_markYoung obj _)

/-- Collections have run; the other words of the thread are as they were. -/
structure ThreadMoved (t t' : Thread) : Prop where
  opStackIdx : t'.opStackIdx = t.opStackIdx
  opstack : ∀ i, Updated (t.opstack i) (t'.opstack i)
  libCache : Updated t.libCache t'.libCache
  exceptionHandlers : Updated t.exceptionHandlers t'.exceptionHandlers

theorem ThreadMoved.refl (t : Thread) : ThreadMoved t t :=
  ⟨rfl, fun _ => .refl _, .refl _, .refl _⟩

theorem ThreadMoved.trans {t u v : Thread} (first : ThreadMoved t u) (second : ThreadMoved u v) :
    ThreadMoved t v where
  opStackIdx := second.opStackIdx.trans first.opStackIdx
  opstack i := (first.opstack i).trans (second.opstack i)
  libCache := first.libCache.trans second.libCache
  exceptionHandlers := first.exceptionHandlers.trans second.exceptionHandlers

theorem ends_visitStack (opstack : Nat → Nat) (n : Nat) :
    Ends (visitStack opstack n) h (fun opstack' _ => ∀ i, Updated (opstack i) (opstack' i))
      fun _ => True := by
  induction n generalizing h with
  | zero => exact fun i => .refl _
  | succ n ih =>
    rw [visitStack, ends_bind]
    apply ih.post
    intro opstack' h' moved
    rw [ends_bind]
    apply (ends_heapMark_moved (opstack' n)).post
    intro w _ last i
    by_cases here : i = n
    · subst here
      simp only [Function.update_self]
      exact (moved i).trans last
    · simp only [Function.update_of_ne here]
      exact moved i

theorem ends_threadGetRoots_moved (t : Thread) :
    Ends (threadGetRoots t) h (fun t' _ => ThreadMoved t t') fun _ => True := by
  unfold threadGetRoots
  apply ends_last
  intro env h
  rw [ends_bind]
  apply (ends_visitStack _ _).post
  intro opstack h stack
  apply ends_last
  intro closure h
  rw [ends_bind]
  apply (ends_heapMark_moved _).post
  intro libCache h lib
  rw [ends_bind]
  apply (ends_heapMark_moved _).post
  intro handlers h exceptions
  apply ends_last
  intro roots h
  exact ⟨rfl, stack, lib, exceptions⟩

theorem ends_heapGcMain_moved (fuel : Nat) (t : Thread) :
    Ends (heapGcMain fuel t) h (fun t' _ => ThreadMoved t t') fun _ => True := by
  unfold heapGcMain
  rw [ends_bind]
  apply (ends_threadGetRoots_moved t).post
  intro t' h' moved
  iterate 3
    apply ends_last
    intro _ _
  exact moved

theorem ends_heapGcPasses_moved (fuel : Nat) (t : Thread) :
    Ends (heapGcPasses fuel t) h (fun t' _ => ThreadMoved t t') fun _ => True := by
  unfold heapGcPasses
  rw [ends_bind]
  apply (ends_heapGcMain_moved fuel t).post
  intro t₁ h₁ first
  rw [ends_bind, ends_get, ends_ite]
  constructor
  · intro _
    iterate 2
      apply ends_last
      intro _ _
    rw [ends_bind]
    apply (ends_heapGcMain_moved fuel t₁).post
    intro t₂ h₂ second
    apply ends_last
    intro _ _
    exact first.trans second
  · intro _
    exact first

theorem ends_threadAfterGc_moved (t : Thread) :
    Ends (threadAfterGc t) h (fun t' _ => ThreadMoved t t') fun _ => True := by
  unfold threadAfterGc
  rw [ends_ite]
  constructor
  · intro _
    apply ends_last
    intro b h'
    exact ⟨rfl, fun _ => .refl _, .refl _, .refl _⟩
  · intro _
    exact .refl t

theorem ends_heapGc_moved (t : Thread) :
    Ends (heapGc t) h (fun t' _ => ThreadMoved t t') fun _ => True := by
  unfold heapGc
  rw [ends_bind, ends_get, ends_bind]
  apply (ends_heapGcPasses_moved _ t).post
  intro t₁ h₁ first
  iterate 2
    apply ends_last
    intro _ _
  rw [ends_bind]
  apply (ends_threadAfterGc_moved t₁).post
  intro t₂ h₂ second
  apply ends_last
  intro _ _
  exact first.trans second

theorem ends_heapAlloc_moved (t : Thread) (size : Nat) (type : BlockType) :
    Ends (heapAlloc t size type) h (fun r _ => ThreadMoved t r.1) fun _ => True := by
  unfold heapAlloc
  rw [ends_bind, ends_get, ends_ite]
  constructor
  · intro _
    apply ends_last
    intro mem h'
    exact .refl t
  · intro _
    rw [ends_bind]
    apply (ends_heapGc_moved t).post
    intro t' h' moved
    rw [ends_bind, ends_get, ends_ite]
    constructor
    · intro _
      apply ends_last
      intro mem h''
      exact moved
    · intro _
      trivial

theorem ends_heapAlloc_block (t : Thread) (size : Nat) (type : BlockType) :
    Ends (heapAlloc t size type) h (fun r h' => ∃ b, h'.cells (r.2 - BHDR_SIZE) = some b ∧
      b.size = alignUp size) fun _ => True := by
  have block : ∀ {t : Thread} {h : Heap}, Ends (spaceAlloc size type >>= fun mem => pure (t, mem)) h
      (fun r h' => ∃ b, h'.cells (r.2 - BHDR_SIZE) = some b ∧ b.size = alignUp size)
      fun _ => True := by
    intro t h
    rw [ends_bind]
    refine ⟨⟨type, false, 0, false, alignUp size, fun _ => 0⟩, ?_, rfl⟩
    dsimp only
    rw [Nat.add_sub_cancel, put_same]
  unfold heapAlloc
  rw [ends_bind, ends_get, ends_ite]
  constructor
  · intro _
    exact block
  · intro _
    apply ends_last
    intro t' h'
    rw [ends_bind, ends_get, ends_ite]
    constructor
    · intro _
      exact block
    · intro _
      trivial

end collector

section parts
variable {s s' : State}

/-- Nothing but the stack, the frame and the heap differs, up to collections. -/
structure Calm (s s' : State) : Prop where
  libCache : Updated s.thread.libCache s'.thread.libCache
  exceptionHandlers : Updated s.thread.exceptionHandlers s'.thread.exceptionHandlers
  opcode : s'.opcode = s.opcode
  control : s'.control = s.control
  func : s'.func = s.func
  bindmap : s'.bindmap = s.bindmap
  aligned : FreshAligned s.heap → FreshAligned s'.heap

theorem Calm.refl (s : State) : Calm s s := ⟨.refl _, .refl _, rfl, rfl, rfl, rfl, id⟩

theorem Calm.trans {u v w : State} (first : Calm u v) (second : Calm v w) : Calm u w where
  libCache := first.libCache.trans second.libCache
  exceptionHandlers := first.exceptionHandlers.trans second.exceptionHandlers
  opcode := second.opcode.trans first.opcode
  control := second.control.trans first.control
  func := second.func.trans first.func
  bindmap := second.bindmap.trans first.bindmap
  aligned := second.aligned ∘ first.aligned

/-- One step of what allocates memory: the collector may have updated the words of the thread. -/
inductive Allocating (s : State) : State → Prop where
  | alloc {size mem : Nat} {type : BlockType} {s' : State}
      (ran : Returns (alloc size type) s mem s') : Allocating s s'
  | write {mem : Nat} {f : Block → Block} {s' : State}
      (ran : Returns (modifyBlock mem f) s ⟨⟩ s') : Allocating s s'
  | roots (roots : List Nat) :
      Allocating s { s with thread := { s.thread with localRoots := roots } }

/-- Memory has been allocated, and the stack is as the collector has left it. -/
def Allocates : State → State → Prop := ReflTransGen Allocating

theorem Allocates.trans {u v w : State} (first : Allocates u v) (second : Allocates v w) :
    Allocates u w := ReflTransGen.trans first second

theorem Allocating.calm (step : Allocating s s') : Calm s s' ∧
    s'.thread.opStackIdx = s.thread.opStackIdx ∧
    ∀ i, Updated (s.thread.opstack i) (s'.thread.opstack i) := by
  cases step with
  | @alloc size mem type _ ran =>
    rw [Returns, Vm.alloc] at ran
    cases result : heapAlloc s.thread size type s.heap with
    | error e =>
      rw [result] at ran
      cases ran
    | ok r =>
      rw [result] at ran
      cases ran
      have moved := (ends_heapAlloc_moved s.thread size type).returned result
      exact ⟨⟨moved.libCache, moved.exceptionHandlers, rfl, rfl, rfl, rfl,
        fun aligned => (aligns_heapAlloc _ _ _ _ aligned).returned result⟩, moved.opStackIdx,
        moved.opstack⟩
  | write ran =>
    rw [returns_modifyBlock] at ran
    subst ran
    exact ⟨⟨.refl _, .refl _, rfl, rfl, rfl, rfl, fun aligned => aligned.congr rfl⟩, rfl,
      fun _ => .refl _⟩
  | roots roots => exact ⟨⟨.refl _, .refl _, rfl, rfl, rfl, rfl, id⟩, rfl, fun _ => .refl _⟩

theorem Allocates.calm (allocates : Allocates s s') : Calm s s' := by
  induction allocates with
  | refl => exact .refl s
  | tail _ last ih => exact ih.trans last.calm.1

theorem Allocates.opStackIdx (allocates : Allocates s s') :
    s'.thread.opStackIdx = s.thread.opStackIdx := by
  induction allocates with
  | refl => rfl
  | tail _ last ih => exact last.calm.2.1.trans ih

theorem Allocates.opstack (allocates : Allocates s s') (i : Nat) :
    Updated (s.thread.opstack i) (s'.thread.opstack i) := by
  induction allocates with
  | refl => exact .refl _
  | tail _ last ih => exact ih.trans (last.calm.2.2 i)

theorem Allocates.alloc {size mem : Nat} {type : BlockType}
    (ran : Returns (alloc size type) s mem s') : Allocates s s' := .single (.alloc ran)

theorem Allocates.write {mem : Nat} {f : Block → Block} {u : PUnit}
    (ran : Returns (modifyBlock mem f) s u s') : Allocates s s' := .single (.write ran)

theorem Allocates.roots {roots : List Nat} {u : PUnit}
    (set : Returns (setThread fun t => { t with localRoots := roots }) s u s') : Allocates s s' := by
  rw [returns_setThread] at set
  subst set
  exact .single (.roots roots)

variable {img : Image} {w : Nat}

theorem Allocates.cons {car cdr : Thread → Option Nat} (ran : Returns (cons img car cdr) s w s') :
    Allocates s s' := by
  simp only [Vm.cons, returns_bind, returns_get, returns_ofOption, returns_pure] at ran
  obtain ⟨mem, u, allocated, _, _, ⟨rfl, rfl⟩, a, _, ⟨_, rfl⟩, d, _, ⟨_, rfl⟩, _, _, wrote, _,
    rfl⟩ := ran
  exact (Allocates.alloc allocated).trans (.write wrote)

theorem Allocates.consLoop {car : Nat → Thread → Option Nat} {n : Nat} {u : PUnit}
    (ran : Returns (consLoop img car n) s u s') : Allocates s s' := by
  induction n generalizing s with
  | zero =>
    rw [Vm.consLoop, returns_pure] at ran
    rw [ran.2]
    exact .refl
  | succ n ih =>
    simp only [Vm.consLoop, returns_bind] at ran
    obtain ⟨res, u, consed, _, v, set, later⟩ := ran
    exact ((Allocates.cons consed).trans (.roots set)).trans (ih later)

theorem Allocates.localList {car : Nat → Thread → Option Nat} {n : Nat}
    (ran : Returns (localList img car n) s w s') : Allocates s s' := by
  simp only [Vm.localList, returns_bind, returns_get, returns_ofOption] at ran
  obtain ⟨_, u, set, _, v, loop, _, _, ⟨rfl, rfl⟩, res, _, ⟨_, rfl⟩, _, t, reset, done⟩ := ran
  rw [returns_pure] at done
  rw [← done.2]
  exact ((Allocates.roots set).trans (.consLoop loop)).trans (.roots reset)

theorem Allocates.list {start n : Nat} (ran : Returns (list img start n) s w s') :
    Allocates s s' := Allocates.localList ran

theorem Allocates.closureNew {idx : Nat} {f : IFunc}
    (ran : Returns (closureNew img idx f) s w s') : Allocates s s' := by
  simp only [Vm.closureNew, returns_bind, returns_get, returns_pure] at ran
  obtain ⟨mem, u, allocated, _, _, ⟨rfl, rfl⟩, _, _, wrote, _, rfl⟩ := ran
  exact (Allocates.alloc allocated).trans (.write wrote)

theorem Allocates.envNew {prev : Thread → Nat} {size depth : Nat}
    (ran : Returns (envNew prev size depth) s w s') : Allocates s s' ∧
      ∃ b, s'.heap.cells (w - BHDR_SIZE) = some b ∧ 24 + 8 * size ≤ b.size := by
  simp only [Vm.envNew, returns_bind, returns_get, returns_pure] at ran
  obtain ⟨mem, u, allocated, _, _, ⟨rfl, rfl⟩, _, _, wrote, rfl, rfl⟩ := ran
  constructor
  · exact (Allocates.alloc allocated).trans (.write wrote)
  · have block : ∃ b, u.heap.cells (mem - BHDR_SIZE) = some b ∧ b.size = alignUp (24 + 8 * size) := by
      rw [Returns, Vm.alloc] at allocated
      cases result : heapAlloc s.thread (24 + 8 * size) .env s.heap with
      | error e =>
        rw [result] at allocated
        cases allocated
      | ok r =>
        rw [result] at allocated
        cases allocated
        exact (ends_heapAlloc_block s.thread _ _).returned result
    obtain ⟨b, here, room⟩ := block
    rw [returns_modifyBlock] at wrote
    subst wrote
    refine ⟨{ b with words := envWords (prev u.thread) size depth (mem + 24) }, ?_, ?_⟩
    · dsimp only
      rw [Function.update_self, here, Option.map_some]
    · dsimp only
      rw [room, alignUp]
      omega

end parts

/- Lists that are made without a collection. -/

/-- The words are a list, of pairs that lie in the fresh space from low on. -/
inductive Lists (h : Heap) (low : Nat) : Nat → List Nat → Prop where
  | null : Lists h low cnull []
  | pair {w : Nat} {ws : List Nat} {b : Block} (pointer : isHeapPtr w = true)
      (here : h.cells (hdrOf w) = some b) (type : b.type = .pair) (after : low ≤ hdrOf w)
      (before : hdrOf w + (BHDR_SIZE + b.size) ≤ h.fresh.pos) (rest : Lists h low (b.words 1) ws) :
      Lists h low w (b.words 0 :: ws)

/-- The fresh space has grown by n bytes, and the blocks outside of them are what they were. -/
structure Grown (n : Nat) (h h' : Heap) : Prop where
  pos : h'.fresh.pos = h.fresh.pos + n
  freeMem : h'.fresh.freeMem = h.fresh.freeMem - n
  blocks : ∀ c b, h.cells c = some b →
    c + (BHDR_SIZE + b.size) ≤ h.fresh.pos ∨ h'.fresh.pos ≤ c → h'.cells c = some b

section lists
variable {img : Image} {s u s' : State} {h h' k : Heap} {low m n w : Nat} {ws : List Nat}

theorem Grown.refl (h : Heap) : Grown 0 h h := ⟨rfl, rfl, fun _ _ here _ => here⟩

theorem Grown.trans (first : Grown m h h') (second : Grown n h' k) : Grown (m + n) h k := by
  have pos := first.pos
  have pos' := second.pos
  have free := first.freeMem
  have free' := second.freeMem
  constructor
  · omega
  · omega
  · intro c b here outside
    apply second.blocks c b (first.blocks c b here (by omega))
    omega

theorem Lists.grown (lists : Lists h low w ws) (grown : Grown n h h') : Lists h' low w ws := by
  induction lists with
  | null => exact .null
  | pair pointer here type after before rest ih =>
    have pos := grown.pos
    exact .pair pointer (grown.blocks _ _ here (.inl before)) type after (by omega) ih

theorem hdrOf_new (aligned : FreshAligned h) :
    hdrOf (makeHeapPtr (h.fresh.pos + BHDR_SIZE)) = h.fresh.pos := by
  have pos := aligned.pos
  simp only [hdrOf, ptr, makeHeapPtr, BHDR_SIZE]
  omega

/-- A pair has been put at the end of the fresh space. -/
def paired (h : Heap) (words : Nat → Nat) : Heap :=
  { h with
    fresh := h.fresh.append 32
    cells := h.cells.put h.fresh.pos ⟨.pair, false, 0, false, 24, words⟩ }

theorem paired_grown (h : Heap) (words : Nat → Nat) : Grown 32 h (paired h words) := by
  constructor
  · rfl
  · rfl
  · intro c b here outside
    have pos : (paired h words).fresh.pos = h.fresh.pos + 32 := rfl
    have other : c ≠ h.fresh.pos := by
      intro same
      simp only [BHDR_SIZE] at outside
      omega
    have apart : ¬ overlap h.fresh.pos 24 c b.size := by
      simp only [overlap, BHDR_SIZE] at outside ⊢
      omega
    simp only [paired, Cells.put, if_neg other, here, Option.filter_some, apart, not_false_eq_true,
      decide_true, if_true]

theorem paired_write (h : Heap) (f : Block → Nat → Nat) :
    { paired h (fun _ => 0) with
      cells := Function.update (paired h fun _ => 0).cells (h.fresh.pos + BHDR_SIZE - BHDR_SIZE)
        (((paired h fun _ => 0).cells (h.fresh.pos + BHDR_SIZE - BHDR_SIZE)).map
          fun b => { b with words := f b }) } =
      paired h (f ⟨.pair, false, 0, false, 24, fun _ => 0⟩) := by
  rw [Nat.add_sub_cancel]
  simp only [paired, Heap.mk.injEq, true_and, and_true]
  funext c
  by_cases here : c = h.fresh.pos
  · simp [here, Cells.put]
  · simp [here, Cells.put]

theorem returns_cons_room {car cdr : Thread → Option Nat} (room : 32 ≤ s.heap.fresh.freeMem)
    (ran : Returns (cons img car cdr) s w s') : ∃ a d mark, car s.thread = some a ∧
      cdr s.thread = some d ∧ w = makeHeapPtr (s.heap.fresh.pos + BHDR_SIZE) ∧
      s' = { s with heap := paired s.heap (pairWords a d mark fun _ => 0) } := by
  simp only [cons, returns_bind, returns_get, returns_ofOption, returns_pure] at ran
  obtain ⟨mem, u, allocated, _, _, ⟨rfl, rfl⟩, a, _, ⟨car', rfl⟩, d, _, ⟨cdr', rfl⟩, _, _, wrote,
    rfl, rfl⟩ := ran
  have enough : enoughFresh s.heap 24 = true := by
    rw [enoughFresh, decide_eq_true_eq]
    exact room
  rw [Returns, Vm.alloc, heapAlloc_fresh s.thread .pair enough] at allocated
  cases allocated
  rw [returns_modifyBlock] at wrote
  subst wrote
  refine ⟨a, d, pairMark img (paired s.heap fun _ => 0) d 0, car', cdr', rfl, ?_⟩
  exact congrArg (fun h => { s with heap := h }) (paired_write s.heap fun b =>
    pairWords a d (pairMark img (paired s.heap fun _ => 0) d (b.words 2)) b.words)

theorem Lists.paired {d : Nat} (a mark : Nat) (aligned : FreshAligned h) (after : low ≤ h.fresh.pos)
    (lists : Lists h low d ws) : Lists (paired h (pairWords a d mark fun _ => 0)) low
      (makeHeapPtr (h.fresh.pos + BHDR_SIZE)) (a :: ws) := by
  have place := hdrOf_new aligned
  have here : (VmFrames.paired h (pairWords a d mark fun _ => 0)).cells
      (hdrOf (makeHeapPtr (h.fresh.pos + BHDR_SIZE))) =
      some ⟨.pair, false, 0, false, 24, pairWords a d mark fun _ => 0⟩ := by
    rw [place]
    exact put_same ..
  refine Lists.pair (isHeapPtr_makeHeapPtr _) here rfl (by rwa [place]) ?_
    (lists.grown (paired_grown h _))
  rw [place]
  exact le_refl _

theorem consLoop_lists {start : Nat} {x : PUnit} {r : Nat} (aligned : FreshAligned s.heap)
    (room : 32 * n ≤ s.heap.fresh.freeMem) (after : low ≤ s.heap.fresh.pos)
    (root : localRoot 0 s.thread = some r) (lists : Lists s.heap low r ws)
    (ran : Returns (consLoop img (fun i t => some (t.opstack (start + i))) n) s x s') :
    s'.thread.opstack = s.thread.opstack ∧ Grown (32 * n) s.heap s'.heap ∧
      ∃ r', localRoot 0 s'.thread = some r' ∧ Lists s'.heap low r'
        ((List.range n).map (fun i => s.thread.opstack (start + i)) ++ ws) := by
  induction n generalizing s r ws with
  | zero =>
    rw [consLoop, returns_pure] at ran
    obtain ⟨_, rfl⟩ := ran
    exact ⟨rfl, .refl _, r, root, lists⟩
  | succ n ih =>
    simp only [consLoop, returns_bind, returns_setThread] at ran
    obtain ⟨w, _, consed, _, _, rfl, later⟩ := ran
    obtain ⟨a, d, mark, car, cdr, rfl, rfl⟩ := returns_cons_room (by omega) consed
    rw [root, Option.some.injEq] at cdr
    rw [Option.some.injEq] at car
    subst cdr car
    have grown := paired_grown s.heap (pairWords (s.thread.opstack (start + n)) r mark fun _ => 0)
    have pos := grown.pos
    have free := grown.freeMem
    have next := lists.paired (s.thread.opstack (start + n)) mark aligned after
    have aligned' : FreshAligned (paired s.heap
        (pairWords (s.thread.opstack (start + n)) r mark fun _ => 0)) := by
      have := aligned.pos
      exact ⟨aligned.mem, by omega⟩
    obtain ⟨stack, more, r', root', listed⟩ := ih aligned' (by dsimp only; omega)
      (by dsimp only; omega) rfl next later
    refine ⟨stack, ?_, r', root', ?_⟩
    · rw [Nat.mul_succ, Nat.add_comm]
      exact grown.trans more
    · rw [List.range_succ, List.map_append, List.append_assoc]
      exact listed

theorem list_lists {start : Nat} (aligned : FreshAligned s.heap)
    (room : 32 * n ≤ s.heap.fresh.freeMem) (ran : Returns (list img start n) s w s') :
    s'.thread.opstack = s.thread.opstack ∧ Grown (32 * n) s.heap s'.heap ∧
      Lists s'.heap s.heap.fresh.pos w
        ((List.range n).map fun i => s.thread.opstack (start + i)) := by
  simp only [list, localList, returns_bind, returns_get, returns_ofOption,
    returns_setThread] at ran
  obtain ⟨_, _, rfl, _, v, loop, _, _, ⟨rfl, rfl⟩, res, _, ⟨found, rfl⟩, _, _, rfl, done⟩ := ran
  rw [returns_pure] at done
  obtain ⟨rfl, rfl⟩ := done
  obtain ⟨stack, grown, r, root, lists⟩ := consLoop_lists (by exact aligned) (by exact room)
    (le_refl _) rfl .null loop
  rw [root, Option.some.injEq] at found
  subst found
  rw [List.append_nil] at lists
  exact ⟨stack, grown, lists⟩

end lists

/- Entering a function. -/

/-- The words of the frame of a function that are arguments. -/
def frameSize (f : IFunc) : Nat := f.argc + f.swallow.toNat

/-- The arguments fit the function. -/
def Fits (f : IFunc) (opArg : Nat) : Prop :=
  if f.swallow then f.argc ≤ opArg else opArg = f.argc

/-- The thread, to be lowered by n words. -/
def lowered (s : State) (n : Nat) : State :=
  { s with thread := { s.thread with opStackIdx := s.thread.opStackIdx - n } }

def pushed (s : State) (obj : Nat) : State :=
  { s with thread := { s.thread with
    opstack := Function.update s.thread.opstack s.thread.opStackIdx obj
    opStackIdx := s.thread.opStackIdx + 1 } }

/-- The frame of f is complete: what it swallows has become the last word on the stack. -/
inductive Complete (img : Image) (f : IFunc) (opArg : Nat) (s : State) : State → Prop where
  | fixed (all : f.swallow = false) : Complete img f opArg s s
  | null (swallow : f.swallow = true) (all : opArg = f.argc) :
      Complete img f opArg s (pushed s cnull)
  | rest {u : State} {w : Nat} (swallow : f.swallow = true) (more : f.argc < opArg)
      (listed : Returns (list img (s.thread.opStackIdx - (opArg - f.argc)) (opArg - f.argc))
        (lowered s (opArg - f.argc)) w u) : Complete img f opArg s (pushed u w)

/-- There is room for the pairs of the arguments that f swallows, without a collection. -/
def RoomForRest (f : IFunc) (opArg : Nat) (h : Heap) : Prop :=
  32 * (opArg - f.argc) ≤ h.fresh.freeMem

/-- The last word of the frame is the list of the arguments that f does not name; the blocks that
    were in the heap have not been touched. -/
structure RestListed (f : IFunc) (opArg : Nat) (s u : State) : Prop where
  lists : Lists u.heap s.heap.fresh.pos
    (u.thread.opstack (s.thread.opStackIdx - opArg + f.argc))
    ((List.range (opArg - f.argc)).map fun i =>
      s.thread.opstack (s.thread.opStackIdx - opArg + f.argc + i))
  grown : Grown (32 * (opArg - f.argc)) s.heap u.heap

section enter
variable {img : Image} {s u s' : State} {f : IFunc} {opArg n : Nat}

theorem Complete.listed (complete : Complete img f opArg s u)
    (enough : opArg ≤ s.thread.opStackIdx) (aligned : FreshAligned s.heap)
    (swallow : f.swallow = true) (room : RoomForRest f opArg s.heap) : RestListed f opArg s u := by
  cases complete with
  | fixed all =>
    rw [all] at swallow
    cases swallow
  | null swallow all =>
    have last : s.thread.opStackIdx - opArg + f.argc = s.thread.opStackIdx := by omega
    have few : opArg - f.argc = 0 := by omega
    constructor
    · rw [last, few]
      simp only [pushed, Function.update_self]
      exact .null
    · rw [few]
      exact .refl _
  | @rest u w swallow more listed =>
    have place : s.thread.opStackIdx - opArg + f.argc =
        s.thread.opStackIdx - (opArg - f.argc) := by omega
    have idx : _ = s.thread.opStackIdx - (opArg - f.argc) := (Allocates.list listed).opStackIdx
    obtain ⟨stack, grown, lists⟩ := list_lists (by exact aligned) (by exact room) listed
    constructor
    · simp only [place, pushed, idx, Function.update_self]
      exact lists
    · exact grown

theorem pushed_calm (s : State) (obj : Nat) : Calm s (pushed s obj) :=
  ⟨.refl _, .refl _, rfl, rfl, rfl, rfl, id⟩

theorem Complete.calm (complete : Complete img f opArg s u) : Calm s u := by
  cases complete with
  | fixed all => exact .refl s
  | null swallow all => exact pushed_calm s cnull
  | rest swallow more listed =>
    have lower : Calm s (lowered s (opArg - f.argc)) := ⟨.refl _, .refl _, rfl, rfl, rfl, rfl, id⟩
    exact (lower.trans (Allocates.list listed).calm).trans (pushed_calm _ _)

theorem Complete.opStackIdx (complete : Complete img f opArg s u) (fits : Fits f opArg)
    (enough : opArg ≤ s.thread.opStackIdx) :
    u.thread.opStackIdx = s.thread.opStackIdx - opArg + frameSize f := by
  unfold Fits at fits
  unfold frameSize
  cases complete with
  | fixed all =>
    simp only [all, Bool.false_eq_true, if_false] at fits
    simp only [all, Bool.toNat_false]
    omega
  | null swallow all =>
    simp only [swallow, Bool.toNat_true, pushed]
    omega
  | rest swallow more listed =>
    have idx : _ = s.thread.opStackIdx - (opArg - f.argc) := (Allocates.list listed).opStackIdx
    simp only [swallow, Bool.toNat_true, pushed, idx]
    omega

theorem Complete.args (complete : Complete img f opArg s u)
    (enough : opArg ≤ s.thread.opStackIdx) {j : Nat} (below : j < f.argc) :
    Updated (s.thread.opstack (s.thread.opStackIdx - opArg + j))
      (u.thread.opstack (s.thread.opStackIdx - opArg + j)) := by
  cases complete with
  | fixed all => exact .refl _
  | null swallow all =>
    have other : s.thread.opStackIdx - opArg + j ≠ s.thread.opStackIdx := by omega
    simp only [pushed, Function.update_of_ne other]
    exact .refl _
  | rest swallow more listed =>
    have idx : _ = s.thread.opStackIdx - (opArg - f.argc) := (Allocates.list listed).opStackIdx
    have other : s.thread.opStackIdx - opArg + j ≠ s.thread.opStackIdx - (opArg - f.argc) := by
      omega
    simp only [pushed, idx, Function.update_of_ne other]
    exact (Allocates.list listed).opstack _

theorem swallowRest_complete (fits : Fits f opArg)
    (ran : Returns (swallowRest img f opArg) s n u) : n = frameSize f ∧ Complete img f opArg s u := by
  unfold swallowRest at ran
  unfold Fits at fits
  unfold frameSize
  cases swallow : f.swallow with
  | false =>
    simp only [swallow, Bool.false_eq_true, if_false, returns_pure] at fits ran
    obtain ⟨rfl, rfl⟩ := ran
    exact ⟨fits, .fixed swallow⟩
  | true =>
    simp only [swallow, if_true] at fits ran
    by_cases none : opArg - f.argc = 0
    · simp only [none, ne_eq, not_true_eq_false, if_false, returns_bind, returns_pure] at ran
      obtain ⟨x, v, push, rfl, rfl⟩ := ran
      rw [returns_stackPush img push]
      constructor
      · rw [Bool.toNat_true]
        omega
      · exact .null swallow (by omega)
    · simp only [ne_eq, none, not_false_eq_true, if_true, returns_bind, returns_get,
        returns_setThread, returns_pure] at ran
      obtain ⟨_, _, ⟨rfl, rfl⟩, _, _, rfl, w, v, listed, x, v', push, rfl, rfl⟩ := ran
      rw [returns_stackPush img push]
      constructor
      · rw [Bool.toNat_true]
        omega
      · exact .rest swallow (by omega) listed

/-- The frame is made of the n words on top of the stack of u. -/
structure Stored (n : Nat) (u s' : State) : Prop where
  calm : Calm u s'
  objects : ∃ v, Allocates u v ∧
    ∀ j, j < n → object s' j = some (v.thread.opstack (u.thread.opStackIdx - n + j))
  opStackIdx : s'.thread.opStackIdx ≤ 2 * n
  apart : ∀ base, s'.thread.objects = .stack base → base + n ≤ s'.thread.opStackIdx

theorem storeEnv_stored {x : PUnit} (some : 0 < n) (ran : Returns (storeEnv f n) u x s') :
    Stored n u s' := by
  unfold storeEnv at ran
  simp only [returns_bind, returns_get, returns_setThread, ne_eq, Nat.pos_iff_ne_zero.mp some,
    not_false_eq_true, if_true] at ran
  obtain ⟨_, _, ⟨rfl, rfl⟩, mem, v, created, _, w, rfl, stored⟩ := ran
  obtain ⟨allocates, b, here, room⟩ := Allocates.envNew created
  by_cases small : f.size < n
  · simp [small] at stored
  · simp only [small, if_false, returns_bind, returns_get, returns_modifyBlock,
      returns_setThread] at stored
    obtain ⟨_, _, ⟨rfl, rfl⟩, _, _, rfl, rfl⟩ := stored
    have calm := allocates.calm
    constructor
    · exact ⟨calm.libCache, calm.exceptionHandlers, calm.opcode, calm.control, calm.func,
        calm.bindmap, fun aligned => (calm.aligned aligned).congr rfl⟩
    · refine ⟨v, allocates, ?_⟩
      intro j below
      have inside : 3 ≤ 3 + j ∧ 3 + j < 3 + n := by omega
      have fits : 8 * (3 + j) < b.size := by omega
      have place : objectsHdr (mem + 24) = mem - BHDR_SIZE := by
        rw [objectsHdr, Nat.add_sub_cancel]
      simp only [object, envObject, place, Function.update_self, here, Option.map_some, fits,
        if_true, copied, inside, and_self, Nat.add_sub_cancel_left]
    · exact Nat.zero_le _
    · intro base never
      cases never

theorem storeStack_stored {x : PUnit} (enough : n ≤ u.thread.opStackIdx)
    (ran : Returns (storeStack n) u x s') : Stored n u s' := by
  unfold storeStack at ran
  rw [returns_setThread] at ran
  subst ran
  by_cases far : n * 2 < u.thread.opStackIdx
  · simp only [far, if_true]
    constructor
    · exact ⟨.refl _, .refl _, rfl, rfl, rfl, rfl, id⟩
    · refine ⟨u, .refl, ?_⟩
      intro j below
      simp only [object, copied, Nat.zero_le, Nat.zero_add, below, and_self, if_true, Nat.sub_zero]
    · exact Nat.le_mul_of_pos_left n Nat.two_pos
    · intro base here
      obtain rfl : 0 = base := by simpa using here
      simp
  · simp only [far, if_false]
    constructor
    · exact ⟨.refl _, .refl _, rfl, rfl, rfl, rfl, id⟩
    · refine ⟨u, .refl, ?_⟩
      intro j _
      rfl
    · simpa [Nat.mul_comm] using far
    · intro base here
      obtain rfl : u.thread.opStackIdx - n = base := by simpa using here
      exact (Nat.sub_add_cancel enough).le

theorem bindmapInit_above {fuel base : Nat} {bindmap : List Nat} {x : PUnit}
    (ran : Returns (bindmapInit fuel base bindmap) s x s') :
    ∃ opstack, s' = { s with thread := { s.thread with opstack := opstack } } ∧
      ∀ i, i < base → opstack i = s.thread.opstack i := by
  induction bindmap generalizing s base with
  | nil =>
    rw [bindmapInit, returns_pure] at ran
    exact ⟨s.thread.opstack, ran.2.symm, fun _ _ => rfl⟩
  | cons idx bindmap ih =>
    simp only [bindmapInit, returns_bind, returns_get] at ran
    obtain ⟨_, _, ⟨rfl, rfl⟩, rest⟩ := ran
    cases shown : envDisplay s.heap fuel s.thread.env idx with
    | error e => simp [shown] at rest
    | ok env =>
      simp only [shown, returns_bind, returns_setThread] at rest
      obtain ⟨_, _, rfl, later⟩ := rest
      obtain ⟨opstack, rfl, same⟩ := ih later
      refine ⟨opstack, rfl, ?_⟩
      intro i below
      rw [same i (by omega)]
      exact Function.update_of_ne (by omega) _ _

/-- The function f has been entered with opArg arguments. -/
structure Entered (img : Image) (f : IFunc) (opArg : Nat) (s s' : State) : Prop where
  func : s'.func = f
  enough : opArg ≤ s.thread.opStackIdx
  fits : Fits f opArg
  /-- The objects are the arguments in their order, as the collector has left them. -/
  frame : ∃ u v, Complete img f opArg { s with func := f } u ∧
    (f.swallow = true → RoomForRest f opArg s.heap → RestListed f opArg s u) ∧ Allocates u v ∧
    u.thread.opStackIdx = s.thread.opStackIdx - opArg + frameSize f ∧
    ∀ j, j < frameSize f → object s' j =
      some (v.thread.opstack (s.thread.opStackIdx - opArg + j))
  fixed : ∀ j, j < f.argc → ∃ w, object s' j = some w ∧
    Updated (s.thread.opstack (s.thread.opStackIdx - opArg + j)) w
  /-- The bindmap is between the arguments and the rest of the stack. -/
  bindmap : if f.bindings.length = 0 then s'.bindmap = none else
    ∃ b, s'.bindmap = some b ∧ b + f.bindmap.length = s'.thread.opStackIdx ∧
      ∀ base, s'.thread.objects = .stack base → base + frameSize f ≤ b
  opStackIdx : s'.thread.opStackIdx ≤ 2 * frameSize f + f.bindmap.length

theorem object_above {opstack : Nat → Nat} {idx j : Nat} (below : j < n)
    (apart : ∀ base, s.thread.objects = .stack base → base + n ≤ idx)
    (same : ∀ i, i < idx → opstack i = s.thread.opstack i) (obj : Option Nat)
    (here : object s j = obj) {t : Thread} {bindmap : Option Nat}
    (objects : t.objects = s.thread.objects) (stack : t.opstack = opstack) :
    object { s with thread := t, bindmap := bindmap } j = obj := by
  subst here stack
  unfold object
  simp only [objects]
  cases place : s.thread.objects with
  | stack base =>
    have inside := apart base place
    simp only
    rw [same _ (by omega)]
  | env objects => rfl

theorem initBindmap_entered {fuel : Nat} {x : PUnit} (stored : Stored n u s)
    (fresh : u.bindmap = none) (ran : Returns (initBindmap fuel f) s x s') :
    Calm { u with bindmap := s'.bindmap } s' ∧ (∀ j, j < n → object s' j = object s j) ∧
      (if f.bindings.length = 0 then s'.bindmap = none else
        ∃ b, s'.bindmap = some b ∧ b + f.bindmap.length = s'.thread.opStackIdx ∧
          ∀ base, s'.thread.objects = .stack base → base + n ≤ b) ∧
      s'.thread.opStackIdx ≤ 2 * n + f.bindmap.length := by
  have calm := stored.calm
  have none : s.bindmap = none := calm.bindmap.trans fresh
  unfold initBindmap at ran
  simp only [returns_bind, returns_get] at ran
  obtain ⟨_, _, ⟨rfl, rfl⟩, ran⟩ := ran
  by_cases captures : f.bindings.length = 0
  · simp only [captures, ne_eq, not_true_eq_false, false_and, if_false, returns_pure] at ran
    obtain ⟨_, rfl⟩ := ran
    have deep := stored.opStackIdx
    refine ⟨⟨calm.libCache, calm.exceptionHandlers, calm.opcode, calm.control, calm.func, rfl,
      calm.aligned⟩, fun _ _ => rfl, ?_, by omega⟩
    rw [if_pos captures]
    exact none
  · simp only [captures, ne_eq, not_false_eq_true, none, and_self, if_true, returns_bind,
      returns_modify, returns_setThread] at ran
    obtain ⟨_, _, rfl, _, _, rfl, ran⟩ := ran
    obtain ⟨opstack, rfl, same⟩ := bindmapInit_above ran
    have deep := stored.opStackIdx
    refine ⟨⟨calm.libCache, calm.exceptionHandlers, calm.opcode, calm.control, calm.func, rfl,
      calm.aligned⟩, ?_, ?_, ?_⟩
    · intro j below
      exact object_above below stored.apart same _ rfl rfl rfl
    · rw [if_neg captures]
      exact ⟨_, rfl, rfl, stored.apart⟩
    · exact Nat.add_le_add_right deep _

theorem enterInterp_parts {fuel : Nat} {x : PUnit}
    (ran : Returns (enterInterp img fuel f opArg) s x s') :
    opArg ≤ s.thread.opStackIdx ∧ ∃ n u v,
      Returns (swallowRest img f opArg) { s with func := f } n u ∧
      (f.heap = true ∧ Returns (storeEnv f n) u ⟨⟩ v ∨
        f.heap = false ∧ Returns (storeStack n) u ⟨⟩ v) ∧
      Returns (initBindmap fuel f)
        { v with thread := { v.thread with heapEnv := f.heap } } ⟨⟩ s' := by
  unfold enterInterp at ran
  rw [returns_bind] at ran
  obtain ⟨_, _, here, ran⟩ := ran
  rw [returns_get] at here
  obtain ⟨rfl, rfl⟩ := here
  by_cases below : s.thread.opStackIdx < opArg
  · simp [below] at ran
  refine ⟨Nat.le_of_not_lt below, ?_⟩
  simp only [below, if_false, returns_bind, returns_modify] at ran
  obtain ⟨_, s₀, rfl, n, u, swallowed, moved⟩ := ran
  cases heap : f.heap with
  | true =>
    simp only [heap, if_true, returns_bind, returns_setThread] at moved
    obtain ⟨_, v, stored, _, _, rfl, finished⟩ := moved
    exact ⟨n, u, v, swallowed, .inl ⟨rfl, stored⟩, finished⟩
  | false =>
    simp only [heap, Bool.false_eq_true, if_false, returns_bind, returns_setThread] at moved
    obtain ⟨_, v, stored, _, _, rfl, finished⟩ := moved
    exact ⟨n, u, v, swallowed, .inr ⟨rfl, stored⟩, finished⟩

theorem enterInterp_entered {fuel : Nat} {x : PUnit} (some : 1 ≤ f.argc)
    (fits : Fits f opArg) (fresh : s.bindmap = none) (aligned : FreshAligned s.heap)
    (ran : Returns (enterInterp img fuel f opArg) s x s') :
    Entered img f opArg s s' ∧ FreshAligned s'.heap ∧ Updated s.thread.libCache s'.thread.libCache ∧
      Updated s.thread.exceptionHandlers s'.thread.exceptionHandlers ∧ s'.opcode = s.opcode ∧
      s'.control = s.control := by
  obtain ⟨enough, n, u, v, swallowed, moved, finished⟩ := enterInterp_parts ran
  obtain ⟨rfl, complete⟩ := swallowRest_complete fits swallowed
  have idx : u.thread.opStackIdx = s.thread.opStackIdx - opArg + frameSize f :=
    complete.opStackIdx fits enough
  have before := complete.calm
  have positive : 0 < frameSize f := by
    rw [frameSize]
    omega
  have stored : Stored (frameSize f) u v := by
    rcases moved with ⟨_, moved⟩ | ⟨_, moved⟩
    · exact storeEnv_stored positive moved
    · apply storeStack_stored _ moved
      rw [idx]
      exact Nat.le_add_left _ _
  have stored' : Stored (frameSize f) u { v with
      thread := { v.thread with heapEnv := f.heap } } := by
    have calm := stored.calm
    exact ⟨⟨calm.libCache, calm.exceptionHandlers, calm.opcode, calm.control, calm.func,
      calm.bindmap, calm.aligned⟩, stored.objects, stored.opStackIdx, stored.apart⟩
  obtain ⟨after, same, bindmap, deep⟩ := initBindmap_entered stored' (before.bindmap.trans fresh)
    finished
  obtain ⟨w, allocates, objects⟩ := stored'.objects
  have frame : ∀ j, j < frameSize f → object s' j =
      Option.some (w.thread.opstack (s.thread.opStackIdx - opArg + j)) := by
    intro j below
    rw [same j below, objects j below, idx, Nat.add_sub_cancel]
  have listed : f.swallow = true → RoomForRest f opArg s.heap → RestListed f opArg s u := by
    intro swallow room
    obtain ⟨lists, grown⟩ := complete.listed enough aligned swallow room
    exact ⟨lists, grown⟩
  constructor
  · exact {
      func := after.func.trans before.func
      enough := enough
      fits := fits
      frame := ⟨u, w, complete, listed, allocates, idx, frame⟩
      fixed := fun j below => ⟨_, frame j (Nat.lt_add_right _ below),
        (complete.args enough below).trans (allocates.opstack _)⟩
      bindmap := bindmap
      opStackIdx := deep }
  · exact ⟨after.aligned (before.aligned aligned), before.libCache.trans after.libCache,
      before.exceptionHandlers.trans after.exceptionHandlers, after.opcode.trans before.opcode,
      after.control.trans before.control⟩

end enter

end LGears.VmFrames
