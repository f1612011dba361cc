import Mathlib.Data.BitVec
import Mathlib.Data.List.Forall2
import Mathlib.Logic.Function.Basic
import Mathlib.Tactic.Common

/- The compaction of the old space in the bytes of its memory: heap_gc_old with the headers of
   types.h, whose blocks slide down over each other. -/
namespace LGears.OldSpace

abbrev Memory := Nat → BitVec 8

/-- memmove(dest, src, n): the bytes are those before the call, also where the areas overlap. -/
def memmove (m : Memory) (dest src n : Nat) : Memory := fun i =>
  if dest ≤ i ∧ i < dest + n then m (src + (i - dest)) else m i

/- block_hdr_t: a type in two bytes, the bit fields in the third, the size in the last four. -/

def BHDR_SIZE : Nat := 8

def typeId (m : Memory) (hdr : Nat) : Nat := (m hdr).toNat + 2 ^ 8 * (m (hdr + 1)).toNat

def forward (m : Memory) (hdr : Nat) : Bool := (m (hdr + 2)).getLsbD 0

def generation (m : Memory) (hdr : Nat) : BitVec 2 := (m (hdr + 2)).extractLsb' 1 2

def remembered (m : Memory) (hdr : Nat) : Bool := (m (hdr + 2)).getLsbD 3

def size (m : Memory) (hdr : Nat) : Nat :=
  (m (hdr + 4)).toNat + 2 ^ 8 * (m (hdr + 5)).toNat + 2 ^ 16 * (m (hdr + 6)).toNat +
    2 ^ 24 * (m (hdr + 7)).toNat

/-- hdr->remembered = 0 -/
def forgetHdr (m : Memory) (hdr : Nat) : Memory :=
  Function.update m (hdr + 2) (m (hdr + 2) &&& ~~~8#8)

/-- NEXT_HDR(h) -/
def nextHdr (m : Memory) (hdr : Nat) : Nat := BHDR_SIZE + size m hdr + hdr

structure Space where
  mem : Nat
  pos : Nat
  size : Nat
  freeMem : Nat
  blocks : Nat

/-- What heap_gc_old works on; the table old_map has its last insertion first. -/
structure Heap where
  memory : Memory
  old : Space
  rememberedSet : List Nat
  oldMap : Option (List (Nat × Nat))

inductive Fatal where
  /-- Totaly fucking out of memory -/
  | outOfMemory
  deriving DecidableEq, Repr

/-- (space_reset space) -/
def spaceReset (space : Space) : Space :=
  { space with pos := space.mem, freeMem := space.size, blocks := 0 }

/-- (heap_remember heap hdr) -/
def heapRemember (h : Heap) (hdr : Nat) : Heap :=
  { h with rememberedSet := h.rememberedSet ++ [hdr] }

/-- (space_move space p size) on the old space, which returns the new place. -/
def spaceMove (h : Heap) (p size : Nat) : Except Fatal (Nat × Heap) :=
  let space := h.old
  if space.freeMem < size then .error .outOfMemory
  else .ok (space.pos, { h with
    memory := memmove h.memory space.pos p size
    old := { space with
      pos := space.pos + size
      freeMem := space.freeMem - size
      blocks := space.blocks + 1 } })

/-- The first loop of heap_gc_old: the headers of the remembered blocks, out of n from hdr on. -/
def liveSet (m : Memory) : Nat → Nat → List Nat
  | 0, _ => []
  | n + 1, hdr =>
    if remembered m hdr then hdr :: liveSet m n (nextHdr m hdr) else liveSet m n (nextHdr m hdr)

/-- The second loop, with the table. -/
def moveAll : List Nat → Heap × List (Nat × Nat) → Except Fatal (Heap × List (Nat × Nat))
  | [], state => .ok state
  | hdr :: rest, (h, tbl) => do
    let h := { h with memory := forgetHdr h.memory hdr }
    let (new, h) ← spaceMove h hdr (BHDR_SIZE + size h.memory hdr)
    moveAll rest (heapRemember h new, (hdr, new) :: tbl)

/-- (heap_gc_old heap) -/
def heapGcOld (h : Heap) : Except Fatal Heap := do
  let live := liveSet h.memory h.old.blocks h.old.mem
  let (h, tbl) ← moveAll live ({ h with old := spaceReset h.old }, [])
  return { h with oldMap := some tbl }

/-- n blocks lie one after another from a up to stop. -/
def Blocks (m : Memory) : Nat → Nat → Nat → Prop
  | 0, a, stop => a = stop
  | n + 1, a, stop => Blocks m n (nextHdr m a) stop

/-- The space is filled with its blocks up to pos, and free behind it. -/
structure Holds (m : Memory) (space : Space) : Prop where
  blocks : Blocks m space.blocks space.mem space.pos
  total : space.pos + space.freeMem = space.mem + space.size

/-- The headers of n blocks from hdr on. -/
def headers (m : Memory) : Nat → Nat → List Nat
  | 0, _ => []
  | n + 1, hdr => hdr :: headers m n (nextHdr m hdr)

/-- The block at hdr in m is at new in m', with its flag clear. -/
structure Moved (m : Memory) (hdr : Nat) (m' : Memory) (new : Nat) : Prop where
  typeId : typeId m' new = typeId m hdr
  forward : forward m' new = forward m hdr
  generation : generation m' new = generation m hdr
  remembered : remembered m' new = false
  size : size m' new = size m hdr
  payload : ∀ i, i < OldSpace.size m hdr → m' (new + BHDR_SIZE + i) = m (hdr + BHDR_SIZE + i)

section compaction
variable {m m' : Memory} {hdr new : Nat}

theorem moved_of_bytes (same : ∀ i, i < BHDR_SIZE + size m hdr → i ≠ 2 → m' (new + i) = m (hdr + i))
    (flags : m' (new + 2) = m (hdr + 2) &&& ~~~8#8) : Moved m hdr m' new := by
  have bytes : ∀ i, i < BHDR_SIZE → i ≠ 2 → m' (new + i) = m (hdr + i) := fun i below other =>
    same i (Nat.lt_add_right _ below) other
  have zero : m' new = m hdr := bytes 0 (by decide) (by decide)
  constructor
  · rw [typeId, typeId, zero, bytes 1 (by decide) (by decide)]
  · rw [forward, forward, flags]
    simp
  · rw [generation, generation, flags]
    generalize m (hdr + 2) = b
    revert b
    decide
  · rw [remembered, flags]
    simp
  · rw [size, size, bytes 4 (by decide) (by decide), bytes 5 (by decide) (by decide),
      bytes 6 (by decide) (by decide), bytes 7 (by decide) (by decide)]
  · intro i below
    rw [Nat.add_assoc, Nat.add_assoc]
    exact same (BHDR_SIZE + i) (Nat.add_lt_add_left below _) (by unfold BHDR_SIZE; omega)

/- One block slides down. -/

theorem size_forgetHdr : size (forgetHdr m hdr) hdr = size m hdr := by
  simp [size, forgetHdr]

/-- The memory after the block at hdr has been moved to pos. -/
def slide (m : Memory) (pos hdr : Nat) : Memory :=
  memmove (forgetHdr m hdr) pos hdr (BHDR_SIZE + size m hdr)

theorem slide_below {pos i : Nat} (le : pos ≤ hdr) (below : i < pos) : slide m pos hdr i = m i := by
  rw [slide, memmove, if_neg (by omega), forgetHdr, Function.update_of_ne (by omega)]

theorem slide_above {pos i : Nat} (le : pos ≤ hdr) (above : nextHdr m hdr ≤ i) :
    slide m pos hdr i = m i := by
  unfold nextHdr BHDR_SIZE at above
  rw [slide, memmove, if_neg (by unfold BHDR_SIZE; omega), forgetHdr,
    Function.update_of_ne (by omega)]

theorem slide_inside {pos i : Nat} (inside : i < BHDR_SIZE + size m hdr) :
    slide m pos hdr (pos + i) = forgetHdr m hdr (hdr + i) := by
  rw [slide, memmove, if_pos (by omega), Nat.add_sub_cancel_left]

theorem size_congr (same : ∀ i, hdr ≤ i → m' i = m i) : size m' hdr = size m hdr := by
  simp [size, same]

theorem slide_moved (pos : Nat) (same : ∀ i, hdr ≤ i → m' i = m i) :
    Moved m hdr (slide m' pos hdr) pos := by
  have equal := size_congr same
  apply moved_of_bytes
  · intro i inside other
    rw [slide_inside (by rw [equal]; exact inside), forgetHdr, Function.update_of_ne (by omega)]
    exact same _ (Nat.le_add_right _ _)
  · rw [slide_inside (by unfold BHDR_SIZE; omega), forgetHdr, Function.update_self]
    rw [same _ (Nat.le_add_right _ _)]

theorem moved_congr {m'' : Memory} (moved : Moved m hdr m' new)
    (same : ∀ i, new ≤ i → i < new + (BHDR_SIZE + size m hdr) → m'' i = m' i) :
    Moved m hdr m'' new := by
  have bytes : ∀ i, i < BHDR_SIZE → m'' (new + i) = m' (new + i) := fun i below =>
    same _ (Nat.le_add_right _ _) (by omega)
  have zero : m'' new = m' new := bytes 0 (by decide)
  constructor
  · rw [← moved.typeId, typeId, typeId, zero, bytes 1 (by decide)]
  · rw [← moved.forward, forward, forward, bytes 2 (by decide)]
  · rw [← moved.generation, generation, generation, bytes 2 (by decide)]
  · rw [← moved.remembered, remembered, remembered, bytes 2 (by decide)]
  · rw [← moved.size, size, size, bytes 4 (by decide), bytes 5 (by decide), bytes 6 (by decide),
      bytes 7 (by decide)]
  · intro i below
    rw [← moved.payload i below]
    exact same _ (by omega) (by omega)

/-- Blocks in the order of their addresses between c and stop, with gaps. -/
def Spread (m : Memory) : Nat → List Nat → Nat → Prop
  | c, [], stop => c ≤ stop
  | c, hdr :: rest, stop => c ≤ hdr ∧ Spread m (nextHdr m hdr) rest stop

theorem Spread.lower {c low stop : Nat} {live : List Nat} (spread : Spread m c live stop)
    (le : low ≤ c) : Spread m low live stop := by
  cases live with
  | nil => exact Nat.le_trans le spread
  | cons hdr live => exact ⟨Nat.le_trans le spread.1, spread.2⟩

theorem Spread.le {c stop : Nat} {live : List Nat} (spread : Spread m c live stop) : c ≤ stop := by
  induction live generalizing c with
  | nil => exact spread
  | cons hdr live ih =>
    have later := ih spread.2
    have first := spread.1
    unfold nextHdr at later
    omega

theorem Blocks.spread {n a stop : Nat} (blocks : Blocks m n a stop) :
    Spread m a (liveSet m n a) stop := by
  induction n generalizing a with
  | zero => exact Nat.le_of_eq blocks
  | succ n ih =>
    have later := ih blocks
    unfold liveSet
    by_cases live : remembered m a
    · rw [if_pos live]
      exact ⟨Nat.le_refl a, later⟩
    · rw [if_neg live]
      apply later.lower
      unfold nextHdr
      omega

/-- Where the blocks come to lie, from pos on. -/
def places (m : Memory) : Nat → List Nat → List Nat
  | _, [] => []
  | pos, hdr :: rest => pos :: places m (pos + (BHDR_SIZE + size m hdr)) rest

/-- What the loop leaves of a heap: the blocks at live have moved to pos and the places behind. -/
structure MovedAll (m : Memory) (live : List Nat) (h h' : Heap) : Prop where
  space : h'.old.mem = h.old.mem ∧ h'.old.size = h.old.size ∧
    h'.old.blocks = h.old.blocks + live.length ∧
    h'.old.pos + h'.old.freeMem = h.old.pos + h.old.freeMem
  rememberedSet : h'.rememberedSet = h.rememberedSet ++ places m h.old.pos live
  oldMap : h'.oldMap = h.oldMap
  below : ∀ i, i < h.old.pos → h'.memory i = h.memory i
  moved : ∀ pair ∈ live.zip (places m h.old.pos live), Moved m pair.1 h'.memory pair.2
  blocks : Blocks h'.memory live.length h.old.pos h'.old.pos
  headers : headers h'.memory live.length h.old.pos = places m h.old.pos live

/-- The heap after one turn of the loop. -/
def movedOne (h : Heap) (hdr n : Nat) : Heap where
  memory := slide h.memory h.old.pos hdr
  old := { h.old with
    pos := h.old.pos + n
    freeMem := h.old.freeMem - n
    blocks := h.old.blocks + 1 }
  rememberedSet := h.rememberedSet ++ [h.old.pos]
  oldMap := h.oldMap

theorem moveAll_step {live : List Nat} {h : Heap} {tbl : List (Nat × Nat)}
    (room : BHDR_SIZE + size h.memory hdr ≤ h.old.freeMem) : moveAll (hdr :: live) (h, tbl) =
      moveAll live (movedOne h hdr (BHDR_SIZE + size h.memory hdr), (hdr, h.old.pos) :: tbl) := by
  have fits : ¬ h.old.freeMem < BHDR_SIZE + size h.memory hdr := Nat.not_lt.mpr room
  rw [moveAll]
  simp only [spaceMove, size_forgetHdr, fits, if_false]
  rfl

theorem movedAll_cons {live : List Nat} {h h' : Heap}
    (room : BHDR_SIZE + size m hdr ≤ h.old.freeMem) (above : h.old.pos ≤ hdr)
    (same : ∀ i, hdr ≤ i → h.memory i = m i)
    (done : MovedAll m live (movedOne h hdr (BHDR_SIZE + size m hdr)) h') :
    MovedAll m (hdr :: live) h h' := by
  have block : Moved m hdr h'.memory h.old.pos := by
    apply moved_congr (slide_moved h.old.pos same)
    intro i _ less
    exact done.below i less
  have next : nextHdr h'.memory h.old.pos = h.old.pos + (BHDR_SIZE + size m hdr) := by
    rw [nextHdr, block.size, Nat.add_comm]
  constructor
  · obtain ⟨mem, size, count, total⟩ := done.space
    refine ⟨mem, size, ?_, ?_⟩
    · rw [count, movedOne, List.length_cons, Nat.add_assoc, Nat.add_comm 1]
    · rw [total, movedOne]
      dsimp only
      omega
  · rw [done.rememberedSet, movedOne, places, List.append_assoc, List.singleton_append]
  · exact done.oldMap
  · intro i less
    rw [done.below i (Nat.lt_add_right _ less)]
    exact slide_below above less
  · intro pair member
    rw [places, List.zip_cons_cons] at member
    rcases List.mem_cons.mp member with rfl | later
    · exact block
    · exact done.moved pair later
  · rw [List.length_cons, Blocks, next]
    exact done.blocks
  · rw [List.length_cons, headers, next, places]
    exact congrArg _ done.headers

theorem moveAll_moved {live : List Nat} {h : Heap} (tbl : List (Nat × Nat)) {c stop : Nat}
    (spread : Spread m c live stop) (low : h.old.pos ≤ c)
    (kept : ∀ i, c ≤ i → h.memory i = m i) (room : stop ≤ h.old.pos + h.old.freeMem) :
    ∃ h', moveAll live (h, tbl) =
        .ok (h', (live.zip (places m h.old.pos live)).reverse ++ tbl) ∧
      MovedAll m live h h' ∧ ∀ i, stop ≤ i → h'.memory i = m i := by
  induction live generalizing h tbl c with
  | nil =>
    refine ⟨h, rfl, ?_, fun i above => kept i (Nat.le_trans spread.le above)⟩
    exact ⟨⟨rfl, rfl, rfl, rfl⟩, (List.append_nil _).symm, rfl, fun _ _ => rfl,
      fun _ never => absurd never List.not_mem_nil, rfl, rfl⟩
  | cons hdr live ih =>
    obtain ⟨least, rest⟩ := spread
    have above : h.old.pos ≤ hdr := Nat.le_trans low least
    have same : ∀ i, hdr ≤ i → h.memory i = m i := fun i le => kept i (Nat.le_trans least le)
    have equal : size h.memory hdr = size m hdr := size_congr same
    have bound := rest.le
    have next : nextHdr m hdr = BHDR_SIZE + size m hdr + hdr := rfl
    have fits : BHDR_SIZE + size m hdr ≤ h.old.freeMem := by omega
    have higher : ∀ i, nextHdr m hdr ≤ i → slide h.memory h.old.pos hdr i = m i := by
      intro i le
      rw [slide_above above (by rw [nextHdr, equal]; exact le)]
      exact same i (by omega)
    obtain ⟨h', ran, done, beyond⟩ := ih (h := movedOne h hdr (BHDR_SIZE + size m hdr))
      ((hdr, h.old.pos) :: tbl) rest (by rw [movedOne]; dsimp only; omega) higher
      (by rw [movedOne]; dsimp only; omega)
    refine ⟨h', ?_, movedAll_cons fits above same done, beyond⟩
    rw [moveAll_step (by rw [equal]; exact fits), equal, ran]
    rw [places, List.zip_cons_cons, List.reverse_cons, List.append_assoc, List.singleton_append]
    rfl

theorem Spread.split {before after : List Nat} {c stop : Nat}
    (spread : Spread m c (before ++ hdr :: after) stop) : Spread m c before hdr ∧ hdr ≤ stop := by
  induction before generalizing c with
  | nil =>
    have last := spread.2.le
    unfold nextHdr at last
    exact ⟨spread.1, by omega⟩
  | cons a before ih =>
    obtain ⟨first, rest⟩ := spread
    obtain ⟨later, below⟩ := ih rest
    exact ⟨⟨first, later⟩, below⟩

theorem moveAll_untouched {before after : List Nat} {h : Heap} (tbl : List (Nat × Nat))
    {c stop : Nat}
    (spread : Spread m c (before ++ hdr :: after) stop) (low : h.old.pos ≤ c)
    (kept : ∀ i, c ≤ i → h.memory i = m i) (room : stop ≤ h.old.pos + h.old.freeMem) :
    ∃ h' tbl', moveAll before (h, tbl) = .ok (h', tbl') ∧ ∀ i, hdr ≤ i → h'.memory i = m i := by
  obtain ⟨first, below⟩ := spread.split
  obtain ⟨h', ran, _, beyond⟩ := moveAll_moved tbl first low kept (by omega)
  exact ⟨h', _, ran, beyond⟩

/- The order of the blocks. -/

theorem liveSet_eq {n a : Nat} : liveSet m n a = (headers m n a).filter (remembered m) := by
  induction n generalizing a with
  | zero => rfl
  | succ n ih =>
    rw [liveSet, headers, ih]
    by_cases live : remembered m a
    · rw [if_pos live, List.filter_cons_of_pos live]
    · rw [if_neg live, List.filter_cons_of_neg live]

theorem Spread.above {c stop a : Nat} {live : List Nat} (spread : Spread m c live stop)
    (member : a ∈ live) : c ≤ a := by
  induction live generalizing c with
  | nil => cases member
  | cons hdr live ih =>
    obtain ⟨first, rest⟩ := spread
    rcases List.mem_cons.mp member with rfl | later
    · exact first
    · have beyond := ih rest later
      unfold nextHdr at beyond
      omega

theorem Spread.nodup {c stop : Nat} {live : List Nat} (spread : Spread m c live stop) :
    live.Nodup := by
  induction live generalizing c with
  | nil => exact List.nodup_nil
  | cons hdr live ih =>
    obtain ⟨_, rest⟩ := spread
    rw [List.nodup_cons]
    constructor
    · intro member
      have above := rest.above member
      unfold nextHdr BHDR_SIZE at above
      omega
    · exact ih rest

theorem length_places {pos : Nat} {live : List Nat} : (places m pos live).length = live.length := by
  induction live generalizing pos with
  | nil => rfl
  | cons hdr live ih => rw [places, List.length_cons, List.length_cons, ih]

theorem places_above {pos a : Nat} {live : List Nat} (member : a ∈ places m pos live) : pos ≤ a := by
  induction live generalizing pos with
  | nil => cases member
  | cons hdr live ih =>
    rcases List.mem_cons.mp member with rfl | later
    · exact Nat.le_refl _
    · exact Nat.le_trans (Nat.le_add_right _ _) (ih later)

theorem places_nodup {pos : Nat} {live : List Nat} : (places m pos live).Nodup := by
  induction live generalizing pos with
  | nil => exact List.nodup_nil
  | cons hdr live ih =>
    rw [places, List.nodup_cons]
    constructor
    · intro member
      have above := places_above member
      unfold BHDR_SIZE at above
      omega
    · exact ih

theorem lookup_iff {tbl : List (Nat × Nat)} (nodup : (tbl.map Prod.fst).Nodup) {a n : Nat} :
    tbl.lookup a = some n ↔ (a, n) ∈ tbl := by
  induction tbl with
  | nil => simp
  | cons entry tbl ih =>
    obtain ⟨b, k⟩ := entry
    rw [List.map_cons, List.nodup_cons] at nodup
    rw [List.lookup_cons, List.mem_cons]
    by_cases same : a = b
    · subst same
      have absent : (a, n) ∉ tbl := fun member => nodup.1 (List.mem_map.mpr ⟨_, member, rfl⟩)
      simp [absent, eq_comm]
    · have other : (a == b) = false := beq_eq_false_iff_ne.mpr same
      rw [other, ih nodup.2]
      simp [same]

/-- The marked blocks of the old space, in their order. -/
def marked (h : Heap) : List Nat :=
  (headers h.memory h.old.blocks h.old.mem).filter (remembered h.memory)

/-- The headers of the old space. -/
def blocksOf (h : Heap) : List Nat := headers h.memory h.old.blocks h.old.mem

/-- The old space of h' has the marked blocks of h, packed from its start. -/
structure Compacted (h h' : Heap) : Prop where
  space : h'.old.mem = h.old.mem ∧ h'.old.size = h.old.size
  holds : Holds h'.memory h'.old
  count : h'.old.blocks = (marked h).length
  blocks : List.Forall₂ (fun hdr new => Moved h.memory hdr h'.memory new) (marked h) (blocksOf h')
  /-- The table has the new place of each block, and nothing else. -/
  map : ∃ tbl, h'.oldMap = some tbl ∧
    ∀ hdr new, tbl.lookup hdr = some new ↔ (hdr, new) ∈ (marked h).zip (blocksOf h')
  rememberedSet : h'.rememberedSet = blocksOf h' ∧ (blocksOf h').Nodup
  /-- When a block is about to be moved its bytes are what they were. -/
  untouched : ∀ before hdr after, marked h = before ++ hdr :: after → ∃ u tbl,
    moveAll before ({ h with old := spaceReset h.old }, []) = .ok (u, tbl) ∧
      ∀ i, hdr ≤ i → i < nextHdr h.memory hdr → u.memory i = h.memory i

/- Compaction keeps the marked blocks, and does not end in an error. -/
theorem heapGcOld_compacts {h : Heap} (holds : Holds h.memory h.old) (empty : h.rememberedSet = []) :
    ∃ h', heapGcOld h = .ok h' ∧ Compacted h h' := by
  have same : liveSet h.memory h.old.blocks h.old.mem = marked h := liveSet_eq
  have spread := holds.blocks.spread
  rw [same] at spread
  have total := holds.total
  have room : h.old.pos ≤ h.old.mem + h.old.size := by omega
  have start : (spaceReset h.old).pos ≤ h.old.mem := Nat.le_refl _
  obtain ⟨u, ran, done, _⟩ := moveAll_moved (h := { h with old := spaceReset h.old }) []
    spread start (fun _ _ => rfl) room
  obtain ⟨mem, area, count, freed⟩ := done.space
  have live : u.old.blocks = (marked h).length := count.trans (Nat.zero_add _)
  have spots : headers u.memory u.old.blocks u.old.mem = places h.memory h.old.mem (marked h) := by
    rw [live, mem]
    exact done.headers
  have nodup : ((marked h).zip (places h.memory h.old.mem (marked h))).reverse.map Prod.fst |>.Nodup := by
    rw [List.map_reverse, List.nodup_reverse, List.map_fst_zip (by rw [length_places])]
    exact spread.nodup
  refine ⟨{ u with oldMap := some ((marked h).zip (places h.memory h.old.mem (marked h))).reverse },
    ?_, ?_⟩
  · unfold heapGcOld
    rw [same]
    dsimp only
    rw [ran, List.append_nil]
    rfl
  · constructor
    · exact ⟨mem, area⟩
    · constructor
      · rw [live, mem]
        exact done.blocks
      · rw [freed, mem, area]
        rfl
    · exact live
    · rw [blocksOf, spots, List.forall₂_iff_zip]
      exact ⟨length_places.symm, fun member => done.moved _ member⟩
    · refine ⟨_, rfl, ?_⟩
      intro hdr new
      rw [blocksOf, spots, lookup_iff nodup, List.mem_reverse]
    · rw [blocksOf, spots]
      refine ⟨?_, places_nodup⟩
      rw [done.rememberedSet, empty, List.nil_append]
      rfl
    · intro before hdr after split
      rw [split] at spread
      obtain ⟨v, tbl, part, kept⟩ := moveAll_untouched (h := { h with old := spaceReset h.old })
        [] spread start (fun _ _ => rfl) room
      exact ⟨v, tbl, part, fun i above _ => kept i above⟩

end compaction

/-- A dead block of 8 bytes, and behind it a marked one of 24, which moves onto itself. -/
def slidingHeap : Heap where
  memory i := if i = 20 then 8 else if i = 34 then 8 else if i = 36 then 24 else 0
  old := ⟨16, 64, 64, 16, 2⟩
  rememberedSet := []
  oldMap := none

theorem heapGcOld_compacts_sliding : ∃ h', heapGcOld slidingHeap = .ok h' ∧
    Compacted slidingHeap h' :=
  heapGcOld_compacts ⟨rfl, rfl⟩ rfl

end LGears.OldSpace
