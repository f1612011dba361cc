import LGears.Gc
import LGears.Library.Bytes

/- The spaces of the heap, byte by byte: align_up, NEXT_HDR and the operations of space_t. -/
namespace LGears.Spaces
open Bytes
open Gc (BHDR_SIZE)

abbrev Memory := Nat → UInt8

def writeBytes (memory : Memory) (a : Nat) (bytes : List UInt8) : Memory := fun i =>
  if a ≤ i then (bytes[i - a]?).getD (memory i) else memory i

/-- hdr->size -/
def hdrSize (memory : Memory) (hdr : Nat) : Nat :=
  ofLE [memory (hdr + 4), memory (hdr + 5), memory (hdr + 6), memory (hdr + 7)]

/-- NEXT_HDR(h) -/
def nextHdr (memory : Memory) (hdr : Nat) : Nat := BHDR_SIZE + hdrSize memory hdr + hdr

/-- (align_up s 8), in a size_t -/
def alignUp (s : Nat) : Nat := (s + 7) % 2 ^ 64 / 8 * 8

structure Space where
  mem : Nat
  pos : Nat
  size : Nat
  freeMem : Nat
  blocks : Nat
  deriving DecidableEq, Repr

structure State where
  space : Space
  memory : Memory

def spaceReset (s : State) : State :=
  { s with space := { s.space with pos := s.space.mem, freeMem := s.space.size, blocks := 0 } }

def spaceReset0 (s : State) : State :=
  let s := spaceReset s
  { s with memory := writeBytes s.memory s.space.mem (List.replicate s.space.size 0) }

/-- (space_init space mem size); space is what the space_t holds before. -/
def spaceInit (space : Space) (mem size : Nat) (memory : Memory) : State :=
  spaceReset0 ⟨{ space with size := size, mem := mem }, memory⟩

/-- The header that space_alloc writes. The bits behind forward, generation and remembered are not
    written. -/
def newHdr (memory : Memory) (hdr size typeId : Nat) : List UInt8 :=
  toLE 2 typeId ++ [memory (hdr + 2) &&& 0xF0, memory (hdr + 3)] ++ toLE 4 size

/-- (space_alloc space size type_id), with the NULL of a space that has no room as none. -/
def spaceAlloc (size typeId : Nat) (s : State) : Option Nat × State :=
  let size := alignUp size
  let need := (size + BHDR_SIZE) % 2 ^ 64
  if s.space.freeMem < need then (none, s)
  else
    let hdr := s.space.pos
    let memory := writeBytes s.memory hdr (newHdr s.memory hdr size typeId)
    let res := hdr + BHDR_SIZE
    (some res, {
      memory := memory
      space := { s.space with
        pos := res + hdrSize memory hdr
        freeMem := s.space.freeMem - need
        blocks := s.space.blocks + 1 } })

/-- memmove, which is memcpy where the areas do not meet -/
def copyBytes (memory : Memory) (dest src n : Nat) : Memory := fun i =>
  if dest ≤ i ∧ i < dest + n then memory (src + (i - dest)) else memory i

/-- (space_put space p size put), or none for FATAL. -/
def spacePut (p size : Nat) (s : State) : Option (Nat × State) :=
  if s.space.freeMem < size then none
  else
    let res := s.space.pos
    some (res, {
      memory := copyBytes s.memory res p size
      space := { s.space with
        pos := s.space.pos + size
        freeMem := s.space.freeMem - size
        blocks := s.space.blocks + 1 } })

/- Runs. -/

/-- What is done to a space. The block at p is put with its header. -/
inductive Op where
  | alloc (size : UInt64) (typeId : Nat)
  | put (p : Nat)
  | reset
  deriving DecidableEq

/-- A space, and the headers of its blocks in the order in which they came. -/
structure Filled where
  state : State
  hdrs : List Nat

/-- One operation; none is left after FATAL. -/
def step (t : Filled) : Op → Option Filled
  | .alloc size typeId =>
    match spaceAlloc size.toNat typeId t.state with
    | (some res, s) => some ⟨s, t.hdrs ++ [res - BHDR_SIZE]⟩
    | (none, s) => some ⟨s, t.hdrs⟩
  | .put p =>
    match spacePut p (hdrSize t.state.memory p + BHDR_SIZE) t.state with
    | some (res, s) => some ⟨s, t.hdrs ++ [res]⟩
    | none => none
  | .reset => some ⟨spaceReset t.state, []⟩

/-- The states before and after the operations of a run. -/
def states : List Op → Filled → List Filled
  | [], t => [t]
  | op :: ops, t => t :: match step t op with
    | some t' => states ops t'
    | none => []

/-- What holds of every operation of a run, in the state in which it is done. -/
def Each (ok : Filled → Op → Prop) : List Op → Filled → Prop
  | [], _ => True
  | op :: ops, t => ok t op ∧ match step t op with
    | some t' => Each ok ops t'
    | none => True

/-- Only blocks are put, which have their sizes rounded up. -/
def Whole (t : Filled) : Op → Prop
  | .put p => hdrSize t.state.memory p % 8 = 0
  | _ => True

/-- Neither the size nor the size with its header wraps around to zero. -/
def Rounds (_ : Filled) : Op → Prop
  | .alloc size _ => size.toNat < 2 ^ 64 - 15 ∨ 2 ^ 64 - 8 < size.toNat
  | _ => True

/-- The headers that are met from hdr on. -/
def visited (memory : Memory) : Nat → Nat → List Nat
  | 0, _ => []
  | n + 1, hdr => hdr :: visited memory n (nextHdr memory hdr)

/-- Where n times NEXT_HDR leads to. -/
def arrive (memory : Memory) : Nat → Nat → Nat
  | 0, hdr => hdr
  | n + 1, hdr => arrive memory n (nextHdr memory hdr)

/-- A space whose blocks can be walked through by their headers. -/
structure Walkable (t : Filled) : Prop where
  position : t.state.space.pos + t.state.space.freeMem = t.state.space.mem + t.state.space.size
  visits : visited t.state.memory t.state.space.blocks t.state.space.mem = t.hdrs
  ends : arrive t.state.memory t.state.space.blocks t.state.space.mem = t.state.space.pos
  aligned : ∀ hdr ∈ t.hdrs, (hdr + BHDR_SIZE) % 8 = 0 ∧ hdrSize t.state.memory hdr % 8 = 0
  disjoint : t.hdrs.Pairwise fun hdr hdr' =>
    hdr + (BHDR_SIZE + hdrSize t.state.memory hdr) ≤ hdr'

section walks
variable {memory memory' : Memory} {n hdr : Nat}

theorem hdrSize_congr (same : ∀ i, hdr ≤ i → i < hdr + BHDR_SIZE → memory' i = memory i) :
    hdrSize memory' hdr = hdrSize memory hdr := by
  unfold BHDR_SIZE at same
  have at_4 := same (hdr + 4) (by omega) (by omega)
  have at_5 := same (hdr + 5) (by omega) (by omega)
  have at_6 := same (hdr + 6) (by omega) (by omega)
  have at_7 := same (hdr + 7) (by omega) (by omega)
  rw [hdrSize, hdrSize, at_4, at_5, at_6, at_7]

theorem le_nextHdr (memory : Memory) (hdr : Nat) : hdr + BHDR_SIZE ≤ nextHdr memory hdr := by
  unfold nextHdr
  omega

theorem le_arrive (memory : Memory) (n hdr : Nat) : hdr ≤ arrive memory n hdr := by
  induction n generalizing hdr with
  | zero => exact Nat.le_refl hdr
  | succ n ih =>
    have first := le_nextHdr memory hdr
    have rest := ih (nextHdr memory hdr)
    rw [arrive]
    omega

theorem walk_congr (same : ∀ i, i < arrive memory n hdr → memory' i = memory i) :
    visited memory' n hdr = visited memory n hdr ∧ arrive memory' n hdr = arrive memory n hdr := by
  induction n generalizing hdr with
  | zero => exact ⟨rfl, rfl⟩
  | succ n ih =>
    have beyond : hdr + BHDR_SIZE ≤ arrive memory (n + 1) hdr :=
      (le_nextHdr memory hdr).trans (le_arrive memory n _)
    have next : nextHdr memory' hdr = nextHdr memory hdr := by
      have size : hdrSize memory' hdr = hdrSize memory hdr :=
        hdrSize_congr fun i _ high => same i (by omega)
      rw [nextHdr, nextHdr, size]
    obtain ⟨visits, ends⟩ := ih same
    rw [visited, visited, arrive, arrive, next, visits, ends]
    exact ⟨rfl, rfl⟩

theorem visited_last (memory : Memory) (n hdr : Nat) :
    visited memory (n + 1) hdr = visited memory n hdr ++ [arrive memory n hdr] := by
  induction n generalizing hdr with
  | zero => rfl
  | succ n ih =>
    rw [visited, ih (nextHdr memory hdr)]
    rfl

theorem arrive_last (memory : Memory) (n hdr : Nat) :
    arrive memory (n + 1) hdr = nextHdr memory (arrive memory n hdr) := by
  induction n generalizing hdr with
  | zero => rfl
  | succ n ih =>
    rw [arrive, ih (nextHdr memory hdr)]
    rfl

theorem visited_before {x : Nat} (met : x ∈ visited memory n hdr) :
    x + (BHDR_SIZE + hdrSize memory x) ≤ arrive memory n hdr := by
  induction n generalizing hdr with
  | zero => cases met
  | succ n ih =>
    rw [visited] at met
    rcases List.mem_cons.mp met with rfl | later
    · have rest := le_arrive memory n (nextHdr memory x)
      rw [arrive]
      unfold nextHdr at rest ⊢
      omega
    · exact ih later

end walks

section operations
variable {t t' : Filled} {op : Op}

theorem Walkable.push (walkable : Walkable t) {memory : Memory} {size : Nat}
    (below : ∀ i, i < t.state.space.pos → memory i = t.state.memory i)
    (header : hdrSize memory t.state.space.pos = size) (rounded : size % 8 = 0)
    (place : t.state.space.mem % 8 = 0) (room : size + BHDR_SIZE ≤ t.state.space.freeMem) :
    Walkable ⟨⟨{ t.state.space with
      pos := t.state.space.pos + (size + BHDR_SIZE)
      freeMem := t.state.space.freeMem - (size + BHDR_SIZE)
      blocks := t.state.space.blocks + 1 }, memory⟩, t.hdrs ++ [t.state.space.pos]⟩ := by
  have position := walkable.position
  have passed : ∀ i, i < arrive t.state.memory t.state.space.blocks t.state.space.mem →
      memory i = t.state.memory i := by
    intro i before
    exact below i (walkable.ends ▸ before)
  obtain ⟨visits, ends⟩ := walk_congr passed
  have sizes : ∀ x ∈ t.hdrs, hdrSize memory x = hdrSize t.state.memory x := by
    intro x member
    have inside := visited_before (walkable.visits ▸ member)
    rw [walkable.ends] at inside
    exact hdrSize_congr fun i _ high => below i (by omega)
  have before : ∀ x ∈ t.hdrs, x + (BHDR_SIZE + hdrSize memory x) ≤ t.state.space.pos := by
    intro x member
    have inside := visited_before (walkable.visits ▸ member)
    rw [walkable.ends, ← sizes x member] at inside
    exact inside
  have multiple : t.state.space.pos % 8 = 0 := by
    have each : ∀ n hdr, hdr % 8 = 0 →
        (∀ x ∈ visited t.state.memory n hdr, hdrSize t.state.memory x % 8 = 0) →
        arrive t.state.memory n hdr % 8 = 0 := by
      intro n
      induction n with
      | zero => exact fun hdr start _ => start
      | succ n ih =>
        intro hdr start rounded
        have first := rounded hdr List.mem_cons_self
        apply ih
        · unfold nextHdr BHDR_SIZE
          omega
        · exact fun x later => rounded x (List.mem_cons_of_mem hdr later)
    rw [← walkable.ends]
    apply each _ _ place
    intro x met
    exact (walkable.aligned x (walkable.visits ▸ met)).2
  constructor
  · dsimp only
    omega
  · dsimp only
    rw [visited_last, visits, ends, walkable.visits, walkable.ends]
  · dsimp only
    rw [arrive_last, ends, walkable.ends, nextHdr, header]
    omega
  · intro x member
    rcases List.mem_append.mp member with old | new
    · rw [sizes x old]
      exact walkable.aligned x old
    · cases List.mem_singleton.mp new
      dsimp only
      rw [header]
      unfold BHDR_SIZE
      omega
  · apply List.pairwise_append.mpr
    refine ⟨?_, List.pairwise_singleton _ _, ?_⟩
    · apply walkable.disjoint.imp_of_mem
      intro x y member _ apart
      rw [sizes x member]
      exact apart
    · intro x member y new
      cases List.mem_singleton.mp new
      exact before x member

theorem hdrSize_newHdr (memory : Memory) (hdr size typeId : Nat) :
    hdrSize (writeBytes memory hdr (newHdr memory hdr size typeId)) hdr = ofLE (toLE 4 size) := by
  simp [hdrSize, writeBytes, newHdr, toLE]

theorem writeBytes_below {memory : Memory} {a i : Nat} (bytes : List UInt8) (below : i < a) :
    writeBytes memory a bytes i = memory i := if_neg (by omega)

theorem alignUp_cases {size : UInt64} (rounds : size.toNat < 2 ^ 64 - 15 ∨
    2 ^ 64 - 8 < size.toNat) : alignUp size.toNat % 8 = 0 ∧
      (alignUp size.toNat + BHDR_SIZE) % 2 ^ 64 = alignUp size.toNat + BHDR_SIZE := by
  have word := size.toNat_lt
  unfold alignUp BHDR_SIZE
  omega

theorem Walkable.below (walkable : Walkable t) : t.state.space.freeMem ≤ t.state.space.size := by
  have start := le_arrive t.state.memory t.state.space.blocks t.state.space.mem
  have position := walkable.position
  rw [walkable.ends] at start
  omega

/- An allocation keeps the space walkable unless its size wraps around. -/
theorem alloc_walkable {size : UInt64} {typeId : Nat} (walkable : Walkable t)
    (place : t.state.space.mem % 8 = 0) (small : t.state.space.size < 2 ^ 31)
    (rounds : size.toNat < 2 ^ 64 - 15 ∨ 2 ^ 64 - 8 < size.toNat)
    (next : step t (.alloc size typeId) = some t') : Walkable t' := by
  obtain ⟨multiple, need⟩ := alignUp_cases rounds
  have below := walkable.below
  unfold step spaceAlloc at next
  dsimp only at next
  rw [need] at next
  by_cases full : t.state.space.freeMem < alignUp size.toNat + BHDR_SIZE
  · rw [if_pos full] at next
    cases next
    exact walkable
  · rw [if_neg full] at next
    cases next
    have word : alignUp size.toNat < 256 ^ 4 := by omega
    have header : hdrSize (writeBytes t.state.memory t.state.space.pos
        (newHdr t.state.memory t.state.space.pos (alignUp size.toNat) typeId))
        t.state.space.pos = alignUp size.toNat := by
      rw [hdrSize_newHdr, ofLE_toLE word]
    have pushed := walkable.push (fun i low => writeBytes_below _ low) header multiple place
      (by omega)
    have position : t.state.space.pos + BHDR_SIZE + alignUp size.toNat =
        t.state.space.pos + (alignUp size.toNat + BHDR_SIZE) := by omega
    have hdr : t.state.space.pos + BHDR_SIZE - BHDR_SIZE = t.state.space.pos := by omega
    rw [header, position, hdr]
    exact pushed

theorem alloc_wraps {size : UInt64} (typeId : Nat) (walkable : Walkable t)
    (wraps : ¬ (size.toNat < 2 ^ 64 - 15 ∨ 2 ^ 64 - 8 < size.toNat)) :
    ∃ t', step t (.alloc size typeId) = some t' ∧ ¬ Walkable t' := by
  have rounded : alignUp size.toNat = 2 ^ 64 - 8 := by
    unfold alignUp
    omega
  have need : (2 ^ 64 - 8 + BHDR_SIZE) % 2 ^ 64 = 0 := rfl
  unfold step spaceAlloc
  dsimp only
  rw [rounded, need, if_neg (Nat.not_lt_zero _)]
  refine ⟨_, rfl, ?_⟩
  intro after
  have before := walkable.position
  have position := after.position
  have size : ofLE (toLE 4 (2 ^ 64 - 8)) = 2 ^ 32 - 8 := by decide
  dsimp only at position
  rw [hdrSize_newHdr, size] at position
  omega

theorem copyBytes_below {memory : Memory} {dest src n i : Nat} (below : i < dest) :
    copyBytes memory dest src n i = memory i := if_neg (by omega)

theorem hdrSize_copyBytes {memory : Memory} {dest src n : Nat} (header : BHDR_SIZE ≤ n) :
    hdrSize (copyBytes memory dest src n) dest = hdrSize memory src := by
  unfold BHDR_SIZE at header
  have byte : ∀ k, k < 8 → copyBytes memory dest src n (dest + k) = memory (src + k) := by
    intro k low
    rw [copyBytes, if_pos (by omega), Nat.add_sub_cancel_left]
  rw [hdrSize, hdrSize, byte 4 (by omega), byte 5 (by omega), byte 6 (by omega), byte 7 (by omega)]

theorem put_walkable {p : Nat} (walkable : Walkable t) (place : t.state.space.mem % 8 = 0)
    (whole : hdrSize t.state.memory p % 8 = 0) (next : step t (.put p) = some t') :
    Walkable t' := by
  unfold step spacePut at next
  dsimp only at next
  by_cases full : t.state.space.freeMem < hdrSize t.state.memory p + BHDR_SIZE
  · rw [if_pos full] at next
    cases next
  · rw [if_neg full] at next
    cases next
    exact walkable.push (fun i low => copyBytes_below low) (hdrSize_copyBytes (by omega)) whole
      place (by omega)

theorem step_place (next : step t op = some t') :
    t'.state.space.mem = t.state.space.mem ∧ t'.state.space.size = t.state.space.size := by
  cases op with
  | alloc size typeId =>
    unfold step spaceAlloc at next
    dsimp only at next
    split at next
    · rename_i here
      split at here
      · cases here
      · cases here
        cases next
        exact ⟨rfl, rfl⟩
    · rename_i here
      split at here
      · cases here
        cases next
        exact ⟨rfl, rfl⟩
      · cases here
  | put p =>
    unfold step spacePut at next
    dsimp only at next
    split at next
    · rename_i here
      split at here
      · cases here
      · cases here
        cases next
        exact ⟨rfl, rfl⟩
    · cases next
  | reset =>
    cases next
    exact ⟨rfl, rfl⟩

theorem step_walkable (walkable : Walkable t) (place : t.state.space.mem % 8 = 0)
    (small : t.state.space.size < 2 ^ 31) (whole : Whole t op) (rounds : Rounds t op)
    (next : step t op = some t') : Walkable t' := by
  cases op with
  | alloc size typeId => exact alloc_walkable walkable place small rounds next
  | put p => exact put_walkable walkable place whole next
  | reset =>
    cases next
    exact ⟨rfl, rfl, rfl, by simp, .nil⟩

end operations

section runs
variable {t : Filled} {ops : List Op}

theorem start_mem (ops : List Op) (t : Filled) : t ∈ states ops t := by
  cases ops with
  | nil => exact List.mem_singleton_self t
  | cons op ops => exact List.mem_cons_self

/- In a run of allocations whose sizes do not wrap around all states are walkable, and in no other
   run. -/
theorem states_walkable (walkable : Walkable t) (place : t.state.space.mem % 8 = 0)
    (small : t.state.space.size < 2 ^ 31) (whole : Each Whole ops t) :
    (∀ u ∈ states ops t, Walkable u) ↔ Each Rounds ops t := by
  induction ops generalizing t with
  | nil =>
    constructor
    · exact fun _ => trivial
    · intro _ u here
      cases List.mem_singleton.mp here
      exact walkable
  | cons op ops ih =>
    have each : ∀ t', step t op = some t' → Walkable t' →
        ((∀ u ∈ states ops t', Walkable u) ↔ Each Rounds ops t') := by
      intro t' next after
      obtain ⟨mem, size⟩ := step_place next
      have rest := whole.2
      rw [next] at rest
      exact ih after (mem ▸ place) (size ▸ small) rest
    constructor
    · intro all
      have rounds : Rounds t op := by
        by_contra wraps
        cases op with
        | alloc size typeId =>
          obtain ⟨t', next, not⟩ := alloc_wraps typeId walkable wraps
          apply not
          apply all
          rw [states, next]
          exact List.mem_cons_of_mem t (start_mem ops t')
        | put p => exact wraps trivial
        | reset => exact wraps trivial
      refine ⟨rounds, ?_⟩
      cases next : step t op with
      | none => trivial
      | some t' =>
        have after := step_walkable walkable place small whole.1 rounds next
        apply (each t' next after).mp
        intro u later
        apply all
        rw [states, next]
        exact List.mem_cons_of_mem t later
    · intro rounds u member
      rw [states] at member
      rcases List.mem_cons.mp member with rfl | later
      · exact walkable
      · cases next : step t op with
        | none =>
          rw [next] at later
          cases later
        | some t' =>
          rw [next] at later
          have after := step_walkable walkable place small whole.1 rounds.1 next
          have rest := rounds.2
          rw [next] at rest
          exact (each t' next after).mpr rest u later

/-- A space after space_init, without blocks. -/
def Filled.init (space : Space) (mem size : Nat) (memory : Memory) : Filled :=
  ⟨spaceInit space mem size memory, []⟩

/- A space stays walkable as long as no size of an allocation wraps around, and no longer; an
   allocation that fails changes nothing. -/
theorem walkable_iff (space : Space) {mem size : Nat} (memory : Memory) (place : mem % 8 = 0)
    (small : size < 2 ^ 31) (whole : Each Whole ops (.init space mem size memory)) :
    ((∀ u ∈ states ops (.init space mem size memory), Walkable u ∧ ∀ size typeId,
        (spaceAlloc size typeId u.state).1 = none → (spaceAlloc size typeId u.state).2 = u.state) ↔
      Each Rounds ops (.init space mem size memory)) := by
  have empty : Walkable (.init space mem size memory) := ⟨rfl, rfl, rfl, by simp [Filled.init], .nil⟩
  have fails : ∀ (s : State) size typeId, (spaceAlloc size typeId s).1 = none →
      (spaceAlloc size typeId s).2 = s := by
    intro s size typeId none
    unfold spaceAlloc at none ⊢
    dsimp only at none ⊢
    split at none
    · rename_i full
      rw [if_pos full]
    · cases none
  rw [← states_walkable empty place small whole]
  constructor
  · exact fun all u member => (all u member).1
  · exact fun all u member => ⟨all u member, fails u.state⟩

end runs

/- The spaces of the collector, whose headers are known without a walk. -/

section refinement
variable {t t' : Filled}

/-- The space without its memory. -/
def Filled.space (t : Filled) : Gc.Space where
  mem := t.state.space.mem
  pos := t.state.space.pos
  size := t.state.space.size
  freeMem := t.state.space.freeMem
  hdrs := t.hdrs

theorem init_space (space : Space) (mem size : Nat) (memory : Memory) :
    (Filled.init space mem size memory).space = .init mem size := rfl

theorem reset_space (next : step t .reset = some t') : t'.space = t.space.reset := by
  cases next
  rfl

theorem put_space {p : Nat} (next : step t (.put p) = some t') :
    t'.space = t.space.append (hdrSize t.state.memory p + BHDR_SIZE) := by
  unfold step spacePut at next
  dsimp only at next
  split at next
  · rename_i here
    split at here
    · cases here
    · cases here
      cases next
      rfl
  · cases next

theorem alloc_space {size : UInt64} {typeId : Nat} (walkable : Walkable t)
    (small : t.state.space.size < 2 ^ 31) (low : size.toNat < 2 ^ 64 - 15)
    (next : step t (.alloc size typeId) = some t') :
    t'.space = if Gc.alignUp size.toNat + BHDR_SIZE ≤ t.space.freeMem
      then t.space.append (Gc.alignUp size.toNat + BHDR_SIZE) else t.space := by
  have same : alignUp size.toNat = Gc.alignUp size.toNat := by
    unfold alignUp Gc.alignUp
    omega
  have need : (Gc.alignUp size.toNat + BHDR_SIZE) % 2 ^ 64 = Gc.alignUp size.toNat + BHDR_SIZE := by
    unfold Gc.alignUp BHDR_SIZE
    omega
  have below := walkable.below
  unfold step spaceAlloc at next
  dsimp only at next
  rw [same, need] at next
  by_cases full : t.state.space.freeMem < Gc.alignUp size.toNat + BHDR_SIZE
  · rw [if_pos full] at next
    cases next
    exact (if_neg (Nat.not_le.mpr full)).symm
  · rw [if_neg full] at next
    cases next
    have fits : Gc.alignUp size.toNat + BHDR_SIZE ≤ t.space.freeMem := Nat.not_lt.mp full
    rw [if_pos fits]
    have word : Gc.alignUp size.toNat < 256 ^ 4 := by omega
    have hdr : t.state.space.pos + BHDR_SIZE - BHDR_SIZE = t.state.space.pos := by omega
    have pos : t.state.space.pos + BHDR_SIZE + Gc.alignUp size.toNat =
        t.state.space.pos + (Gc.alignUp size.toNat + BHDR_SIZE) := by omega
    simp only [Filled.space, Gc.Space.append, hdrSize_newHdr, ofLE_toLE word, hdr, pos]

end refinement

/-- A space of 256 bytes. -/
def sampleStart : Filled := .init ⟨0, 0, 0, 0, 0⟩ 0x1000 256 fun _ => 7

/-- Two allocations, and a copy of the first block before and after a reset. -/
def sampleOps : List Op := [.alloc 24 0, .alloc 19 4, .put 0x1000, .reset, .put 0x1020]

theorem sampleOps_whole : Each Whole sampleOps sampleStart := by
  refine ⟨trivial, trivial, ?_, trivial, ?_, trivial⟩
  · show hdrSize _ _ % 8 = 0
    decide
  · show hdrSize _ _ % 8 = 0
    decide

theorem walkable_iff_sample : Each Rounds sampleOps sampleStart ∧
    ∀ u ∈ states sampleOps sampleStart, Walkable u ∧ ∀ size typeId,
      (spaceAlloc size typeId u.state).1 = none → (spaceAlloc size typeId u.state).2 = u.state := by
  have rounds : Each Rounds sampleOps sampleStart :=
    ⟨Or.inl (by decide), Or.inl (by decide), trivial, trivial, trivial, trivial⟩
  constructor
  · exact rounds
  · apply (walkable_iff _ _ (by decide) (by decide) sampleOps_whole).mpr
    exact rounds

/- (make-string -32 c) asks for -15 bytes: the block has a size of 2 ^ 32 - 8 in a space of 256 bytes
   and takes none of its free memory. -/
theorem alloc_minus_fifteen : ¬ ∀ u ∈ states [.alloc (-15) 4] sampleStart, Walkable u := by
  intro all
  have position := (all _ (List.mem_cons_of_mem _ List.mem_cons_self)).position
  revert position
  decide

example : (spaceAlloc 19 4 sampleStart.state).1 = some 0x1008 ∧
    hdrSize (spaceAlloc 19 4 sampleStart.state).2.memory 0x1000 = 24 := by decide

end LGears.Spaces
