import LGears.GcRuns
import LGears.GcPromotion

/- A marking pass, seen from the heap it starts with: where each block is now, and what
   has become of the words that point to it. -/
namespace LGears.Gc
open StateExcept Rooted

section definitions
variable (h₀ : Heap)

/-- The block that was at a has its place for this pass at c. -/
inductive Place (h : Heap) : Nat → Nat → Prop where
  | old {a : Nat} (member : a ∈ h₀.old.hdrs) : Place h a a
  | moved {a c : Nat} {b : Block} (young : Young h₀ a) (block : h.cells a = some b)
      (forward : b.forward = true) (place : b.words 0 = c + BHDR_SIZE) : Place h a c
  | postponed {a : Nat} {b : Block} (young : Young h₀ a) (full : h.fullGc = true)
      (block : h.cells a = some b) (present : b.forward = false) (third : b.generation = 3)
      (marked : b.remembered = true) : Place h a a

/-- The word for the address of the block at c. -/
def redirect (isEnv : Bool) (c : Nat) : Nat :=
  if isEnv then c + BHDR_SIZE else makeHeapPtr (c + BHDR_SIZE)

/-- The word w is w₀, or it follows the block to which w₀ pointed. -/
def Translated (h : Heap) (isEnv : Bool) (w₀ w : Nat) : Prop :=
  w = w₀ ∨ ∃ a c, target isEnv w₀ = some a ∧ Place h₀ h a c ∧ w = redirect isEnv c

/-- The block d at c holds what b held. -/
structure Holds (h : Heap) (c : Nat) (b d : Block) : Prop where
  type : d.type = b.type
  size : d.size = b.size
  present : d.forward = false
  slot : ∀ s ∈ slots b, Translated h₀ h s.isEnv (b.words s.index) (d.words s.index)
  inner : ∀ i place, innerPointer b = some (i, place) →
    d.words i = b.words i ∨ d.words i = c + BHDR_SIZE + place
  other : ∀ i, (∀ s ∈ slots b, s.index ≠ i) → (∀ place, innerPointer b ≠ some (i, place)) →
    d.words i = b.words i

/-- The mark of the block at c is set. -/
def Bit (h : Heap) (c : Nat) : Prop := ∃ d, h.cells c = some d ∧ d.remembered = true

variable (live : Nat → Prop)

/-- A live block has been found at x; a full collection marks it in the old space. -/
structure Found (h : Heap) (x : Nat) : Prop where
  place : ∃ a, live a ∧ Place h₀ h a x
  bit : h.fullGc = true → x ∈ h.old.hdrs → Bit h x

/-- The word points to no block that the pass has still to find. -/
def Settled (h : Heap) (isEnv : Bool) (w : Nat) : Prop :=
  ∀ x, target isEnv w = some x → Found h₀ live h x

/-- The word points to live blocks only. -/
def Known (h : Heap) (isEnv : Bool) (w : Nat) : Prop :=
  ∀ x, target isEnv w = some x → live x ∨ ∃ a, live a ∧ Place h₀ h a x

def SlotClean (h : Heap) (c : Nat) (s : Slot) : Prop :=
  ∀ d, h.cells c = some d → s ∈ slots d → Settled h₀ live h s.isEnv (d.words s.index)

/-- The block at c points to its own data. -/
def Inside (h : Heap) (c : Nat) : Prop :=
  ∀ d, h.cells c = some d → ∀ i place, innerPointer d = some (i, place) →
    d.words i = c + BHDR_SIZE + place

/-- The block at c has been visited. -/
structure Clean (h : Heap) (c : Nat) : Prop where
  slot : ∀ s, SlotClean h₀ live h c s
  inside : Inside h c

/-- The blocks that a collection may copy. -/
def youngs : List Nat := h₀.fresh.hdrs ++ h₀.survived.hdrs

def bytes (a : Nat) : Nat := ((h₀.cells a).map fun b => BHDR_SIZE + b.size).getD 0

def Third (a : Nat) : Prop := ∃ b, h₀.cells a = some b ∧ b.generation = 3

open Classical in
/-- The bytes of the young blocks with p. -/
noncomputable def total (p : Nat → Prop) : Nat :=
  ((youngs h₀).map fun a => if p a then bytes h₀ a else 0).sum

def HasMoved (h : Heap) (a : Nat) : Prop := ∃ b, h.cells a = some b ∧ b.forward = true

/-- The live blocks at the start of a pass. -/
structure Source : Prop where
  quiet : Quiet h₀
  block : ∀ a, live a → Young h₀ a ∨ a ∈ h₀.old.hdrs
  closed : ∀ a c, live a → PointsTo h₀.cells a c → live c
  readable : ∀ a, live a → Readable h₀.cells a
  old : h₀.fullGc = false → ∀ a ∈ h₀.old.hdrs, live a
  unmarked : h₀.fullGc = true → ∀ a b, Held h₀ a → h₀.cells a = some b → b.remembered = false

/-- The state of a pass that was started in h₀. -/
structure Tracing (h : Heap) : Prop where
  pass : Pass h₀.fullGc none h
  spaces : h.fresh = h₀.fresh ∧ h.survived = h₀.survived
  oldHdrs : h₀.old.hdrs <+: h.old.hdrs
  oldSame : h.fullGc = true → h.old.hdrs = h₀.old.hdrs
  left : ∀ a b, Young h₀ a → h.cells a = some b →
    b.forward = false ∧ h₀.cells a = some b ∨ ∃ c, Place h₀ h a c
  place : ∀ a c, Place h₀ h a c → Stays h c ∨ Young h₀ a ∧ c = a
  source : ∀ a c, Place h₀ h a c → Young h₀ a → live a
  third : ∀ a, Young h₀ a → Place h₀ h a a → Third h₀ a
  holds : ∀ a c, Place h₀ h a c →
    ∃ b d, h₀.cells a = some b ∧ h.cells c = some d ∧ Holds h₀ h c b d
  onto : ∀ c, Stays h c → ∃ a, Place h₀ h a c
  injective : ∀ a a' c, Place h₀ h a c → Place h₀ h a' c → a = a'
  remembered : ∀ c ∈ h.remembered, ∃ a, live a ∧ Place h₀ h a c
  used : h.futureSurvived.pos =
    h.futureSurvived.mem + total h₀ fun a => HasMoved h a ∧ ¬ Third h₀ a
  spent : oldRoom h + (total h₀ fun a => HasMoved h a ∧ Third h₀ a) = oldRoom h₀

/-- A block that has been found and has its place, so that its words are visited there. -/
def Scannable (h : Heap) (c : Nat) : Prop :=
  c ∈ h.old.hdrs ∧ (h.fullGc = true → Bit h c) ∨ Young h₀ c ∧ Place h₀ h c c

/-- How many blocks a full collection has not marked. -/
def unmarked (h : Heap) : Nat :=
  ((h.old.hdrs ++ youngs h₀).map fun a => ((h.cells a).map fun b =>
    if b.remembered then 0 else 1).getD 0).sum

/-- What bounds the blocks that are remembered from now on. -/
def budget (h : Heap) : Nat := if h.fullGc then 16 * unmarked h₀ h else oldRoom h

/-- The live young blocks do not fit in the space they have to go to. -/
inductive Overflow : Abort → Prop where
  | survived (much : SURVIVED_SIZE < total h₀ fun a => live a ∧ ¬ Third h₀ a) :
      Overflow .survivedFull
  | old (much : oldRoom h₀ < total h₀ fun a => live a ∧ Third h₀ a) : Overflow .oldFull

/-- What a pass leaves as it is from h to h'. -/
structure Later (h h' : Heap) : Prop where
  fullGc : h'.fullGc = h.fullGc
  place : ∀ a c, Place h₀ h a c → Place h₀ h' a c
  future : h.futureSurvived.hdrs <+: h'.futureSurvived.hdrs
  old : h.old.hdrs <+: h'.old.hdrs
  bit : ∀ c ∈ h.old.hdrs, h.fullGc = true → Bit h c → Bit h' c
  clean : ∀ a c s, Place h₀ h a c → SlotClean h₀ live h c s → SlotClean h₀ live h' c s
  inside : ∀ a c, Place h₀ h a c → Inside h c → Inside h' c

/-- What the visits leave as it is until what is remembered is forgotten. -/
structure Grows (h h' : Heap) : Prop extends Later h₀ live h h' where
  remembered : h.remembered <+: h'.remembered
  scannable : ∀ c, Scannable h₀ h' c → Scannable h₀ h c ∨ c ∈ h'.remembered
  budget : 16 * h'.remembered.length + budget h₀ h' ≤ 16 * h.remembered.length + budget h₀ h

end definitions

section words
variable {h : Heap}

theorem Chain.aligned {cells : Cells} {a stop : Nat} {hdrs : List Nat}
    (chain : Chain cells a hdrs stop) (sized : ∀ x b, cells x = some b → b.size % 8 = 0)
    (start : a % 8 = 0) : ∀ x ∈ hdrs, x % 8 = 0 := by
  induction hdrs generalizing a with
  | nil => simp
  | cons hdr hdrs ih =>
    obtain ⟨rfl, b, at_hdr, rest⟩ := chain
    have size := sized _ b at_hdr
    intro x member
    rcases List.mem_cons.mp member with here | later
    · exact here ▸ start
    · exact ih rest (by unfold BHDR_SIZE; omega) x later

theorem Layout.aligned (layout : Layout h) {a : Nat} (held : Held h a) : a % 8 = 0 ∧ 0 < a := by
  obtain ⟨_, fresh, sizes, halves, oldAt, positive, aligned, _⟩ := layout.areas
  have sized := fun x b at_x => (layout.sized x b at_x).2
  have shift : FRESH_SIZE % 8 = 0 ∧ SURVIVED_SIZE % 8 = 0 := by decide
  rcases held with (member | member) | member | member
  · obtain ⟨b, _, low, _⟩ := layout.fresh.inside member
    exact ⟨layout.fresh.chain.aligned sized (by omega) a member, by omega⟩
  · obtain ⟨b, _, low, _⟩ := layout.survived.inside member
    exact ⟨layout.survived.chain.aligned sized (by omega) a member, by omega⟩
  · obtain ⟨b, _, low, _⟩ := layout.future.inside member
    exact ⟨layout.future.chain.aligned sized (by omega) a member, by omega⟩
  · obtain ⟨b, _, low, _⟩ := layout.old.inside member
    rcases oldAt with absent | present
    · rw [absent] at member
      cases member
    · exact ⟨layout.old.chain.aligned sized (by omega) a member, by omega⟩

theorem hdrOf_makeHeapPtr {c : Nat} (aligned : c % 8 = 0) :
    isHeapPtr (makeHeapPtr (c + BHDR_SIZE)) = true ∧ hdrOf (makeHeapPtr (c + BHDR_SIZE)) = c := by
  simp only [isHeapPtr, makeHeapPtr, hdrOf, ptr, BHDR_SIZE, beq_iff_eq]
  omega

theorem target_redirect (isEnv : Bool) {c : Nat} (aligned : c % 8 = 0) :
    target isEnv (redirect isEnv c) = some c := by
  cases isEnv with
  | false => exact target_object.mpr (hdrOf_makeHeapPtr aligned)
  | true => exact target_env.mpr (by simp [redirect, BHDR_SIZE])

theorem ptr_eq {w : Nat} (positive : 0 < hdrOf w) : ptr w = hdrOf w + BHDR_SIZE := by
  unfold hdrOf BHDR_SIZE at *
  omega

end words

section pieces
variable {h₀ h h' : Heap} {live : Nat → Prop}

theorem Translated.mono {isEnv : Bool} {w₀ w : Nat} (translated : Translated h₀ h isEnv w₀ w)
    (place : ∀ a c, Place h₀ h a c → Place h₀ h' a c) : Translated h₀ h' isEnv w₀ w := by
  rcases translated with same | ⟨a, c, points, placed, word⟩
  · exact .inl same
  · exact .inr ⟨a, c, points, place a c placed, word⟩

theorem Holds.mono {c : Nat} {b d : Block} (holds : Holds h₀ h c b d)
    (place : ∀ a c, Place h₀ h a c → Place h₀ h' a c) : Holds h₀ h' c b d :=
  ⟨holds.type, holds.size, holds.present, fun s member => (holds.slot s member).mono place, holds.inner,
    holds.other⟩

theorem Found.mono {x : Nat} (found : Found h₀ live h x)
    (place : ∀ a c, Place h₀ h a c → Place h₀ h' a c) (fullGc : h'.fullGc = h.fullGc)
    (bit : ∀ c, h.fullGc = true → c ∈ h'.old.hdrs → c ∈ h.old.hdrs ∧ (Bit h c → Bit h' c)) :
    Found h₀ live h' x := by
  obtain ⟨a, lives, placed⟩ := found.place
  refine ⟨⟨a, lives, place a x placed⟩, ?_⟩
  intro full member
  rw [fullGc] at full
  obtain ⟨before, marks⟩ := bit x full member
  exact marks (found.bit full before)

/- Which words of a block its visitor reads and which it writes. -/

theorem slots_cases {b : Block} {s : Slot} (member : s ∈ slots b) :
    b.type = .pair ∧ s.index ≤ 1 ∧ s.isEnv = false ∨
      b.type ≠ .pair ∧ s.index = 0 ∧ (s.isEnv = true ∨ b.type = .cont) ∨
      b.type ≠ .pair ∧ 3 ≤ s.index ∧ s.isEnv = false := by
  unfold slots at member
  cases type : b.type with
  | pair =>
    simp only [type, List.mem_cons, List.not_mem_nil, or_false] at member
    rcases member with rfl | rfl <;> simp
  | cont =>
    simp only [type, List.mem_singleton] at member
    simp [member]
  | env =>
    simp only [type, List.mem_append, List.mem_map, List.mem_range, List.mem_singleton] at member
    rcases member with ⟨i, _, rfl⟩ | rfl <;> simp
  | closure =>
    simp only [type, List.mem_singleton] at member
    simp [member]
  | struct =>
    simp only [type, List.mem_map, List.mem_range] at member
    obtain ⟨i, _, rfl⟩ := member
    simp
  | string => simp [type] at member
  | bytevector => simp [type] at member
  | plain => simp [type] at member

theorem slots_injective {b : Block} {s s' : Slot} (member : s ∈ slots b) (member' : s' ∈ slots b)
    (index : s.index = s'.index) : s = s' := by
  have isEnv : s.isEnv = s'.isEnv := by
    have first := slots_cases member
    have second := slots_cases member'
    cases type : b.type with
    | cont =>
      simp only [slots, type, List.mem_singleton] at member member'
      rw [member, member']
    | _ =>
      simp only [type] at first second
      grind
  cases s
  cases s'
  simp_all

theorem innerPointer_cases {b : Block} {i place : Nat} (inner : innerPointer b = some (i, place)) :
    i ≠ 1 ∧ ∀ s ∈ slots b, s.index ≠ i := by
  unfold innerPointer at inner
  unfold slots
  cases type : b.type with
  | env =>
    simp only [type, Option.some.injEq, Prod.mk.injEq] at inner
    obtain ⟨rfl, _⟩ := inner
    simp only [List.mem_append, List.mem_map, List.mem_range, List.mem_singleton]
    refine ⟨by decide, ?_⟩
    intro s member
    rcases member with ⟨j, _, rfl⟩ | rfl <;> simp only <;> omega
  | struct =>
    simp only [type, Option.some.injEq, Prod.mk.injEq] at inner
    obtain ⟨rfl, _⟩ := inner
    simp only [List.mem_map, List.mem_range]
    refine ⟨by decide, ?_⟩
    intro s member
    obtain ⟨j, _, rfl⟩ := member
    simp only
    omega
  | string =>
    simp only [type] at inner
    split at inner
    · simp only [Option.some.injEq, Prod.mk.injEq] at inner
      obtain ⟨rfl, _⟩ := inner
      simp
    · cases inner
  | bytevector =>
    simp only [type, Option.some.injEq, Prod.mk.injEq] at inner
    obtain ⟨rfl, _⟩ := inner
    simp
  | _ => simp [type] at inner

theorem shape_eq {b d : Block} (type : d.type = b.type)
    (count : b.type ≠ .pair → d.words 1 = b.words 1) :
    slots d = slots b ∧ innerPointer d = innerPointer b := by
  unfold slots innerPointer
  rw [type]
  cases same : b.type with
  | pair => simp
  | _ =>
    have second := count (by simp [same])
    simp [second]

theorem Holds.shape {c : Nat} {b d : Block} (holds : Holds h₀ h c b d) :
    slots d = slots b ∧ innerPointer d = innerPointer b := by
  apply shape_eq holds.type
  intro other
  apply holds.other
  · intro s member
    rcases slots_cases member with ⟨pair, _⟩ | ⟨_, zero, _⟩ | ⟨_, late, _⟩
    · exact absurd pair other
    · omega
    · omega
  · intro place inner
    exact absurd rfl (innerPointer_cases inner).1

end pieces

section totals
variable {h₀ : Heap}

theorem mem_youngs {a : Nat} : a ∈ youngs h₀ ↔ Young h₀ a := by
  simp [youngs, Young]

theorem Layout.youngs_nodup (layout : Layout h₀) : (youngs h₀).Nodup := by
  obtain ⟨_, fresh, sizes, halves, _, _, _, _⟩ := layout.areas
  apply List.nodup_append.mpr
  refine ⟨layout.fresh.chain.nodup, layout.survived.chain.nodup, ?_⟩
  intro a first c second same
  subst same
  obtain ⟨b, at_a, low, high, bound⟩ := layout.fresh.inside first
  obtain ⟨d, at_d, low', high', bound'⟩ := layout.survived.inside second
  obtain rfl := Option.some.inj (at_a.symm.trans at_d)
  unfold BHDR_SIZE at *
  omega

theorem total_congr {p q : Nat → Prop} (same : ∀ a, Young h₀ a → (p a ↔ q a)) :
    total h₀ p = total h₀ q := by
  unfold total
  apply sum_map_congr
  intro a member
  have both := same a (mem_youngs.mp member)
  by_cases holds : p a
  · rw [if_pos holds, if_pos (both.mp holds)]
  · rw [if_neg holds, if_neg fun later => holds (both.mpr later)]

theorem total_insert (layout : Layout h₀) {p q : Nat → Prop} {a : Nat} (young : Young h₀ a)
    (absent : ¬ p a) (insert : ∀ x, Young h₀ x → (q x ↔ p x ∨ x = a)) :
    total h₀ q = total h₀ p + bytes h₀ a := by
  classical
  have change := sum_map_change (f := fun x => if p x then bytes h₀ x else 0)
    (g := fun x => if q x then bytes h₀ x else 0) layout.youngs_nodup (mem_youngs.mpr young) (by
      intro x member other
      have same : q x ↔ p x := by
        rw [insert x (mem_youngs.mp member)]
        exact or_iff_left other
      exact if_congr same rfl rfl)
  have added : q a := (insert a young).mpr (.inr rfl)
  simp only [absent, if_false, added, if_true, Nat.add_zero] at change
  unfold total
  convert change

theorem total_mono {p q : Nat → Prop} (sub : ∀ a, Young h₀ a → p a → q a) :
    total h₀ p ≤ total h₀ q := by
  unfold total
  apply List.sum_le_sum
  intro a member
  by_cases holds : p a
  · rw [if_pos holds, if_pos (sub a (mem_youngs.mp member) holds)]
  · rw [if_neg holds]
    exact Nat.zero_le _

end totals

section copies
variable {h₀ h h' : Heap} {live : Nat → Prop} {a : Nat} {new : Nat} {b : Block}

/-- A copy of a live block in the course of a pass, with what it takes. -/
structure Copying (h₀ h h' : Heap) (live : Nat → Prop) (a new : Nat) (b : Block) : Prop where
  copies : Copies h h' a new b
  layout : Layout h'
  lives : live a
  raw : h₀.cells a = some b
  unplaced : ∀ c, ¬ Place h₀ h a c

theorem Copying.placed (copying : Copying h₀ h h' live a new b) (tracing : Tracing h₀ live h) :
    Place h₀ h' a new := by
  obtain ⟨r, copy⟩ := copying.copies.copy
  have young : Young h₀ a := by
    have here := copying.copies.young
    rwa [Young, tracing.spaces.1, tracing.spaces.2] at here
  exact .moved young copy.at_source rfl (by simp [Block.setWord])

theorem Copying.place (copying : Copying h₀ h h' live a new b) (tracing : Tracing h₀ live h)
    {x c : Nat} (placed : Place h₀ h x c) : Place h₀ h' x c := by
  have other : x ≠ a := fun same => copying.unplaced c (same ▸ placed)
  have kept : Young h₀ x → h'.cells x = h.cells x := by
    intro young
    apply copying.copies.frame x _ other
    rw [Held, Young, tracing.spaces.1, tracing.spaces.2]
    exact .inl young
  cases placed with
  | old member => exact .old member
  | moved young block forward place => exact .moved young ((kept young).trans block) forward place
  | postponed young full block present third marked =>
    exact .postponed young (copying.copies.flags.1.trans full) ((kept young).trans block) present
      third marked

theorem Copying.before (copying : Copying h₀ h h' live a new b) (tracing : Tracing h₀ live h)
    {x c : Nat} (placed : Place h₀ h' x c) : x = a ∧ c = new ∨ x ≠ a ∧ Place h₀ h x c := by
  have kept : Young h₀ x → x ≠ a → h'.cells x = h.cells x := by
    intro young other
    apply copying.copies.frame x _ other
    rw [Held, Young, tracing.spaces.1, tracing.spaces.2]
    exact .inl young
  obtain ⟨r, copy⟩ := copying.copies.copy
  by_cases here : x = a
  · subst here
    left
    cases placed with
    | old member => exact absurd (.old member) (copying.unplaced x)
    | moved young block forward place =>
      obtain rfl := Option.some.inj (copy.at_source.symm.trans block)
      simp [Block.setWord] at place
      exact ⟨rfl, place.symm⟩
    | postponed young full block present third marked =>
      obtain rfl := Option.some.inj (copy.at_source.symm.trans block)
      cases present
  · right
    refine ⟨here, ?_⟩
    cases placed with
    | old member => exact .old member
    | moved young block forward place =>
      exact .moved young ((kept young here).symm.trans block) forward place
    | postponed young full block present third marked =>
      exact .postponed young (copying.copies.flags.1.symm.trans full)
        ((kept young here).symm.trans block) present third marked

theorem Tracing.held (tracing : Tracing h₀ live h) {x c : Nat} (placed : Place h₀ h x c) :
    Held h c := by
  rcases tracing.place x c placed with stays | ⟨young, rfl⟩
  · exact .inr stays
  · rw [Held, Young, tracing.spaces.1, tracing.spaces.2]
    exact .inl young

theorem Copying.other (copying : Copying h₀ h h' live a new b) (tracing : Tracing h₀ live h)
    {x c : Nat} (placed : Place h₀ h x c) : c ≠ a := by
  rcases tracing.place x c placed with stays | ⟨_, rfl⟩
  · intro same
    exact tracing.pass.layout.young_leaves copying.copies.young (same ▸ stays)
  · intro same
    exact copying.unplaced c (same ▸ placed)

theorem Copying.kept (copying : Copying h₀ h h' live a new b) (tracing : Tracing h₀ live h)
    {x c : Nat} (placed : Place h₀ h x c) : h'.cells c = h.cells c :=
  copying.copies.frame c (tracing.held placed) (copying.other tracing placed)

/- A copy holds what the block held. -/
theorem Copying.holds (copying : Copying h₀ h h' live a new b) :
    ∃ d, h'.cells new = some d ∧ Holds h₀ h' new b d := by
  obtain ⟨r, copy⟩ := copying.copies.copy
  refine ⟨_, copy.at_new, ?_⟩
  constructor
  · rfl
  · rfl
  · rfl
  · exact fun _ _ => .inl rfl
  · exact fun _ _ _ => .inl rfl
  · exact fun _ _ _ => rfl

theorem Copying.tracing (copying : Copying h₀ h h' live a new b) (tracing : Tracing h₀ live h)
    (old : h.fullGc = true → h'.old.hdrs = h.old.hdrs)
    (used : h'.futureSurvived.pos =
      h'.futureSurvived.mem + total h₀ fun x => HasMoved h' x ∧ ¬ Third h₀ x)
    (spent : oldRoom h' + (total h₀ fun x => HasMoved h' x ∧ Third h₀ x) = oldRoom h₀) :
    Tracing h₀ live h' := by
  have copies := copying.copies
  have placed := copying.placed tracing
  constructor
  · exact tracing.pass.copies copies copying.layout
  · exact ⟨copies.spaces.1.trans tracing.spaces.1, copies.spaces.2.trans tracing.spaces.2⟩
  · exact tracing.oldHdrs.trans copies.old
  · intro full
    have before := copies.flags.1.symm.trans full
    exact (old before).trans (tracing.oldSame before)
  · intro x d young at_x
    by_cases here : x = a
    · exact .inr ⟨new, here ▸ placed⟩
    have held : Held h x := by
      rw [Held, Young, tracing.spaces.1, tracing.spaces.2]
      exact .inl young
    rw [copies.frame x held here] at at_x
    rcases tracing.left x d young at_x with raw | ⟨c, before⟩
    · exact .inl raw
    · exact .inr ⟨c, copying.place tracing before⟩
  · intro x c after
    rcases copying.before tracing after with ⟨_, rfl⟩ | ⟨_, before⟩
    · exact .inl ((copies.stays c).mpr (.inr rfl))
    · rcases tracing.place x c before with stays | here
      · exact .inl ((copies.stays c).mpr (.inl stays))
      · exact .inr here
  · intro x c after young
    rcases copying.before tracing after with ⟨rfl, _⟩ | ⟨_, before⟩
    · exact copying.lives
    · exact tracing.source x c before young
  · intro x young after
    rcases copying.before tracing after with ⟨here, same⟩ | ⟨_, before⟩
    · obtain ⟨r, copy⟩ := copies.copy
      exact absurd (here.symm.trans same) copy.apart
    · exact tracing.third x young before
  · intro x c after
    rcases copying.before tracing after with ⟨rfl, rfl⟩ | ⟨_, before⟩
    · obtain ⟨d, at_new, holds⟩ := copying.holds
      exact ⟨b, d, copying.raw, at_new, holds⟩
    · obtain ⟨b₀, d, at_x, at_c, holds⟩ := tracing.holds x c before
      exact ⟨b₀, d, at_x, (copying.kept tracing before).trans at_c,
        holds.mono fun _ _ => copying.place tracing⟩
  · intro c stays
    rcases (copies.stays c).mp stays with before | rfl
    · obtain ⟨x, before⟩ := tracing.onto c before
      exact ⟨x, copying.place tracing before⟩
    · exact ⟨a, placed⟩
  · intro x x' c first second
    rcases copying.before tracing first with ⟨rfl, rfl⟩ | ⟨_, first⟩ <;>
      rcases copying.before tracing second with ⟨rfl, same⟩ | ⟨_, second⟩
    · rfl
    · exact absurd (tracing.held second) copies.free
    · exact absurd (same ▸ tracing.held first) copies.free
    · exact tracing.injective x x' c first second
  · intro c member
    rcases copies.scheduledNew c member with before | rfl
    · obtain ⟨x, lives, before⟩ := tracing.remembered c before
      exact ⟨x, lives, copying.place tracing before⟩
    · exact ⟨a, copying.lives, placed⟩
  · exact used
  · exact spent

theorem Copying.bit (copying : Copying h₀ h h' live a new b) (tracing : Tracing h₀ live h)
    {c : Nat} (member : c ∈ h.old.hdrs) : Bit h' c ↔ Bit h c := by
  have other : c ≠ a := fun same =>
    tracing.pass.layout.young_leaves copying.copies.young (same ▸ .inr member)
  unfold Bit
  rw [copying.copies.frame c (.inr (.inr member)) other]

theorem Copying.settled (copying : Copying h₀ h h' live a new b) (tracing : Tracing h₀ live h)
    (old : h.fullGc = true → h'.old.hdrs = h.old.hdrs) {isEnv : Bool} {w : Nat}
    (settled : Settled h₀ live h isEnv w) : Settled h₀ live h' isEnv w := by
  intro x points
  apply (settled x points).mono fun _ _ => copying.place tracing
  · exact copying.copies.flags.1
  · intro c full member
    rw [old full] at member
    exact ⟨member, (copying.bit tracing member).mpr⟩

theorem Copying.grows (copying : Copying h₀ h h' live a new b) (tracing : Tracing h₀ live h)
    (old : h.fullGc = true → h'.old.hdrs = h.old.hdrs)
    (budget : 16 * h'.remembered.length + budget h₀ h' ≤
      16 * h.remembered.length + budget h₀ h) : Grows h₀ live h h' := by
  have copies := copying.copies
  have later : Later h₀ live h h' := by
    constructor
    · exact copies.flags.1
    · exact fun _ _ => copying.place tracing
    · exact copies.future
    · exact copies.old
    · intro c member _
      exact (copying.bit tracing member).mpr
    · intro x c s placed clean d at_c member
      rw [copying.kept tracing placed] at at_c
      exact copying.settled tracing old (clean d at_c member)
    · intro x c placed inside d at_c
      rw [copying.kept tracing placed] at at_c
      exact inside d at_c
  refine ⟨later, copies.remembered, ?_, budget⟩
  intro c scannable
  rcases scannable with ⟨member, bit⟩ | ⟨young, placed⟩
  · rcases copies.scheduled c member with before | scheduled
    · left
      left
      refine ⟨before, fun full => ?_⟩
      exact (copying.bit tracing before).mp (bit (copies.flags.1.trans full))
    · exact .inr scheduled
  · rcases copying.before tracing placed with ⟨rfl, same⟩ | ⟨_, before⟩
    · obtain ⟨r, copy⟩ := copies.copy
      exact absurd same copy.apart
    · exact .inl (.inr ⟨young, before⟩)

end copies

section marks
variable {h₀ h h' : Heap} {live : Nat → Prop} {c : Nat} {b : Block}

theorem Place.congr {x y : Nat} (placed : Place h₀ h x y) (fullGc : h'.fullGc = h.fullGc)
    (same : Young h₀ x → ∀ d, h.cells x = some d → ∃ d', h'.cells x = some d' ∧
      d'.forward = d.forward ∧ d'.generation = d.generation ∧ d'.remembered = d.remembered ∧
      (d.forward = true → d'.words 0 = d.words 0)) : Place h₀ h' x y := by
  cases placed with
  | old member => exact .old member
  | moved young block forward place =>
    obtain ⟨d', at_x, forward', _, _, word⟩ := same young _ block
    exact .moved young at_x (forward'.trans forward) ((word forward).trans place)
  | postponed young full block present third marked =>
    obtain ⟨d', at_x, forward', generation, remembered, _⟩ := same young _ block
    exact .postponed young (fullGc.trans full) at_x (forward'.trans present)
      (generation.trans third) (remembered.trans marked)

theorem Tracing.youngs (tracing : Tracing h₀ live h) {x : Nat} : Young h x ↔ Young h₀ x := by
  rw [Young, tracing.spaces.1, tracing.spaces.2, Young]

/-- A full collection marks the live block b at c, in the old space or in its place among the
    young. -/
structure Marking (h₀ h : Heap) (live : Nat → Prop) (c : Nat) (b : Block) : Prop where
  full : h.fullGc = true
  block : h.cells c = some b
  unmarked : b.remembered = false
  kind : (c ∈ h.old.hdrs ∧ ∃ a, live a ∧ Place h₀ h a c) ∨
    Young h₀ c ∧ live c ∧ b.forward = false ∧ b.generation = 3 ∧ h₀.cells c = some b ∧
      ∀ y, ¬ Place h₀ h c y
  layout : Layout (remember h c b)

theorem remember_at {y : Nat} (other : y ≠ c) : (remember h c b).cells y = h.cells y :=
  Function.update_of_ne other _ _

theorem remember_self : (remember h c b).cells c = some { b with remembered := true } :=
  Function.update_self _ _ _

theorem Marking.place (marking : Marking h₀ h live c b) (tracing : Tracing h₀ live h)
    {x y : Nat} (placed : Place h₀ h x y) : Place h₀ (remember h c b) x y := by
  apply placed.congr (show (remember h c b).fullGc = h.fullGc from rfl)
  intro young d at_x
  have other : x ≠ c := by
    intro same
    subst same
    rcases marking.kind with ⟨member, _⟩ | ⟨_, _, _, _, _, unplaced⟩
    · exact tracing.pass.layout.young_leaves (tracing.youngs.mpr young) (.inr member)
    · exact unplaced y placed
  exact ⟨d, (remember_at other).trans at_x, rfl, rfl, rfl, fun _ => rfl⟩

theorem Marking.before (marking : Marking h₀ h live c b) (tracing : Tracing h₀ live h)
    {x y : Nat} (placed : Place h₀ (remember h c b) x y) :
    Place h₀ h x y ∨ x = c ∧ y = c ∧ Young h₀ c ∧ live c := by
  by_cases here : x = c
  · subst here
    rcases marking.kind with ⟨member, _⟩ | ⟨young, lives, present, _, _, _⟩
    · have leaves : Young h₀ x → ¬ Stays h x := fun young =>
        tracing.pass.layout.young_leaves (tracing.youngs.mpr young)
      cases placed with
      | old member => exact .inl (.old member)
      | moved young => exact absurd (.inr member) (leaves young)
      | postponed young => exact absurd (.inr member) (leaves young)
    · cases placed with
      | old member => exact .inl (.old member)
      | moved _ block forward =>
        obtain rfl := Option.some.inj (remember_self.symm.trans block)
        exact absurd (present.symm.trans forward) (by simp)
      | postponed young => exact .inr ⟨rfl, rfl, young, lives⟩
  · left
    apply placed.congr (show h.fullGc = (remember h c b).fullGc from rfl)
    intro _ d at_x
    rw [remember_at here] at at_x
    exact ⟨d, at_x, rfl, rfl, rfl, fun _ => rfl⟩

theorem Marking.placed (marking : Marking h₀ h live c b) (tracing : Tracing h₀ live h) :
    ∃ a, live a ∧ Place h₀ (remember h c b) a c := by
  rcases marking.kind with ⟨_, a, lives, placed⟩ | ⟨young, lives, present, third, _, _⟩
  · exact ⟨a, lives, marking.place tracing placed⟩
  · exact ⟨c, lives, .postponed young marking.full remember_self present third rfl⟩

theorem Marking.holds (marking : Marking h₀ h live c b) (tracing : Tracing h₀ live h)
    {y : Nat} {b₀ d : Block} (at_y : h.cells y = some d) (holds : Holds h₀ h y b₀ d) :
    ∃ d', (remember h c b).cells y = some d' ∧ Holds h₀ (remember h c b) y b₀ d' := by
  have later := holds.mono fun _ _ => marking.place tracing
  by_cases here : y = c
  · subst here
    obtain rfl := Option.some.inj (marking.block.symm.trans at_y)
    exact ⟨_, remember_self, later.type, later.size, later.present, later.slot, later.inner,
      later.other⟩
  · exact ⟨d, (remember_at here).trans at_y, later⟩

theorem remember_hasMoved (block : h.cells c = some b) {x : Nat} :
    HasMoved (remember h c b) x ↔ HasMoved h x := by
  unfold HasMoved
  by_cases here : x = c
  · subst here
    rw [remember_self, block]
    simp
  · rw [remember_at here]

theorem Marking.tracing (marking : Marking h₀ h live c b) (tracing : Tracing h₀ live h) :
    Tracing h₀ live (remember h c b) := by
  have moved : ∀ p : Nat → Prop, total h₀ (fun x => HasMoved (remember h c b) x ∧ p x) =
      total h₀ fun x => HasMoved h x ∧ p x := by
    intro p
    apply total_congr
    intro x _
    rw [remember_hasMoved marking.block]
  constructor
  · exact ⟨marking.layout, tracing.pass.fullGc, tracing.pass.oldMap,
      tracing.pass.remember marking.block⟩
  · exact tracing.spaces
  · exact tracing.oldHdrs
  · exact tracing.oldSame
  · intro x d young at_x
    by_cases here : x = c
    · obtain ⟨a, _, placed⟩ := marking.placed tracing
      rcases marking.kind with ⟨member, _⟩ | ⟨_, _, present, third, _, _⟩
      · exact absurd (.inr (here ▸ member))
          (tracing.pass.layout.young_leaves (tracing.youngs.mpr young))
      · exact .inr ⟨c, here ▸ .postponed (here ▸ young) marking.full remember_self present third rfl⟩
    · rw [remember_at here] at at_x
      rcases tracing.left x d young at_x with raw | ⟨y, placed⟩
      · exact .inl raw
      · exact .inr ⟨y, marking.place tracing placed⟩
  · intro x y placed
    rcases marking.before tracing placed with before | ⟨rfl, rfl, young, _⟩
    · exact tracing.place x y before
    · exact .inr ⟨young, rfl⟩
  · intro x y placed young
    rcases marking.before tracing placed with before | ⟨rfl, _, _, lives⟩
    · exact tracing.source x y before young
    · exact lives
  · intro x young placed
    rcases marking.before tracing placed with before | ⟨rfl, _⟩
    · exact tracing.third x young before
    · rcases marking.kind with ⟨member, _⟩ | ⟨_, _, _, third, raw, _⟩
      · exact absurd (.inr member)
          (tracing.pass.layout.young_leaves (tracing.youngs.mpr young))
      · exact ⟨b, raw, third⟩
  · intro x y placed
    rcases marking.before tracing placed with before | ⟨rfl, rfl, young, _⟩
    · obtain ⟨b₀, d, at_x, at_y, holds⟩ := tracing.holds x y before
      obtain ⟨d', at_y', holds'⟩ := marking.holds tracing at_y holds
      exact ⟨b₀, d', at_x, at_y', holds'⟩
    · rcases marking.kind with ⟨member, _⟩ | ⟨_, _, present, _, raw, _⟩
      · exact absurd (.inr member)
          (tracing.pass.layout.young_leaves (tracing.youngs.mpr young))
      · exact ⟨b, _, raw, remember_self, rfl, rfl, present, fun _ _ => .inl rfl,
          fun _ _ _ => .inl rfl, fun _ _ _ => rfl⟩
  · intro y stays
    obtain ⟨x, placed⟩ := tracing.onto y stays
    exact ⟨x, marking.place tracing placed⟩
  · have alone : ∀ x, Young h₀ c → Place h₀ h x c → x = c := by
      intro x young placed
      rcases tracing.place x c placed with stays | ⟨_, same⟩
      · exact absurd stays (tracing.pass.layout.young_leaves (tracing.youngs.mpr young))
      · exact same.symm
    intro x x' y first second
    rcases marking.before tracing first with before | ⟨rfl, rfl, young, _⟩ <;>
      rcases marking.before tracing second with before' | ⟨rfl, same, young', _⟩
    · exact tracing.injective x x' y before before'
    · exact alone x young' (same ▸ before)
    · exact (alone x' young before').symm
    · rfl
  · intro y member
    rcases List.mem_append.mp member with before | new
    · obtain ⟨x, lives, placed⟩ := tracing.remembered y before
      exact ⟨x, lives, marking.place tracing placed⟩
    · rw [List.mem_singleton.mp new]
      exact marking.placed tracing
  · rw [moved fun x => ¬ Third h₀ x]
    exact tracing.used
  · rw [moved fun x => Third h₀ x]
    exact tracing.spent

theorem remember_bit {y : Nat} (bit : Bit h y) : Bit (remember h c b) y := by
  by_cases here : y = c
  · subst here
    exact ⟨_, remember_self, rfl⟩
  · obtain ⟨d, at_y, marked⟩ := bit
    exact ⟨d, (remember_at here).trans at_y, marked⟩

theorem Marking.settled (marking : Marking h₀ h live c b) (tracing : Tracing h₀ live h)
    {isEnv : Bool} {w : Nat} (settled : Settled h₀ live h isEnv w) :
    Settled h₀ live (remember h c b) isEnv w := by
  intro x points
  apply (settled x points).mono fun _ _ => marking.place tracing
  · rfl
  · exact fun y _ member => ⟨member, remember_bit⟩

theorem Tracing.nodup (tracing : Tracing h₀ live h) (layout : Layout h₀) :
    (h.old.hdrs ++ Gc.youngs h₀).Nodup := by
  apply List.nodup_append.mpr
  refine ⟨tracing.pass.layout.old.chain.nodup, layout.youngs_nodup, ?_⟩
  intro x old y young same
  subst same
  exact tracing.pass.layout.young_leaves (tracing.youngs.mpr (mem_youngs.mp young)) (.inr old)

theorem Marking.budget (marking : Marking h₀ h live c b) (tracing : Tracing h₀ live h)
    (layout : Layout h₀) : 16 * (remember h c b).remembered.length + budget h₀ (remember h c b) ≤
      16 * h.remembered.length + budget h₀ h := by
  have member : c ∈ h.old.hdrs ++ Gc.youngs h₀ := by
    rw [List.mem_append, mem_youngs]
    exact marking.kind.imp And.left And.left
  have change := sum_map_change
    (f := fun a => ((h.cells a).map fun b => if b.remembered then 0 else 1).getD 0)
    (g := fun a => (((remember h c b).cells a).map fun b => if b.remembered then 0 else 1).getD 0)
    (tracing.nodup layout) member fun y _ other => by
      simp only [remember_at other]
  simp only [remember_self, marking.block, Option.map_some, Option.getD_some, if_true,
    marking.unmarked, Bool.false_eq_true, if_false] at change
  have full : (remember h c b).fullGc = true := marking.full
  have length : (remember h c b).remembered.length = h.remembered.length + 1 := by
    simp [remember]
  rw [Gc.budget, Gc.budget, if_pos full, if_pos marking.full, length]
  unfold Gc.unmarked
  have old : (remember h c b).old.hdrs = h.old.hdrs := rfl
  rw [old]
  omega

theorem Marking.grows (marking : Marking h₀ h live c b) (tracing : Tracing h₀ live h)
    (layout : Layout h₀) : Grows h₀ live h (remember h c b) := by
  have later : Later h₀ live h (remember h c b) := by
    constructor
    · rfl
    · exact fun _ _ => marking.place tracing
    · exact List.prefix_rfl
    · exact List.prefix_rfl
    · exact fun y _ _ => remember_bit
    · intro x y s placed clean d at_y member
      by_cases here : y = c
      · subst here
        obtain rfl := Option.some.inj (remember_self.symm.trans at_y)
        exact marking.settled tracing (clean b marking.block member)
      · rw [remember_at here] at at_y
        exact marking.settled tracing (clean d at_y member)
    · intro x y placed inside d at_y
      by_cases here : y = c
      · subst here
        obtain rfl := Option.some.inj (remember_self.symm.trans at_y)
        exact inside b marking.block
      · rw [remember_at here] at at_y
        exact inside d at_y
  refine ⟨later, List.prefix_append _ _, ?_, marking.budget tracing layout⟩
  intro y scannable
  by_cases here : y = c
  · right
    simp [remember, here]
  · left
    rcases scannable with ⟨member, bit⟩ | ⟨young, placed⟩
    · left
      refine ⟨member, fun full => ?_⟩
      obtain ⟨d, at_y, marked⟩ := bit full
      exact ⟨d, (remember_at here).symm.trans at_y, marked⟩
    · rcases marking.before tracing placed with before | ⟨same, _⟩
      · exact .inr ⟨young, before⟩
      · exact absurd same here

end marks

/- The visit of a pointer, in the terms of the pass. -/

section visit
variable {h₀ h h' : Heap} {live : Nat → Prop} {obj : Nat}

theorem Place.functional (layout : Layout h₀) {x y z : Nat} (first : Place h₀ h x y)
    (second : Place h₀ h x z) : y = z := by
  have apart : Young h₀ x → x ∉ h₀.old.hdrs := fun young old =>
    layout.young_leaves young (.inr old)
  cases first with
  | old member =>
    cases second with
    | old => rfl
    | moved young => exact absurd member (apart young)
    | postponed => rfl
  | moved young block forward place =>
    cases second with
    | old member => exact absurd member (apart young)
    | moved _ block' _ place' =>
      obtain rfl := Option.some.inj (block.symm.trans block')
      unfold BHDR_SIZE at place place'
      omega
    | postponed _ _ block' present =>
      obtain rfl := Option.some.inj (block.symm.trans block')
      exact absurd (present.symm.trans forward) (by simp)
  | postponed young full block present =>
    cases second with
    | old => rfl
    | moved _ block' forward =>
      obtain rfl := Option.some.inj (block.symm.trans block')
      exact absurd (present.symm.trans forward) (by simp)
    | postponed => rfl

/-- The visit of a word in the course of a pass. -/
structure Visited (h₀ : Heap) (live : Nat → Prop) (h : Heap) (isEnv : Bool) (w : Nat) (w' : Nat)
    (h' : Heap) : Prop where
  tracing : Tracing h₀ live h'
  grows : Grows h₀ live h h'
  word : w' = w ∨ ∃ a c, target isEnv w = some a ∧ live a ∧ Place h₀ h' a c ∧
    w' = redirect isEnv c
  settled : Settled h₀ live h' isEnv w'

theorem Later.refl : Later h₀ live h h :=
  ⟨rfl, fun _ _ => id, List.prefix_rfl, List.prefix_rfl, fun _ _ _ => id, fun _ _ _ _ => id,
    fun _ _ _ => id⟩

theorem Grows.refl : Grows h₀ live h h :=
  ⟨Later.refl, List.prefix_rfl, fun _ => .inl, Nat.le_refl _⟩

theorem Copying.hasMoved {a : Nat} {new : Nat} {b : Block} (copying : Copying h₀ h h' live a new b)
    (tracing : Tracing h₀ live h) {x : Nat} (young : Young h₀ x) :
    HasMoved h' x ↔ HasMoved h x ∨ x = a := by
  obtain ⟨r, copy⟩ := copying.copies.copy
  by_cases here : x = a
  · subst here
    simp [HasMoved, copy.at_source]
  · unfold HasMoved
    rw [copying.copies.frame x (.inl (tracing.youngs.mpr young)) here]
    simp [here]

theorem Tracing.moved_live (tracing : Tracing h₀ live h) {x : Nat} (young : Young h₀ x)
    (moved : HasMoved h x) : ∃ c, live x ∧ Place h₀ h x c ∧ ∃ b, h.cells x = some b ∧
      makeHeapPtr (b.words 0) = redirect false c := by
  obtain ⟨b, block, forward⟩ := moved
  rcases tracing.left x b young block with ⟨present, _⟩ | ⟨c, placed⟩
  · exact absurd (present.symm.trans forward) (by simp)
  · have lives := tracing.source x c placed young
    cases placed with
    | old member =>
      exact absurd (.inr (tracing.oldHdrs.subset member))
        (tracing.pass.layout.young_leaves (tracing.youngs.mpr young))
    | moved _ block' forward' place =>
      obtain rfl := Option.some.inj (block.symm.trans block')
      exact ⟨c, lives, .moved young block forward place, b, block, by simp [redirect, place]⟩
    | postponed _ _ block' present =>
      obtain rfl := Option.some.inj (block.symm.trans block')
      exact absurd (present.symm.trans forward) (by simp)

theorem Tracing.raw (tracing : Tracing h₀ live h) {x : Nat} {b : Block} (young : Young h₀ x)
    (block : h.cells x = some b) (present : b.forward = false)
    (copied : b.generation = 3 → h.fullGc = true → b.remembered = false) :
    h₀.cells x = some b ∧ ∀ c, ¬ Place h₀ h x c := by
  have unplaced : ∀ c, ¬ Place h₀ h x c := by
    intro c placed
    cases placed with
    | old member =>
      exact tracing.pass.layout.young_leaves (tracing.youngs.mpr young)
        (.inr (tracing.oldHdrs.subset member))
    | moved _ block' forward =>
      obtain rfl := Option.some.inj (block.symm.trans block')
      exact absurd (present.symm.trans forward) (by simp)
    | postponed _ full block' _ third marked =>
      obtain rfl := Option.some.inj (block.symm.trans block')
      exact absurd ((copied third full).symm.trans marked) (by simp)
  rcases tracing.left x b young block with ⟨_, raw⟩ | ⟨c, placed⟩
  · exact ⟨raw, unplaced⟩
  · exact absurd placed (unplaced c)

theorem bytes_eq {a : Nat} {b : Block} (raw : h₀.cells a = some b) :
    bytes h₀ a = BHDR_SIZE + b.size := by
  simp [bytes, raw]

theorem third_iff {a : Nat} {b : Block} (raw : h₀.cells a = some b) :
    Third h₀ a ↔ b.generation = 3 := by
  simp [Third, raw]

/- The marks are counted by what the headers say. -/
theorem unmarked_congr (old : h'.old.hdrs = h.old.hdrs)
    (same : ∀ y, Held h y → (h'.cells y).map Block.remembered = (h.cells y).map Block.remembered)
    (spaces : ∀ y, Young h₀ y → Young h y) : Gc.unmarked h₀ h' = Gc.unmarked h₀ h := by
  have count : ∀ o : Option Block, (o.map fun b => if b.remembered then 0 else 1) =
      (o.map Block.remembered).map fun r => if r then 0 else 1 := by
    intro o
    cases o <;> rfl
  unfold Gc.unmarked
  rw [old]
  apply sum_map_congr
  intro y member
  have held : Held h y := by
    rcases List.mem_append.mp member with old | young
    · exact .inr (.inr old)
    · exact .inl (spaces y (mem_youngs.mp young))
  simp only [count, same y held]

/- What a copy adds to the sums of the blocks that have been copied. -/

theorem Copying.total_add {a : Nat} {new : Nat} {b : Block} (copying : Copying h₀ h h' live a new b)
    (tracing : Tracing h₀ live h) (layout : Layout h₀) {p : Nat → Prop} (here : p a) :
    (total h₀ fun x => HasMoved h' x ∧ p x) =
      (total h₀ fun x => HasMoved h x ∧ p x) + (BHDR_SIZE + b.size) := by
  have young := tracing.youngs.mp copying.copies.young
  have still : ¬ (HasMoved h a ∧ p a) := by
    intro moved
    obtain ⟨c, _, placed, _⟩ := tracing.moved_live young moved.1
    exact copying.unplaced c placed
  rw [← bytes_eq copying.raw]
  apply total_insert layout young still
  intro x young'
  rw [copying.hasMoved tracing young']
  constructor
  · intro both
    rcases both.1 with moved | same
    · exact .inl ⟨moved, both.2⟩
    · exact .inr same
  · intro either
    rcases either with ⟨moved, holds⟩ | rfl
    · exact ⟨.inl moved, holds⟩
    · exact ⟨.inr rfl, here⟩

theorem Copying.total_same {a : Nat} {new : Nat} {b : Block}
    (copying : Copying h₀ h h' live a new b) (tracing : Tracing h₀ live h) {p : Nat → Prop}
    (other : ¬ p a) :
    (total h₀ fun x => HasMoved h' x ∧ p x) = total h₀ fun x => HasMoved h x ∧ p x := by
  apply total_congr
  intro x young
  rw [copying.hasMoved tracing young]
  constructor
  · intro both
    rcases both.1 with moved | rfl
    · exact ⟨moved, both.2⟩
    · exact absurd both.2 other
  · exact fun both => ⟨.inl both.1, both.2⟩

/- A copy is what the word that led to it becomes. -/
theorem Copying.visited {new : Nat} {b : Block}
    (copying : Copying h₀ h h' live (hdrOf obj) new b) (tracing : Tracing h₀ live h)
    (pointer : isHeapPtr obj) (after : Tracing h₀ live h')
    (old : h.fullGc = true → h'.old.hdrs = h.old.hdrs)
    (budget : 16 * h'.remembered.length + budget h₀ h' ≤
      16 * h.remembered.length + budget h₀ h) :
    Visited h₀ live h false obj (makeHeapPtr (new + BHDR_SIZE)) h' := by
  have placed := copying.placed tracing
  have aligned := (after.pass.layout.aligned (after.held placed)).1
  constructor
  · exact after
  · exact copying.grows tracing old budget
  · exact .inr ⟨_, new, target_object.mpr ⟨pointer, rfl⟩, copying.lives, placed, rfl⟩
  · intro x points
    obtain rfl := Option.some.inj ((target_redirect false aligned).symm.trans points)
    refine ⟨⟨_, copying.lives, placed⟩, ?_⟩
    intro full member
    have before : h.fullGc = true := copying.copies.flags.1.symm.trans full
    rw [old before] at member
    exact absurd (.inr (.inr member)) copying.copies.free

theorem Tracing.copied (tracing : Tracing h₀ live h) (layout₀ : Layout h₀) {b : Block}
    {cells : Cells} (points : Points h obj b) (young : Young h (hdrOf obj))
    (present : b.forward = false) (below : b.generation ≠ 3)
    (room : b.size + BHDR_SIZE ≤ h.futureSurvived.freeMem)
    (copy : Copied h.cells cells (hdrOf obj) h.futureSurvived.pos b b.remembered)
    (lives : live (hdrOf obj)) (layout : Layout (copied h b cells)) :
    Visited h₀ live h false obj (makeHeapPtr (h.futureSurvived.pos + BHDR_SIZE))
      (copied h b cells) := by
  obtain ⟨raw, unplaced⟩ := tracing.raw (tracing.youngs.mp young) points.block present
    fun third => absurd third below
  have copies := copies_copied tracing.pass.layout points young present below room copy
  have copying : Copying h₀ h (Gc.copied h b cells) live (hdrOf obj) h.futureSurvived.pos b :=
    ⟨copies, layout, lives, raw, unplaced⟩
  have other : ¬ Third h₀ (hdrOf obj) := mt (third_iff raw).mp below
  have after : Tracing h₀ live (Gc.copied h b cells) := by
    apply copying.tracing tracing fun _ => rfl
    · rw [copying.total_add tracing layout₀ other]
      have used := tracing.used
      simp only [Gc.copied, Space.append]
      omega
    · rw [copying.total_same tracing other]
      exact tracing.spent
  apply copying.visited tracing points.pointer after fun _ => rfl
  have marks : Gc.unmarked h₀ (Gc.copied h b cells) = Gc.unmarked h₀ h := by
    apply unmarked_congr (show (Gc.copied h b cells).old.hdrs = h.old.hdrs from rfl) _
      fun y => tracing.youngs.mpr
    intro y held
    by_cases here : y = hdrOf obj
    · subst here
      simp [Gc.copied, copy.at_source, points.block]
    · exact congrArg _ (copies.frame y held here)
  simp only [budget, marks]
  exact Nat.le_refl _

theorem Tracing.promoted (tracing : Tracing h₀ live h) (layout₀ : Layout h₀) {b : Block}
    {cells : Cells} (points : Points h obj b) (young : Young h (hdrOf obj))
    (present : b.forward = false) (third : b.generation = 3) (minor : h.fullGc = false)
    (room : b.size + BHDR_SIZE ≤ oldRoom h)
    (copy : Copied h.cells cells (hdrOf obj) (oldSpace h).pos b false)
    (lives : live (hdrOf obj)) (layout : Layout (promoted h b cells)) :
    Visited h₀ live h false obj (makeHeapPtr ((oldSpace h).pos + BHDR_SIZE))
      (promoted h b cells) := by
  obtain ⟨raw, unplaced⟩ := tracing.raw (tracing.youngs.mp young) points.block present
    fun _ full => absurd (minor.symm.trans full) (by simp)
  have copies := copies_promoted tracing.pass.layout points young present third minor room copy
  have copying : Copying h₀ h (Gc.promoted h b cells) live (hdrOf obj) (oldSpace h).pos b :=
    ⟨copies, layout, lives, raw, unplaced⟩
  have here : Third h₀ (hdrOf obj) := (third_iff raw).mpr third
  have rest : oldRoom (Gc.promoted h b cells) = oldRoom h - (b.size + BHDR_SIZE) :=
    oldRoom_promoted tracing.pass.layout
  have after : Tracing h₀ live (Gc.promoted h b cells) := by
    apply copying.tracing tracing
    · intro full
      exact absurd (minor.symm.trans full) (by simp)
    · rw [copying.total_same tracing (not_not_intro here)]
      exact tracing.used
    · rw [copying.total_add tracing layout₀ here, rest]
      have spent := tracing.spent
      omega
  apply copying.visited tracing points.pointer after
  · intro full
    exact absurd (minor.symm.trans full) (by simp)
  · have minor' : (Gc.promoted h b cells).fullGc = false := minor
    have sized := tracing.pass.layout.sized _ b points.block
    have length : (Gc.promoted h b cells).remembered.length = h.remembered.length + 1 := by
      simp [Gc.promoted]
    simp only [budget, minor, minor', Bool.false_eq_true, if_false, length, rest]
    unfold BHDR_SIZE at *
    omega

theorem Tracing.fails (tracing : Tracing h₀ live h) (source : Source h₀ live)
    (held : isHeapPtr obj → Held h (hdrOf obj))
    (lives : Young h₀ (hdrOf obj) → isHeapPtr obj → live (hdrOf obj)) {e : Abort}
    (fails : MarkFails h obj e) : Overflow h₀ live e := by
  have layout := tracing.pass.layout
  have moves : ∀ {p : Nat → Prop} {b : Block}, Points h obj b → Young h (hdrOf obj) →
      h₀.cells (hdrOf obj) = some b → b.forward = false → p (hdrOf obj) →
      (total h₀ fun x => HasMoved h x ∧ p x) + (BHDR_SIZE + b.size) ≤
        total h₀ fun x => live x ∧ p x := by
    intro p b points young raw present here
    have young := tracing.youngs.mp young
    have still : ¬ (HasMoved h (hdrOf obj) ∧ p (hdrOf obj)) := by
      intro both
      obtain ⟨d, block, forward⟩ := both.1
      obtain rfl := Option.some.inj (points.block.symm.trans block)
      exact absurd (present.symm.trans forward) (by simp)
    rw [← bytes_eq raw, ← total_insert source.quiet.layout young still
      (q := fun x => HasMoved h x ∧ p x ∨ x = hdrOf obj) fun _ _ => Iff.rfl]
    apply total_mono
    intro x young' either
    rcases either with ⟨moved, holds⟩ | rfl
    · obtain ⟨_, x_lives, _⟩ := tracing.moved_live young' moved
      exact ⟨x_lives, holds⟩
    · exact ⟨lives young points.pointer, here⟩
  cases fails with
  | foreign pointer below outside =>
    have positive := layout.aligned (held pointer)
    rw [ptr_eq positive.2] at below outside
    rcases layout.not_foreign (held pointer) with inside | inside
    · omega
    · exact absurd inside outside
  | undefined pointer absent =>
    obtain ⟨b, block⟩ := layout.block (held pointer)
    exact absurd (block.symm.trans absent) (by simp)
  | survivedFull b points young present below full =>
    obtain ⟨raw, _⟩ := tracing.raw (tracing.youngs.mp young) points.block present
      fun third => absurd third below
    have sum := moves (p := fun x => ¬ Third h₀ x) points young raw present
      (mt (third_iff raw).mp below)
    have used := tracing.used
    have total := layout.future.total
    have size := layout.areas.sizes.2
    exact .survived (by omega)
  | oldFull b points young present third minor full =>
    obtain ⟨raw, _⟩ := tracing.raw (tracing.youngs.mp young) points.block present
      fun _ full => absurd (minor.symm.trans full) (by simp)
    have sum := moves (p := Third h₀) points young raw present ((third_iff raw).mpr third)
    have spent := tracing.spent
    exact .old (by omega)

theorem Tracing.keeps (tracing : Tracing h₀ live h) {a : Nat} (lives : live a)
    (placed : Place h₀ h a (hdrOf obj))
    (bit : h.fullGc = true → hdrOf obj ∈ h.old.hdrs → Bit h (hdrOf obj)) :
    Visited h₀ live h false obj obj h := by
  refine ⟨tracing, Grows.refl, .inl rfl, ?_⟩
  intro x points
  obtain ⟨_, rfl⟩ := target_object.mp points
  exact ⟨⟨a, lives, placed⟩, bit⟩

theorem Tracing.marks (tracing : Tracing h₀ live h) (layout₀ : Layout h₀) {b : Block}
    (marking : Marking h₀ h live (hdrOf obj) b) :
    Visited h₀ live h false obj obj (remember h (hdrOf obj) b) := by
  refine ⟨marking.tracing tracing, marking.grows tracing layout₀, .inl rfl, ?_⟩
  intro x points
  obtain ⟨_, rfl⟩ := target_object.mp points
  exact ⟨marking.placed tracing, fun _ _ => ⟨_, remember_self, rfl⟩⟩

theorem Tracing.lookedUp (tracing : Tracing h₀ live h) : lookedUp h obj = obj := by
  unfold Gc.lookedUp
  rw [tracing.pass.oldMap]
  rfl

theorem Tracing.heapMark (tracing : Tracing h₀ live h) (source : Source h₀ live)
    (known : Known h₀ live h false obj) :
    Ends (heapMark obj) h (Visited h₀ live h false obj) (Overflow h₀ live) := by
  have layout := tracing.pass.layout
  have layout₀ := source.quiet.layout
  have held : isHeapPtr obj → Held h (hdrOf obj) := by
    intro pointer
    rcases known _ (target_object.mpr ⟨pointer, rfl⟩) with lives | ⟨a, _, placed⟩
    · rcases source.block _ lives with young | old
      · exact .inl (tracing.youngs.mpr young)
      · exact .inr (.inr (tracing.oldHdrs.subset old))
    · exact tracing.held placed
  have lives : Young h₀ (hdrOf obj) → isHeapPtr obj → live (hdrOf obj) := by
    intro young pointer
    rcases known _ (target_object.mpr ⟨pointer, rfl⟩) with lives | ⟨a, lives, placed⟩
    · exact lives
    · rcases tracing.place a _ placed with stays | ⟨_, same⟩
      · exact absurd stays (layout.young_leaves (tracing.youngs.mpr young))
      · exact same ▸ lives
  have place : isHeapPtr obj → Stays h (hdrOf obj) → ∃ a, live a ∧ Place h₀ h a (hdrOf obj) := by
    intro pointer stays
    rcases known _ (target_object.mpr ⟨pointer, rfl⟩) with lives | placed
    · rcases source.block _ lives with young | old
      · exact absurd stays (layout.young_leaves (tracing.youngs.mpr young))
      · exact ⟨_, lives, .old old⟩
    · exact placed
  have payload : isHeapPtr obj → ptr obj = hdrOf obj + BHDR_SIZE := fun pointer =>
    ptr_eq (layout.aligned (held pointer)).2
  have after := keeps_layout_heapMark obj h layout
  apply ((ends_heapMark layout).and after).mono
  · intro w h' both
    obtain ⟨marked, layout'⟩ := both
    cases marked with
    | immediate other =>
      refine ⟨tracing, Grows.refl, .inl rfl, ?_⟩
      intro x points
      exact absurd (target_object.mp points).1 other
    | future pointer inside =>
      rw [payload pointer] at inside
      have member := layout.in_future (held pointer) inside
      obtain ⟨a, a_lives, placed⟩ := place pointer (.inl member)
      exact tracing.keeps a_lives placed fun _ old =>
        absurd old (layout.future_not_old member)
    | old pointer inside marked =>
      rw [payload pointer] at inside
      have member := layout.in_old (held pointer) inside
      obtain ⟨a, a_lives, placed⟩ := place pointer (.inr member)
      rw [tracing.lookedUp]
      apply tracing.keeps a_lives placed
      intro full _
      obtain ⟨b, points, bit⟩ := marked full
      exact ⟨b, points.block, bit⟩
    | reached b points inside full unmarked =>
      rw [payload points.pointer] at inside
      have member := layout.in_old (held points.pointer) inside
      exact tracing.marks layout₀ ⟨full, points.block, unmarked,
        .inl ⟨member, place points.pointer (.inr member)⟩, layout'⟩
    | forwarded b points young forward =>
      have young₀ := tracing.youngs.mp young
      obtain ⟨c, a_lives, placed, d, block, word⟩ :=
        tracing.moved_live young₀ ⟨b, points.block, forward⟩
      obtain rfl := Option.some.inj (points.block.symm.trans block)
      have aligned := (layout.aligned (tracing.held placed)).1
      refine ⟨tracing, Grows.refl,
        .inr ⟨_, c, target_object.mpr ⟨points.pointer, rfl⟩, a_lives, placed, word⟩, ?_⟩
      intro x target
      rw [word, target_redirect false aligned] at target
      obtain rfl := Option.some.inj target
      refine ⟨⟨_, a_lives, placed⟩, ?_⟩
      intro full member
      rw [tracing.oldSame full] at member
      have same := tracing.injective _ _ _ placed (.old member)
      exact absurd (.inr (same ▸ member)) (layout₀.young_leaves young₀)
    | postponed b points young present third full marked =>
      have young₀ := tracing.youngs.mp young
      apply tracing.keeps (lives young₀ points.pointer)
        (.postponed young₀ full points.block present third marked)
      exact fun _ old => absurd (.inr old) (layout.young_leaves young)
    | postpones b points young present third full unmarked =>
      have young₀ := tracing.youngs.mp young
      obtain ⟨raw, unplaced⟩ := tracing.raw young₀ points.block present fun _ _ => unmarked
      exact tracing.marks layout₀ ⟨full, points.block, unmarked,
        .inr ⟨young₀, lives young₀ points.pointer, present, third, raw, unplaced⟩, layout'⟩
    | copied b cells points young present below room copy =>
      exact tracing.copied layout₀ points young present below room copy
        (lives (tracing.youngs.mp young) points.pointer) layout'
    | promoted b cells points young present third minor room copy =>
      exact tracing.promoted layout₀ points young present third minor room copy
        (lives (tracing.youngs.mp young) points.pointer) layout'
  · intro e both
    exact tracing.fails source held lives both.1

end visit

end LGears.Gc
