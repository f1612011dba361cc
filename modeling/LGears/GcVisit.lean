import LGears.GcLayout

/- The visit of a pointer, case by case: what it returns, which heap it leaves and when
   it fails. -/
namespace LGears.Gc
open StateExcept

/-- A block that a collection may copy. -/
def Young (h : Heap) (a : Nat) : Prop := a ∈ h.fresh.hdrs ∨ a ∈ h.survived.hdrs

/-- A block of one of the spaces. -/
def Held (h : Heap) (a : Nat) : Prop :=
  Young h a ∨ a ∈ h.futureSurvived.hdrs ∨ a ∈ h.old.hdrs

/-- A block that a collection leaves where it is. -/
def Stays (h : Heap) (a : Nat) : Prop := a ∈ h.futureSurvived.hdrs ∨ a ∈ h.old.hdrs

/-- The header of the block to which an object points. -/
def hdrOf (obj : Nat) : Nat := ptr obj - BHDR_SIZE

/-- The bytes that are left for promoted blocks. -/
def oldRoom (h : Heap) : Nat := if h.old.mem = 0 then OLD_SIZE else h.old.freeMem

/-- The old space a promotion uses. -/
def oldSpace (h : Heap) : Space := if h.old.mem = 0 then .init h.oldArea OLD_SIZE else h.old

/-- What the table of a compaction says of a pointer into the old space. -/
def lookedUp (h : Heap) (obj : Nat) : Nat :=
  match h.oldMap.bind (List.lookup (hdrOf obj)) with
  | some res => makeHeapPtr (res + BHDR_SIZE)
  | none => obj

/-- The block b at a has been copied to new, and its first word leads there. -/
structure Copied (cells cells' : Cells) (a : Nat) (new : Nat) (b : Block) (remembered : Bool) :
    Prop where
  at_new : cells' new = some { b with forward := false, generation := b.generation + 1 }
  at_source : cells' a =
    some { b.setWord 0 (new + BHDR_SIZE) with forward := true, remembered := remembered }
  apart : a ≠ new
  kept : ∀ c d, cells c = some d → c ≠ a →
    c + (BHDR_SIZE + d.size) ≤ new ∨ new + (BHDR_SIZE + b.size) ≤ c → cells' c = some d
  before : ∀ c d, cells' c = some d → c ≠ a → c ≠ new → cells c = some d

def remember (h : Heap) (hdr : Nat) (b : Block) : Heap :=
  { h with
    cells := Function.update h.cells hdr (some { b with remembered := true })
    remembered := h.remembered ++ [hdr] }

def copied (h : Heap) (b : Block) (cells : Cells) : Heap :=
  { h with futureSurvived := h.futureSurvived.append (b.size + BHDR_SIZE), cells := cells }

def promoted (h : Heap) (b : Block) (cells : Cells) : Heap :=
  { h with
    old := (oldSpace h).append (b.size + BHDR_SIZE)
    remembered := h.remembered ++ [(oldSpace h).pos]
    cells := cells }

/-- The block of a pointer that is neither foreign nor in the future survived space. -/
structure Points (h : Heap) (obj : Nat) (b : Block) : Prop where
  pointer : isHeapPtr obj
  block : h.cells (hdrOf obj) = some b

inductive Marked (h : Heap) (obj : Nat) : Nat → Heap → Prop where
  | immediate (other : ¬ isHeapPtr obj) : Marked h obj obj h
  | future (pointer : isHeapPtr obj) (inside : inSpace h.futureSurvived (ptr obj)) :
      Marked h obj obj h
  | old (pointer : isHeapPtr obj) (inside : inSpace h.old (ptr obj))
      (marked : h.fullGc → ∃ b, Points h obj b ∧ b.remembered) :
      Marked h obj (lookedUp h obj) h
  | reached (b : Block) (points : Points h obj b) (inside : inSpace h.old (ptr obj))
      (full : h.fullGc) (unmarked : b.remembered = false) :
      Marked h obj obj (remember h (hdrOf obj) b)
  | forwarded (b : Block) (points : Points h obj b) (young : Young h (hdrOf obj))
      (forward : b.forward) : Marked h obj (makeHeapPtr (b.words 0)) h
  | postponed (b : Block) (points : Points h obj b) (young : Young h (hdrOf obj))
      (present : b.forward = false) (third : b.generation = 3) (full : h.fullGc)
      (marked : b.remembered) : Marked h obj obj h
  | postpones (b : Block) (points : Points h obj b) (young : Young h (hdrOf obj))
      (present : b.forward = false) (third : b.generation = 3) (full : h.fullGc)
      (unmarked : b.remembered = false) : Marked h obj obj (remember h (hdrOf obj) b)
  | copied (b : Block) (cells : Cells) (points : Points h obj b) (young : Young h (hdrOf obj))
      (present : b.forward = false) (below : b.generation ≠ 3)
      (room : b.size + BHDR_SIZE ≤ h.futureSurvived.freeMem)
      (copy : Copied h.cells cells (hdrOf obj) h.futureSurvived.pos b b.remembered) :
      Marked h obj (makeHeapPtr (h.futureSurvived.pos + BHDR_SIZE)) (copied h b cells)
  | promoted (b : Block) (cells : Cells) (points : Points h obj b) (young : Young h (hdrOf obj))
      (present : b.forward = false) (third : b.generation = 3) (minor : h.fullGc = false)
      (room : b.size + BHDR_SIZE ≤ oldRoom h)
      (copy : Copied h.cells cells (hdrOf obj) (oldSpace h).pos b false) :
      Marked h obj (makeHeapPtr ((oldSpace h).pos + BHDR_SIZE)) (promoted h b cells)

inductive MarkFails (h : Heap) (obj : Nat) : Abort → Prop where
  | foreign (pointer : isHeapPtr obj) (below : ptr obj < h.mem ∨ h.mem + h.memSize < ptr obj)
      (outside : ¬ inSpace h.old (ptr obj)) : MarkFails h obj (.foreign (ptr obj))
  | undefined (pointer : isHeapPtr obj) (absent : h.cells (hdrOf obj) = none) :
      MarkFails h obj .undefined
  | survivedFull (b : Block) (points : Points h obj b) (young : Young h (hdrOf obj))
      (present : b.forward = false) (below : b.generation ≠ 3)
      (full : h.futureSurvived.freeMem < b.size + BHDR_SIZE) : MarkFails h obj .survivedFull
  | oldFull (b : Block) (points : Points h obj b) (young : Young h (hdrOf obj))
      (present : b.forward = false) (third : b.generation = 3) (minor : h.fullGc = false)
      (full : oldRoom h < b.size + BHDR_SIZE) : MarkFails h obj .oldFull

section visit
variable {h : Heap} {obj : Nat}

theorem inSpace_iff {space : Space} {p : Nat} :
    inSpace space p = true ↔ space.mem ≤ p ∧ p < space.mem + space.size := by
  simp [inSpace]

theorem Space.Laid.inside {cells : Cells} {space : Space} (laid : space.Laid cells) {a : Nat}
    (member : a ∈ space.hdrs) :
    ∃ b, cells a = some b ∧ space.mem ≤ a ∧ a + (BHDR_SIZE + b.size) ≤ space.pos ∧
      space.pos ≤ space.mem + space.size := by
  obtain ⟨b, at_a, low, high⟩ := laid.chain.inside member
  have total := laid.total
  exact ⟨b, at_a, low, high, by omega⟩

theorem Layout.young (layout : Layout h) {b : Block} (block : h.cells (hdrOf obj) = some b)
    (future : ¬ inSpace h.futureSurvived (ptr obj)) (old : ¬ inSpace h.old (ptr obj)) :
    Young h (hdrOf obj) := by
  rw [inSpace_iff] at future old
  have sized := layout.sized _ _ block
  obtain ⟨_, _, sizes, halves, oldAt, positive, _, _⟩ := layout.areas
  rcases layout.placed _ b block with (fresh | survived | later) | ⟨present, low, high⟩
  · exact .inl fresh
  · exact .inr survived
  · obtain ⟨d, at_d, low, high, bound⟩ := layout.future.inside later
    obtain rfl := Option.some.inj (block.symm.trans at_d)
    unfold hdrOf BHDR_SIZE at low high
    omega
  · unfold hdrOf BHDR_SIZE at low high
    rcases oldAt with absent | ⟨at_area, size⟩
    · rw [absent] at present
      exact absurd rfl present
    · omega

theorem copied_of_put {cells : Cells} {a : Nat} {new : Nat} {b : Block} {r : Bool}
    (apart : a + (BHDR_SIZE + b.size) ≤ new ∨ new + (BHDR_SIZE + b.size) ≤ a) :
    Copied cells
      (Function.update
        (Function.update (cells.put new b) a
          (some { b.setWord 0 (new + BHDR_SIZE) with forward := true, remembered := r }))
        new (some { b with forward := false, generation := b.generation + 1 })) a new b r := by
  have other : a ≠ new := by
    unfold BHDR_SIZE at apart
    omega
  constructor
  · simp
  · simp [other]
  · exact other
  · intro c d at_c here clear
    have elsewhere : c ≠ new := by
      unfold BHDR_SIZE at clear
      omega
    rw [Function.update_of_ne elsewhere, Function.update_of_ne here]
    exact put_apart at_c clear
  · intro c d at_c here elsewhere
    rw [Function.update_of_ne elsewhere, Function.update_of_ne here] at at_c
    exact put_before at_c elsewhere

theorem ends_forwardTo {E : Abort → Prop} {a : Nat} {new : Nat} {b d : Block}
    {Q : Nat → Heap → Prop} (at_a : h.cells a = some b) (at_new : h.cells new = some d)
    (other : a ≠ new) :
    Ends (forwardTo a new) h Q E ↔ Q (makeHeapPtr (new + BHDR_SIZE))
      { h with
        cells := Function.update
          (Function.update h.cells a
            (some { b.setWord 0 (new + BHDR_SIZE) with forward := true }))
          new (some { d with forward := false, generation := d.generation + 1 }) } := by
  have at_new' : Function.update h.cells a
      (some { b.setWord 0 (new + BHDR_SIZE) with forward := true }) new = some d := by
    rw [Function.update_of_ne other.symm]
    exact at_new
  simp only [forwardTo, modifyHdr, ends_bind, ends_update, ends_pure, at_a, Option.map_some,
    at_new']

theorem Layout.young_inside (layout : Layout h) {a : Nat} {b : Block} (young : Young h a)
    (block : h.cells a = some b) :
    h.mem ≤ a ∧ a + (BHDR_SIZE + b.size) ≤ h.mem + h.memSize := by
  obtain ⟨memSize, fresh, sizes, halves, _, _, _, _⟩ := layout.areas
  rcases young with member | member
  · obtain ⟨d, at_d, _, _, _⟩ := layout.fresh.inside member
    obtain rfl := Option.some.inj (block.symm.trans at_d)
    omega
  · obtain ⟨d, at_d, _, _, _⟩ := layout.survived.inside member
    obtain rfl := Option.some.inj (block.symm.trans at_d)
    omega

theorem Layout.old_inside (layout : Layout h) :
    h.oldArea ≤ (oldSpace h).pos ∧ (oldSpace h).pos + oldRoom h = h.oldArea + OLD_SIZE := by
  have low := layout.old.le
  have total := layout.old.total
  obtain ⟨_, _, _, _, oldAt, positive, _, _⟩ := layout.areas
  unfold oldRoom oldSpace at *
  split
  case isTrue absent =>
    simp [Space.init]
  case isFalse present =>
    rcases oldAt with none | ⟨at_area, size⟩
    · rw [none] at present
      exact absurd rfl present
    · omega

theorem Layout.future_inside (layout : Layout h) {a : Nat} (member : a ∈ h.futureSurvived.hdrs) :
    ∃ b, h.cells a = some b ∧ h.futureSurvived.mem ≤ a ∧
      a + (BHDR_SIZE + b.size) ≤ h.futureSurvived.pos := by
  obtain ⟨b, at_a, low, high, _⟩ := layout.future.inside member
  exact ⟨b, at_a, low, high⟩

theorem Layout.old_member (layout : Layout h) {a : Nat} (member : a ∈ h.old.hdrs) :
    ∃ b, h.cells a = some b ∧ h.oldArea ≤ a ∧ a + (BHDR_SIZE + b.size) ≤ (oldSpace h).pos := by
  obtain ⟨b, at_a, low, high, _⟩ := layout.old.inside member
  obtain ⟨_, _, _, _, oldAt, _, _, _⟩ := layout.areas
  rcases oldAt with absent | ⟨at_area, size⟩
  · rw [absent] at member
    cases member
  · have positive := layout.areas.positive
    have present : h.old.mem ≠ 0 := by omega
    rw [oldSpace, if_neg present]
    exact ⟨b, at_a, by omega, high⟩

theorem Layout.apart_future (layout : Layout h) {a : Nat} {b : Block} (held : Held h a)
    (block : h.cells a = some b) {size : Nat} (room : size + BHDR_SIZE ≤ h.futureSurvived.freeMem) :
    a + (BHDR_SIZE + b.size) ≤ h.futureSurvived.pos ∨
      h.futureSurvived.pos + (BHDR_SIZE + size) ≤ a := by
  have low := layout.future.le
  have total := layout.future.total
  obtain ⟨_, fresh, sizes, halves, _, _, _, apart⟩ := layout.areas
  rcases held with (member | member) | member | member
  · obtain ⟨d, at_d, _, _, _⟩ := layout.fresh.inside member
    obtain rfl := Option.some.inj (block.symm.trans at_d)
    omega
  · obtain ⟨d, at_d, _, _, _⟩ := layout.survived.inside member
    obtain rfl := Option.some.inj (block.symm.trans at_d)
    omega
  · obtain ⟨d, at_d, _, high⟩ := layout.future_inside member
    obtain rfl := Option.some.inj (block.symm.trans at_d)
    exact .inl high
  · obtain ⟨d, at_d, _, high⟩ := layout.old_member member
    obtain rfl := Option.some.inj (block.symm.trans at_d)
    have inside := layout.old_inside
    omega

theorem Layout.apart_old (layout : Layout h) {a : Nat} {b : Block} (held : Held h a)
    (block : h.cells a = some b) {size : Nat} (room : size + BHDR_SIZE ≤ oldRoom h) :
    a + (BHDR_SIZE + b.size) ≤ (oldSpace h).pos ∨ (oldSpace h).pos + (BHDR_SIZE + size) ≤ a := by
  have inside := layout.old_inside
  have apart := layout.areas.apart
  rcases held with young | member | member
  · have := layout.young_inside young block
    omega
  · obtain ⟨d, at_d, low, high⟩ := layout.future_inside member
    obtain rfl := Option.some.inj (block.symm.trans at_d)
    have total := layout.future.total
    obtain ⟨_, _, sizes, halves, _, _, _, _⟩ := layout.areas
    omega
  · obtain ⟨d, at_d, _, high⟩ := layout.old_member member
    obtain rfl := Option.some.inj (block.symm.trans at_d)
    exact .inl high

theorem ends_copy (layout : Layout h) {b : Block} (points : Points h obj b)
    (young : Young h (hdrOf obj)) (present : b.forward = false) (below : b.generation ≠ 3) :
    Ends (do let new ← copyToSurvived b; forwardTo (hdrOf obj) new) h (Marked h obj)
      (MarkFails h obj) := by
  rw [ends_bind]
  apply ends_copyToSurvived
  · exact MarkFails.survivedFull b points young present below
  intro room
  have apart := layout.apart_future (.inl young) points.block room
  rw [ends_forwardTo (put_apart points.block apart) put_same]
  · exact Marked.copied b _ points young present below room (copied_of_put apart)
  · unfold BHDR_SIZE at apart
    omega

theorem requireOld_eq : (if h.old.mem = 0 then { h with old := .init h.oldArea OLD_SIZE } else h) =
    { h with old := oldSpace h } := by
  unfold oldSpace
  split <;> rfl

theorem freeMem_oldSpace : (oldSpace h).freeMem = oldRoom h := by
  unfold oldSpace oldRoom
  split <;> rfl

theorem ends_promote (layout : Layout h) {b : Block} (points : Points h obj b)
    (young : Young h (hdrOf obj)) (present : b.forward = false) (third : b.generation = 3)
    (minor : h.fullGc = false) :
    Ends (do
      requireOld
      let new ← copyToOld b
      heapRemember new
      modifyHdr (hdrOf obj) fun b => { b with remembered := false }
      forwardTo (hdrOf obj) new) h (Marked h obj) (MarkFails h obj) := by
  rw [ends_bind, requireOld, ends_update, requireOld_eq, ends_bind]
  apply ends_copyToOld
  · intro full
    exact MarkFails.oldFull b points young present third minor (freeMem_oldSpace (h := h) ▸ full)
  intro room
  have enough : b.size + BHDR_SIZE ≤ oldRoom h := freeMem_oldSpace (h := h) ▸ room
  have apart := layout.apart_old (.inl young) points.block enough
  have other : hdrOf obj ≠ (oldSpace h).pos := by
    unfold BHDR_SIZE at apart
    omega
  have at_source := put_apart points.block apart
  rw [heapRemember, ends_bind, ends_update, modifyHdr, ends_bind, ends_update]
  simp only [at_source, Option.map_some]
  have unmarked : Function.update (h.cells.put (oldSpace h).pos b) (hdrOf obj)
      (some { b with remembered := false }) (hdrOf obj) = some { b with remembered := false } :=
    Function.update_self _ _ _
  have at_new : Function.update (h.cells.put (oldSpace h).pos b) (hdrOf obj)
      (some { b with remembered := false }) (oldSpace h).pos = some b := by
    rw [Function.update_of_ne other.symm]
    exact put_same
  apply (ends_forwardTo unmarked at_new other).mpr
  simp only [Function.update_idem]
  exact Marked.promoted b _ points young present third minor enough (copied_of_put apart)

theorem ends_markYoung (layout : Layout h) (pointer : isHeapPtr obj)
    (future : ¬ inSpace h.futureSurvived (ptr obj)) (old : ¬ inSpace h.old (ptr obj)) :
    Ends (markYoung obj (hdrOf obj)) h (Marked h obj) (MarkFails h obj) := by
  unfold markYoung
  rw [ends_bind]
  unfold Ends readHdr
  cases block : h.cells (hdrOf obj) with
  | none => exact MarkFails.undefined pointer block
  | some b =>
    have points : Points h obj b := ⟨pointer, block⟩
    have young := layout.young block future old
    apply ends_ite.mpr
    constructor
    · exact Marked.forwarded b points young
    intro present
    rw [Bool.not_eq_true] at present
    apply ends_ite.mpr
    constructor
    · intro third
      rw [ends_bind, ends_get]
      apply ends_ite.mpr
      constructor
      · intro full
        apply ends_ite.mpr
        constructor
        · exact Marked.postponed b points young present third full
        · intro unmarked
          rw [Bool.not_eq_true] at unmarked
          rw [heapRemember, ends_bind, ends_update, modifyHdr, ends_bind, ends_update, ends_pure]
          have marked := Marked.postpones b points young present third full unmarked
          simpa only [remember, block, Option.map_some] using marked
      · intro minor
        rw [Bool.not_eq_true] at minor
        exact ends_promote layout points young present third minor
    · intro below
      exact ends_copy layout points young present below

theorem ends_lookedUp {Q : Nat → Heap → Prop} {E : Abort → Prop} :
    Ends (lookupOld obj (hdrOf obj)) h Q E ↔ Q (lookedUp h obj) h := by
  unfold lookupOld lookedUp Ends
  cases found : h.oldMap.bind (List.lookup (hdrOf obj)) <;> simp only [found]

theorem ends_markOld (pointer : isHeapPtr obj) (inside : inSpace h.old (ptr obj)) :
    Ends (markOld obj (hdrOf obj)) h (Marked h obj) (MarkFails h obj) := by
  unfold markOld
  rw [ends_bind, ends_get]
  apply ends_ite.mpr
  constructor
  · intro full
    rw [ends_bind]
    unfold Ends readHdr
    cases block : h.cells (hdrOf obj) with
    | none => exact MarkFails.undefined pointer block
    | some b =>
      have points : Points h obj b := ⟨pointer, block⟩
      apply ends_ite.mpr
      constructor
      · intro marked
        exact ends_lookedUp.mpr (Marked.old pointer inside fun _ => ⟨b, points, marked⟩)
      · intro unmarked
        rw [Bool.not_eq_true] at unmarked
        rw [modifyHdr, ends_bind, ends_update, heapRemember, ends_bind, ends_update, ends_pure]
        have reached := Marked.reached b points inside full unmarked
        simpa only [remember, block, Option.map_some] using reached
  · intro minor
    exact ends_lookedUp.mpr (Marked.old pointer inside fun full => absurd full minor)

theorem ends_heapMark (layout : Layout h) :
    Ends (heapMark obj) h (Marked h obj) (MarkFails h obj) := by
  unfold heapMark
  apply ends_ite.mpr
  constructor
  · intro other
    rw [Bool.not_eq_true', ← Bool.not_eq_true] at other
    exact Marked.immediate other
  intro pointer
  rw [Bool.not_eq_true', Bool.not_eq_false] at pointer
  rw [ends_bind, ends_get]
  apply ends_ite.mpr
  constructor
  · intro foreign
    simp only [Bool.and_eq_true, Bool.or_eq_true, decide_eq_true_eq, Bool.not_eq_true'] at foreign
    exact MarkFails.foreign pointer foreign.1 (by simp [foreign.2])
  intro _
  apply ends_ite.mpr
  constructor
  · exact Marked.future pointer
  intro future
  apply ends_ite.mpr
  constructor
  · exact ends_markOld pointer
  · exact ends_markYoung layout pointer future

theorem Layout.block (layout : Layout h) {a : Nat} (held : Held h a) :
    ∃ b, h.cells a = some b := by
  rcases held with (member | member) | member | member
  · exact (layout.fresh.inside member).imp fun _ => And.left
  · exact (layout.survived.inside member).imp fun _ => And.left
  · exact (layout.future.inside member).imp fun _ => And.left
  · exact (layout.old.inside member).imp fun _ => And.left

theorem Marked.frame {w : Nat} {h' : Heap} (marked : Marked h obj w h') (layout : Layout h)
    {c : Nat} (held : Held h c) (other : c ≠ hdrOf obj) : h'.cells c = h.cells c := by
  obtain ⟨d, at_c⟩ := layout.block held
  cases marked with
  | immediate => rfl
  | future => rfl
  | old => rfl
  | forwarded => rfl
  | postponed => rfl
  | reached => exact Function.update_of_ne other _ _
  | postpones => exact Function.update_of_ne other _ _
  | copied b cells points young present below room copy =>
    rw [at_c]
    exact copy.kept c d at_c other (layout.apart_future held at_c room)
  | promoted b cells points young present third minor room copy =>
    rw [at_c]
    exact copy.kept c d at_c other (layout.apart_old held at_c room)

theorem Layout.young_leaves (layout : Layout h) {a : Nat} (young : Young h a) : ¬ Stays h a := by
  obtain ⟨b, block⟩ := layout.block (.inl young)
  have inside := layout.young_inside young block
  obtain ⟨memSize, fresh, sizes, halves, oldAt, positive, aligned, apart⟩ := layout.areas
  intro stays
  rcases stays with member | member
  · obtain ⟨d, at_d, low, high⟩ := layout.future_inside member
    obtain rfl := Option.some.inj (block.symm.trans at_d)
    have total := layout.future.total
    rcases young with member | member
    · obtain ⟨d, at_d, _, _, _⟩ := layout.fresh.inside member
      obtain rfl := Option.some.inj (block.symm.trans at_d)
      unfold BHDR_SIZE at *
      omega
    · obtain ⟨d, at_d, _, _, _⟩ := layout.survived.inside member
      obtain rfl := Option.some.inj (block.symm.trans at_d)
      unfold BHDR_SIZE at *
      omega
  · obtain ⟨d, at_d, low, high⟩ := layout.old_member member
    obtain rfl := Option.some.inj (block.symm.trans at_d)
    have old := layout.old_inside
    unfold BHDR_SIZE at *
    omega

theorem Layout.future_not_old (layout : Layout h) {a : Nat} (member : a ∈ h.futureSurvived.hdrs) :
    a ∉ h.old.hdrs := by
  intro old
  obtain ⟨b, block, low, high⟩ := layout.future_inside member
  obtain ⟨d, at_d, low', high'⟩ := layout.old_member old
  obtain rfl := Option.some.inj (block.symm.trans at_d)
  have total := layout.future.total
  have inside := layout.old_inside
  obtain ⟨_, fresh, sizes, halves, _, _, _, apart⟩ := layout.areas
  unfold BHDR_SIZE at *
  omega

/- A block whose payload lies in a space is one of its blocks. -/

theorem Layout.in_fresh (layout : Layout h) {a : Nat} (held : Held h a)
    (inside : inSpace h.fresh (a + BHDR_SIZE)) : a ∈ h.fresh.hdrs := by
  rw [inSpace_iff] at inside
  obtain ⟨_, fresh, sizes, halves, _, _, _, apart⟩ := layout.areas
  rcases held with (member | member) | member | member
  · exact member
  · obtain ⟨b, block, low, high, bound⟩ := layout.survived.inside member
    have sized := layout.sized a b block
    omega
  · obtain ⟨b, block, low, high⟩ := layout.future_inside member
    have sized := layout.sized a b block
    have total := layout.future.total
    omega
  · obtain ⟨b, block, low, high⟩ := layout.old_member member
    have sized := layout.sized a b block
    have old := layout.old_inside
    omega

theorem Layout.in_future (layout : Layout h) {a : Nat} (held : Held h a)
    (inside : inSpace h.futureSurvived (a + BHDR_SIZE)) : a ∈ h.futureSurvived.hdrs := by
  rw [inSpace_iff] at inside
  obtain ⟨_, fresh, sizes, halves, _, _, _, apart⟩ := layout.areas
  rcases held with (member | member) | member | member
  · obtain ⟨b, block, low, high, bound⟩ := layout.fresh.inside member
    have sized := layout.sized a b block
    omega
  · obtain ⟨b, block, low, high, bound⟩ := layout.survived.inside member
    have sized := layout.sized a b block
    omega
  · exact member
  · obtain ⟨b, block, low, high⟩ := layout.old_member member
    have sized := layout.sized a b block
    have old := layout.old_inside
    omega

theorem Layout.in_old (layout : Layout h) {a : Nat} (held : Held h a)
    (inside : inSpace h.old (a + BHDR_SIZE)) : a ∈ h.old.hdrs := by
  rw [inSpace_iff] at inside
  obtain ⟨_, fresh, sizes, halves, oldAt, positive, _, apart⟩ := layout.areas
  have present : h.old.mem = h.oldArea ∧ h.old.size = OLD_SIZE := by
    rcases oldAt with absent | present
    · rw [absent] at inside
      simp only at inside
      omega
    · exact present
  rcases held with young | member | member
  · obtain ⟨b, block⟩ := layout.block (.inl young)
    have sized := layout.sized a b block
    have low := layout.young_inside young block
    omega
  · obtain ⟨b, block, low, high⟩ := layout.future_inside member
    have sized := layout.sized a b block
    have total := layout.future.total
    omega
  · exact member

theorem Layout.not_foreign (layout : Layout h) {a : Nat} (held : Held h a) :
    h.mem ≤ a + BHDR_SIZE ∧ a + BHDR_SIZE ≤ h.mem + h.memSize ∨
      inSpace h.old (a + BHDR_SIZE) := by
  rw [inSpace_iff]
  obtain ⟨memSize, fresh, sizes, halves, oldAt, _, _, apart⟩ := layout.areas
  rcases held with young | member | member
  · obtain ⟨b, block⟩ := layout.block (.inl young)
    have low := layout.young_inside young block
    omega
  · obtain ⟨b, block, low, high⟩ := layout.future_inside member
    have total := layout.future.total
    omega
  · obtain ⟨b, block, low, high, bound⟩ := layout.old.inside member
    have sized := layout.sized a b block
    omega

theorem stays_copied {b : Block} {cells : Cells} {c : Nat} :
    Stays (copied h b cells) c ↔ Stays h c ∨ c = h.futureSurvived.pos := by
  simp only [Stays, copied, Space.append, List.mem_append, List.mem_singleton]
  tauto

theorem Layout.hdrs_oldSpace (layout : Layout h) : (oldSpace h).hdrs = h.old.hdrs := by
  unfold oldSpace
  obtain ⟨_, _, _, _, oldAt, positive, _, _⟩ := layout.areas
  split
  case isTrue none =>
    rcases oldAt with absent | ⟨at_area, _⟩
    · simp [Space.init, absent]
    · omega
  case isFalse => rfl

theorem stays_promoted (layout : Layout h) {b : Block} {cells : Cells} {c : Nat} :
    Stays (promoted h b cells) c ↔ Stays h c ∨ c = (oldSpace h).pos := by
  simp only [Stays, promoted, Space.append, List.mem_append, List.mem_singleton,
    layout.hdrs_oldSpace]
  tauto

/-- What a copy of the block b from a to new does to the heap. -/
structure Copies (h h' : Heap) (a : Nat) (new : Nat) (b : Block) : Prop where
  young : Young h a
  block : h.cells a = some b
  present : b.forward = false
  copy : ∃ r, Copied h.cells h'.cells a new b r
  free : ¬ Held h new
  frame : ∀ c, Held h c → c ≠ a → h'.cells c = h.cells c
  spaces : h'.fresh = h.fresh ∧ h'.survived = h.survived
  flags : h'.fullGc = h.fullGc ∧ h'.oldMap = h.oldMap
  stays : ∀ c, Stays h' c ↔ Stays h c ∨ c = new
  future : h.futureSurvived.hdrs <+: h'.futureSurvived.hdrs
  old : h.old.hdrs <+: h'.old.hdrs
  remembered : h.remembered <+: h'.remembered
  scheduled : ∀ c ∈ h'.old.hdrs, c ∈ h.old.hdrs ∨ c ∈ h'.remembered
  scheduledNew : ∀ c ∈ h'.remembered, c ∈ h.remembered ∨ c = new

theorem copies_copied (layout : Layout h) {b : Block} {cells : Cells} (points : Points h obj b)
    (young : Young h (hdrOf obj)) (present : b.forward = false) (below : b.generation ≠ 3)
    (room : b.size + BHDR_SIZE ≤ h.futureSurvived.freeMem)
    (copy : Copied h.cells cells (hdrOf obj) h.futureSurvived.pos b b.remembered) :
    Copies h (copied h b cells) (hdrOf obj) h.futureSurvived.pos b := by
  have marked := Marked.copied b cells points young present below room copy
  constructor
  · exact young
  · exact points.block
  · exact present
  · exact ⟨_, copy⟩
  · intro held
    obtain ⟨d, at_pos⟩ := layout.block held
    have apart := layout.apart_future held at_pos room
    unfold BHDR_SIZE at apart
    omega
  · exact fun c => marked.frame layout
  · exact ⟨rfl, rfl⟩
  · exact ⟨rfl, rfl⟩
  · exact fun c => stays_copied
  · exact List.prefix_append _ _
  · exact List.prefix_rfl
  · exact List.prefix_rfl
  · exact fun c => .inl
  · exact fun c => .inl

theorem copies_promoted (layout : Layout h) {b : Block} {cells : Cells} (points : Points h obj b)
    (young : Young h (hdrOf obj)) (present : b.forward = false) (third : b.generation = 3)
    (minor : h.fullGc = false) (room : b.size + BHDR_SIZE ≤ oldRoom h)
    (copy : Copied h.cells cells (hdrOf obj) (oldSpace h).pos b false) :
    Copies h (promoted h b cells) (hdrOf obj) (oldSpace h).pos b := by
  have marked := Marked.promoted b cells points young present third minor room copy
  constructor
  · exact young
  · exact points.block
  · exact present
  · exact ⟨_, copy⟩
  · intro held
    obtain ⟨d, at_pos⟩ := layout.block held
    have apart := layout.apart_old held at_pos room
    unfold BHDR_SIZE at apart
    omega
  · exact fun c => marked.frame layout
  · exact ⟨rfl, rfl⟩
  · exact ⟨rfl, rfl⟩
  · exact fun c => stays_promoted layout
  · exact List.prefix_rfl
  · rw [← layout.hdrs_oldSpace]
    exact List.prefix_append _ _
  · exact List.prefix_append _ _
  · intro c member
    simp only [promoted, Space.append, List.mem_append, List.mem_singleton,
      layout.hdrs_oldSpace] at member ⊢
    tauto
  · intro c member
    simpa only [promoted, List.mem_append, List.mem_singleton] using member

end visit

end LGears.Gc
