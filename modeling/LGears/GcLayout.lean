import LGears.GcKeeps

/- How blocks lie in memory: every space is a chain of blocks, no two spaces meet, and
   nothing else is a block of the young area. -/
namespace LGears.Gc
open StateExcept

/-- Blocks one after another from a to stop. -/
def Chain (cells : Cells) : Nat → List Nat → Nat → Prop
  | a, [], stop => a = stop
  | a, hdr :: hdrs, stop =>
    hdr = a ∧ ∃ b, cells a = some b ∧ Chain cells (a + (BHDR_SIZE + b.size)) hdrs stop

section memory
variable {cells cells' : Cells} {a stop : Nat} {hdrs : List Nat} {b d : Block}

@[simp] theorem put_same : cells.put a b a = some b := by simp [Cells.put]

theorem put_apart {c : Nat} (at_c : cells c = some d)
    (apart : c + (BHDR_SIZE + d.size) ≤ a ∨ a + (BHDR_SIZE + b.size) ≤ c) :
    cells.put a b c = some d := by
  have other : c ≠ a := by
    unfold BHDR_SIZE at apart
    omega
  have clear : ¬ overlap a b.size c d.size := by
    unfold overlap
    omega
  simp [Cells.put, other, at_c, clear]

theorem put_before {c : Nat} (at_c : cells.put a b c = some d) (other : c ≠ a) :
    cells c = some d := by
  unfold Cells.put at at_c
  rw [if_neg other, Option.filter_eq_some_iff] at at_c
  exact at_c.1

theorem modify_at {hdr c : Nat} {f : Block → Block}
    (at_c : Function.update cells hdr ((cells hdr).map f) c = some d) :
    ∃ b, cells c = some b ∧ (d = b ∨ c = hdr ∧ d = f b) := by
  by_cases here : c = hdr
  · subst here
    rw [Function.update_self, Option.map_eq_some_iff] at at_c
    obtain ⟨b, block, result⟩ := at_c
    exact ⟨b, block, .inr ⟨rfl, result.symm⟩⟩
  · rw [Function.update_of_ne here] at at_c
    exact ⟨d, at_c, .inl rfl⟩

theorem Chain.le (chain : Chain cells a hdrs stop) : a ≤ stop := by
  induction hdrs generalizing a with
  | nil => exact Nat.le_of_eq chain
  | cons hdr hdrs ih =>
    obtain ⟨_, b, _, rest⟩ := chain
    have := ih rest
    omega

theorem Chain.inside (chain : Chain cells a hdrs stop) {x : Nat} (member : x ∈ hdrs) :
    ∃ b, cells x = some b ∧ a ≤ x ∧ x + (BHDR_SIZE + b.size) ≤ stop := by
  induction hdrs generalizing a with
  | nil => cases member
  | cons hdr hdrs ih =>
    obtain ⟨rfl, b, at_hdr, rest⟩ := chain
    rcases List.mem_cons.mp member with here | later
    · subst here
      exact ⟨b, at_hdr, Nat.le_refl _, rest.le⟩
    · obtain ⟨d, at_x, low, high⟩ := ih rest later
      exact ⟨d, at_x, by omega, high⟩

theorem Chain.nodup (chain : Chain cells a hdrs stop) : hdrs.Nodup := by
  induction hdrs generalizing a with
  | nil => exact List.nodup_nil
  | cons hdr hdrs ih =>
    obtain ⟨rfl, b, _, rest⟩ := chain
    apply List.nodup_cons.mpr
    constructor
    · intro member
      obtain ⟨_, _, low, _⟩ := rest.inside member
      unfold BHDR_SIZE at low
      omega
    · exact ih rest

theorem Chain.congr (chain : Chain cells a hdrs stop)
    (same : ∀ x ∈ hdrs, ∀ b, cells x = some b → ∃ b', cells' x = some b' ∧ b'.size = b.size) :
    Chain cells' a hdrs stop := by
  induction hdrs generalizing a with
  | nil => exact chain
  | cons hdr hdrs ih =>
    obtain ⟨rfl, b, at_hdr, rest⟩ := chain
    obtain ⟨b', at_hdr', size⟩ := same hdr (by simp) b at_hdr
    rw [← size] at rest
    exact ⟨rfl, b', at_hdr', ih rest fun x member => same x (by simp [member])⟩

theorem Chain.put (chain : Chain cells a hdrs stop) {p : Nat}
    (apart : stop ≤ p ∨ p + (BHDR_SIZE + b.size) ≤ a) : Chain (cells.put p b) a hdrs stop := by
  apply chain.congr
  intro x member d at_x
  obtain ⟨d', at_x', low, high⟩ := chain.inside member
  obtain rfl := Option.some.inj (at_x.symm.trans at_x')
  exact ⟨d, put_apart at_x (by omega), rfl⟩

theorem Chain.append (chain : Chain cells a hdrs stop) (at_stop : cells stop = some b) :
    Chain cells a (hdrs ++ [stop]) (stop + (BHDR_SIZE + b.size)) := by
  induction hdrs generalizing a with
  | nil =>
    obtain rfl : a = stop := chain
    exact ⟨rfl, b, at_stop, rfl⟩
  | cons hdr hdrs ih =>
    obtain ⟨rfl, d, at_hdr, rest⟩ := chain
    exact ⟨rfl, d, at_hdr, ih rest⟩

end memory

/-- The blocks of a space lie one after another from its start to its position. -/
structure Space.Laid (cells : Cells) (space : Space) : Prop where
  chain : Chain cells space.mem space.hdrs space.pos
  total : space.pos + space.freeMem = space.mem + space.size

/-- Where the spaces are: the fresh space and the two halves for survivors in one area, the
    old space, once it is allocated, in another. -/
structure Areas (h : Heap) : Prop where
  memSize : h.memSize = FRESH_SIZE + SURVIVED_SIZE * 2
  fresh : h.fresh.mem = h.mem ∧ h.fresh.size = FRESH_SIZE
  sizes : h.survived.size = SURVIVED_SIZE ∧ h.futureSurvived.size = SURVIVED_SIZE
  halves : h.survived.mem = h.mem + FRESH_SIZE ∧
      h.futureSurvived.mem = h.mem + FRESH_SIZE + SURVIVED_SIZE ∨
    h.survived.mem = h.mem + FRESH_SIZE + SURVIVED_SIZE ∧
      h.futureSurvived.mem = h.mem + FRESH_SIZE
  old : h.old = ⟨0, 0, 0, 0, []⟩ ∨ h.old.mem = h.oldArea ∧ h.old.size = OLD_SIZE
  positive : 0 < h.mem ∧ 0 < h.oldArea
  aligned : h.mem % 8 = 0 ∧ h.oldArea % 8 = 0
  apart : h.oldArea + OLD_SIZE ≤ h.mem ∨ h.mem + h.memSize ≤ h.oldArea

structure Layout (h : Heap) : Prop where
  areas : Areas h
  sized : ∀ a b, h.cells a = some b → 8 ≤ b.size ∧ b.size % 8 = 0
  fresh : h.fresh.Laid h.cells
  survived : h.survived.Laid h.cells
  future : h.futureSurvived.Laid h.cells
  old : h.old.Laid h.cells
  placed : ∀ a b, h.cells a = some b →
    (a ∈ h.fresh.hdrs ∨ a ∈ h.survived.hdrs ∨ a ∈ h.futureSurvived.hdrs) ∨
    h.old.mem ≠ 0 ∧ h.oldArea ≤ a ∧ a + (BHDR_SIZE + b.size) ≤ h.oldArea + OLD_SIZE

theorem Space.Laid.congr {cells cells' : Cells} {space : Space} (laid : space.Laid cells)
    (same : ∀ x b, cells x = some b → ∃ b', cells' x = some b' ∧ b'.size = b.size) :
    space.Laid cells' :=
  ⟨laid.chain.congr fun x _ => same x, laid.total⟩

theorem Space.Laid.put {cells : Cells} {space : Space} {p : Nat} {b : Block}
    (laid : space.Laid cells)
    (apart : space.mem + space.size ≤ p ∨ p + (BHDR_SIZE + b.size) ≤ space.mem) :
    space.Laid (cells.put p b) := by
  have total := laid.total
  exact ⟨laid.chain.put (by omega), total⟩

theorem Space.Laid.append {cells : Cells} {space : Space} {b : Block} (laid : space.Laid cells)
    (room : b.size + BHDR_SIZE ≤ space.freeMem) :
    (space.append (b.size + BHDR_SIZE)).Laid (cells.put space.pos b) := by
  have total := laid.total
  constructor
  · rw [Space.append, Nat.add_comm b.size]
    exact (laid.chain.put (.inl (Nat.le_refl _))).append put_same
  · simp only [Space.append]
    omega

theorem Space.reset_laid (cells : Cells) (space : Space) : space.reset.Laid cells := ⟨rfl, rfl⟩

theorem Space.Laid.le {cells : Cells} {space : Space} (laid : space.Laid cells) :
    space.mem ≤ space.pos := laid.chain.le

section layout
variable {h : Heap}

theorem Layout.flags (layout : Layout h) (remembered : List Nat) (fullGc : Bool)
    (oldMap : Option (List (Nat × Nat))) :
    Layout { h with remembered := remembered, fullGc := fullGc, oldMap := oldMap } :=
  ⟨⟨layout.areas.memSize, layout.areas.fresh, layout.areas.sizes, layout.areas.halves,
    layout.areas.old, layout.areas.positive, layout.areas.aligned, layout.areas.apart⟩,
    layout.sized, layout.fresh, layout.survived, layout.future, layout.old, layout.placed⟩

theorem Layout.modify (layout : Layout h) {cells : Cells}
    (after : ∀ x b', cells x = some b' → ∃ b, h.cells x = some b ∧ b'.size = b.size)
    (before : ∀ x b, h.cells x = some b → ∃ b', cells x = some b' ∧ b'.size = b.size) :
    Layout { h with cells := cells } where
  areas := ⟨layout.areas.memSize, layout.areas.fresh, layout.areas.sizes, layout.areas.halves,
    layout.areas.old, layout.areas.positive, layout.areas.aligned, layout.areas.apart⟩
  sized := by
    intro x b' at_x
    obtain ⟨b, at_x', size⟩ := after x b' at_x
    rw [size]
    exact layout.sized x b at_x'
  fresh := layout.fresh.congr before
  survived := layout.survived.congr before
  future := layout.future.congr before
  old := layout.old.congr before
  placed := by
    intro x b' at_x
    obtain ⟨b, at_x', size⟩ := after x b' at_x
    rw [size]
    exact layout.placed x b at_x'

theorem Layout.sized_put (layout : Layout h) {p : Nat} {b : Block}
    (sized : 8 ≤ b.size ∧ b.size % 8 = 0) :
    ∀ a d, h.cells.put p b a = some d → 8 ≤ d.size ∧ d.size % 8 = 0 := by
  intro a d at_a
  by_cases here : a = p
  · subst here
    rw [put_same] at at_a
    obtain rfl := Option.some.inj at_a
    exact sized
  · exact layout.sized a d (put_before at_a here)

theorem Layout.copyToSurvived (layout : Layout h) {b : Block}
    (sized : 8 ≤ b.size ∧ b.size % 8 = 0)
    (room : b.size + BHDR_SIZE ≤ h.futureSurvived.freeMem) :
    Layout { h with
      futureSurvived := h.futureSurvived.append (b.size + BHDR_SIZE)
      cells := h.cells.put h.futureSurvived.pos b } := by
  obtain ⟨memSize, fresh, sizes, halves, oldAt, positive, aligned, apart⟩ := layout.areas
  have low := layout.future.le
  have total := layout.future.total
  exact {
    areas := ⟨memSize, fresh, sizes, halves, oldAt, positive, aligned, apart⟩
    sized := layout.sized_put sized
    fresh := layout.fresh.put (by omega)
    survived := layout.survived.put (by omega)
    future := layout.future.append room
    old := layout.old.put (by
      rcases oldAt with absent | present
      · rw [absent]
        exact .inl (by simp)
      · omega)
    placed := by
      intro a d at_a
      by_cases here : a = h.futureSurvived.pos
      · exact .inl (.inr (.inr (by simp [Space.append, here])))
      rcases layout.placed a d (put_before at_a here) with (fresh | survived | future) | old
      · exact .inl (.inl fresh)
      · exact .inl (.inr (.inl survived))
      · exact .inl (.inr (.inr (by simp [Space.append, future])))
      · exact .inr old }

theorem Layout.copyToOld (layout : Layout h) {b : Block}
    (sized : 8 ≤ b.size ∧ b.size % 8 = 0) (room : b.size + BHDR_SIZE ≤ h.old.freeMem) :
    Layout { h with
      old := h.old.append (b.size + BHDR_SIZE), cells := h.cells.put h.old.pos b } := by
  obtain ⟨memSize, fresh, sizes, halves, oldAt, positive, aligned, apart⟩ := layout.areas
  have low := layout.old.le
  have total := layout.old.total
  have present : h.old.mem = h.oldArea ∧ h.old.size = OLD_SIZE := by
    rcases oldAt with absent | present
    · rw [absent] at room
      simp only at room
      omega
    · exact present
  exact {
    areas := ⟨memSize, fresh, sizes, halves, .inr present, positive, aligned, apart⟩
    sized := layout.sized_put sized
    fresh := layout.fresh.put (by omega)
    survived := layout.survived.put (by omega)
    future := layout.future.put (by omega)
    old := layout.old.append room
    placed := by
      intro a d at_a
      by_cases here : a = h.old.pos
      · subst here
        have at_pos : h.cells.put h.old.pos b h.old.pos = some d := at_a
        rw [put_same] at at_pos
        obtain rfl := Option.some.inj at_pos
        have after : h.oldArea ≤ h.old.pos := by omega
        have inside : h.old.pos + (BHDR_SIZE + b.size) ≤ h.oldArea + OLD_SIZE := by omega
        exact .inr ⟨by simp only [Space.append]; omega, after, inside⟩
      · rcases layout.placed a d (put_before at_a here) with young | ⟨_, inside⟩
        · exact .inl young
        · exact .inr ⟨by simp only [Space.append]; omega, inside⟩ }

theorem Layout.requireOld (layout : Layout h) :
    Layout (if h.old.mem = 0 then { h with old := .init h.oldArea OLD_SIZE } else h) := by
  split
  case isFalse => exact layout
  obtain ⟨memSize, fresh, sizes, halves, _, positive, aligned, apart⟩ := layout.areas
  exact {
    areas := ⟨memSize, fresh, sizes, halves, .inr ⟨rfl, rfl⟩, positive, aligned, apart⟩
    sized := layout.sized
    fresh := layout.fresh
    survived := layout.survived
    future := layout.future
    old := ⟨rfl, rfl⟩
    placed := by
      intro a b at_a
      rcases layout.placed a b at_a with young | ⟨_, inside⟩
      · exact .inl young
      · exact .inr ⟨by simp only [Space.init]; omega, inside⟩ }

theorem Layout.modifyHdr (layout : Layout h) (hdr : Nat) {f : Block → Block}
    (size : ∀ b, (f b).size = b.size) :
    Layout { h with cells := Function.update h.cells hdr ((h.cells hdr).map f) } := by
  apply layout.modify
  · intro x b' at_x
    obtain ⟨b, block, same | ⟨_, same⟩⟩ := modify_at at_x
    · exact ⟨b, block, by rw [same]⟩
    · exact ⟨b, block, by rw [same, size]⟩
  · intro x b at_x
    by_cases here : x = hdr
    · subst here
      rw [Function.update_self, at_x]
      exact ⟨f b, rfl, size b⟩
    · rw [Function.update_of_ne here]
      exact ⟨b, at_x, rfl⟩

end layout

section keeps
variable {E : Abort → Prop}

theorem keeps_layout_modifyHdr (hdr : Nat) {f : Block → Block} (size : ∀ b, (f b).size = b.size) :
    Keeps Layout E (modifyHdr hdr f) :=
  fun _ layout => layout.modifyHdr hdr size

theorem keeps_layout_remember (hdr : Nat) : Keeps Layout E (heapRemember hdr) :=
  fun _ layout => layout.flags _ _ _

theorem keeps_layout_forwardTo (hdr new : Nat) : Keeps Layout E (forwardTo hdr new) := by
  apply keeps_bind
  · exact keeps_layout_modifyHdr hdr fun _ => rfl
  intro _
  apply keeps_bind
  · exact keeps_layout_modifyHdr new fun _ => rfl
  exact fun _ => keeps_pure _

theorem keeps_layout_lookupOld (obj hdr : Nat) : Keeps Layout E (lookupOld obj hdr) :=
  fun _ layout => ends_lookupOld fun _ => layout

theorem keeps_layout_markOld (undefined : E .undefined) (obj hdr : Nat) :
    Keeps Layout E (markOld obj hdr) := by
  apply keeps_get
  intro h layout
  apply keeps_ite _ (fun _ => keeps_layout_lookupOld obj hdr) h layout
  intro _
  apply keeps_readHdr undefined
  intro h b layout _
  apply keeps_ite (fun _ => keeps_layout_lookupOld obj hdr) _ h layout
  intro _
  apply keeps_bind
  · exact keeps_layout_modifyHdr hdr fun _ => rfl
  intro _
  exact keeps_bind (keeps_layout_remember hdr) fun _ => keeps_pure _

theorem keeps_layout_markYoung (obj hdr : Nat) : Keeps Layout (fun _ => True) (markYoung obj hdr) := by
  apply keeps_readHdr trivial
  intro h b layout at_hdr
  have sized := layout.sized hdr b at_hdr
  rw [ends_ite]
  apply And.intro fun _ => layout
  intro _
  rw [ends_ite]
  constructor
  · intro _
    apply keeps_get _ h layout
    intro h layout
    rw [ends_ite]
    constructor
    · intro _
      apply keeps_ite (fun _ => keeps_pure _) _ h layout
      intro _
      apply keeps_bind (keeps_layout_remember hdr)
      intro _
      apply keeps_bind
      · exact keeps_layout_modifyHdr hdr fun _ => rfl
      exact fun _ => keeps_pure _
    · intro _
      rw [ends_bind, requireOld, ends_update, ends_bind]
      apply ends_copyToOld fun _ => trivial
      intro room
      have copied := layout.requireOld.copyToOld sized room
      apply keeps_bind (keeps_layout_remember _) _ _ copied
      intro _
      apply keeps_bind
      · exact keeps_layout_modifyHdr hdr fun _ => rfl
      exact fun _ => keeps_layout_forwardTo hdr _
  · intro _
    rw [ends_bind]
    apply ends_copyToSurvived fun _ => trivial
    intro room
    exact keeps_layout_forwardTo hdr _ _ (layout.copyToSurvived sized room)

theorem keeps_layout_heapMark (obj : Nat) : Keeps Layout (fun _ => True) (heapMark obj) := by
  apply keeps_ite (fun _ => keeps_pure _)
  intro _
  apply keeps_get
  intro h layout
  apply keeps_ite (fun _ => keeps_abort trivial) _ h layout
  intro _
  apply keeps_ite (fun _ => keeps_pure _)
  intro _
  apply keeps_ite
  · intro _
    exact keeps_layout_markOld trivial _ _
  · intro _
    exact keeps_layout_markYoung _ _

theorem size_of_header {b b' : Block} (same : b'.header = b.header) : b'.size = b.size :=
  (header_fields same).2.2.2.2

end keeps

end LGears.Gc
