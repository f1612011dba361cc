import LGears.GcTrace

/- The scans of a pass: every block that has been found is visited, and in the end no word
   points to a block that is still to be found. -/
namespace LGears.Gc
open StateExcept Rooted

section grows
variable {h₀ h h' h'' : Heap} {live : Nat → Prop}

theorem Later.trans (first : Later h₀ live h h') (second : Later h₀ live h' h'') :
    Later h₀ live h h'' := by
  constructor
  · exact second.fullGc.trans first.fullGc
  · exact fun a c placed => second.place a c (first.place a c placed)
  · exact first.future.trans second.future
  · exact first.old.trans second.old
  · intro c member full bit
    exact second.bit c (first.old.subset member) (first.fullGc.trans full)
      (first.bit c member full bit)
  · intro a c s placed clean
    exact second.clean a c s (first.place a c placed) (first.clean a c s placed clean)
  · intro a c placed inside
    exact second.inside a c (first.place a c placed) (first.inside a c placed inside)

theorem Grows.trans (first : Grows h₀ live h h') (second : Grows h₀ live h' h'') :
    Grows h₀ live h h'' := by
  constructor
  · exact first.toLater.trans second.toLater
  · exact first.remembered.trans second.remembered
  · intro c scannable
    rcases second.scannable c scannable with before | later
    · rcases first.scannable c before with start | member
      · exact .inl start
      · exact .inr (second.remembered.subset member)
    · exact .inr later
  · exact Nat.le_trans second.budget first.budget

theorem Later.clean_at (later : Later h₀ live h h') {a c : Nat} (placed : Place h₀ h a c)
    (clean : Clean h₀ live h c) : Clean h₀ live h' c :=
  ⟨fun s => later.clean a c s placed (clean.slot s), later.inside a c placed clean.inside⟩

theorem Later.settled (later : Later h₀ live h h') (tracing : Tracing h₀ live h)
    (after : Tracing h₀ live h') {isEnv : Bool} {w : Nat} (settled : Settled h₀ live h isEnv w) :
    Settled h₀ live h' isEnv w := by
  intro x points
  apply (settled x points).mono later.place later.fullGc
  intro c full member
  rw [after.oldSame (later.fullGc.trans full)] at member
  have before := tracing.oldHdrs.subset member
  exact ⟨before, later.bit c before full⟩

end grows

section words
variable {h₀ h h' : Heap} {live : Nat → Prop}

theorem Tracing.held_of_known (tracing : Tracing h₀ live h) (source : Source h₀ live)
    {isEnv : Bool} {w x : Nat} (known : Known h₀ live h isEnv w) (points : target isEnv w = some x) :
    Held h x := by
  rcases known x points with lives | ⟨a, _, placed⟩
  · rcases source.block x lives with young | old
    · exact .inl (tracing.youngs.mpr young)
    · exact .inr (.inr (tracing.oldHdrs.subset old))
  · exact tracing.held placed

theorem Tracing.markEnv (tracing : Tracing h₀ live h) (source : Source h₀ live) {w : Nat}
    (known : Known h₀ live h true w) :
    Ends (markEnv w) h (Visited h₀ live h true w) (Overflow h₀ live) := by
  apply ends_ite.mpr
  constructor
  · intro none
    refine ⟨tracing, Grows.refl, .inl rfl, ?_⟩
    intro x points
    exact absurd none (target_env.mp points).1
  · intro some
    have points : target true w = .some (w - BHDR_SIZE) := target_env.mpr ⟨some, rfl⟩
    obtain ⟨aligned, positive⟩ := tracing.pass.layout.aligned
      (tracing.held_of_known source known points)
    have word : w = w - BHDR_SIZE + BHDR_SIZE := by
      unfold BHDR_SIZE at *
      omega
    have object : target false (makeHeapPtr w) = .some (w - BHDR_SIZE) := by
      rw [word]
      exact target_redirect false aligned
    have known' : Known h₀ live h false (makeHeapPtr w) := by
      intro x points'
      obtain rfl := Option.some.inj (object.symm.trans points')
      exact known _ points
    rw [ends_bind]
    apply (tracing.heapMark source known').post
    intro v h' visited
    have pointer : ∀ {c}, c % 8 = 0 → ptr (makeHeapPtr (c + BHDR_SIZE)) = c + BHDR_SIZE := by
      intro c aligned
      unfold ptr makeHeapPtr BHDR_SIZE
      omega
    constructor
    · exact visited.tracing
    · exact visited.grows
    · rcases visited.word with same | ⟨a, c, target, lives, placed, new⟩
      · left
        rw [same, word]
        exact pointer aligned
      · right
        have there := (visited.tracing.pass.layout.aligned (visited.tracing.held placed)).1
        obtain rfl := Option.some.inj (object.symm.trans target)
        exact ⟨_, c, points, lives, placed, by rw [new]; exact pointer there⟩
    · have result : ∃ y, y % 8 = 0 ∧ v = makeHeapPtr (y + BHDR_SIZE) := by
        rcases visited.word with same | ⟨a, c, _, _, placed, new⟩
        · exact ⟨_, aligned, by rw [same, ← word]⟩
        · exact ⟨c, (visited.tracing.pass.layout.aligned (visited.tracing.held placed)).1, new⟩
      obtain ⟨y, there, rfl⟩ := result
      rw [pointer there]
      intro x target
      obtain rfl := Option.some.inj ((target_redirect true there).symm.trans target)
      exact visited.settled _ (target_redirect false there)

theorem Tracing.visitWord (tracing : Tracing h₀ live h) (source : Source h₀ live) {isEnv : Bool}
    {w : Nat} (known : Known h₀ live h isEnv w) :
    Ends (visitWord isEnv w) h (Visited h₀ live h isEnv w) (Overflow h₀ live) := by
  cases isEnv with
  | false => exact tracing.heapMark source known
  | true => exact tracing.markEnv source known

theorem Visited.translated {isEnv : Bool} {w₀ w w' : Nat}
    (visited : Visited h₀ live h isEnv w w' h') (tracing : Tracing h₀ live h)
    (source : Source h₀ live) (before : Translated h₀ h isEnv w₀ w) :
    Translated h₀ h' isEnv w₀ w' := by
  have later := before.mono visited.grows.place
  rcases visited.word with same | ⟨a, c, points, lives, placed, new⟩
  · exact same ▸ later
  · rcases before with rfl | ⟨a', c', points', placed', word⟩
    · exact .inr ⟨a, c, points, placed, new⟩
    · have aligned := (tracing.pass.layout.aligned (tracing.held placed')).1
      rw [word, target_redirect isEnv aligned] at points
      obtain rfl := Option.some.inj points
      have still : Place h₀ h' c' c' := by
        rcases source.block c' lives with young | old
        · rcases tracing.place a' c' placed' with stays | ⟨_, same⟩
          · exact absurd stays (tracing.pass.layout.young_leaves (tracing.youngs.mpr young))
          · exact visited.grows.place _ _ (same ▸ placed')
        · exact .old old
      have same := Place.functional source.quiet.layout placed still
      rw [new, same]
      exact .inr ⟨a', c', points', visited.grows.place _ _ placed', rfl⟩

theorem Tracing.known (tracing : Tracing h₀ live h) (source : Source h₀ live) {a c : Nat}
    {b d : Block} (lives : live a) (raw : h₀.cells a = some b) (holds : Holds h₀ h c b d) {s : Slot}
    (member : s ∈ slots b) : Known h₀ live h s.isEnv (d.words s.index) := by
  intro x points
  rcases holds.slot s member with same | ⟨y, z, points', placed, word⟩
  · rw [same] at points
    exact .inl (source.closed a x lives ⟨b, raw, s, member, points⟩)
  · have aligned := (tracing.pass.layout.aligned (tracing.held placed)).1
    rw [word, target_redirect s.isEnv aligned] at points
    obtain rfl := Option.some.inj points
    exact .inr ⟨y, source.closed a y lives ⟨b, raw, s, member, points'⟩, placed⟩

end words

/- The words of a block are rewritten in its place. -/

section write
variable {h₀ h : Heap} {live : Nat → Prop} {a c : Nat} {b d : Block} {f : Block → Block}

/-- The block d at c, which holds what the live block b held, is rewritten by f. -/
structure Rewrite (h₀ h : Heap) (live : Nat → Prop) (a c : Nat) (b d : Block) (f : Block → Block) :
    Prop where
  header : ∀ b, (f b).header = b.header
  lives : live a
  placed : Place h₀ h a c
  raw : h₀.cells a = some b
  block : h.cells c = some d
  holds : Holds h₀ h c b d
  after : Holds h₀ h c b (f d)
  slot : ∀ s ∈ slots b, (f d).words s.index = d.words s.index ∨
    Settled h₀ live h s.isEnv ((f d).words s.index)
  inside : ∀ i place, innerPointer b = some (i, place) → (f d).words i = d.words i ∨
    (f d).words i = c + BHDR_SIZE + place

def rewrite (h : Heap) (c : Nat) (f : Block → Block) : Heap :=
  { h with cells := Function.update h.cells c ((h.cells c).map f) }

theorem Rewrite.place_iff (write : Rewrite h₀ h live a c b d f) {x y : Nat} :
    Place h₀ (rewrite h c f) x y ↔ Place h₀ h x y := by
  have headers := header_fields (write.header d)
  have there : (rewrite h c f).cells c = some (f d) := by
    simp [rewrite, write.block]
  have elsewhere : ∀ z, z ≠ c → (rewrite h c f).cells z = h.cells z := fun z other =>
    Function.update_of_ne other _ _
  constructor
  · intro placed
    apply placed.congr (show h.fullGc = (rewrite h c f).fullGc from rfl)
    intro _ e at_x
    by_cases here : x = c
    · subst here
      obtain rfl := Option.some.inj (there.symm.trans at_x)
      exact ⟨d, write.block, headers.2.1.symm, headers.2.2.1.symm, headers.2.2.2.1.symm,
        fun forward => absurd (write.after.present.symm.trans forward) (by simp)⟩
    · rw [elsewhere x here] at at_x
      exact ⟨e, at_x, rfl, rfl, rfl, fun _ => rfl⟩
  · intro placed
    apply placed.congr (show (rewrite h c f).fullGc = h.fullGc from rfl)
    intro _ e at_x
    by_cases here : x = c
    · subst here
      obtain rfl := Option.some.inj (write.block.symm.trans at_x)
      exact ⟨f d, there, headers.2.1, headers.2.2.1, headers.2.2.2.1,
        fun forward => absurd (write.holds.present.symm.trans forward) (by simp)⟩
    · exact ⟨e, (elsewhere x here).trans at_x, rfl, rfl, rfl, fun _ => rfl⟩

theorem Rewrite.there (write : Rewrite h₀ h live a c b d f) :
    (rewrite h c f).cells c = some (f d) := by
  simp [rewrite, write.block]

theorem rewrite_elsewhere {z : Nat} (other : z ≠ c) : (rewrite h c f).cells z = h.cells z :=
  Function.update_of_ne other _ _

theorem Rewrite.headers (write : Rewrite h₀ h live a c b d f) (z : Nat) :
    ((rewrite h c f).cells z).map Block.header = (h.cells z).map Block.header := by
  by_cases here : z = c
  · subst here
    rw [write.there, write.block, Option.map_some, Option.map_some, write.header d]
  · rw [rewrite_elsewhere here]

theorem Rewrite.tracing (write : Rewrite h₀ h live a c b d f) (tracing : Tracing h₀ live h) :
    Tracing h₀ live (rewrite h c f) := by
  have moved : ∀ x, HasMoved (rewrite h c f) x ↔ HasMoved h x := by
    intro x
    have same := congrArg (Option.map Block.forward) (write.headers x)
    simp only [Option.map_map] at same
    have forward : ∀ o : Option Block, (∃ b, o = some b ∧ b.forward = true) ↔
        o.map (Block.forward ∘ Block.header) = some true := by
      intro o
      cases o <;> simp [Block.header]
    exact (forward _).trans ((by rw [same]) : _ ↔ _) |>.trans (forward _).symm
  have same : ∀ p : Nat → Prop, (total h₀ fun x => HasMoved (rewrite h c f) x ∧ p x) =
      total h₀ fun x => HasMoved h x ∧ p x := fun p =>
    total_congr fun x _ => and_congr (moved x) Iff.rfl
  constructor
  · exact steps_pass.words c f write.header h tracing.pass
  · exact tracing.spaces
  · exact tracing.oldHdrs
  · exact tracing.oldSame
  · intro x e young at_x
    by_cases here : x = c
    · subst here
      rcases tracing.place a x write.placed with stays | ⟨_, rfl⟩
      · exact absurd stays (tracing.pass.layout.young_leaves (tracing.youngs.mpr young))
      · exact .inr ⟨x, write.place_iff.mpr write.placed⟩
    · rw [rewrite_elsewhere here] at at_x
      rcases tracing.left x e young at_x with raw | ⟨y, placed⟩
      · exact .inl raw
      · exact .inr ⟨y, write.place_iff.mpr placed⟩
  · exact fun x y placed => tracing.place x y (write.place_iff.mp placed)
  · exact fun x y placed => tracing.source x y (write.place_iff.mp placed)
  · exact fun x young placed => tracing.third x young (write.place_iff.mp placed)
  · intro x y placed
    have before := write.place_iff.mp placed
    obtain ⟨b₀, e, at_x, at_y, holds⟩ := tracing.holds x y before
    by_cases here : y = c
    · subst here
      obtain rfl := tracing.injective x a y before write.placed
      exact ⟨b, f d, write.raw, write.there, write.after.mono fun _ _ => write.place_iff.mpr⟩
    · exact ⟨b₀, e, at_x, (rewrite_elsewhere here).trans at_y,
        holds.mono fun _ _ => write.place_iff.mpr⟩
  · intro y stays
    obtain ⟨x, placed⟩ := tracing.onto y stays
    exact ⟨x, write.place_iff.mpr placed⟩
  · exact fun x x' y first second =>
      tracing.injective x x' y (write.place_iff.mp first) (write.place_iff.mp second)
  · intro y member
    obtain ⟨x, lives, placed⟩ := tracing.remembered y member
    exact ⟨x, lives, write.place_iff.mpr placed⟩
  · rw [same]
    exact tracing.used
  · rw [same]
    exact tracing.spent

theorem Rewrite.bit (write : Rewrite h₀ h live a c b d f) {z : Nat} :
    Bit (rewrite h c f) z ↔ Bit h z := by
  by_cases here : z = c
  · subst here
    have same := (header_fields (write.header d)).2.2.2.1
    simp [Bit, write.there, write.block, same]
  · unfold Bit
    rw [rewrite_elsewhere here]

theorem Rewrite.settled (write : Rewrite h₀ h live a c b d f) {isEnv : Bool} {w : Nat}
    (settled : Settled h₀ live h isEnv w) : Settled h₀ live (rewrite h c f) isEnv w := by
  intro x points
  apply (settled x points).mono fun _ _ => write.place_iff.mpr
  · rfl
  · exact fun z _ member => ⟨member, write.bit.mpr⟩

theorem Rewrite.grows (write : Rewrite h₀ h live a c b d f) (tracing : Tracing h₀ live h) :
    Grows h₀ live h (rewrite h c f) := by
  have shape := write.after.shape
  have shape₀ := write.holds.shape
  have later : Later h₀ live h (rewrite h c f) := by
    constructor
    · rfl
    · exact fun _ _ => write.place_iff.mpr
    · exact List.prefix_rfl
    · exact List.prefix_rfl
    · exact fun z _ _ => write.bit.mpr
    · intro x y s placed clean e at_y member
      by_cases here : y = c
      · subst here
        obtain rfl := Option.some.inj (write.there.symm.trans at_y)
        rw [shape.1] at member
        rcases write.slot s member with same | settled
        · rw [same]
          exact write.settled (clean d write.block (shape₀.1 ▸ member))
        · exact write.settled settled
      · rw [rewrite_elsewhere here] at at_y
        exact write.settled (clean e at_y member)
    · intro x y placed inside e at_y i place pointer
      by_cases here : y = c
      · subst here
        obtain rfl := Option.some.inj (write.there.symm.trans at_y)
        rw [shape.2] at pointer
        rcases write.inside i place pointer with same | new
        · rw [same]
          exact inside d write.block i place (shape₀.2 ▸ pointer)
        · exact new
      · rw [rewrite_elsewhere here] at at_y
        exact inside e at_y i place pointer
  have marks : Gc.unmarked h₀ (rewrite h c f) = Gc.unmarked h₀ h := by
    apply unmarked_congr (show (rewrite h c f).old.hdrs = h.old.hdrs from rfl) _
      fun y => tracing.youngs.mpr
    intro z _
    have same := congrArg (Option.map Block.remembered) (write.headers z)
    simpa only [Option.map_map, Function.comp_def, Block.header] using same
  refine ⟨later, List.prefix_rfl, ?_, ?_⟩
  · intro y scannable
    left
    rcases scannable with ⟨member, bit⟩ | ⟨young, placed⟩
    · exact .inl ⟨member, fun full => write.bit.mp (bit full)⟩
    · exact .inr ⟨young, write.place_iff.mp placed⟩
  · have length : (rewrite h c f).remembered.length = h.remembered.length := rfl
    have room : oldRoom (rewrite h c f) = oldRoom h := rfl
    simp only [budget, marks, length, room]
    exact Nat.le_refl _

end write

section visits
variable {h₀ h : Heap} {live : Nat → Prop}

/-- The pass has gone on from h to h'. -/
structure Onward (h₀ : Heap) (live : Nat → Prop) (h h' : Heap) : Prop where
  tracing : Tracing h₀ live h'
  grows : Grows h₀ live h h'

theorem Tracing.visitSlot (tracing : Tracing h₀ live h) (source : Source h₀ live) {a c : Nat}
    {b : Block} (lives : live a) (placed : Place h₀ h a c) (raw : h₀.cells a = some b) {s : Slot}
    (member : s ∈ slots b) :
    Ends (visitSlot c s) h (fun _ h' => Onward h₀ live h h' ∧ SlotClean h₀ live h' c s)
      (Overflow h₀ live) := by
  obtain ⟨b', d, raw', block, holds⟩ := tracing.holds a c placed
  obtain rfl := Option.some.inj (raw.symm.trans raw')
  have inside : ¬ d.size ≤ 8 * s.index := by
    rw [holds.size]
    exact Nat.not_le.mpr (source.readable a lives b raw s member)
  unfold Gc.visitSlot
  rw [ends_bind, ends_readHdr_some block, if_neg inside, ends_bind]
  apply (tracing.visitWord source (tracing.known source lives raw holds member)).post
  intro w h₁ visited
  have placed₁ := visited.grows.place a c placed
  obtain ⟨b', d₁, raw', block₁, holds₁⟩ := visited.tracing.holds a c placed₁
  obtain rfl := Option.some.inj (raw.symm.trans raw')
  have translated := visited.translated tracing source (holds.slot s member)
  have after : Holds h₀ h₁ c b (d₁.setWord s.index w) := by
    constructor
    · exact holds₁.type
    · exact holds₁.size
    · exact holds₁.present
    · intro s' member'
      by_cases index : s'.index = s.index
      · obtain rfl := slots_injective member' member index
        simpa [Block.setWord] using translated
      · simpa [Block.setWord, Function.update_of_ne index] using holds₁.slot s' member'
    · intro i place inner
      have other := ((innerPointer_cases inner).2 s member).symm
      simpa [Block.setWord, Function.update_of_ne other] using holds₁.inner i place inner
    · intro i no_slot no_inner
      have other := (no_slot s member).symm
      simpa [Block.setWord, Function.update_of_ne other] using holds₁.other i no_slot no_inner
  have write : Rewrite h₀ h₁ live a c b d₁ fun b => b.setWord s.index w := by
    constructor
    · exact fun _ => rfl
    · exact lives
    · exact placed₁
    · exact raw
    · exact block₁
    · exact holds₁
    · exact after
    · intro s' member'
      by_cases index : s'.index = s.index
      · obtain rfl := slots_injective member' member index
        right
        simpa [Block.setWord] using visited.settled
      · left
        simp [Block.setWord, Function.update_of_ne index]
    · intro i place inner
      left
      have other := ((innerPointer_cases inner).2 s member).symm
      simp [Block.setWord, Function.update_of_ne other]
  have onward : Onward h₀ live h (rewrite h₁ c fun b => b.setWord s.index w) :=
    ⟨write.tracing visited.tracing, visited.grows.trans (write.grows visited.tracing)⟩
  refine ⟨onward, ?_⟩
  intro e at_c _
  obtain rfl := Option.some.inj (write.there.symm.trans at_c)
  have word : (d₁.setWord s.index w).words s.index = w := Function.update_self _ _ _
  rw [word]
  exact write.settled visited.settled

theorem Tracing.visitSlots (tracing : Tracing h₀ live h) (source : Source h₀ live) {a c : Nat}
    {b : Block} (lives : live a) (placed : Place h₀ h a c) (raw : h₀.cells a = some b)
    {list : List Slot} (members : ∀ s ∈ list, s ∈ slots b) :
    Ends (visitSlots c list) h
      (fun _ h' => Onward h₀ live h h' ∧ ∀ s ∈ list, SlotClean h₀ live h' c s)
      (Overflow h₀ live) := by
  induction list generalizing h with
  | nil => exact ⟨⟨tracing, Grows.refl⟩, by simp⟩
  | cons s list ih =>
    unfold Gc.visitSlots
    rw [ends_bind]
    apply (tracing.visitSlot source lives placed raw (members s (by simp))).post
    intro _ h₁ first
    have placed₁ := first.1.grows.place a c placed
    apply (ih first.1.tracing placed₁ fun s member => members s (by simp [member])).post
    intro _ h₂ rest
    refine ⟨⟨rest.1.tracing, first.1.grows.trans rest.1.grows⟩, ?_⟩
    intro s' member
    rcases List.mem_cons.mp member with rfl | later
    · exact rest.1.grows.clean a c s' placed₁ first.2
    · exact rest.2 s' later

theorem Tracing.visitHdr (tracing : Tracing h₀ live h) (source : Source h₀ live) {a c : Nat}
    (lives : live a) (placed : Place h₀ h a c) :
    Ends (visitHdr c) h (fun _ h' => Onward h₀ live h h' ∧ Clean h₀ live h' c)
      (Overflow h₀ live) := by
  obtain ⟨b, d, raw, block, holds⟩ := tracing.holds a c placed
  obtain ⟨slots_eq, inner_eq⟩ := holds.shape
  have words : ∀ i, (setInner (c + BHDR_SIZE) d).words i = d.words i ∨
      ∃ place, innerPointer b = some (i, place) ∧
        (setInner (c + BHDR_SIZE) d).words i = c + BHDR_SIZE + place := by
    intro i
    unfold setInner
    rw [inner_eq]
    cases inner : innerPointer b with
    | none => exact .inl rfl
    | some pointer =>
      by_cases here : i = pointer.1
      · subst here
        exact .inr ⟨pointer.2, rfl, by simp [Block.setWord]⟩
      · exact .inl (by simp [Block.setWord, Function.update_of_ne here])
  have inner_word : ∀ i place, innerPointer b = some (i, place) →
      (setInner (c + BHDR_SIZE) d).words i = c + BHDR_SIZE + place := by
    intro i place inner
    unfold setInner
    rw [inner_eq, inner]
    simp [Block.setWord]
  have slot_word : ∀ s ∈ slots b,
      (setInner (c + BHDR_SIZE) d).words s.index = d.words s.index := by
    intro s member
    rcases words s.index with same | ⟨place, inner, _⟩
    · exact same
    · exact absurd rfl ((innerPointer_cases inner).2 s member)
  have header := header_setInner (c + BHDR_SIZE) d
  have fields := header_fields header
  have after : Holds h₀ h c b (setInner (c + BHDR_SIZE) d) := by
    constructor
    · exact fields.1.trans holds.type
    · exact fields.2.2.2.2.trans holds.size
    · exact fields.2.1.trans holds.present
    · intro s member
      rw [slot_word s member]
      exact holds.slot s member
    · exact fun i place inner => .inr (inner_word i place inner)
    · intro i no_slot no_inner
      rcases words i with same | ⟨place, inner, _⟩
      · exact same.trans (holds.other i no_slot no_inner)
      · exact absurd inner (no_inner place)
  have write : Rewrite h₀ h live a c b d (setInner (c + BHDR_SIZE)) :=
    ⟨header_setInner _, lives, placed, raw, block, holds, after,
      fun s member => .inl (slot_word s member), fun i place inner => .inr (inner_word i place inner)⟩
  have placed₁ := write.place_iff.mpr placed
  have inside : Inside (rewrite h c (setInner (c + BHDR_SIZE))) c := by
    intro e at_c i place inner
    obtain rfl := Option.some.inj (write.there.symm.trans at_c)
    rw [after.shape.2] at inner
    exact inner_word i place inner
  unfold Gc.visitHdr
  rw [ends_bind, ends_readHdr_some block, modifyHdr, ends_bind, ends_update, slots_eq]
  apply ((write.tracing tracing).visitSlots source lives placed₁ raw fun _ => id).post
  intro _ h₂ rest
  refine ⟨⟨rest.1.tracing, (write.grows tracing).trans rest.1.grows⟩, ?_,
    rest.1.grows.inside a c placed₁ inside⟩
  intro s e at_c member
  obtain ⟨b', e', raw', at_c', holds'⟩ :=
    rest.1.tracing.holds a c (rest.1.grows.place a c placed₁)
  obtain rfl := Option.some.inj (raw.symm.trans raw')
  obtain rfl := Option.some.inj (at_c.symm.trans at_c')
  have there : s ∈ slots b := holds'.shape.1 ▸ member
  exact rest.2 s there e at_c member

end visits

section scans
variable {h₀ h : Heap} {live : Nat → Prop}

theorem Onward.refl (tracing : Tracing h₀ live h) : Onward h₀ live h h := ⟨tracing, Grows.refl⟩

theorem Onward.trans {h' h'' : Heap} (first : Onward h₀ live h h')
    (second : Onward h₀ live h' h'') : Onward h₀ live h h'' :=
  ⟨second.tracing, first.grows.trans second.grows⟩

/-- A list of blocks that a pass visits one after another while it may grow. -/
structure Worklist (h₀ : Heap) (live : Nat → Prop) (list : Heap → List Nat) : Prop where
  grows : ∀ h h', Grows h₀ live h h' → list h <+: list h'
  place : ∀ h, Tracing h₀ live h → ∀ c ∈ list h, ∃ a, live a ∧ Place h₀ h a c

theorem Tracing.scanFrom (tracing : Tracing h₀ live h) (source : Source h₀ live)
    {list : Heap → List Nat} (work : Worklist h₀ live list) {n : Nat}
    (bound : ∀ h', Onward h₀ live h h' → (list h').length ≤ n) (fuel i : Nat)
    (enough : n < fuel + i) (le : i ≤ (list h).length)
    (done : ∀ c ∈ (list h).take i, Clean h₀ live h c) :
    Ends (scanFrom list fuel i) h
      (fun k h' => Onward h₀ live h h' ∧ k = (list h').length ∧ ∀ c ∈ list h', Clean h₀ live h' c)
      (Overflow h₀ live) := by
  have start : Onward h₀ live h h ∧ i ≤ (list h).length ∧
      ∀ c ∈ (list h).take i, Clean h₀ live h c := ⟨Onward.refl tracing, le, done⟩
  have visit : ∀ i h₁ hdr, (Onward h₀ live h h₁ ∧ i ≤ (list h₁).length ∧
        ∀ c ∈ (list h₁).take i, Clean h₀ live h₁ c) → (list h₁)[i]? = some hdr →
      Ends (Gc.visitHdr hdr) h₁ (fun _ h₂ => Onward h₀ live h h₂ ∧ i + 1 ≤ (list h₂).length ∧
        ∀ c ∈ (list h₂).take (i + 1), Clean h₀ live h₂ c) (Overflow h₀ live) := by
    intro i h₁ hdr before next
    obtain ⟨onward, below, done⟩ := before
    obtain ⟨inside, at_i⟩ := List.getElem?_eq_some_iff.mp next
    obtain ⟨a, lives, placed⟩ := work.place h₁ onward.tracing hdr (at_i ▸ List.getElem_mem inside)
    apply (onward.tracing.visitHdr source lives placed).post
    intro _ h₂ visited
    have grown := work.grows h₁ h₂ visited.1.grows
    have shorter := grown.length_le
    refine ⟨onward.trans visited.1, by omega, ?_⟩
    obtain ⟨more, same⟩ := grown
    intro c member
    rw [← same, List.take_append_of_le_length (by omega), List.take_add_one, next] at member
    rcases List.mem_append.mp member with earlier | here
    · obtain ⟨x, _, placed'⟩ := work.place h₁ onward.tracing c (List.mem_of_mem_take earlier)
      exact visited.1.grows.clean_at placed' (done c earlier)
    · rw [Option.toList_some, List.mem_singleton] at here
      exact here ▸ visited.2
  apply (ends_scanFrom visit (fun i h' both => ⟨both.2.1, bound h' both.1⟩) enough start).post
  intro k h' both
  obtain ⟨⟨onward, _, clean⟩, last⟩ := both
  rw [last, List.take_length] at clean
  exact ⟨onward, last, clean⟩

theorem Chain.count {cells : Cells} {a stop : Nat} {hdrs : List Nat}
    (chain : Chain cells a hdrs stop) (sized : ∀ x b, cells x = some b → 8 ≤ b.size) :
    a + 16 * hdrs.length ≤ stop := by
  induction hdrs generalizing a with
  | nil => exact Nat.le_of_eq chain
  | cons hdr hdrs ih =>
    obtain ⟨rfl, b, at_hdr, rest⟩ := chain
    have one := sized _ b at_hdr
    have others := ih rest
    rw [List.length_cons]
    unfold BHDR_SIZE at others
    omega

theorem Space.Laid.count {cells : Cells} {space : Space} (laid : space.Laid cells)
    (sized : ∀ x b, cells x = some b → 8 ≤ b.size ∧ b.size % 8 = 0) :
    16 * space.hdrs.length ≤ space.size := by
  have counted := laid.chain.count fun x b at_x => (sized x b at_x).1
  have total := laid.total
  omega

theorem Tracing.future_live (tracing : Tracing h₀ live h) {c : Nat}
    (member : c ∈ h.futureSurvived.hdrs) : ∃ a, live a ∧ Place h₀ h a c := by
  obtain ⟨a, placed⟩ := tracing.onto c (.inl member)
  refine ⟨a, ?_, placed⟩
  cases placed with
  | old before =>
    exact absurd (tracing.oldHdrs.subset before) (tracing.pass.layout.future_not_old member)
  | moved young block forward place =>
    exact tracing.source a c (.moved young block forward place) young
  | postponed young =>
    exact absurd (.inl member) (tracing.pass.layout.young_leaves (tracing.youngs.mpr young))

theorem worklist_future : Worklist h₀ live (·.futureSurvived.hdrs) where
  grows := fun _ _ grows => grows.future
  place := fun _ tracing _ => tracing.future_live

theorem worklist_old (source : Source h₀ live) (minor : h₀.fullGc = false) :
    Worklist h₀ live (·.old.hdrs) where
  grows := fun _ _ grows => grows.old
  place := by
    intro h tracing c member
    obtain ⟨a, placed⟩ := tracing.onto c (.inr member)
    refine ⟨a, ?_, placed⟩
    cases placed with
    | old before => exact source.old minor c before
    | moved young block forward place =>
      exact tracing.source a c (.moved young block forward place) young
    | postponed young =>
      exact absurd (.inr member) (tracing.pass.layout.young_leaves (tracing.youngs.mpr young))

theorem worklist_remembered : Worklist h₀ live (·.remembered) where
  grows := fun _ _ grows => grows.remembered
  place := fun _ tracing => tracing.remembered

/-- What has been found and has its place has been visited, or is remembered. -/
def Pending (h₀ : Heap) (live : Nat → Prop) (h : Heap) : Prop :=
  ∀ c, Scannable h₀ h c → Clean h₀ live h c ∨ c ∈ h.remembered

theorem Tracing.scannable_placed (tracing : Tracing h₀ live h) {c : Nat}
    (scannable : Scannable h₀ h c) : ∃ a, Place h₀ h a c := by
  rcases scannable with ⟨member, _⟩ | ⟨_, placed⟩
  · exact tracing.onto c (.inr member)
  · exact ⟨c, placed⟩

theorem Pending.onward {h' : Heap} (pending : Pending h₀ live h) (tracing : Tracing h₀ live h)
    (onward : Onward h₀ live h h') : Pending h₀ live h' := by
  intro c scannable
  rcases onward.grows.scannable c scannable with before | later
  · obtain ⟨a, placed⟩ := tracing.scannable_placed before
    rcases pending c before with clean | member
    · exact .inl (onward.grows.clean_at placed clean)
    · exact .inr (onward.grows.remembered.subset member)
  · exact .inr later

/-- What bounds the rounds of the loops. -/
def potential (h₀ h : Heap) : Nat := 16 * h.remembered.length + budget h₀ h

theorem forget_place {x y : Nat} :
    Place h₀ { h with remembered := [] } x y ↔ Place h₀ h x y := by
  constructor
  · intro placed
    exact placed.congr (show h.fullGc = { h with remembered := [] }.fullGc from rfl)
      fun _ d at_x => ⟨d, at_x, rfl, rfl, rfl, fun _ => rfl⟩
  · intro placed
    exact placed.congr (show { h with remembered := [] }.fullGc = h.fullGc from rfl)
      fun _ d at_x => ⟨d, at_x, rfl, rfl, rfl, fun _ => rfl⟩

theorem forget_tracing (tracing : Tracing h₀ live h) :
    Tracing h₀ live { h with remembered := [] } := by
  have pass := tracing.pass
  constructor
  · exact ⟨pass.layout.flags _ _ _, pass.fullGc, pass.oldMap, pass.present⟩
  · exact tracing.spaces
  · exact tracing.oldHdrs
  · exact tracing.oldSame
  · intro x b young at_x
    rcases tracing.left x b young at_x with raw | ⟨y, placed⟩
    · exact .inl raw
    · exact .inr ⟨y, forget_place.mpr placed⟩
  · exact fun x y placed => tracing.place x y (forget_place.mp placed)
  · exact fun x y placed => tracing.source x y (forget_place.mp placed)
  · exact fun x young placed => tracing.third x young (forget_place.mp placed)
  · intro x y placed
    obtain ⟨b, d, at_x, at_y, holds⟩ := tracing.holds x y (forget_place.mp placed)
    exact ⟨b, d, at_x, at_y, holds.mono fun _ _ => forget_place.mpr⟩
  · intro y stays
    obtain ⟨x, placed⟩ := tracing.onto y stays
    exact ⟨x, forget_place.mpr placed⟩
  · exact fun x x' y first second =>
      tracing.injective x x' y (forget_place.mp first) (forget_place.mp second)
  · intro y member
    cases member
  · exact tracing.used
  · exact tracing.spent

theorem forget_settled {isEnv : Bool} {w : Nat} (settled : Settled h₀ live h isEnv w) :
    Settled h₀ live { h with remembered := [] } isEnv w := by
  intro x points
  apply (settled x points).mono fun _ _ => forget_place.mpr
  · rfl
  · exact fun _ _ member => ⟨member, id⟩

theorem forget_later : Later h₀ live h { h with remembered := [] } := by
  constructor
  · rfl
  · exact fun _ _ => forget_place.mpr
  · exact List.prefix_rfl
  · exact List.prefix_rfl
  · exact fun _ _ _ => id
  · exact fun a c s _ clean d at_c member => forget_settled (clean d at_c member)
  · exact fun _ _ _ => id

/-- A round of the loop leads from h to h'. -/
structure Round (h₀ : Heap) (live : Nat → Prop) (h h' : Heap) : Prop where
  tracing : Tracing h₀ live h'
  later : Later h₀ live h h'
  pending : Pending h₀ live h'

theorem Tracing.scanRemembered (tracing : Tracing h₀ live h) (source : Source h₀ live)
    (pending : Pending h₀ live h) {fuel : Nat} (enough : potential h₀ h < 16 * fuel) :
    Ends (heapScanRemembered fuel) h
      (fun _ h' => Round h₀ live h h' ∧
        potential h₀ h' + 16 * h.remembered.length ≤ potential h₀ h)
      (Overflow h₀ live) := by
  unfold heapScanRemembered
  rw [ends_bind]
  have bound : ∀ h', Onward h₀ live h h' → h'.remembered.length ≤ potential h₀ h / 16 := by
    intro h' onward
    have budget := onward.grows.budget
    unfold potential
    omega
  apply (tracing.scanFrom source worklist_remembered bound fuel 0 (by omega) (Nat.zero_le _)
    (by simp)).post
  intro k h₁ ended
  obtain ⟨onward, _, clean⟩ := ended
  have pending₁ := pending.onward tracing onward
  have forgets : Later h₀ live h₁ { h₁ with remembered := [] } := forget_later
  have later := onward.grows.toLater.trans forgets
  refine ⟨⟨forget_tracing onward.tracing, later, ?_⟩, ?_⟩
  · intro c scannable
    have before : Scannable h₀ h₁ c := scannable.imp id fun both => ⟨both.1, forget_place.mp both.2⟩
    obtain ⟨a, placed⟩ := onward.tracing.scannable_placed before
    left
    apply forget_later.clean_at placed
    rcases pending₁ c before with done | member
    · exact done
    · exact clean c member
  · have budget := onward.grows.budget
    have longer := onward.grows.remembered.length_le
    have same : Gc.budget h₀ { h₁ with remembered := [] } = Gc.budget h₀ h₁ := rfl
    simp only [potential, same, List.length_nil]
    omega

/- The blocks copied since block i are visited. -/
theorem Tracing.scanReferences (tracing : Tracing h₀ live h) (source : Source h₀ live)
    (pending : Pending h₀ live h) {fuel i : Nat} (enough : SURVIVED_SIZE < 16 * fuel)
    (le : i ≤ h.futureSurvived.hdrs.length)
    (done : ∀ c ∈ h.futureSurvived.hdrs.take i, Clean h₀ live h c) :
    Ends (heapScanReferences fuel i) h
      (fun k h' => Round h₀ live h h' ∧ potential h₀ h' ≤ potential h₀ h ∧
        k = h'.futureSurvived.hdrs.length ∧ ∀ c ∈ h'.futureSurvived.hdrs, Clean h₀ live h' c)
      (Overflow h₀ live) := by
  have bound : ∀ h', Onward h₀ live h h' → h'.futureSurvived.hdrs.length ≤ SURVIVED_SIZE / 16 := by
    intro h' onward
    have layout := onward.tracing.pass.layout
    have count := layout.future.count layout.sized
    have size := layout.areas.sizes.2
    omega
  apply (tracing.scanFrom source worklist_future bound fuel i (by omega) le done).post
  intro k h₁ ended
  obtain ⟨onward, last, clean⟩ := ended
  exact ⟨⟨onward.tracing, onward.grows.toLater, pending.onward tracing onward⟩,
    onward.grows.budget, last, clean⟩

theorem Round.trans {h' h'' : Heap} (first : Round h₀ live h h') (second : Round h₀ live h' h'') :
    Round h₀ live h h'' :=
  ⟨second.tracing, first.later.trans second.later, second.pending⟩

/- The loop runs until every block that has been found has been visited. -/
theorem Tracing.heapGcLoop (tracing : Tracing h₀ live h) (source : Source h₀ live)
    (pending : Pending h₀ live h) (fuel i : Nat)
    (enough : potential h₀ h + SURVIVED_SIZE < 16 * fuel)
    (last : i = h.futureSurvived.hdrs.length)
    (done : ∀ c ∈ h.futureSurvived.hdrs, Clean h₀ live h c) :
    Ends (heapGcLoop fuel i) h
      (fun _ h' => Round h₀ live h h' ∧ h'.remembered = [] ∧
        ∀ c ∈ h'.futureSurvived.hdrs, Clean h₀ live h' c)
      (Overflow h₀ live) := by
  induction fuel generalizing h i with
  | zero => omega
  | succ fuel ih =>
    unfold Gc.heapGcLoop
    rw [ends_bind, ends_get]
    apply ends_ite.mpr
    constructor
    · intro none
      exact ⟨⟨tracing, Later.refl, pending⟩, none, done⟩
    · intro some
      have round : 0 < h.remembered.length := List.length_pos_iff.mpr some
      have large : 16 ≤ SURVIVED_SIZE := by decide
      have fits : 16 ≤ potential h₀ h := by
        unfold potential
        omega
      rw [ends_bind]
      apply (tracing.scanRemembered source pending (by omega)).post
      intro _ h₁ first
      obtain ⟨first, less⟩ := first
      have grown := first.later.future
      have short := grown.length_le
      rw [ends_bind]
      apply (first.tracing.scanReferences source first.pending (i := i) (by omega) (by omega) _).post
      · intro k h₂ second
        obtain ⟨second, less', last', done'⟩ := second
        apply (ih second.tracing second.pending k (by omega) last' done').post
        intro _ h₃ rest
        exact ⟨(first.trans second).trans rest.1, rest.2⟩
      · obtain ⟨more, same⟩ := grown
        intro c member
        rw [← same, last, List.take_left'  rfl] at member
        obtain ⟨x, _, placed⟩ := tracing.future_live member
        exact first.later.clean_at placed (done c member)

end scans

section main
variable {h₀ h h' : Heap} {live : Nat → Prop}

/-- The word w of a root has become w'. -/
structure RootAt (h₀ : Heap) (live : Nat → Prop) (h : Heap) (isEnv : Bool) (w w' : Nat) : Prop where
  translated : Translated h₀ h isEnv w w'
  settled : Settled h₀ live h isEnv w'

/-- The roots of t have become those of t'. -/
structure Roots (h₀ : Heap) (live : Nat → Prop) (h : Heap) (t t' : Thread) : Prop where
  env : RootAt h₀ live h true t.env t'.env
  opstack : ∀ i < t.opStackIdx, RootAt h₀ live h false (t.opstack i) (t'.opstack i)
  above : ∀ i, t.opStackIdx ≤ i → t'.opstack i = t.opstack i
  closure : RootAt h₀ live h true t.closure t'.closure
  libCache : RootAt h₀ live h false t.libCache t'.libCache
  exceptionHandlers : RootAt h₀ live h false t.exceptionHandlers t'.exceptionHandlers
  localRoots : List.Forall₂ (RootAt h₀ live h false) t.localRoots t'.localRoots
  same : t'.opStackIdx = t.opStackIdx ∧ t'.heapEnv = t.heapEnv ∧ t'.objects = t.objects

theorem RootAt.later {isEnv : Bool} {w w' : Nat} (root : RootAt h₀ live h isEnv w w')
    (later : Later h₀ live h h') (tracing : Tracing h₀ live h) (after : Tracing h₀ live h') :
    RootAt h₀ live h' isEnv w w' :=
  ⟨root.translated.mono later.place, later.settled tracing after root.settled⟩

theorem Roots.later {t t' : Thread} (roots : Roots h₀ live h t t') (later : Later h₀ live h h')
    (tracing : Tracing h₀ live h) (after : Tracing h₀ live h') : Roots h₀ live h' t t' where
  env := roots.env.later later tracing after
  opstack := fun i below => (roots.opstack i below).later later tracing after
  above := roots.above
  closure := roots.closure.later later tracing after
  libCache := roots.libCache.later later tracing after
  exceptionHandlers := roots.exceptionHandlers.later later tracing after
  localRoots := roots.localRoots.imp fun _ _ root => root.later later tracing after
  same := roots.same

theorem Visited.root {isEnv : Bool} {w w' : Nat} (visited : Visited h₀ live h isEnv w w' h') :
    RootAt h₀ live h' isEnv w w' := by
  refine ⟨?_, visited.settled⟩
  rcases visited.word with same | ⟨a, c, points, _, placed, word⟩
  · exact .inl same
  · exact .inr ⟨a, c, points, placed, word⟩

theorem Tracing.visitRoot (tracing : Tracing h₀ live h) (source : Source h₀ live) (isEnv : Bool)
    {w : Nat} (lives : ∀ x, target isEnv w = some x → live x) :
    Ends (Gc.visitWord isEnv w) h (fun w' h' => Onward h₀ live h h' ∧ RootAt h₀ live h' isEnv w w')
      (Overflow h₀ live) := by
  apply (tracing.visitWord source fun x points => .inl (lives x points)).post
  exact fun w' h' visited => ⟨⟨visited.tracing, visited.grows⟩, visited.root⟩

theorem Tracing.visitStack (tracing : Tracing h₀ live h) (source : Source h₀ live)
    (opstack : Nat → Nat) (n : Nat)
    (lives : ∀ i < n, ∀ x, target false (opstack i) = some x → live x) :
    Ends (Gc.visitStack opstack n) h
      (fun opstack' h' => Onward h₀ live h h' ∧
        (∀ i < n, RootAt h₀ live h' false (opstack i) (opstack' i)) ∧
        ∀ i, n ≤ i → opstack' i = opstack i)
      (Overflow h₀ live) := by
  induction n with
  | zero => exact ⟨Onward.refl tracing, by simp, fun _ _ => rfl⟩
  | succ n ih =>
    unfold Gc.visitStack
    rw [ends_bind]
    apply (ih fun i below => lives i (by omega)).post
    intro opstack₁ h₁ before
    obtain ⟨onward, roots, above⟩ := before
    rw [ends_bind, above n (Nat.le_refl n)]
    apply (onward.tracing.visitRoot source false (lives n (by omega))).post
    intro w h₂ visited
    refine ⟨onward.trans visited.1, ?_, ?_⟩
    · intro i below
      by_cases last : i = n
      · subst last
        rw [Function.update_self]
        exact visited.2
      · rw [Function.update_of_ne last]
        exact (roots i (by omega)).later visited.1.grows.toLater onward.tracing visited.1.tracing
    · intro i beyond
      rw [Function.update_of_ne (by omega)]
      exact above i (by omega)

theorem Tracing.visitAll (tracing : Tracing h₀ live h) (source : Source h₀ live) (ws : List Nat)
    (lives : ∀ w ∈ ws, ∀ x, target false w = some x → live x) :
    Ends (Gc.visitAll ws) h
      (fun ws' h' => Onward h₀ live h h' ∧ List.Forall₂ (RootAt h₀ live h' false) ws ws')
      (Overflow h₀ live) := by
  induction ws generalizing h with
  | nil => exact ⟨Onward.refl tracing, .nil⟩
  | cons w ws ih =>
    unfold Gc.visitAll
    rw [ends_bind]
    apply (tracing.visitRoot source false (lives w (by simp))).post
    intro w' h₁ visited
    rw [ends_bind]
    apply (ih visited.1.tracing fun w member => lives w (by simp [member])).post
    intro ws' h₂ rest
    exact ⟨visited.1.trans rest.1,
      .cons (visited.2.later rest.1.grows.toLater visited.1.tracing rest.1.tracing) rest.2⟩

theorem mem_roots_opstack {t : Thread} {i : Nat} (below : i < t.opStackIdx) :
    (false, t.opstack i) ∈ t.roots := by
  simp only [Thread.roots, List.cons_append, List.mem_cons, List.mem_append, List.mem_map,
    List.mem_range]
  exact .inr (.inl (.inl ⟨i, below, rfl⟩))

theorem Tracing.threadGetRoots (tracing : Tracing h₀ live h) (source : Source h₀ live) (t : Thread)
    (lives : ∀ a, RootOf t a → live a) :
    Ends (Gc.threadGetRoots t) h
      (fun t' h' => Onward h₀ live h h' ∧ Roots h₀ live h' t t') (Overflow h₀ live) := by
  have root : ∀ isEnv w, (isEnv, w) ∈ t.roots → ∀ x, target isEnv w = some x → live x :=
    fun isEnv w member x points => lives x ⟨(isEnv, w), member, points⟩
  unfold Gc.threadGetRoots
  rw [ends_bind]
  apply (tracing.visitRoot source true (root _ _ (by simp [Thread.roots]))).post
  intro env h₁ first
  rw [ends_bind]
  apply (first.1.tracing.visitStack source t.opstack t.opStackIdx fun i below =>
    root _ _ (mem_roots_opstack below)).post
  intro opstack h₂ second
  rw [ends_bind]
  apply (second.1.tracing.visitRoot source true
    (root _ t.closure (by simp [Thread.roots]))).post
  intro closure h₃ third
  rw [ends_bind]
  apply (third.1.tracing.visitRoot source false
    (root _ t.libCache (by simp [Thread.roots]))).post
  intro libCache h₄ fourth
  rw [ends_bind]
  apply (fourth.1.tracing.visitRoot source false
    (root _ t.exceptionHandlers (by simp [Thread.roots]))).post
  intro exceptionHandlers h₅ fifth
  rw [ends_bind]
  apply (fifth.1.tracing.visitAll source t.localRoots fun w member => root _ _ (by
    simp [Thread.roots, member])).post
  intro localRoots h₆ sixth
  have on₅ := sixth.1
  have on₄ := fifth.1.trans on₅
  have on₃ := fourth.1.trans on₄
  have on₂ := third.1.trans on₃
  have on₁ := second.1.trans on₂
  refine ⟨first.1.trans on₁, ?_⟩
  constructor
  · exact first.2.later on₁.grows.toLater first.1.tracing on₁.tracing
  · exact fun i below => (second.2.1 i below).later on₂.grows.toLater second.1.tracing on₂.tracing
  · exact second.2.2
  · exact third.2.later on₃.grows.toLater third.1.tracing on₃.tracing
  · exact fourth.2.later on₄.grows.toLater fourth.1.tracing on₄.tracing
  · exact fifth.2.later on₅.grows.toLater fifth.1.tracing on₅.tracing
  · exact sixth.2
  · exact ⟨rfl, rfl, rfl⟩

theorem total_none : (total h₀ fun _ => False) = 0 := by
  simp [total]

theorem Source.start (source : Source h₀ live) : Tracing h₀ live h₀ := by
  have quiet := source.quiet
  have layout := quiet.layout
  have still : ∀ {x}, Young h₀ x → ¬ HasMoved h₀ x := by
    intro x young moved
    obtain ⟨b, block, forward⟩ := moved
    exact absurd ((quiet.present x b (.inl young) block).symm.trans forward) (by simp)
  have only : ∀ {x y}, Place h₀ h₀ x y → x ∈ h₀.old.hdrs ∧ y = x := by
    intro x y placed
    cases placed with
    | old member => exact ⟨member, rfl⟩
    | moved young block forward => exact absurd ⟨_, block, forward⟩ (still young)
    | postponed young full block _ _ marked =>
      exact absurd ((source.unmarked full x _ (.inl young) block).symm.trans marked) (by simp)
  have none : ∀ p : Nat → Prop, (total h₀ fun x => HasMoved h₀ x ∧ p x) = 0 := by
    intro p
    rw [← @total_none h₀]
    exact total_congr fun x young => iff_of_false (fun both => still young both.1) id
  constructor
  · exact quiet.pass
  · exact ⟨rfl, rfl⟩
  · exact List.prefix_rfl
  · exact fun _ => rfl
  · exact fun x b young block => .inl ⟨quiet.present x b (.inl young) block, block⟩
  · intro x y placed
    obtain ⟨member, rfl⟩ := only placed
    exact .inl (.inr member)
  · intro x y placed young
    exact absurd (.inr (only placed).1) (layout.young_leaves young)
  · intro x young placed
    exact absurd (.inr (only placed).1) (layout.young_leaves young)
  · intro x y placed
    obtain ⟨member, rfl⟩ := only placed
    obtain ⟨b, block⟩ := layout.block (.inr (.inr member))
    exact ⟨b, b, block, block, rfl, rfl, quiet.present y b (.inr (.inr member)) block,
      fun _ _ => .inl rfl, fun _ _ _ => .inl rfl, fun _ _ _ => rfl⟩
  · intro y stays
    rcases stays with future | member
    · rw [quiet.future] at future
      cases future
    · exact ⟨y, .old member⟩
  · intro x x' y first second
    exact (only first).2.symm.trans (only second).2
  · intro y member
    rw [quiet.remembered] at member
    cases member
  · have empty : h₀.futureSurvived.mem = h₀.futureSurvived.pos := by
      have chain := layout.future.chain
      rwa [quiet.future] at chain
    rw [none]
    omega
  · rw [none]
    omega

/-- A pass that has come to its end. -/
structure Finished (h₀ : Heap) (live : Nat → Prop) (t : Thread) (t' : Thread) (h : Heap) : Prop where
  tracing : Tracing h₀ live h
  roots : Roots h₀ live h t t'
  remembered : h.remembered = []
  clean : ∀ c, Found h₀ live h c → Clean h₀ live h c

theorem Round.finished {t t' : Thread} {h₁ : Heap} (round : Round h₀ live h₁ h)
    (tracing : Tracing h₀ live h₁) (roots : Roots h₀ live h₁ t t') (forgot : h.remembered = [])
    (future : ∀ c ∈ h.futureSurvived.hdrs, Clean h₀ live h c) : Finished h₀ live t t' h := by
  refine ⟨round.tracing, roots.later round.later tracing round.tracing, forgot, ?_⟩
  intro c found
  obtain ⟨a, _, placed⟩ := found.place
  have seen : Scannable h₀ h c → Clean h₀ live h c := by
    intro scannable
    rcases round.pending c scannable with clean | member
    · exact clean
    · rw [forgot] at member
      cases member
  rcases round.tracing.place a c placed with (member | member) | ⟨young, rfl⟩
  · exact future c member
  · exact seen (.inl ⟨member, fun full => found.bit full member⟩)
  · exact seen (.inr ⟨young, placed⟩)

theorem Source.pending (source : Source h₀ live) (full : h₀.fullGc = true) :
    Pending h₀ live h₀ := by
  intro c scannable
  rcases scannable with ⟨member, bit⟩ | ⟨young, placed⟩
  · obtain ⟨d, block, marked⟩ := bit full
    exact absurd ((source.unmarked full c d (.inr (.inr member)) block).symm.trans marked) (by simp)
  · rcases source.start.place c c placed with stays | _
    · exact absurd stays (source.quiet.layout.young_leaves young)
    · cases placed with
      | old member =>
        exact absurd (.inr member) (source.quiet.layout.young_leaves young)
      | moved _ block forward =>
        exact absurd ((source.quiet.present c _ (.inl young) block).symm.trans forward) (by simp)
      | postponed _ _ block _ _ marked =>
        exact absurd ((source.unmarked full c _ (.inl young) block).symm.trans marked) (by simp)

theorem Tracing.postponed_full (tracing : Tracing h₀ live h) {c : Nat} (young : Young h₀ c)
    (placed : Place h₀ h c c) : h.fullGc = true := by
  obtain ⟨b, d, raw, block, holds⟩ := tracing.holds c c placed
  cases placed with
  | old member =>
    exact absurd (.inr (tracing.oldHdrs.subset member))
      (tracing.pass.layout.young_leaves (tracing.youngs.mpr young))
  | moved _ block' forward =>
    obtain rfl := Option.some.inj (block.symm.trans block')
    exact absurd (holds.present.symm.trans forward) (by simp)
  | postponed _ full => exact full

theorem ends_heapGcMain_finished (source : Source h₀ live) (t : Thread)
    (lives : ∀ a, RootOf t a → live a) {fuel : Nat}
    (enough : potential h₀ h₀ + SURVIVED_SIZE + OLD_SIZE < 16 * fuel) :
    Ends (heapGcMain fuel t) h₀ (Finished h₀ live t) (Overflow h₀ live) := by
  unfold heapGcMain
  rw [ends_bind]
  apply (source.start.threadGetRoots source t lives).post
  intro t' h₁ first
  obtain ⟨onward, roots⟩ := first
  rw [ends_bind]
  have scanned : Ends (scanOldUnlessFull fuel) h₁
      (fun _ h₂ => Onward h₀ live h₁ h₂ ∧ Pending h₀ live h₂) (Overflow h₀ live) := by
    unfold scanOldUnlessFull
    rw [ends_bind, ends_get]
    apply ends_ite.mpr
    constructor
    · intro full
      have full₀ : h₀.fullGc = true := onward.tracing.pass.fullGc.symm.trans full
      exact ⟨Onward.refl onward.tracing, (source.pending full₀).onward source.start onward⟩
    · intro minor
      rw [Bool.not_eq_true] at minor
      have minor₀ : h₀.fullGc = false := onward.tracing.pass.fullGc.symm.trans minor
      have bound : ∀ h', Onward h₀ live h₁ h' → h'.old.hdrs.length ≤ OLD_SIZE / 16 := by
        intro h' onward'
        have layout := onward'.tracing.pass.layout
        have count := layout.old.count layout.sized
        rcases layout.areas.old with absent | present
        · rw [absent]
          simp
        · omega
      rw [ends_bind]
      apply (onward.tracing.scanFrom source (worklist_old source minor₀) bound fuel 0 (by omega)
        (Nat.zero_le _) (by simp)).post
      intro _ h₂ ended
      obtain ⟨onward', _, clean⟩ := ended
      refine ⟨onward', ?_⟩
      intro c scannable
      rcases scannable with ⟨member, _⟩ | ⟨young, placed⟩
      · exact .inl (clean c member)
      · have full := onward'.tracing.postponed_full young placed
        rw [onward'.tracing.pass.fullGc, minor₀] at full
        cases full
  apply scanned.post
  intro _ h₂ second
  obtain ⟨onward₂, pending⟩ := second
  have budget : potential h₀ h₂ ≤ potential h₀ h₀ := by
    have first := onward.grows.budget
    have second := onward₂.grows.budget
    unfold potential
    omega
  rw [ends_bind]
  apply (onward₂.tracing.scanReferences source pending (i := 0) (by omega) (Nat.zero_le _)
    (by simp)).post
  intro k h₃ third
  obtain ⟨round₃, less, last, done⟩ := third
  rw [ends_bind]
  apply (round₃.tracing.heapGcLoop source round₃.pending fuel k (by omega) last done).post
  intro _ h₄ fourth
  obtain ⟨round₄, forgot, future⟩ := fourth
  rw [ends_pure]
  have roots₂ := roots.later onward₂.grows.toLater onward.tracing onward₂.tracing
  exact (round₃.trans round₄).finished onward₂.tracing roots₂ forgot future

end main

end LGears.Gc
