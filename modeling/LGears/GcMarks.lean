import LGears.GcMinor

/- The remembered bits of the old space: which collections leave none of them set, and what the
   marking pass of a full collection finds when none is. -/
namespace LGears.Gc
open StateExcept Rooted

/-- No block has its remembered bit set. -/
def Unmarked (h : Heap) : Prop := ∀ a b, Held h a → h.cells a = some b → b.remembered = false

/-- The remembered bits in a pass: of the blocks that may still be copied only those that a full
    collection postpones have one, and of the copies and the blocks of the old space those that a
    full collection has marked. -/
structure Bits (full : Bool) (map : Option (List (Nat × Nat))) (h : Heap) : Prop where
  pass : Pass full map h
  young : ∀ a b, Young h a → h.cells a = some b → b.forward = false →
    (full = true → b.generation ≠ 3) → b.remembered = false
  stays : ∀ c b, c ∈ h.futureSurvived.hdrs ∨ full = false ∧ c ∈ h.old.hdrs → h.cells c = some b →
    b.remembered = false

section bits
variable {full : Bool} {map : Option (List (Nat × Nat))} {h h' : Heap} {obj w a new : Nat}
  {b : Block}

theorem Bits.remember (bits : Bits full map h) (isFull : h.fullGc = true)
    (block : h.cells a = some b) (old : ¬ Young h a ∨ b.generation = 3)
    (elsewhere : a ∉ h.futureSurvived.hdrs) (pass : Pass full map (remember h a b)) :
    Bits full map (remember h a b) := by
  have full_true : full = true := bits.pass.fullGc.symm.trans isFull
  constructor
  · exact pass
  · intro c d young at_c present below
    by_cases here : c = a
    · subst here
      simp only [Gc.remember, Function.update_self, Option.some.injEq] at at_c
      subst at_c
      rcases old with other | third
      · exact absurd young other
      · exact absurd third (below full_true)
    · simp only [Gc.remember, Function.update_of_ne here] at at_c
      exact bits.young c d young at_c present below
  · intro c d stays at_c
    rcases stays with future | ⟨minor, _⟩
    · have here : c ≠ a := fun same => elsewhere (same ▸ future)
      simp only [Gc.remember, Function.update_of_ne here] at at_c
      exact bits.stays c d (.inl future) at_c
    · rw [full_true] at minor
      cases minor

theorem Bits.copies (bits : Bits full map h) (copies : Copies h h' a new b)
    (below : full = true → b.generation ≠ 3) (pass : Pass full map h') : Bits full map h' := by
  obtain ⟨r, copy⟩ := copies.copy
  have clear := bits.young a b copies.young copies.block copies.present below
  have young_iff : ∀ {c}, Young h' c ↔ Young h c := by
    intro c
    rw [Young, Young, copies.spaces.1, copies.spaces.2]
  constructor
  · exact pass
  · intro c d young at_c present under
    rw [young_iff] at young
    by_cases here : c = a
    · subst here
      obtain rfl := Option.some.inj (copy.at_source.symm.trans at_c)
      cases present
    · rw [copies.frame c (.inl young) here] at at_c
      exact bits.young c d young at_c present under
  · intro c d stays at_c
    by_cases here : c = new
    · subst here
      obtain rfl := Option.some.inj (copy.at_new.symm.trans at_c)
      exact clear
    · have stays' : Stays h' c := stays.imp_right And.right
      have before : Stays h c := ((copies.stays c).mp stays').resolve_right here
      have other : c ≠ a := fun same => bits.pass.layout.young_leaves copies.young (same ▸ before)
      rw [copies.frame c (.inr before) other] at at_c
      rcases before with future | old
      · exact bits.stays c d (.inl future) at_c
      · rcases stays with future | ⟨minor, _⟩
        · exact absurd (copies.old.subset old) (pass.layout.future_not_old future)
        · exact bits.stays c d (.inr ⟨minor, old⟩) at_c

theorem Bits.marked (bits : Bits full map h) (marked : Marked h obj w h')
    (pass : Pass full map h') : Bits full map h' := by
  have layout := bits.pass.layout
  cases marked with
  | immediate => exact bits
  | future => exact bits
  | old => exact bits
  | forwarded => exact bits
  | postponed => exact bits
  | reached b points inside isFull =>
    have held : Young h (hdrOf obj) ∨ hdrOf obj ∈ h.futureSurvived.hdrs → False := by
      intro other
      have held : Held h (hdrOf obj) := other.imp_right .inl
      rw [ptr_eq (layout.aligned held).2] at inside
      have old := layout.in_old held inside
      rcases other with young | future
      · exact layout.young_leaves young (.inr old)
      · exact layout.future_not_old future old
    exact bits.remember isFull points.block (.inl fun young => held (.inl young))
      (fun future => held (.inr future)) pass
  | postpones b points young _ third isFull =>
    exact bits.remember isFull points.block (.inr third)
      (fun future => layout.young_leaves young (.inl future)) pass
  | copied b cells points young present below room copy =>
    exact bits.copies (copies_copied layout points young present below room copy)
      (fun _ => below) pass
  | promoted b cells points young present third minor room copy =>
    exact bits.copies (copies_promoted layout points young present third minor room copy)
      (fun isFull => by rw [← bits.pass.fullGc, minor] at isFull; cases isFull) pass

theorem steps_bits : Steps (Bits full map) fun _ => True where
  mark := by
    intro obj h bits
    have pass := steps_pass.mark obj h bits.pass
    have visit : Ends (heapMark obj) h (Marked h obj) (MarkFails h obj) :=
      ends_heapMark bits.pass.layout
    apply (visit.and pass).mono
    · intro w h' both
      exact bits.marked both.1 both.2
    · intro _ _
      trivial
  words := by
    intro hdr f same h bits
    have pass := steps_pass.words hdr f same h bits.pass
    constructor
    · exact pass
    · intro a d young at_a present below
      obtain ⟨b, block, rfl | ⟨_, rfl⟩⟩ := modify_at at_a
      · exact bits.young a d young block present below
      · obtain ⟨_, forward, generation, remembered, _⟩ := header_fields (same b)
        rw [forward] at present
        rw [generation] at below
        rw [remembered]
        exact bits.young a b young block present below
    · intro c d stays at_c
      obtain ⟨b, block, rfl | ⟨_, rfl⟩⟩ := modify_at at_c
      · exact bits.stays c d stays block
      · rw [(header_fields (same b)).2.2.2.1]
        exact bits.stays c b stays block
  forget := fun h bits => ⟨⟨bits.pass.layout.flags _ _ _, bits.pass.fullGc, bits.pass.oldMap,
    bits.pass.present⟩, bits.young, bits.stays⟩
  undefined := trivial
  fuel := trivial

theorem Unmarked.bits (unmarked : Unmarked h) (quiet : Quiet h) : Bits h.fullGc none h := by
  constructor
  · exact quiet.pass
  · intro a b young block _ _
    exact unmarked a b (.inl young) block
  · intro c b stays block
    exact unmarked c b (.inr (stays.imp_right And.right)) block

theorem Bits.leave (bits : Bits false map h) : Unmarked (leave h) := by
  obtain ⟨full, equal, _⟩ := scheduleFullGc_eq (h := heapSwapSurvived (resetFresh h))
  rw [Gc.leave, equal]
  intro a b held at_a
  have block := (clear_at (clear_at at_a).1).1
  rcases held with (fresh | survived) | future | old
  · cases fresh
  · exact bits.stays a b (.inl survived) block
  · cases future
  · exact bits.stays a b (.inr ⟨rfl, old⟩) block

theorem Moved.outside {moves : List (Nat × Nat)}
    (moved : Moved { h with old := h.old.reset, oldMap := some [] } (liveSet h.cells h.old.hdrs)
      moves h') (layout : Layout h) (held : Held h a) (other : a ∉ h.old.hdrs) :
    h'.cells a = h.cells a := by
  obtain ⟨b, block⟩ := layout.block held
  have absent : a ∉ liveSet h.cells h.old.hdrs := fun member =>
    other (List.mem_filter.mp member).1
  rw [block]
  apply moved.kept a b block absent
  simp only [Space.reset]
  obtain ⟨memSize, _, sizes, halves, oldAt, _, _, apart⟩ := layout.areas
  rcases oldAt with none | present
  · simp [none]
  · rcases held with young | future | old
    · have inside := layout.young_inside young block
      omega
    · obtain ⟨d, at_a, low, high⟩ := layout.future_inside future
      obtain rfl := Option.some.inj (block.symm.trans at_a)
      have total := layout.future.total
      omega
    · exact absurd old other

theorem Bits.compact (bits : Bits true none h)
    (clear : ∀ a b, Young h a → h.cells a = some b → b.forward = false → b.remembered = false) :
    Ends heapGcOld h (fun _ h' => Bits false h'.oldMap { h' with fullGc := false })
      fun _ => False := by
  have layout := bits.pass.layout
  apply ((ends_heapGcOld layout).and bits.pass.compact).mono _ fun _ never => never.1
  intro _ h' both
  obtain ⟨⟨moves, moved⟩, pass⟩ := both
  have outside := fun {a} => moved.outside (a := a) layout
  have spaces : h'.fresh = h.fresh ∧ h'.survived = h.survived ∧
      h'.futureSurvived = h.futureSurvived := by
    rw [moved.frame]
    exact ⟨rfl, rfl, rfl⟩
  constructor
  · exact ⟨pass.layout.flags _ _ _, rfl, rfl, pass.present⟩
  · intro a b young block present _
    have before : Young h a := by
      rw [Young, spaces.1, spaces.2.1] at young
      exact young
    change h'.cells a = some b at block
    rw [outside (.inl before) fun old => layout.young_leaves before (.inr old)] at block
    exact clear a b before block present
  · intro c b stays block
    change h'.cells c = some b at block
    rcases stays with future | ⟨_, old⟩
    · have before : c ∈ h.futureSurvived.hdrs := by
        rw [spaces.2.2] at future
        exact future
      rw [outside (.inr (.inl before)) (layout.future_not_old before)] at block
      exact bits.stays c b (.inl before) block
    · have news : h'.old.hdrs = [] ++ moves.map Prod.snd := moved.old.2
      change c ∈ h'.old.hdrs at old
      rw [news, List.nil_append] at old
      obtain ⟨m, member, rfl⟩ := List.mem_map.mp old
      obtain ⟨d, _, at_place⟩ := moved.moved m member
      obtain rfl := Option.some.inj (at_place.symm.trans block)
      rfl

end bits

section collect
variable {t : Thread} {h : Heap}

/-- A full collection is started in a well-formed state in which it postpones no block: what can be
    reached outside the old space is younger than the last generation. -/
def PostponesNothing (s : State) : Prop :=
  s.heap.fullGc = true → Aimed s.thread s.heap ∧
    ∀ a, Reach s.thread s.heap a → Young s.heap a → ¬ Third s.heap a

/- What the marking pass of a full collection traces. -/
theorem Unmarked.source (unmarked : Unmarked h) (quiet : Quiet h) (aimed : Aimed t h)
    (full : h.fullGc = true) : Source h (Reach t h) where
  quiet := quiet
  block := fun a reach => aimed.block a reach.orOld
  closed := fun _ _ reached edge => reached.edge edge
  readable := fun a reach => aimed.readable a reach.orOld
  old := fun minor => by rw [full] at minor; cases minor
  unmarked := fun _ a b held block => unmarked a b held block

theorem unmarked_le (layout : Layout h) :
    16 * Gc.unmarked h h ≤ OLD_SIZE + FRESH_SIZE + SURVIVED_SIZE := by
  have each : ∀ l : List Nat, (l.map fun a => ((h.cells a).map fun b =>
      if b.remembered then 0 else 1).getD 0).sum ≤ l.length := by
    intro l
    induction l with
    | nil => exact Nat.le_refl 0
    | cons a l ih =>
      rw [List.map_cons, List.sum_cons, List.length_cons]
      have one : ((h.cells a).map fun b => if b.remembered then 0 else 1).getD 0 ≤ 1 := by
        cases h.cells a with
        | none => exact Nat.zero_le 1
        | some b =>
          simp only [Option.map_some, Option.getD_some]
          split <;> omega
      omega
  have all := each (h.old.hdrs ++ youngs h)
  rw [List.length_append, youngs, List.length_append] at all
  have old := layout.old.count layout.sized
  have fresh := layout.fresh.count layout.sized
  have survived := layout.survived.count layout.sized
  obtain ⟨_, freshAt, sizes, _, oldAt, _, _, _⟩ := layout.areas
  have size : h.old.size ≤ OLD_SIZE := by
    rcases oldAt with none | present
    · rw [none]
      exact Nat.zero_le _
    · exact present.2.le
  rw [Gc.unmarked]
  unfold youngs
  omega

theorem ends_mark (unmarked : Unmarked h) (quiet : Quiet h) (aimed : Aimed t h)
    (full : h.fullGc = true) : Ends (heapGcMain (gcFuel h) t) h
      (fun t' h' => Finished h (Reach t h) t t' h' ∧ Bits true none h') (Overflow h (Reach t h)) := by
  have source := unmarked.source quiet aimed full
  have layout := quiet.layout
  have bits := unmarked.bits quiet
  rw [full] at bits
  have enough : potential h h + SURVIVED_SIZE + OLD_SIZE < 16 * gcFuel h := by
    have bound := unmarked_le layout
    have memSize := layout.areas.memSize
    have sizes : SURVIVED_SIZE = 131072 ∧ OLD_SIZE = 655360 ∧ FRESH_SIZE = 131072 := by decide
    simp only [potential, budget, full, quiet.remembered, gcFuel, List.length_nil, if_true]
    omega
  have ends := ends_heapGcMain_finished source t (fun a root => .root root) enough
  exact (ends.and (steps_bits.heapGcMain _ t h bits)).mono (fun _ _ both => both) fun _ both => both.1

theorem Finished.young_clear {t' : Thread} {h' : Heap} (finished : Finished h (Reach t h) t t' h')
    (bits : Bits true none h') (unmarked : Unmarked h)
    (young : ∀ a, Reach t h a → Young h a → ¬ Third h a) :
    ∀ a b, Young h' a → h'.cells a = some b → b.forward = false → b.remembered = false := by
  intro a b member block present
  by_cases third : b.generation = 3
  · have before : Young h a := finished.tracing.youngs.mp member
    rcases finished.tracing.left a b before block with ⟨_, same⟩ | ⟨c, placed⟩
    · exact unmarked a b (.inl before) same
    · have lives := finished.tracing.source a c placed before
      cases placed with
      | old old =>
        exact absurd (.inr (finished.tracing.oldHdrs.subset old))
          (finished.tracing.pass.layout.young_leaves member)
      | moved _ block' forward =>
        obtain rfl := Option.some.inj (block.symm.trans block')
        exact absurd (present.symm.trans forward) (by simp)
      | postponed young' full block' present' third' marked =>
        have at_third := finished.tracing.third a before (.postponed young' full block' present'
          third' marked)
        exact absurd at_third (young a lives before)
  · exact bits.young a b member block present fun _ => third

theorem ends_passes_bits (unmarked : Unmarked h) (quiet : Quiet h)
    (postpones : PostponesNothing ⟨t, h⟩) : Ends (heapGcPasses (gcFuel h) t) h
      (fun _ h' => Bits false none h') fun _ => True := by
  have bits := unmarked.bits quiet
  unfold heapGcPasses
  rw [ends_bind]
  cases full : h.fullGc with
  | false =>
    rw [full] at bits
    apply (steps_bits.heapGcMain _ t h bits).post
    intro t' h₁ first
    rw [ends_bind, ends_get]
    simp only [first.pass.fullGc, Bool.false_eq_true, if_false]
    exact first
  | true =>
    obtain ⟨aimed, young⟩ := postpones full
    apply (ends_mark unmarked quiet aimed full).mono _ fun _ _ => trivial
    intro t' h₁ first
    have clear := first.1.young_clear first.2 unmarked young
    rw [ends_bind, ends_get]
    simp only [first.2.pass.fullGc, if_true]
    rw [ends_bind]
    apply (first.2.compact clear).mono _ fun _ never => never.elim
    intro _ h₂ second
    rw [ends_bind, ends_update, ends_bind]
    apply (steps_bits.heapGcMain _ t' _ second).post
    intro t'' h₃ third
    rw [ends_bind, ends_update, ends_pure]
    exact ⟨⟨third.pass.layout.flags _ _ _, third.pass.fullGc, rfl, third.pass.present⟩,
      third.young, third.stays⟩

theorem ends_heapGc_unmarked (unmarked : Unmarked h) (quiet : Quiet h)
    (postpones : PostponesNothing ⟨t, h⟩) :
    Ends (heapGc t) h (fun _ h' => Unmarked h') fun _ => True := by
  unfold heapGc
  rw [ends_bind, ends_get, ends_bind]
  apply (ends_passes_bits unmarked quiet postpones).post
  intro t' h' bits
  rw [ends_bind, ends_update, ends_bind, ends_update, ends_bind]
  have unmarked := bits.leave
  have after : Ends (threadAfterGc t') (heapSwapSurvived (resetFresh h'))
      (fun _ h'' => h'' = heapSwapSurvived (resetFresh h')) fun _ => True := by
    apply ends_ite.mpr
    constructor
    · intro _
      rw [ends_bind]
      apply ends_readHdr trivial
      intro b _
      rfl
    · intro _
      rfl
  apply after.post
  intro t'' h'' same
  rw [ends_bind, ends_update, same]
  exact unmarked

theorem Unmarked.spaceAlloc (unmarked : Unmarked h) (size : Nat) (type : BlockType) :
    Ends (spaceAlloc size type) h (fun _ h' => Unmarked h') fun _ => True := by
  intro a b held block
  by_cases here : a = h.fresh.pos
  · subst here
    obtain rfl := Option.some.inj (put_same.symm.trans block)
    rfl
  · have before : Held h a := by
      simpa [Held, Young, Space.append, here] using held
    exact unmarked a b before (put_before block here)

theorem ends_heapAlloc_unmarked (unmarked : Unmarked h) (quiet : Quiet h) (size : Nat)
    (type : BlockType) (starts : enoughFresh h size = false → PostponesNothing ⟨t, h⟩) :
    Ends (heapAlloc t size type) h (fun _ h' => Unmarked h') fun _ => True := by
  unfold heapAlloc
  rw [ends_bind, ends_get]
  apply ends_ite.mpr
  constructor
  · intro _
    rw [ends_bind]
    exact unmarked.spaceAlloc size type
  · intro full
    rw [ends_bind]
    apply (ends_heapGc_unmarked unmarked quiet (starts (by simpa using full))).post
    intro t' h' unmarked
    rw [ends_bind, ends_get]
    apply ends_ite.mpr
    constructor
    · intro _
      rw [ends_bind]
      exact unmarked.spaceAlloc size type
    · intro _
      trivial

theorem Unmarked.step {s s' : State} (unmarked : Unmarked s.heap) (quiet : Quiet s.heap)
    (step : Step PostponesNothing s s') : Unmarked s'.heap := by
  cases step with
  | alloc size type _ starts result =>
    exact (ends_heapAlloc_unmarked unmarked quiet size type starts).returned result
  | collect starts result => exact (ends_heapGc_unmarked unmarked quiet starts).returned result
  | mutate written _ =>
    obtain ⟨cells, rfl, same⟩ := written
    intro a b held block
    change cells a = some b at block
    have headers := same a
    rw [block, Option.map_some, eq_comm, Option.map_eq_some_iff] at headers
    obtain ⟨d, before, header⟩ := headers
    rw [← (header_fields header).2.2.2.1]
    exact unmarked a d held before

theorem Run.unmarked {s : State} (run : Run PostponesNothing s) : Unmarked s.heap := by
  induction run with
  | init areas aimed =>
    intro a b _ block
    cases block
  | step run step ih => exact ih.step run.rest.quiet step

/- What the marking pass leaves of the old space. -/

/-- The block at a is marked and has been scanned, and the compaction keeps it. -/
structure Kept (t : Thread) (h h' : Heap) (a : Nat) : Prop where
  bit : Bit h' a
  scanned : Clean h (Reach t h) h' a
  moved : Ends heapGcOld h' (fun _ h'' => ∃ c ∈ h''.old.hdrs, ∃ b, h'.cells a = some b ∧
    h''.cells c = some b.unmarked ∧ ∃ map, h''.oldMap = some map ∧ (a, c) ∈ map) fun _ => False

theorem Finished.kept {t' : Thread} {h' : Heap} (finished : Finished h (Reach t h) t t' h')
    (source : Source h (Reach t h)) (full : h.fullGc = true) {a : Nat} (member : a ∈ h.old.hdrs)
    (reach : Reach t h a) : Kept t h h' a := by
  have found := finished.reached source (fun _ => Reached.root) (by
    intro x root
    obtain ⟨r, member, points⟩ := root
    have lives : Reach t h x := .root ⟨r, member, points⟩
    obtain ⟨w', _, visited⟩ := finished.roots.visited member
    obtain ⟨c, placed, found, _⟩ :=
      finished.tracing.follow source visited.translated visited.settled points lives
    exact ⟨c, placed, found⟩) reach
  obtain ⟨_, c, placed, found⟩ := found
  have at_a : c = a := by
    cases placed with
    | old _ => rfl
    | moved young => exact absurd (.inr member) (source.quiet.layout.young_leaves young)
    | postponed young => rfl
  subst at_a
  have full' : h'.fullGc = true := finished.tracing.pass.fullGc.trans full
  have still : c ∈ h'.old.hdrs := finished.tracing.oldHdrs.subset member
  have bit := found.bit full' still
  constructor
  · exact bit
  · exact finished.clean c found
  · apply (ends_heapGcOld finished.tracing.pass.layout).post
    intro _ h'' done
    obtain ⟨moves, moved⟩ := done
    obtain ⟨d, block, marked⟩ := bit
    have live : c ∈ liveSet h'.cells h'.old.hdrs := by
      rw [liveSet, List.mem_filter, block]
      exact ⟨still, marked⟩
    rw [← moved.sources] at live
    obtain ⟨m, inside, rfl⟩ := List.mem_map.mp live
    obtain ⟨b, at_source, at_place⟩ := moved.moved m inside
    have news : h''.old.hdrs = [] ++ moves.map Prod.snd := moved.old.2
    refine ⟨m.2, ?_, b, at_source, at_place, moves.reverse ++ [], ?_, ?_⟩
    · rw [news]
      exact List.mem_map_of_mem inside
    · rw [moved.frame]
      rfl
    · rw [List.append_nil]
      exact List.mem_reverse.mpr inside

/-- In every state of a run whose full collections postpone nothing the blocks of the old space are
    unmarked, and a full collection that is due marks and scans all of them that can be reached. -/
theorem run_unmarked {s : State} (run : Run PostponesNothing s) :
    (∀ a ∈ s.heap.old.hdrs, ∀ b, s.heap.cells a = some b → b.remembered = false) ∧
    (s.heap.fullGc = true → Aimed s.thread s.heap →
      Ends (heapGcMain (gcFuel s.heap) s.thread) s.heap
        (fun _ h' => ∀ a ∈ s.heap.old.hdrs, Reach s.thread s.heap a → Kept s.thread s.heap h' a)
        (Overflow s.heap (Reach s.thread s.heap))) := by
  have unmarked := run.unmarked
  have quiet := run.rest.quiet
  constructor
  · intro a member b block
    exact unmarked a b (.inr (.inr member)) block
  · intro full aimed
    apply (ends_mark unmarked quiet aimed full).post
    intro _ h' done a member reach
    exact done.1.kept (unmarked.source quiet aimed full) full member reach

end collect

/-- The blocks of the last generation are all old. -/
def noThird (_ : List Nat) (h : Heap) : Bool :=
  !h.fullGc || (h.fresh.hdrs ++ h.survived.hdrs).all fun a =>
    (h.cells a).all fun b => b.generation != 3

/-- Four blocks as large as the fresh space and a small one get old, and only the small one is still
    needed. -/
def agingPlay : List Act :=
  (List.replicate 4 [.alloc 131063, .collect, .collect, .collect, .collect, .drop]).flatten ++
    [.alloc 7, .collect, .collect, .collect, .collect]

theorem noThird_postpones {ws : List Nat} {h : Heap} (checked : aims ws h = true)
    (none : noThird ws h = true) : PostponesNothing ⟨rooted ws, h⟩ := by
  intro full
  refine ⟨aimed_rooted checked, ?_⟩
  intro a _ young third
  obtain ⟨b, block, generation⟩ := third
  have full' : h.fullGc = true := full
  rw [noThird, full', Bool.not_true, Bool.false_or, List.all_eq_true] at none
  have other := none a (by simpa [Young] using young)
  have block' : h.cells a = some b := block
  rw [block'] at other
  simp [generation] at other

/- The full collection that is due keeps the small block, and the dead ones go. -/
theorem run_unmarked_promoted : ∃ ws h ws' h',
    play noThird agingPlay [] (heapInit 8 1000000) = some (ws, h) ∧ h.fullGc = true ∧
    play noThird [.alloc 15, .collect] ws h = some (ws', h') ∧ h'.old.hdrs = [1000000] ∧
    Ends (heapGcMain (gcFuel h) (rooted ws)) h
      (fun _ h₁ => ∀ a ∈ h.old.hdrs, Reach (rooted ws) h a → Kept (rooted ws) h h₁ a)
      (Overflow h (Reach (rooted ws) h)) ∧
    ∀ a ∈ h'.old.hdrs, ∀ b, h'.cells a = some b → b.remembered = false := by
  have old : ((play noThird agingPlay [] (heapInit 8 1000000)).any fun s =>
      s.2.fullGc && aims s.1 s.2 && (play noThird [.alloc 15, .collect] s.1 s.2).any fun t =>
        t.2.old.hdrs = [1000000]) = true := by
    decide +kernel
  obtain ⟨⟨ws, h⟩, plays, rest⟩ := (Option.any_eq_true _ _).mp old
  simp only [Bool.and_eq_true] at rest
  obtain ⟨⟨full, checked⟩, last⟩ := rest
  obtain ⟨⟨ws', h'⟩, plays', moved⟩ := (Option.any_eq_true _ _).mp last
  have run := play_run noThird_postpones (run_start _) rfl plays
  have run' := play_run noThird_postpones run checked plays'
  exact ⟨ws, h, ws', h', plays, full, plays', of_decide_eq_true moved,
    (run_unmarked run).2 full (aimed_rooted checked), (run_unmarked run').1⟩

/-- A block as large as the fresh space gets old and is dropped, four times; of two small blocks the
    first one gets old when the second one has reached the last generation. -/
def stalePlay : List Act :=
  (List.replicate 4 [.alloc 131063, .collect, .collect, .collect, .collect, .drop]).flatten ++
    [.alloc 7, .collect, .alloc 7, .collect, .collect, .collect, .collect]

def hasMark (h : Heap) : Bool :=
  h.old.hdrs.any fun a => (h.cells a).any fun b => b.remembered

/- The full collection at the end promotes the second block with its bit. -/
theorem stale_mark : ¬ ∀ s, Run (fun _ => True) s →
    ∀ a ∈ s.heap.old.hdrs, ∀ b, s.heap.cells a = some b → b.remembered = false := by
  intro claim
  have marked : ((play (fun _ _ => true) stalePlay [] (heapInit 8 1000000)).any fun s => hasMark s.2) = true := by
    decide +kernel
  rcases plays : play (fun _ _ => true) stalePlay [] (heapInit 8 1000000) with _ | ⟨ws, h⟩
  · rw [plays] at marked
    cases marked
  rw [plays] at marked
  obtain ⟨a, member, set⟩ := List.any_eq_true.mp marked
  have run := play_run (p := fun _ => True) (fun _ _ => trivial) (run_start _) rfl plays
  cases block : h.cells a with
  | none =>
    rw [block] at set
    cases set
  | some b =>
    rw [block] at set
    have clear := claim _ run a member b block
    rw [Option.any_some, clear] at set
    cases set

end LGears.Gc
