import LGears.GcCompact
import LGears.GcGraph

/- Runs of a program over its heap, and what holds between any two collections. -/
namespace LGears.Gc
open StateExcept

structure State where
  thread : Thread
  heap : Heap

/-- The program has written into the payloads of blocks. -/
def Written (h h' : Heap) : Prop :=
  ∃ cells, h' = { h with cells := cells } ∧
    ∀ a, (cells a).map Block.header = (h.cells a).map Block.header

/-- An allocation of a positive size, a collection, or what the program does to its roots and to the
    payloads of its blocks, which leaves all pointers aimed at blocks. Collections start in states
    with p. -/
inductive Step (p : State → Prop) : State → State → Prop where
  | alloc {t t' : Thread} {h h' : Heap} {new : Nat} (size : Nat) (type : BlockType)
      (positive : 0 < size) (starts : enoughFresh h size = false → p ⟨t, h⟩)
      (result : heapAlloc t size type h = .ok ((t', new), h')) : Step p ⟨t, h⟩ ⟨t', h'⟩
  | collect {t t' : Thread} {h h' : Heap} (starts : p ⟨t, h⟩)
      (result : heapGc t h = .ok (t', h')) : Step p ⟨t, h⟩ ⟨t', h'⟩
  | mutate {t t' : Thread} {h h' : Heap} (written : Written h h') (aimed : Aimed t' h') :
      Step p ⟨t, h⟩ ⟨t', h'⟩

/-- The areas that mem_alloc returns for the heap and for its old space. -/
structure AreasApart (memory oldArea : Nat) : Prop where
  positive : 0 < memory ∧ 0 < oldArea
  aligned : memory % 8 = 0 ∧ oldArea % 8 = 0
  apart : oldArea + OLD_SIZE ≤ memory ∨ memory + (FRESH_SIZE + SURVIVED_SIZE * 2) ≤ oldArea

/-- The states of a run that starts with an empty heap and whose collections start in states
    with p. -/
inductive Run (p : State → Prop) : State → Prop where
  | init {t : Thread} {memory oldArea : Nat} (areas : AreasApart memory oldArea)
      (aimed : Aimed t (heapInit memory oldArea)) : Run p ⟨t, heapInit memory oldArea⟩
  | step {s s' : State} (run : Run p s) (step : Step p s s') : Run p s'

/-- What holds whenever no collection is going on. -/
structure Rest (h : Heap) : Prop where
  quiet : Quiet h
  fresh : ∀ a ∈ h.fresh.hdrs, ∀ b, h.cells a = some b → b.generation = 0
  room : h.fullGc = false → h.old.mem = 0 ∨ SURVIVED_SIZE ≤ h.old.freeMem
  full : h.fullGc → h.old.mem ≠ 0

section pass
variable {h : Heap} {obj : Nat}

/-- A pass over the live blocks, with its flags; what has been copied is there. -/
structure Pass (full : Bool) (map : Option (List (Nat × Nat))) (h : Heap) : Prop where
  layout : Layout h
  fullGc : h.fullGc = full
  oldMap : h.oldMap = map
  present : ∀ c, Stays h c → ∀ b, h.cells c = some b → b.forward = false

variable {full : Bool} {map : Option (List (Nat × Nat))}

theorem Pass.copies (pass : Pass full map h) {h' : Heap} {a : Nat} {new : Nat} {b : Block}
    (copies : Copies h h' a new b) (layout : Layout h') : Pass full map h' := by
  refine ⟨layout, copies.flags.1 ▸ pass.fullGc, copies.flags.2 ▸ pass.oldMap, ?_⟩
  intro c stays d at_c
  obtain ⟨r, copy⟩ := copies.copy
  by_cases here : c = new
  · subst here
    obtain rfl := Option.some.inj (copy.at_new.symm.trans at_c)
    rfl
  · have before : Stays h c := ((copies.stays c).mp stays).resolve_right here
    have other : c ≠ a := fun same => pass.layout.young_leaves copies.young (same ▸ before)
    rw [copies.frame c (.inr before) other] at at_c
    exact pass.present c before d at_c

theorem Pass.remember (pass : Pass full map h) {a : Nat} {b : Block} (block : h.cells a = some b) :
    ∀ c, Stays h c → ∀ d, (remember h a b).cells c = some d → d.forward = false := by
  intro c stays d at_c
  by_cases here : c = a
  · subst here
    have present := pass.present c stays b block
    simp only [Gc.remember, Function.update_self] at at_c
    obtain rfl := Option.some.inj at_c
    exact present
  · simp only [Gc.remember, Function.update_of_ne here] at at_c
    exact pass.present c stays d at_c

theorem Pass.marked {w : Nat} {h' : Heap} (pass : Pass full map h) (marked : Marked h obj w h')
    (layout : Layout h') : Pass full map h' := by
  cases marked with
  | immediate => exact pass
  | future => exact pass
  | old => exact pass
  | forwarded => exact pass
  | postponed => exact pass
  | reached b points => exact ⟨layout, pass.fullGc, pass.oldMap, pass.remember points.block⟩
  | postpones b points => exact ⟨layout, pass.fullGc, pass.oldMap, pass.remember points.block⟩
  | copied b cells points young present below room copy =>
    exact pass.copies (copies_copied pass.layout points young present below room copy) layout
  | promoted b cells points young present third minor room copy =>
    exact pass.copies (copies_promoted pass.layout points young present third minor room copy)
      layout

theorem steps_pass : Steps (Pass full map) fun _ => True where
  mark := by
    intro obj h pass
    have layout := keeps_layout_heapMark obj h pass.layout
    have visit : Ends (heapMark obj) h (Marked h obj) (MarkFails h obj) :=
      ends_heapMark pass.layout
    apply (visit.and layout).mono
    · intro w h' both
      exact pass.marked both.1 both.2
    · intro _ _
      trivial
  words := by
    intro hdr f same h pass
    refine ⟨pass.layout.modifyHdr hdr fun b => size_of_header (same b), pass.fullGc,
      pass.oldMap, ?_⟩
    intro c stays d at_c
    obtain ⟨b, block, rfl | ⟨_, rfl⟩⟩ := modify_at at_c
    · exact pass.present c stays d block
    · rw [(header_fields (same b)).2.1]
      exact pass.present c stays b block
  forget := fun h pass => ⟨pass.layout.flags _ _ _, pass.fullGc, pass.oldMap, pass.present⟩
  undefined := trivial
  fuel := trivial

theorem ends_heapGcLoop (fuel i : Nat) (h : Heap) :
    Ends (heapGcLoop fuel i) h (fun _ h' => h'.remembered = []) fun _ => True := by
  induction fuel generalizing i h with
  | zero => trivial
  | succ fuel ih =>
    unfold heapGcLoop
    rw [ends_bind, ends_get]
    apply ends_ite.mpr
    constructor
    · intro none
      exact none
    · intro _
      apply ends_last
      intro _ _
      exact ends_last ih

theorem ends_heapGcMain (fuel : Nat) (t : Thread) {h : Heap} (pass : Pass full map h) :
    Ends (heapGcMain fuel t) h (fun _ h' => Pass full map h' ∧ h'.remembered = [])
      fun _ => True := by
  have forgets : Ends (heapGcMain fuel t) h (fun _ h' => h'.remembered = []) fun _ => True := by
    apply ends_last
    intro t _
    apply ends_last
    intro _ _
    apply ends_last
    intro i h
    rw [ends_bind]
    exact ends_heapGcLoop fuel i h
  exact ((steps_pass.heapGcMain fuel t h pass).and forgets).mono (fun _ _ => id) fun _ _ => trivial

end pass

/- The end of a collection: the spaces that were left are emptied. -/

section leave
variable {h : Heap}

theorem clear_at {cells : Cells} {space : Space} {c : Nat} {b : Block}
    (at_c : cells.clear space c = some b) :
    cells c = some b ∧ ¬ (space.mem ≤ c ∧ c < space.mem + space.size) := by
  unfold Cells.clear at at_c
  split at at_c
  case isTrue => cases at_c
  case isFalse outside => exact ⟨at_c, outside⟩

theorem Space.Laid.clear {cells : Cells} {space other : Space} (laid : space.Laid cells)
    (apart : space.mem + space.size ≤ other.mem ∨ other.mem + other.size ≤ space.mem) :
    space.Laid (cells.clear other) := by
  refine ⟨laid.chain.congr ?_, laid.total⟩
  intro x member b at_x
  obtain ⟨d, at_d, low, high, bound⟩ := laid.inside member
  refine ⟨b, ?_, rfl⟩
  unfold Cells.clear BHDR_SIZE at *
  rw [if_neg (by omega)]
  exact at_x

theorem Layout.resetFresh (layout : Layout h) : Layout (resetFresh h) := by
  obtain ⟨memSize, fresh, sizes, halves, oldAt, positive, aligned, apart⟩ := layout.areas
  exact {
    areas := ⟨memSize, fresh, sizes, halves, oldAt, positive, aligned, apart⟩
    sized := fun a b at_a => layout.sized a b (clear_at at_a).1
    fresh := Space.reset_laid _ _
    survived := layout.survived.clear (by omega)
    future := layout.future.clear (by omega)
    old := layout.old.clear (by
      rcases oldAt with absent | present
      · rw [absent]
        exact .inl (by simp)
      · omega)
    placed := by
      intro a b at_a
      obtain ⟨before, outside⟩ := clear_at at_a
      rcases layout.placed a b before with (fresh | survived | future) | old
      · obtain ⟨d, _, low, high, bound⟩ := layout.fresh.inside fresh
        exact absurd ⟨low, by unfold BHDR_SIZE at high; omega⟩ outside
      · exact .inl (.inr (.inl survived))
      · exact .inl (.inr (.inr future))
      · exact .inr old }

theorem Layout.swap (layout : Layout h) : Layout (heapSwapSurvived h) := by
  obtain ⟨memSize, fresh, sizes, halves, oldAt, positive, aligned, apart⟩ := layout.areas
  exact {
    areas := ⟨memSize, fresh, sizes.symm, by
      rcases halves with first | second
      · exact .inr first.symm
      · exact .inl second.symm, oldAt, positive, aligned, apart⟩
    sized := fun a b at_a => layout.sized a b (clear_at at_a).1
    fresh := layout.fresh.clear (by omega)
    survived := layout.future.clear (by omega)
    future := Space.reset_laid _ _
    old := layout.old.clear (by
      rcases oldAt with absent | present
      · rw [absent]
        exact .inl (by simp)
      · omega)
    placed := by
      intro a b at_a
      obtain ⟨before, outside⟩ := clear_at at_a
      rcases layout.placed a b before with (fresh | survived | future) | old
      · exact .inl (.inl fresh)
      · obtain ⟨d, _, low, high, bound⟩ := layout.survived.inside survived
        exact absurd ⟨low, by unfold BHDR_SIZE at high; omega⟩ outside
      · exact .inl (.inr (.inl future))
      · exact .inr old }

/-- The heap after a collection has left the fresh space and the old survivors. -/
def leave (h : Heap) : Heap := scheduleFullGc (heapSwapSurvived (resetFresh h))

theorem scheduleFullGc_eq : ∃ full, scheduleFullGc h = { h with fullGc := full } ∧
    (full = false → h.fullGc = false → h.old.mem = 0 ∨ SURVIVED_SIZE ≤ h.old.freeMem) ∧
    (full = true → h.fullGc = false → h.old.mem ≠ 0) := by
  unfold scheduleFullGc
  by_cases due : h.old.mem ≠ 0 ∧ h.old.freeMem < SURVIVED_SIZE
  · rw [if_pos due]
    exact ⟨true, rfl, by simp, fun _ _ => due.1⟩
  · rw [if_neg due]
    exact ⟨h.fullGc, rfl, fun _ _ => by omega, by simp_all⟩

theorem Pass.leave (pass : Pass false none h) (forgot : h.remembered = []) : Rest (leave h) := by
  have layout := pass.layout.resetFresh.swap
  obtain ⟨full, equal, room, present⟩ :=
    scheduleFullGc_eq (h := heapSwapSurvived (resetFresh h))
  unfold Gc.leave
  rw [equal]
  have quiet : Quiet { heapSwapSurvived (resetFresh h) with fullGc := full } := by
    constructor
    · exact layout.flags _ _ _
    · intro a b held at_a
      have stays : Stays h a := by
        rcases held with (fresh | survived) | future | old
        · cases fresh
        · exact .inl survived
        · cases future
        · exact .inr old
      exact pass.present a stays b (clear_at (clear_at at_a).1).1
    · rfl
    · exact forgot
    · exact pass.oldMap
  constructor
  · exact quiet
  · intro a member
    cases member
  · exact fun minor => room minor pass.fullGc
  · exact fun full => present full pass.fullGc

end leave

section collect
variable {h : Heap}

theorem Quiet.pass (quiet : Quiet h) : Pass h.fullGc none h :=
  ⟨quiet.layout, rfl, quiet.oldMap, fun c stays b => quiet.present c b (.inr stays)⟩

theorem Pass.compact (pass : Pass true none h) :
    Ends heapGcOld h (fun _ h' => Pass true h'.oldMap h') fun _ => False := by
  apply (ends_heapGcOld pass.layout).post
  intro _ h' done
  obtain ⟨moves, done⟩ := done
  constructor
  · exact done.layout
  · rw [done.frame]
    exact pass.fullGc
  · rfl
  · intro c stays b at_c
    rcases stays with future | old
    · rw [done.frame] at future
      obtain ⟨d, at_d, low, high⟩ := pass.layout.future_inside future
      have still := done.kept c d at_d
      have total := pass.layout.future.total
      obtain ⟨_, _, sizes, halves, oldAt, positive, _, apart⟩ := pass.layout.areas
      have elsewhere : c ∉ liveSet h.cells h.old.hdrs := by
        intro member
        obtain ⟨d', at_d', low', high'⟩ :=
          pass.layout.old_member (List.mem_filter.mp member).1
        obtain rfl := Option.some.inj (at_d.symm.trans at_d')
        have inside := pass.layout.old_inside
        unfold BHDR_SIZE at *
        omega
      have there := still elsewhere (by
        simp only [Space.reset]
        rcases oldAt with absent | present
        · simp [absent]
        · omega)
      obtain rfl := Option.some.inj (there.symm.trans at_c)
      exact pass.present c (.inl future) d at_d
    · have news : h'.old.hdrs = [] ++ moves.map Prod.snd := done.old.2
      rw [news, List.nil_append] at old
      obtain ⟨m, member, rfl⟩ := List.mem_map.mp old
      obtain ⟨d, at_source, at_place⟩ := done.moved m member
      obtain rfl := Option.some.inj (at_place.symm.trans at_c)
      have source : m.1 ∈ liveSet h.cells h.old.hdrs := by
        rw [← done.sources]
        exact List.mem_map_of_mem member
      exact pass.present m.1 (.inr (List.mem_filter.mp source).1) d at_source

theorem ends_heapGcPasses (quiet : Quiet h) (fuel : Nat) (t : Thread) :
    Ends (heapGcPasses fuel t) h (fun _ h' => Pass false none h' ∧ h'.remembered = [])
      fun _ => True := by
  unfold heapGcPasses
  rw [ends_bind]
  apply (ends_heapGcMain fuel t quiet.pass).post
  intro t h₁ first
  rw [ends_bind, ends_get]
  apply ends_ite.mpr
  constructor
  · intro full
    have pass : Pass true none h₁ := ⟨first.1.layout, full, first.1.oldMap, first.1.present⟩
    rw [ends_bind]
    apply pass.compact.mono _ fun _ _ => trivial
    intro _ h₂ compacted
    rw [ends_bind, ends_update, ends_bind]
    have second : Pass false h₂.oldMap { h₂ with fullGc := false } :=
      ⟨compacted.layout.flags _ _ _, rfl, rfl, compacted.present⟩
    apply (ends_heapGcMain fuel t second).post
    intro t h₃ last
    rw [ends_bind, ends_update]
    exact ⟨⟨last.1.layout.flags _ _ _, last.1.fullGc, rfl, last.1.present⟩, last.2⟩
  · intro minor
    rw [Bool.not_eq_true] at minor
    exact ⟨⟨first.1.layout, minor, first.1.oldMap, first.1.present⟩, first.2⟩

theorem ends_heapGc (quiet : Quiet h) (t : Thread) :
    Ends (heapGc t) h (fun _ h' => Rest h') fun _ => True := by
  unfold heapGc
  rw [ends_bind, ends_get, ends_bind]
  apply (ends_heapGcPasses quiet _ t).post
  intro t h' done
  rw [ends_bind, ends_update, ends_bind, ends_update, ends_bind]
  have rest := done.1.leave done.2
  have after : Ends (threadAfterGc t) (heapSwapSurvived (resetFresh h'))
      (fun _ h'' => h'' = heapSwapSurvived (resetFresh h')) fun _ => True := by
    apply ends_ite.mpr
    constructor
    · intro _
      rw [ends_bind]
      apply ends_readHdr trivial
      intro b _
      rfl
    · intro _
      rfl
  apply after.post
  intro t h'' same
  rw [ends_bind, ends_update, same]
  exact rest

theorem alignUp_positive {size : Nat} (positive : 0 < size) :
    8 ≤ alignUp size ∧ alignUp size % 8 = 0 := by
  unfold alignUp
  omega

theorem Layout.spaceAlloc (layout : Layout h) {b : Block} (sized : 8 ≤ b.size ∧ b.size % 8 = 0)
    (room : b.size + BHDR_SIZE ≤ h.fresh.freeMem) :
    Layout { h with
      fresh := h.fresh.append (b.size + BHDR_SIZE), cells := h.cells.put h.fresh.pos b } := by
  obtain ⟨memSize, fresh, sizes, halves, oldAt, positive, aligned, apart⟩ := layout.areas
  have low := layout.fresh.le
  have total := layout.fresh.total
  exact {
    areas := ⟨memSize, fresh, sizes, halves, oldAt, positive, aligned, apart⟩
    sized := layout.sized_put sized
    fresh := layout.fresh.append room
    survived := layout.survived.put (by omega)
    future := layout.future.put (by omega)
    old := layout.old.put (by
      rcases oldAt with absent | present
      · rw [absent]
        exact .inl (by simp)
      · omega)
    placed := by
      intro a d at_a
      by_cases here : a = h.fresh.pos
      · exact .inl (.inl (by simp [Space.append, here]))
      rcases layout.placed a d (put_before at_a here) with (fresh | survived | future) | old
      · exact .inl (.inl (by simp [Space.append, fresh]))
      · exact .inl (.inr (.inl survived))
      · exact .inl (.inr (.inr future))
      · exact .inr old }

theorem Rest.spaceAlloc (rest : Rest h) {b : Block} (sized : 8 ≤ b.size ∧ b.size % 8 = 0)
    (room : b.size + BHDR_SIZE ≤ h.fresh.freeMem) (new : b.generation = 0)
    (present : b.forward = false) :
    Rest { h with
      fresh := h.fresh.append (b.size + BHDR_SIZE), cells := h.cells.put h.fresh.pos b } := by
  have quiet := rest.quiet
  constructor
  · constructor
    · exact quiet.layout.spaceAlloc sized room
    · intro a d held at_a
      by_cases here : a = h.fresh.pos
      · subst here
        have at_pos : h.cells.put h.fresh.pos b h.fresh.pos = some d := at_a
        rw [put_same] at at_pos
        obtain rfl := Option.some.inj at_pos
        exact present
      · have before : Held h a := by
          simpa [Held, Young, Space.append, here] using held
        exact quiet.present a d before (put_before at_a here)
    · exact quiet.future
    · exact quiet.remembered
    · exact quiet.oldMap
  · intro a member d at_a
    by_cases here : a = h.fresh.pos
    · subst here
      have at_pos : h.cells.put h.fresh.pos b h.fresh.pos = some d := at_a
      rw [put_same] at at_pos
      obtain rfl := Option.some.inj at_pos
      exact new
    · have before : a ∈ h.fresh.hdrs := by
        simpa [Space.append, here] using member
      exact rest.fresh a before d (put_before at_a here)
  · exact rest.room
  · exact rest.full

theorem heapAlloc_fresh (t : Thread) {size : Nat} (type : BlockType) (room : enoughFresh h size) :
    heapAlloc t size type h = .ok ((t, h.fresh.pos + BHDR_SIZE),
      { h with
        fresh := h.fresh.append (alignUp size + BHDR_SIZE)
        cells := h.cells.put h.fresh.pos ⟨type, false, 0, false, alignUp size, fun _ => 0⟩ }) := by
  unfold heapAlloc
  simp only [bind, StateT.bind, Except.bind, get, getThe, MonadStateOf.get, StateT.get, pure,
    Except.pure, room, if_true, spaceAlloc]
  rfl

theorem ends_spaceAlloc (rest : Rest h) {size : Nat} (type : BlockType) (positive : 0 < size)
    (room : enoughFresh h size) :
    Ends (spaceAlloc size type) h (fun _ h' => Rest h') fun _ => True :=
  rest.spaceAlloc (b := ⟨type, false, 0, false, alignUp size, fun _ => 0⟩)
    (alignUp_positive positive) (by simpa [enoughFresh] using room) rfl rfl

theorem ends_heapAlloc (rest : Rest h) (t : Thread) {size : Nat} (type : BlockType)
    (positive : 0 < size) : Ends (heapAlloc t size type) h (fun _ h' => Rest h') fun _ => True := by
  unfold heapAlloc
  rw [ends_bind, ends_get]
  apply ends_ite.mpr
  constructor
  · intro room
    rw [ends_bind]
    exact ends_spaceAlloc rest type positive room
  intro _
  rw [ends_bind]
  apply (ends_heapGc rest.quiet t).post
  intro t h' rest
  rw [ends_bind, ends_get]
  apply ends_ite.mpr
  constructor
  · intro room
    rw [ends_bind]
    exact ends_spaceAlloc rest type positive room
  · intro _
    trivial

theorem Rest.written {h' : Heap} (rest : Rest h) (written : Written h h') : Rest h' := by
  obtain ⟨cells, rfl, same⟩ := written
  have after : ∀ {a b}, cells a = some b → ∃ d, h.cells a = some d ∧ b.header = d.header := by
    intro a b at_a
    have headers := same a
    rw [at_a, Option.map_some, eq_comm, Option.map_eq_some_iff] at headers
    exact headers.imp fun d both => ⟨both.1, both.2.symm⟩
  have before : ∀ {a d}, h.cells a = some d → ∃ b, cells a = some b ∧ b.header = d.header := by
    intro a d at_a
    have headers := same a
    rw [at_a, Option.map_some, Option.map_eq_some_iff] at headers
    exact headers
  constructor
  · constructor
    · apply rest.quiet.layout.modify
      · exact fun x b at_x => (after at_x).imp fun _ both => ⟨both.1, size_of_header both.2⟩
      · exact fun x d at_x => (before at_x).imp fun _ both => ⟨both.1, size_of_header both.2⟩
    · intro a b held at_a
      obtain ⟨d, at_d, header⟩ := after at_a
      rw [(header_fields header).2.1]
      exact rest.quiet.present a d held at_d
    · exact rest.quiet.future
    · exact rest.quiet.remembered
    · exact rest.quiet.oldMap
  · intro a member b at_a
    obtain ⟨d, at_d, header⟩ := after at_a
    rw [(header_fields header).2.2.1]
    exact rest.fresh a member d at_d
  · exact rest.room
  · exact rest.full

theorem Rest.init {memory oldArea : Nat} (areas : AreasApart memory oldArea) :
    Rest (heapInit memory oldArea) := by
  have layout : Layout (heapInit memory oldArea) := by
    constructor
    · exact ⟨rfl, ⟨rfl, rfl⟩, ⟨rfl, rfl⟩, .inl ⟨rfl, rfl⟩, .inl rfl, areas.positive,
        areas.aligned, areas.apart⟩
    · intro a b none
      cases none
    · exact ⟨rfl, rfl⟩
    · exact ⟨rfl, rfl⟩
    · exact ⟨rfl, rfl⟩
    · exact ⟨rfl, rfl⟩
    · intro a b none
      cases none
  constructor
  · constructor
    · exact layout
    · intro a b _ none
      cases none
    · rfl
    · rfl
    · rfl
  · intro a member
    cases member
  · exact fun _ => .inl rfl
  · intro full
    cases full

theorem Step.rest {p : State → Prop} {s s' : State} (step : Step p s s') (rest : Rest s.heap) :
    Rest s'.heap := by
  cases step with
  | alloc size type positive _ result =>
    exact (ends_heapAlloc rest _ type positive).returned result
  | collect _ result => exact (ends_heapGc rest.quiet _).returned result
  | mutate written aimed => exact rest.written written

theorem Run.rest {p : State → Prop} {s : State} (run : Run p s) : Rest s.heap := by
  induction run with
  | init areas aimed => exact Rest.init areas
  | step _ step ih => exact step.rest ih

end collect

/- A program whose blocks have no pointers. -/

inductive Act where
  | alloc (size : Nat)
  | collect
  | drop

def rooted (ws : List Nat) : Thread := { Thread.idle with localRoots := ws }

/-- All roots are blocks, and no block has a slot. -/
def aims (ws : List Nat) (h : Heap) : Bool :=
  let hdrs := h.fresh.hdrs ++ h.survived.hdrs ++ h.old.hdrs
  ws.all (fun w => hdrOf w ∈ hdrs) && hdrs.all fun a => (h.cells a).all fun b => slots b = []

def act (ws : List Nat) (h : Heap) : Act → Option (List Nat × Heap)
  | .alloc size =>
    match heapAlloc (rooted ws) (size + 1) .plain h with
    | .ok ((t, new), h) => some (t.localRoots ++ [makeHeapPtr new], h)
    | .error _ => none
  | .collect =>
    match heapGc (rooted ws) h with
    | .ok (t, h) => some (t.localRoots, h)
    | .error _ => none
  | .drop => some ([], h)

/-- The roots and the heap after the acts, each of which starts in a state with ok. -/
def play (ok : List Nat → Heap → Bool) : List Act → List Nat → Heap → Option (List Nat × Heap)
  | [], ws, h => some (ws, h)
  | a :: acts, ws, h =>
    if ok ws h then
      match act ws h a with
      | some (ws, h) => if aims ws h then play ok acts ws h else none
      | none => none
    else none

section play
variable {p : State → Prop} {ws ws' : List Nat} {h h' : Heap}

theorem aimed_rooted (checked : aims ws h = true) : Aimed (rooted ws) h := by
  rw [aims, Bool.and_eq_true, List.all_eq_true, List.all_eq_true] at checked
  obtain ⟨roots, plain⟩ := checked
  have member : ∀ {a}, a ∈ h.fresh.hdrs ++ h.survived.hdrs ++ h.old.hdrs ↔
      Young h a ∨ a ∈ h.old.hdrs := by
    intro a
    simp only [List.mem_append, Young]
  have slotless : ∀ a b, Young h a ∨ a ∈ h.old.hdrs → h.cells a = some b → slots b = [] := by
    intro a b held block
    have all := plain a (member.mpr held)
    rw [block] at all
    simpa using all
  have held : ∀ a, ReachOrOld (rooted ws) h a → Young h a ∨ a ∈ h.old.hdrs := by
    intro a reach
    induction reach with
    | root root =>
      rcases root with ⟨r, inside, points⟩ | old
      · simp only [Thread.roots, rooted, Thread.idle, List.range_zero, List.map_nil,
          List.cons_append, List.nil_append, List.mem_cons, List.mem_map]
          at inside
        rcases inside with rfl | rfl | rfl | rfl | ⟨w, among, rfl⟩
        · simp [target] at points
        · simp [target] at points
        · simp [target, isHeapPtr] at points
        · simp [target, isHeapPtr] at points
        · obtain ⟨_, rfl⟩ := target_object.mp points
          exact member.mp (by simpa using roots w among)
      · exact .inr old
    | edge _ points ih =>
      obtain ⟨b, block, slot, inside, _⟩ := points
      rw [slotless _ b ih block] at inside
      cases inside
  constructor
  · exact held
  · intro a reach b block slot inside
    rw [slotless a b (held a reach) block] at inside
    cases inside
  · intro never
    cases never

theorem act_run {a : Act} (run : Run p ⟨rooted ws, h⟩) (starts : p ⟨rooted ws, h⟩)
    (acts : act ws h a = some (ws', h')) (checked : aims ws' h' = true) :
    Run p ⟨rooted ws', h'⟩ := by
  have written : Written h' h' := ⟨h'.cells, rfl, fun _ => rfl⟩
  have aimed := aimed_rooted checked
  cases a with
  | alloc size =>
    rw [act] at acts
    split at acts
    · rename_i t new h'' result
      cases acts
      have next := run.step (.alloc (size + 1) .plain (Nat.succ_pos size) (fun _ => starts) result)
      exact next.step (.mutate written aimed)
    · cases acts
  | collect =>
    rw [act] at acts
    split at acts
    · rename_i t h'' result
      cases acts
      exact (run.step (.collect starts result)).step (.mutate written aimed)
    · cases acts
  | drop =>
    cases acts
    exact run.step (.mutate written aimed)

theorem play_run {ok : List Nat → Heap → Bool} {acts : List Act}
    (starts : ∀ {ws h}, aims ws h = true → ok ws h = true → p ⟨rooted ws, h⟩)
    (run : Run p ⟨rooted ws, h⟩) (checked : aims ws h = true)
    (plays : play ok acts ws h = some (ws', h')) : Run p ⟨rooted ws', h'⟩ := by
  induction acts generalizing ws h with
  | nil =>
    cases plays
    exact run
  | cons a acts ih =>
    rw [play] at plays
    split at plays
    · rename_i fits
      split at plays
      · rename_i ws'' h'' next
        split at plays
        · rename_i checked'
          exact ih (act_run run (starts checked fits) next checked') checked' plays
        · cases plays
      · cases plays
    · cases plays

theorem run_start (p : State → Prop) : Run p ⟨rooted [], heapInit 8 1000000⟩ :=
  .init ⟨by decide, by decide, by decide⟩ (aimed_rooted (by decide))

end play

end LGears.Gc
