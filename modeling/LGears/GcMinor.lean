import LGears.GcScan

/- What a finished pass means for the graph of the blocks, and what a minor collection
   does. -/
namespace LGears.Gc
open StateExcept Rooted

/-- The word for what w points to when every block a has gone to place a. -/
def moveWord (place : Nat → Nat) (isEnv : Bool) (w : Nat) : Nat :=
  match target isEnv w with
  | some a => redirect isEnv (place a)
  | none => w

/-- The block b' at c is b with its pointers moved; pointers to its own data lead into it. -/
structure SameContent (place : Nat → Nat) (c : Nat) (b b' : Block) : Prop where
  type : b'.type = b.type
  size : b'.size = b.size
  slot : ∀ s ∈ slots b, b'.words s.index = moveWord place s.isEnv (b.words s.index)
  inner : ∀ i at_, innerPointer b = some (i, at_) → b'.words i = c + BHDR_SIZE + at_
  other : ∀ i, (∀ s ∈ slots b, s.index ≠ i) → (∀ at_, innerPointer b ≠ some (i, at_)) →
    b'.words i = b.words i

/-- The graph that t' reaches in h' is the one that t reaches in h, with its blocks moved. -/
structure Isomorphic (t : Thread) (h : Heap) (t' : Thread) (h' : Heap) (place : Nat → Nat) :
    Prop where
  injective : ∀ a a', Reach t h a → Reach t h a' → place a = place a' → a = a'
  reach : ∀ c, Reach t' h' c ↔ ∃ a, Reach t h a ∧ place a = c
  roots : t'.roots = t.roots.map fun r => (r.1, moveWord place r.1 r.2)
  block : ∀ a, Reach t h a → ∃ b b', h.cells a = some b ∧ h'.cells (place a) = some b' ∧
    SameContent place (place a) b b'

theorem redirect_target {isEnv : Bool} {w a : Nat} (points : target isEnv w = some a)
    (positive : 0 < a) (aligned : a % 8 = 0) : redirect isEnv a = w := by
  cases isEnv with
  | false =>
    obtain ⟨pointer, rfl⟩ := target_object.mp points
    have payload := ptr_eq positive
    simp only [isHeapPtr, beq_iff_eq] at pointer
    simp only [redirect, makeHeapPtr, ← payload, Bool.false_eq_true, if_false]
    unfold ptr
    omega
  | true =>
    obtain ⟨_, rfl⟩ := target_env.mp points
    unfold BHDR_SIZE at positive
    simp only [redirect, if_true]
    unfold BHDR_SIZE
    omega

section finished
variable {h₀ h : Heap} {live : Nat → Prop} {t t' : Thread}

open Classical in
/-- Where the block of a is at the end of a pass. -/
noncomputable def relocation (h₀ h : Heap) (a : Nat) : Nat :=
  if placed : ∃ c, Place h₀ h a c then placed.choose else a

theorem relocation_eq (layout : Layout h₀) {a c : Nat} (placed : Place h₀ h a c) :
    relocation h₀ h a = c := by
  have some : ∃ c, Place h₀ h a c := ⟨c, placed⟩
  rw [relocation, dif_pos some]
  exact Place.functional layout some.choose_spec placed

theorem Tracing.follow (tracing : Tracing h₀ live h) (source : Source h₀ live) {isEnv : Bool}
    {w w' a : Nat} (translated : Translated h₀ h isEnv w w') (settled : Settled h₀ live h isEnv w')
    (points : target isEnv w = some a) (lives : live a) :
    ∃ c, Place h₀ h a c ∧ Found h₀ live h c ∧ target isEnv w' = some c ∧ w' = redirect isEnv c := by
  rcases translated with rfl | ⟨x, c, points', placed, word⟩
  · have found := settled a points
    obtain ⟨x, _, placed⟩ := found.place
    have here : Place h₀ h a a := by
      rcases source.block a lives with young | old
      · rcases tracing.place x a placed with stays | ⟨_, rfl⟩
        · exact absurd stays (tracing.pass.layout.young_leaves (tracing.youngs.mpr young))
        · exact placed
      · exact .old old
    obtain ⟨aligned, positive⟩ := tracing.pass.layout.aligned (tracing.held here)
    exact ⟨a, here, found, points, (redirect_target points positive aligned).symm⟩
  · obtain rfl := Option.some.inj (points'.symm.trans points)
    have aligned := (tracing.pass.layout.aligned (tracing.held placed)).1
    have there : target isEnv w' = some c := by
      rw [word]
      exact target_redirect isEnv aligned
    exact ⟨c, placed, settled c there, there, word⟩

theorem Translated.same {isEnv : Bool} {w w' : Nat} (translated : Translated h₀ h isEnv w w')
    (points : target isEnv w = none) : w' = w := by
  rcases translated with same | ⟨a, c, points', _, _⟩
  · exact same
  · rw [points] at points'
    cases points'

theorem Tracing.moveWord (tracing : Tracing h₀ live h) (source : Source h₀ live) {isEnv : Bool}
    {w w' : Nat} (translated : Translated h₀ h isEnv w w') (settled : Settled h₀ live h isEnv w')
    (lives : ∀ a, target isEnv w = some a → live a) :
    w' = moveWord (relocation h₀ h) isEnv w := by
  unfold Gc.moveWord
  cases points : target isEnv w with
  | none => exact translated.same points
  | some a =>
    obtain ⟨c, placed, _, _, word⟩ := tracing.follow source translated settled points (lives a points)
    show w' = redirect isEnv (relocation h₀ h a)
    rw [relocation_eq source.quiet.layout placed]
    exact word

/- What can be reached is found at its place, and its words lead on to the places of what it
   pointed to. -/
theorem Finished.reached (finished : Finished h₀ live t t' h) (source : Source h₀ live)
    {root : Nat → Prop} (lives : ∀ a, root a → live a)
    (roots : ∀ a, root a → ∃ c, Place h₀ h a c ∧ Found h₀ live h c) {a : Nat}
    (reached : Reached root (PointsTo h₀.cells) a) :
    live a ∧ ∃ c, Place h₀ h a c ∧ Found h₀ live h c := by
  have tracing := finished.tracing
  apply reached.closed
  · exact fun a start => ⟨lives a start, roots a start⟩
  · intro x y found edge
    obtain ⟨x_lives, c, placed, found⟩ := found
    have y_lives := source.closed x y x_lives edge
    obtain ⟨b, raw, s, member, points⟩ := edge
    obtain ⟨b', d, raw', block, holds⟩ := tracing.holds x c placed
    obtain rfl := Option.some.inj (raw.symm.trans raw')
    have settled := (finished.clean c found).slot s d block (holds.shape.1.symm ▸ member)
    obtain ⟨z, there, found', _⟩ :=
      tracing.follow source (holds.slot s member) settled points y_lives
    exact ⟨y_lives, z, there, found'⟩

theorem Finished.content (finished : Finished h₀ live t t' h) (source : Source h₀ live) {a c : Nat}
    (lives : live a) (placed : Place h₀ h a c) (found : Found h₀ live h c) :
    ∃ b d, h₀.cells a = some b ∧ h.cells c = some d ∧ SameContent (relocation h₀ h) c b d := by
  obtain ⟨b, d, raw, block, holds⟩ := finished.tracing.holds a c placed
  have clean := finished.clean c found
  refine ⟨b, d, raw, block, holds.type, holds.size, ?_, ?_, holds.other⟩
  · intro s member
    have settled := clean.slot s d block (holds.shape.1.symm ▸ member)
    apply finished.tracing.moveWord source (holds.slot s member) settled
    exact fun x points => source.closed a x lives ⟨b, raw, s, member, points⟩
  · exact fun i at_ inner => clean.inside d block i at_ (holds.shape.2.trans inner)

theorem forall₂_mem {R : Nat → Nat → Prop} {ws ws' : List Nat} (all : List.Forall₂ R ws ws')
    {w : Nat} (member : w ∈ ws) : ∃ w' ∈ ws', R w w' := by
  induction all with
  | nil => cases member
  | cons first _ ih =>
    rcases List.mem_cons.mp member with rfl | later
    · exact ⟨_, List.mem_cons_self, first⟩
    · obtain ⟨w', there, related⟩ := ih later
      exact ⟨w', List.mem_cons_of_mem _ there, related⟩

theorem Roots.visited (roots : Roots h₀ live h t t') {r : Bool × Nat} (member : r ∈ t.roots) :
    ∃ w', (r.1, w') ∈ t'.roots ∧ RootAt h₀ live h r.1 r.2 w' := by
  simp only [Thread.roots, List.cons_append, List.mem_cons, List.mem_append, List.mem_map,
    List.mem_range, List.not_mem_nil, or_false] at member
  rcases member with rfl | (⟨i, below, rfl⟩ | rfl | rfl | rfl) | ⟨w, local_, rfl⟩
  · exact ⟨t'.env, by simp [Thread.roots], roots.env⟩
  · exact ⟨t'.opstack i, mem_roots_opstack (roots.same.1 ▸ below), roots.opstack i below⟩
  · exact ⟨t'.closure, by simp [Thread.roots], roots.closure⟩
  · exact ⟨t'.libCache, by simp [Thread.roots], roots.libCache⟩
  · exact ⟨t'.exceptionHandlers, by simp [Thread.roots], roots.exceptionHandlers⟩
  · obtain ⟨w', there, root⟩ := forall₂_mem roots.localRoots local_
    exact ⟨w', by simp [Thread.roots, there], root⟩

theorem forall₂_eq_map {R : Nat → Nat → Prop} {f : Nat → Nat} {ws ws' : List Nat}
    (all : List.Forall₂ R ws ws') (word : ∀ w ∈ ws, ∀ w', R w w' → w' = f w) : ws' = ws.map f := by
  induction all with
  | nil => rfl
  | cons first _ ih =>
    rw [word _ List.mem_cons_self _ first,
      ih fun w member => word w (List.mem_cons_of_mem _ member), List.map_cons]

theorem Finished.roots_eq (finished : Finished h₀ live t t' h) (source : Source h₀ live)
    (lives : ∀ a, RootOf t a → live a) :
    t'.roots = t.roots.map fun r => (r.1, Gc.moveWord (relocation h₀ h) r.1 r.2) := by
  have roots := finished.roots
  have word : ∀ {isEnv w w'}, (isEnv, w) ∈ t.roots → RootAt h₀ live h isEnv w w' →
      w' = Gc.moveWord (relocation h₀ h) isEnv w := fun member root =>
    finished.tracing.moveWord source root.translated root.settled
      fun x points => lives x ⟨_, member, points⟩
  have stack : ∀ i ∈ List.range t.opStackIdx,
      (false, t'.opstack i) = (false, Gc.moveWord (relocation h₀ h) false (t.opstack i)) := by
    intro i member
    have below := List.mem_range.mp member
    rw [word (mem_roots_opstack below) (roots.opstack i below)]
  have locals : t'.localRoots = t.localRoots.map (Gc.moveWord (relocation h₀ h) false) := by
    apply forall₂_eq_map roots.localRoots
    intro w member w' root
    exact word (by simp [Thread.roots, member]) root
  have env := word (by simp [Thread.roots]) roots.env
  have closure := word (by simp [Thread.roots]) roots.closure
  have libCache := word (by simp [Thread.roots]) roots.libCache
  have exceptionHandlers := word (by simp [Thread.roots]) roots.exceptionHandlers
  simp only [Thread.roots, List.map_append, List.map_cons, List.map_map, List.map_nil, roots.same.1,
    locals, env, closure, libCache, exceptionHandlers, Function.comp_def]
  rw [List.map_congr_left stack]

end finished

/- The heap after a collection has left the young spaces. -/

section leaving
variable {h : Heap}

theorem leave_eq : ∃ full, leave h = { heapSwapSurvived (resetFresh h) with fullGc := full } := by
  obtain ⟨full, same, _⟩ := scheduleFullGc_eq (h := heapSwapSurvived (resetFresh h))
  exact ⟨full, same⟩

theorem leave_cells (layout : Layout h) {c : Nat} (stays : Stays h c) :
    (leave h).cells c = h.cells c := by
  obtain ⟨full, same⟩ := leave_eq (h := h)
  rw [same]
  obtain ⟨b, block⟩ := layout.block (.inr stays)
  obtain ⟨_, fresh, sizes, halves, _, positive, _, apart⟩ := layout.areas
  have outside : (c < h.mem ∨ h.mem + h.memSize ≤ c) ∨ h.futureSurvived.mem ≤ c ∧
      c < h.futureSurvived.mem + h.futureSurvived.size := by
    rcases stays with member | member
    · obtain ⟨d, at_d, low, high⟩ := layout.future_inside member
      have total := layout.future.total
      unfold BHDR_SIZE at high
      omega
    · obtain ⟨d, at_d, low, high⟩ := layout.old_member member
      have inside := layout.old_inside
      unfold BHDR_SIZE at high
      omega
  have memSize := layout.areas.memSize
  simp only [heapSwapSurvived, resetFresh, Cells.clear]
  rw [if_neg (by omega), if_neg (by omega)]

theorem leave_fresh : (leave h).fresh.hdrs = [] := by
  obtain ⟨full, same⟩ := leave_eq (h := h)
  rw [same]
  rfl

theorem leave_future : (leave h).futureSurvived.hdrs = [] := by
  obtain ⟨full, same⟩ := leave_eq (h := h)
  rw [same]
  rfl

theorem stays_leave {c : Nat} : Held (leave h) c ↔ Stays h c := by
  obtain ⟨full, same⟩ := leave_eq (h := h)
  rw [same]
  simp [Held, Young, Stays, heapSwapSurvived, resetFresh, Space.reset]

end leaving

section minor
variable {t : Thread} {h : Heap}

theorem WellFormed.source (wf : WellFormed t h) (minor : h.fullGc = false) :
    Source h (ReachOrOld t h) where
  quiet := wf.quiet
  block := wf.aimed.block
  closed := fun _ _ reached edge => reached.edge edge
  readable := wf.aimed.readable
  old := fun _ _ member => .root (.inr member)
  unmarked := fun full => absurd (minor.symm.trans full) (by simp)

theorem oldRoom_le (layout : Layout h) : oldRoom h ≤ OLD_SIZE := by
  have inside := layout.old_inside
  omega

/-- What a collection leaves when its last pass ends with the thread t' and the heap h₁. -/
structure Leaves (t' : Thread) (h₁ : Heap) (t'' : Thread) (h' : Heap) : Prop where
  heap : h' = leave h₁
  roots : t''.roots = t'.roots
  env : t''.env = t'.env ∧ t''.heapEnv = t'.heapEnv

theorem ends_leave {E : Abort → Prop} {t' : Thread} {h₁ : Heap}
    (env : t'.heapEnv → ∃ b, (leave h₁).cells (t'.env - BHDR_SIZE) = some b) :
    Ends (do
      update resetFresh
      update heapSwapSurvived
      let t ← threadAfterGc t'
      update scheduleFullGc
      return t) h₁ (Leaves t' h₁) E := by
  rw [ends_bind, ends_update, ends_bind, ends_update, ends_bind]
  apply ends_ite.mpr
  constructor
  · intro heapEnv
    obtain ⟨b, block⟩ := env heapEnv
    obtain ⟨full, same⟩ := leave_eq (h := h₁)
    rw [same] at block
    have before : (heapSwapSurvived (resetFresh h₁)).cells (t'.env - BHDR_SIZE) = some b := block
    rw [ends_bind, ends_readHdr_some before]
    exact ⟨rfl, rfl, rfl, rfl⟩
  · intro _
    exact ⟨rfl, rfl, rfl, rfl⟩

/-- A minor collection that has come to its end. -/
structure Collected (t : Thread) (h : Heap) (t'' : Thread) (h' : Heap) : Prop where
  pass : ∃ t' h₁, Finished h (ReachOrOld t h) t t' h₁ ∧ Leaves t' h₁ t'' h'

theorem Finished.minor_stays {live : Nat → Prop} {t' : Thread} {h₁ : Heap}
    (finished : Finished h live t t' h₁) (minor : h.fullGc = false) {a c : Nat}
    (placed : Place h h₁ a c) : Stays h₁ c := by
  rcases finished.tracing.place a c placed with stays | ⟨young, rfl⟩
  · exact stays
  · have full := finished.tracing.postponed_full young placed
    rw [finished.tracing.pass.fullGc, minor] at full
    cases full

theorem Roots.env_nonzero {live : Nat → Prop} {t' : Thread} {h₁ : Heap}
    (roots : Roots h live h₁ t t') (env : t.heapEnv → t.env ≠ 0) : t'.heapEnv → t'.env ≠ 0 := by
  intro heapEnv
  have nonzero := env (roots.same.2.1.symm.trans heapEnv)
  rcases roots.env.translated with same | ⟨a, c, _, _, word⟩
  · rwa [same]
  · rw [word]
    simp [redirect, BHDR_SIZE]

theorem Finished.env {live : Nat → Prop} {t' : Thread} {h₁ : Heap}
    (finished : Finished h live t t' h₁) (minor : h.fullGc = false)
    (env : t.heapEnv → t.env ≠ 0) :
    t'.heapEnv → ∃ b, (leave h₁).cells (t'.env - BHDR_SIZE) = some b := by
  intro heapEnv
  have root := finished.roots.env
  have present := finished.roots.env_nonzero env heapEnv
  obtain ⟨a, _, placed⟩ := (root.settled _ (target_env.mpr ⟨present, rfl⟩)).place
  have layout := finished.tracing.pass.layout
  have stays := finished.minor_stays minor placed
  rw [leave_cells layout stays]
  exact layout.block (.inr stays)

/- A minor collection of a well-formed state ends, unless the live young blocks do not fit. -/
theorem WellFormed.ends_minor (wf : WellFormed t h) (minor : h.fullGc = false) :
    Ends (heapGc t) h (Collected t h) (Overflow h (ReachOrOld t h)) := by
  have source := wf.source minor
  have layout := wf.quiet.layout
  have enough : potential h h + SURVIVED_SIZE + OLD_SIZE < 16 * gcFuel h := by
    have room := oldRoom_le layout
    have memSize := layout.areas.memSize
    have sizes : SURVIVED_SIZE = 131072 ∧ OLD_SIZE = 655360 ∧ FRESH_SIZE = 131072 := by decide
    simp only [potential, budget, minor, wf.quiet.remembered, gcFuel, List.length_nil,
      Bool.false_eq_true, if_false]
    omega
  unfold heapGc heapGcPasses
  rw [ends_bind, ends_get, ends_bind, ends_bind]
  apply (ends_heapGcMain_finished source t (fun _ root => .root (.inl root)) enough).post
  intro t' h₁ finished
  rw [ends_bind, ends_get]
  have minor₁ : h₁.fullGc = false := finished.tracing.pass.fullGc.trans minor
  simp only [minor₁, Bool.false_eq_true, if_false]
  rw [ends_pure]
  apply (ends_leave (finished.env minor wf.aimed.env)).post
  exact fun t'' h' leaves => ⟨t', h₁, finished, leaves⟩

theorem Finished.arrived {t' : Thread} {h₁ : Heap}
    (finished : Finished h (ReachOrOld t h) t t' h₁) (wf : WellFormed t h)
    (minor : h.fullGc = false) {a : Nat} (reach : ReachOrOld t h a) :
    ∃ c, relocation h h₁ a = c ∧ Place h h₁ a c ∧ Found h (ReachOrOld t h) h₁ c ∧ Stays h₁ c := by
  have source := wf.source minor
  have found := finished.reached source (fun _ => Reached.root) (by
    intro x root
    rcases root with root | old
    · obtain ⟨r, member, points⟩ := root
      have lives : ReachOrOld t h x := .root (.inl ⟨r, member, points⟩)
      obtain ⟨w', _, visited⟩ := finished.roots.visited member
      obtain ⟨c, placed, found, _⟩ :=
        finished.tracing.follow source visited.translated visited.settled points lives
      exact ⟨c, placed, found⟩
    · exact ⟨x, .old old, ⟨x, .root (.inr old), .old old⟩, fun full => by
        rw [finished.tracing.pass.fullGc, minor] at full
        cases full⟩) reach
  obtain ⟨_, c, placed, found⟩ := found
  exact ⟨c, relocation_eq wf.quiet.layout placed, placed, found, finished.minor_stays minor placed⟩

/- The blocks of before and their places, as two graphs. -/

theorem moveWord_target {place : Nat → Nat} {isEnv : Bool} {w : Nat}
    (aligned : ∀ a, target isEnv w = some a → place a % 8 = 0) :
    target isEnv (moveWord place isEnv w) = (target isEnv w).map place := by
  unfold moveWord
  cases points : target isEnv w with
  | none => exact points
  | some a => exact target_redirect isEnv (aligned a points)

theorem SameContent.slots_eq {place : Nat → Nat} {c : Nat} {b b' : Block}
    (same : SameContent place c b b') : slots b' = slots b := by
  apply (shape_eq same.type _).1
  intro other
  apply same.other
  · intro s member
    rcases slots_cases member with ⟨pair, _⟩ | ⟨_, zero, _⟩ | ⟨_, late, _⟩
    · exact absurd pair other
    · omega
    · omega
  · intro at_ inner
    exact absurd rfl (innerPointer_cases inner).1

theorem Collected.isomorphic {t'' : Thread} {h' : Heap} (collected : Collected t h t'' h')
    (wf : WellFormed t h) (minor : h.fullGc = false) :
    ∃ place, Isomorphic t h t'' h' place ∧ (∀ c, Reach t'' h' c → Held h' c) ∧
      ∀ a ∈ h.old.hdrs, place a = a := by
  obtain ⟨t', h₁, finished, leaves⟩ := collected.pass
  have source := wf.source minor
  have layout := finished.tracing.pass.layout
  have lives : ∀ {a}, Reach t h a → ReachOrOld t h a := Reach.orOld
  have roots : t''.roots = t.roots.map fun r => (r.1, moveWord (relocation h h₁) r.1 r.2) :=
    leaves.roots.trans (finished.roots_eq source fun _ root => .root (.inl root))
  have arrived : ∀ {a}, ReachOrOld t h a → relocation h h₁ a % 8 = 0 ∧
      Stays h₁ (relocation h h₁ a) := by
    intro a reach
    obtain ⟨c, same, placed, _, stays⟩ := finished.arrived wf minor reach
    rw [same]
    exact ⟨(layout.aligned (.inr stays)).1, stays⟩
  have block : ∀ a, Reach t h a → ∃ b b', h.cells a = some b ∧
      h'.cells (relocation h h₁ a) = some b' ∧
      SameContent (relocation h h₁) (relocation h h₁ a) b b' := by
    intro a reach
    obtain ⟨c, same, placed, found, stays⟩ := finished.arrived wf minor (lives reach)
    obtain ⟨b, d, raw, at_c, content⟩ := finished.content source (lives reach) placed found
    rw [same, leaves.heap, leave_cells layout stays]
    exact ⟨b, d, raw, at_c, content⟩
  have root_target : ∀ r ∈ t.roots, target r.1 (moveWord (relocation h h₁) r.1 r.2) =
      (target r.1 r.2).map (relocation h h₁) := fun r member =>
    moveWord_target fun a points => (arrived (.root (.inl ⟨r, member, points⟩))).1
  have slot_target : ∀ a b, Reach t h a → h.cells a = some b → ∀ s ∈ slots b,
      target s.isEnv (moveWord (relocation h h₁) s.isEnv (b.words s.index)) =
        (target s.isEnv (b.words s.index)).map (relocation h h₁) := by
    intro a b reach raw s member
    apply moveWord_target
    intro y points
    exact (arrived ((lives reach).edge ⟨b, raw, s, member, points⟩)).1
  have reach : ∀ c, Reach t'' h' c ↔ ∃ a, Reach t h a ∧ relocation h h₁ a = c := by
    intro c
    constructor
    · intro reached
      apply reached.source
      · intro c root
        obtain ⟨r', member, points⟩ := root
        rw [roots, List.mem_map] at member
        obtain ⟨r, member, rfl⟩ := member
        rw [root_target r member, Option.map_eq_some_iff] at points
        obtain ⟨a, points, same⟩ := points
        exact ⟨a, ⟨r, member, points⟩, same⟩
      · intro a c reached edge
        obtain ⟨b, b', raw, at_c, content⟩ := block a reached
        obtain ⟨d, at_c', s, member, points⟩ := edge
        obtain rfl := Option.some.inj (at_c.symm.trans at_c')
        rw [content.slots_eq] at member
        rw [content.slot s member, slot_target a b reached raw s member,
          Option.map_eq_some_iff] at points
        obtain ⟨y, points, same⟩ := points
        exact ⟨y, ⟨b, raw, s, member, points⟩, same⟩
    · intro both
      obtain ⟨a, reached, rfl⟩ := both
      apply reached.map
      · intro a root
        obtain ⟨r, member, points⟩ := root
        refine ⟨(r.1, moveWord (relocation h h₁) r.1 r.2), ?_, ?_⟩
        · rw [roots]
          exact List.mem_map_of_mem member
        · rw [root_target r member, points]
          rfl
      · intro a y reached edge
        obtain ⟨b, b', raw, at_c, content⟩ := block a reached
        obtain ⟨b₁, raw₁, s, member, points⟩ := edge
        obtain rfl := Option.some.inj (raw.symm.trans raw₁)
        refine ⟨b', at_c, s, content.slots_eq.symm ▸ member, ?_⟩
        rw [content.slot s member, slot_target a b reached raw s member, points]
        rfl
  refine ⟨relocation h h₁, ⟨?_, reach, roots, block⟩, ?_, ?_⟩
  · intro a a' first second same
    obtain ⟨c, place, placed, _⟩ := finished.arrived wf minor (lives first)
    obtain ⟨c', place', placed', _⟩ := finished.arrived wf minor (lives second)
    rw [place, place'] at same
    exact finished.tracing.injective a a' c placed (same ▸ placed')
  · intro c reached
    obtain ⟨a, before, rfl⟩ := (reach c).mp reached
    rw [leaves.heap, stays_leave]
    exact (arrived (lives before)).2
  · intro a member
    exact relocation_eq wf.quiet.layout (.old member)

theorem Collected.aimed {t'' : Thread} {h' : Heap} (collected : Collected t h t'' h')
    (wf : WellFormed t h) (minor : h.fullGc = false) : Aimed t'' h' := by
  obtain ⟨t', h₁, finished, leaves⟩ := collected.pass
  have source := wf.source minor
  have tracing := finished.tracing
  have layout := tracing.pass.layout
  have stays : ∀ {c}, Found h (ReachOrOld t h) h₁ c → Stays h₁ c := fun found => by
    obtain ⟨a, _, placed⟩ := found.place
    exact finished.minor_stays minor placed
  have found : ∀ {c}, Stays h₁ c → Found h (ReachOrOld t h) h₁ c := by
    intro c stays
    refine ⟨?_, fun full => ?_⟩
    · rcases stays with future | old
      · exact tracing.future_live future
      · exact (worklist_old source minor).place h₁ tracing c old
    · rw [tracing.pass.fullGc, minor] at full
      cases full
  have old : h'.old.hdrs = h₁.old.hdrs := by
    obtain ⟨full, same⟩ := leave_eq (h := h₁)
    rw [leaves.heap, same]
    rfl
  have kept : ∀ {c}, Stays h₁ c → h'.cells c = h₁.cells c := fun stays => by
    rw [leaves.heap, leave_cells layout stays]
  have reached : ∀ c, ReachOrOld t'' h' c → Stays h₁ c := by
    intro c reach
    apply reach.closed
    · intro x root
      rcases root with ⟨r, member, points⟩ | member
      · rw [leaves.roots, finished.roots_eq source fun _ root => .root (.inl root)] at member
        obtain ⟨r₀, member₀, rfl⟩ := List.mem_map.mp member
        obtain ⟨w', _, visited⟩ := finished.roots.visited member₀
        have word := tracing.moveWord source visited.translated visited.settled
          fun a points => .root (.inl ⟨r₀, member₀, points⟩)
        exact stays (visited.settled x (word ▸ points))
      · exact .inr (old ▸ member)
    · intro x y x_stays edge
      obtain ⟨b, at_x, s, member, points⟩ := edge
      rw [kept x_stays] at at_x
      exact stays ((finished.clean x (found x_stays)).slot s b at_x member y points)
  constructor
  · intro c reach
    have held : Held h' c := by
      rw [leaves.heap, stays_leave]
      exact reached c reach
    rcases held with young | future | old
    · exact .inl young
    · rw [leaves.heap, leave_future] at future
      cases future
    · exact .inr old
  · intro c reach b at_c s member
    have c_stays := reached c reach
    rw [kept c_stays] at at_c
    obtain ⟨a, lives, placed⟩ := (found c_stays).place
    obtain ⟨b₀, d, raw, at_c', holds⟩ := tracing.holds a c placed
    obtain rfl := Option.some.inj (at_c.symm.trans at_c')
    rw [holds.size]
    exact source.readable a lives b₀ raw s (holds.shape.1 ▸ member)
  · intro heapEnv
    rw [leaves.env.1]
    exact finished.roots.env_nonzero wf.aimed.env (leaves.env.2.symm.trans heapEnv)

theorem ends_ok {α : Type} {c : GcM α} {Q : α → Heap → Prop} {E : Abort → Prop}
    (ends : Ends c h Q E) : (∃ r, c h = .ok r) ∨ ∃ e, c h = .error e ∧ E e := by
  unfold Ends at ends
  cases result : c h with
  | ok r => exact .inl ⟨r, rfl⟩
  | error e =>
    rw [result] at ends
    exact .inr ⟨e, rfl, ends⟩

theorem Finished.copies_all {t' : Thread} {h₁ : Heap}
    (finished : Finished h (ReachOrOld t h) t t' h₁) (wf : WellFormed t h)
    (minor : h.fullGc = false) {a : Nat} (young : Young h a) :
    HasMoved h₁ a ↔ ReachOrOld t h a := by
  constructor
  · intro moved
    obtain ⟨_, lives, _⟩ := finished.tracing.moved_live young moved
    exact lives
  · intro lives
    obtain ⟨c, _, placed, _⟩ := finished.arrived wf minor lives
    cases placed with
    | old member => exact absurd (.inr member) (wf.quiet.layout.young_leaves young)
    | moved _ block forward => exact ⟨_, block, forward⟩
    | postponed _ full =>
      rw [finished.tracing.pass.fullGc, minor] at full
      cases full

/-- The bytes of the live young blocks that have to go to the survived space. -/
noncomputable def survivors (t : Thread) (h : Heap) : Nat :=
  total h fun a => ReachOrOld t h a ∧ ¬ Third h a

/-- The bytes of the live young blocks that have to go to the old space. -/
noncomputable def promotions (t : Thread) (h : Heap) : Nat :=
  total h fun a => ReachOrOld t h a ∧ Third h a

theorem Collected.fits {t'' : Thread} {h' : Heap} (collected : Collected t h t'' h')
    (wf : WellFormed t h) (minor : h.fullGc = false) :
    survivors t h ≤ SURVIVED_SIZE ∧ promotions t h ≤ oldRoom h := by
  obtain ⟨t', h₁, finished, _⟩ := collected.pass
  have copied : ∀ p : Nat → Prop, (total h fun a => HasMoved h₁ a ∧ p a) =
      total h fun a => ReachOrOld t h a ∧ p a := fun p =>
    total_congr fun a young => and_congr (finished.copies_all wf minor young) Iff.rfl
  have layout := finished.tracing.pass.layout
  have used := finished.tracing.used
  have spent := finished.tracing.spent
  have total := layout.future.total
  have size := layout.areas.sizes.2
  rw [copied] at used spent
  unfold survivors promotions
  omega

theorem WellFormed.completes (wf : WellFormed t h) (minor : h.fullGc = false)
    (survive : survivors t h ≤ SURVIVED_SIZE) (promote : promotions t h ≤ oldRoom h) :
    ∃ t'' h', heapGc t h = .ok (t'', h') ∧ Collected t h t'' h' := by
  have ends := wf.ends_minor minor
  rcases ends_ok ends with ⟨r, result⟩ | ⟨e, _, overflow⟩
  · exact ⟨r.1, r.2, result, ends.returned result⟩
  · cases overflow with
    | survived much => exact absurd survive (Nat.not_le.mpr much)
    | old much => exact absurd promote (Nat.not_le.mpr much)

/-- A minor collection of a well-formed state completes exactly when the live young blocks
    fit space by space: those of the last generation in what is left of the old space, all
    others in the survived space. -/
theorem heapGc_completes_iff (wf : WellFormed t h) (minor : h.fullGc = false) :
    (∃ r, heapGc t h = .ok r) ↔ survivors t h ≤ SURVIVED_SIZE ∧ promotions t h ≤ oldRoom h := by
  constructor
  · intro completes
    obtain ⟨r, result⟩ := completes
    exact ((wf.ends_minor minor).returned result).fits wf minor
  · intro fits
    obtain ⟨t'', h', result, _⟩ := wf.completes minor fits.1 fits.2
    exact ⟨_, result⟩

/-- After a minor collection that does not abort the thread reaches the same graph, and no
    pointer leads into the fresh space or into the survived space that was emptied. -/
theorem heapGc_isomorphic (wf : WellFormed t h) (minor : h.fullGc = false) {t' : Thread} {h' : Heap}
    (result : heapGc t h = .ok (t', h')) :
    ∃ place, Isomorphic t h t' h' place ∧ ∀ c, Reach t' h' c →
      ¬ inSpace h'.fresh (c + BHDR_SIZE) ∧ ¬ inSpace h'.futureSurvived (c + BHDR_SIZE) := by
  have collected := (wf.ends_minor minor).returned result
  obtain ⟨place, isomorphic, held, _⟩ := collected.isomorphic wf minor
  have rest := (ends_heapGc wf.quiet t).returned result
  have layout := rest.quiet.layout
  refine ⟨place, isomorphic, ?_⟩
  intro c reached
  constructor
  · intro inside
    have member := layout.in_fresh (held c reached) inside
    obtain ⟨_, h₁, _, leaves⟩ := collected.pass
    rw [leaves.heap, leave_fresh] at member
    cases member
  · intro inside
    have member := layout.in_future (held c reached) inside
    rw [rest.quiet.future] at member
    cases member

end minor

/- Two live blocks of which each would fit alone. -/

section crowded

def bigBlock (generation : Fin 4) : Block := ⟨.bytevector, false, generation, false, 100000, fun _ => 0⟩

def crowdedHeap : Heap :=
  let h := heapInit 8 1000000
  { h with
    fresh := h.fresh.append 100008
    survived := h.survived.append 100008
    cells := fun c =>
      if c = 8 then some (bigBlock 0) else if c = 131080 then some (bigBlock 1) else none }

def crowdedThread : Thread := { Thread.idle with libCache := 17, exceptionHandlers := 131089 }

theorem crowded_at {a : Nat} {b : Block} (at_a : crowdedHeap.cells a = some b) :
    (a = 8 ∧ b = bigBlock 0) ∨ a = 131080 ∧ b = bigBlock 1 := by
  simp only [crowdedHeap] at at_a
  split at at_a
  case isTrue first => exact .inl ⟨first, (Option.some.inj at_a).symm⟩
  case isFalse =>
    split at at_a
    case isTrue second => exact .inr ⟨second, (Option.some.inj at_a).symm⟩
    case isFalse => cases at_a

theorem crowded_layout : Layout crowdedHeap where
  areas := ⟨rfl, ⟨rfl, rfl⟩, ⟨rfl, rfl⟩, .inl ⟨rfl, rfl⟩, .inl rfl, by decide, by decide, by decide⟩
  sized := by
    intro a b at_a
    rcases crowded_at at_a with ⟨_, rfl⟩ | ⟨_, rfl⟩ <;> decide
  fresh := ⟨⟨rfl, bigBlock 0, rfl, rfl⟩, rfl⟩
  survived := ⟨⟨rfl, bigBlock 1, rfl, rfl⟩, rfl⟩
  future := ⟨rfl, rfl⟩
  old := ⟨rfl, rfl⟩
  placed := by
    intro a b at_a
    rcases crowded_at at_a with ⟨rfl, _⟩ | ⟨rfl, _⟩
    · exact .inl (.inl (by decide))
    · exact .inl (.inr (.inl (by decide)))

theorem crowded_reach {a : Nat} (reach : ReachOrOld crowdedThread crowdedHeap a) :
    a = 8 ∨ a = 131080 := by
  apply reach.closed
  · intro x root
    rcases root with ⟨r, member, points⟩ | old
    · simp only [Thread.roots, crowdedThread, Thread.idle, List.range_zero, List.map_nil,
        List.append_nil, List.cons_append, List.nil_append, List.mem_cons, List.not_mem_nil,
        or_false] at member
      rcases member with rfl | rfl | rfl | rfl
      · simp [target] at points
      · simp [target] at points
      · exact .inl (Option.some.inj points).symm
      · exact .inr (Option.some.inj points).symm
    · cases old
  · intro x y _ edge
    obtain ⟨b, at_x, s, member, _⟩ := edge
    rcases crowded_at at_x with ⟨_, rfl⟩ | ⟨_, rfl⟩ <;> cases member

theorem crowded_wellFormed : WellFormed crowdedThread crowdedHeap := by
  constructor
  · constructor
    · exact crowded_layout
    · intro a b _ at_a
      rcases crowded_at at_a with ⟨_, rfl⟩ | ⟨_, rfl⟩ <;> rfl
    · rfl
    · rfl
    · rfl
  · constructor
    · intro a reach
      rcases crowded_reach reach with rfl | rfl
      · exact .inl (.inl (by decide))
      · exact .inl (.inr (by decide))
    · intro a _ b at_a s member
      rcases crowded_at at_a with ⟨_, rfl⟩ | ⟨_, rfl⟩ <;> cases member
    · intro never
      cases never

theorem total_le (h : Heap) (p : Nat → Prop) : total h p ≤ ((youngs h).map (bytes h)).sum := by
  unfold total
  apply List.sum_le_sum
  intro a _
  split
  · exact Nat.le_refl _
  · exact Nat.zero_le _

/-- The live young blocks take less than the survived space and the old space have, and yet
    the collection aborts. -/
theorem heapGc_crowded : ¬ ∀ t h, WellFormed t h → h.fullGc = false →
    (total h (ReachOrOld t h) ≤ SURVIVED_SIZE + oldRoom h) → ∃ r, heapGc t h = .ok r := by
  intro claim
  have bound := total_le crowdedHeap (ReachOrOld crowdedThread crowdedHeap)
  have all : ((youngs crowdedHeap).map (bytes crowdedHeap)).sum = 200016 := by decide
  have room : SURVIVED_SIZE + oldRoom crowdedHeap = 786432 := by decide
  obtain ⟨r, result⟩ := claim crowdedThread crowdedHeap crowded_wellFormed rfl (by omega)
  have aborts : heapGc crowdedThread crowdedHeap = .error .survivedFull := rfl
  rw [aborts] at result
  cases result

end crowded

/- A pair that holds itself and that a root points to. -/

section knot

/-- A heap with one pair. -/
def pairHeap : Heap :=
  let h := heapInit 8 1000000
  { h with
    fresh := h.fresh.append 32
    cells := h.cells.put h.fresh.pos ⟨.pair, false, 0, false, 24, fun _ => 0⟩ }

theorem run_pairHeap : Run (fun _ => True) ⟨.idle, pairHeap⟩ := by
  apply Run.step (s := ⟨.idle, heapInit 8 1000000⟩)
  · exact Run.init ⟨by decide, by decide, by decide⟩ (aimed_idle rfl)
  · exact Step.alloc 24 .pair (by decide) (fun _ => trivial) (heapAlloc_fresh .idle .pair (by decide))

def knotHeap : Heap :=
  { pairHeap with
    cells := fun c =>
      if c = 8 then some ⟨.pair, false, 0, false, 24, fun i => if i = 0 then 17 else 0⟩ else none }

def knotThread : Thread := { Thread.idle with libCache := 17 }

theorem pair_written (words : Nat → Nat) : Written pairHeap { pairHeap with
    cells := fun c => if c = 8 then some ⟨.pair, false, 0, false, 24, words⟩ else none } := by
  refine ⟨_, rfl, ?_⟩
  intro a
  by_cases here : a = 8
  · subst here
    rfl
  · have other : pairHeap.cells a = none := by
      show Cells.put (fun _ => none) 8 _ a = none
      simp [Cells.put, here]
    simp [here, other]

theorem knot_written : Written pairHeap knotHeap := pair_written _

theorem knot_aimed : Aimed knotThread knotHeap := by
  have only : ∀ {a}, ReachOrOld knotThread knotHeap a → a = 8 := by
    intro a reach
    apply reach.closed
    · intro x root
      rcases root with ⟨r, member, points⟩ | old
      · simp only [Thread.roots, knotThread, Thread.idle, List.range_zero, List.map_nil,
          List.append_nil, List.cons_append, List.nil_append, List.mem_cons, List.not_mem_nil,
          or_false] at member
        rcases member with rfl | rfl | rfl | rfl
        · simp [target] at points
        · simp [target] at points
        · exact (Option.some.inj points).symm
        · simp [target, isHeapPtr] at points
      · cases old
    · intro x y same edge
      subst same
      obtain ⟨b, at_x, s, member, points⟩ := edge
      obtain rfl := Option.some.inj at_x
      simp only [slots, List.mem_cons, List.not_mem_nil, or_false] at member
      rcases member with rfl | rfl
      · exact (Option.some.inj points).symm
      · simp [target, isHeapPtr] at points
  constructor
  · intro a reach
    rw [only reach]
    exact .inl (.inl (by decide))
  · intro a reach b at_a s member
    rw [only reach] at at_a
    obtain rfl := Option.some.inj at_a
    simp only [slots, List.mem_cons, List.not_mem_nil, or_false] at member
    rcases member with rfl | rfl <;> decide
  · intro never
    cases never

theorem run_knot : Run (fun _ => True) ⟨knotThread, knotHeap⟩ :=
  run_pairHeap.step (.mutate knot_written knot_aimed)

theorem knot_wellFormed : WellFormed knotThread knotHeap := ⟨run_knot.rest.quiet, knot_aimed⟩

theorem heapGc_completes_knot : (∃ r, heapGc knotThread knotHeap = .ok r) ↔
    survivors knotThread knotHeap ≤ SURVIVED_SIZE ∧
      promotions knotThread knotHeap ≤ oldRoom knotHeap :=
  heapGc_completes_iff knot_wellFormed rfl

theorem heapGc_isomorphic_knot : ∃ t' h' place, heapGc knotThread knotHeap = .ok (t', h') ∧
    Isomorphic knotThread knotHeap t' h' place := by
  have all : ((youngs knotHeap).map (bytes knotHeap)).sum = 32 := by decide
  have room : oldRoom knotHeap = OLD_SIZE := by decide
  have sizes : SURVIVED_SIZE = 131072 ∧ OLD_SIZE = 655360 := by decide
  have bound := total_le knotHeap
  obtain ⟨t', h', result, _⟩ := knot_wellFormed.completes rfl
    (Nat.le_trans (bound _) (by omega)) (Nat.le_trans (bound _) (by omega))
  obtain ⟨place, isomorphic, _⟩ := heapGc_isomorphic knot_wellFormed rfl result
  exact ⟨t', h', place, result, isomorphic⟩

end knot

end LGears.Gc
