import LGears.GcKeeps

/- Blocks are allocated at multiples of 8. -/
namespace LGears.Gc
open StateExcept

/-- The fresh space begins at a multiple of 8, and so does its free part. -/
structure FreshAligned (h : Heap) : Prop where
  mem : h.fresh.mem % 8 = 0
  pos : h.fresh.pos % 8 = 0

abbrev Aligns {α : Type} (c : GcM α) : Prop := Keeps FreshAligned (fun _ => True) c

theorem FreshAligned.congr {h h' : Heap} (aligned : FreshAligned h) (same : h'.fresh = h.fresh) :
    FreshAligned h' := ⟨same ▸ aligned.mem, same ▸ aligned.pos⟩

theorem aligns_update {f : Heap → Heap} (same : ∀ h, (f h).fresh = h.fresh) : Aligns (update f) :=
  fun h aligned => aligned.congr (same h)

theorem aligns_modifyHdr (hdr : Nat) (f : Block → Block) : Aligns (modifyHdr hdr f) :=
  aligns_update fun _ => rfl

theorem aligns_readHdr (hdr : Nat) : Aligns (readHdr hdr) := keeps_read trivial hdr

theorem aligns_lookupOld (obj hdr : Nat) : Aligns (lookupOld obj hdr) :=
  fun _ aligned => ends_lookupOld fun _ => aligned

theorem aligns_forwardTo (hdr new : Nat) : Aligns (forwardTo hdr new) := by
  apply keeps_bind (aligns_modifyHdr hdr _)
  intro _
  apply keeps_bind (aligns_modifyHdr new _)
  intro _
  exact keeps_pure _

theorem aligns_copyToSurvived (b : Block) : Aligns (copyToSurvived b) := by
  intro h aligned
  apply ends_copyToSurvived
  · exact fun _ => trivial
  · exact fun _ => aligned.congr rfl

theorem aligns_copyToOld (b : Block) : Aligns (copyToOld b) := by
  intro h aligned
  apply ends_copyToOld
  · exact fun _ => trivial
  · exact fun _ => aligned.congr rfl

theorem aligns_requireOld : Aligns requireOld := by
  apply aligns_update
  intro h
  split <;> rfl

theorem aligns_heapRemember (hdr : Nat) : Aligns (heapRemember hdr) := aligns_update fun _ => rfl

theorem aligns_markOld (obj hdr : Nat) : Aligns (markOld obj hdr) := by
  apply keeps_get
  intro h aligned
  refine keeps_ite (fun _ => ?_) (fun _ => aligns_lookupOld obj hdr) h aligned
  apply keeps_bind (aligns_readHdr hdr)
  intro b
  apply keeps_ite
  · intro _
    exact aligns_lookupOld obj hdr
  · intro _
    apply keeps_bind (aligns_modifyHdr hdr _)
    intro _
    apply keeps_bind (aligns_heapRemember hdr)
    intro _
    exact keeps_pure _

theorem aligns_markYoung (obj hdr : Nat) : Aligns (markYoung obj hdr) := by
  apply keeps_bind (aligns_readHdr hdr)
  intro b
  apply keeps_ite
  · intro _
    exact keeps_pure _
  intro _
  apply keeps_ite
  · intro _
    apply keeps_get
    intro h aligned
    refine keeps_ite (fun _ => ?_) (fun _ => ?_) h aligned
    · apply keeps_ite
      · intro _
        exact keeps_pure _
      · intro _
        apply keeps_bind (aligns_heapRemember hdr)
        intro _
        apply keeps_bind (aligns_modifyHdr hdr _)
        intro _
        exact keeps_pure _
    · apply keeps_bind aligns_requireOld
      intro _
      apply keeps_bind (aligns_copyToOld b)
      intro new
      apply keeps_bind (aligns_heapRemember new)
      intro _
      apply keeps_bind (aligns_modifyHdr hdr _)
      intro _
      exact aligns_forwardTo hdr new
  · intro _
    exact keeps_bind (aligns_copyToSurvived b) fun new => aligns_forwardTo hdr new

theorem steps_aligned : Steps FreshAligned fun _ => True where
  mark obj := by
    unfold heapMark
    apply keeps_ite
    · intro _
      exact keeps_pure _
    intro _
    apply keeps_get
    intro h aligned
    refine keeps_ite (fun _ => keeps_abort trivial) (fun _ => ?_) h aligned
    apply keeps_ite
    · intro _
      exact keeps_pure _
    intro _
    exact keeps_ite (fun _ => aligns_markOld obj _) fun _ => aligns_markYoung obj _
  words hdr f _ := aligns_modifyHdr hdr f
  forget := aligns_update fun _ => rfl
  undefined := trivial
  fuel := trivial

theorem aligns_moveAll (hdrs : List Nat) : Aligns (moveAll hdrs) := by
  induction hdrs with
  | nil => exact keeps_pure _
  | cons hdr hdrs ih =>
    unfold moveAll moveOld
    refine keeps_bind ?_ fun _ => ih
    apply keeps_bind (aligns_modifyHdr hdr _)
    intro _
    apply keeps_bind (aligns_readHdr hdr)
    intro b
    apply keeps_bind (aligns_copyToOld b)
    intro new
    apply keeps_bind
    · exact aligns_update fun _ => rfl
    intro _
    exact aligns_heapRemember new

theorem aligns_heapGcPasses (fuel : Nat) (t : Thread) : Aligns (heapGcPasses fuel t) := by
  apply keeps_bind (steps_aligned.heapGcMain fuel t)
  intro t
  apply keeps_get
  intro h aligned
  refine keeps_ite (fun _ => ?_) (fun _ => keeps_pure _) h aligned
  apply keeps_bind
  · apply keeps_get
    intro h aligned
    refine keeps_bind ?_ (fun _ => aligns_moveAll _) h aligned
    exact aligns_update fun _ => rfl
  intro _
  apply keeps_bind
  · exact aligns_update fun _ => rfl
  intro _
  apply keeps_bind (steps_aligned.heapGcMain fuel t)
  intro t
  apply keeps_bind
  · exact aligns_update fun _ => rfl
  intro _
  exact keeps_pure _

theorem aligns_heapGc (t : Thread) : Aligns (heapGc t) := by
  apply keeps_get
  intro h aligned
  refine keeps_bind (aligns_heapGcPasses _ t) (fun t => ?_) h aligned
  apply keeps_bind
  · exact fun h aligned => ⟨aligned.mem, aligned.mem⟩
  intro _
  apply keeps_bind
  · exact aligns_update fun _ => rfl
  intro _
  apply keeps_bind
  · apply keeps_ite
    · intro _
      exact keeps_bind (aligns_readHdr _) fun _ => keeps_pure _
    · intro _
      exact keeps_pure _
  intro t
  apply keeps_bind
  · apply aligns_update
    intro h
    unfold scheduleFullGc
    split <;> rfl
  intro _
  exact keeps_pure _

theorem aligns_heapAlloc (t : Thread) (size : Nat) (type : BlockType) :
    Aligns (heapAlloc t size type) := by
  have placed : ∀ t : Thread, Aligns (spaceAlloc size type >>= fun mem => pure (t, mem)) := by
    intro t
    apply keeps_bind
    · intro h aligned
      refine ⟨aligned.mem, ?_⟩
      have pos := aligned.pos
      simp only [Space.append, alignUp, BHDR_SIZE]
      omega
    · intro mem
      exact keeps_pure _
  apply keeps_get
  intro h aligned
  refine keeps_ite (fun _ => placed t) (fun _ => ?_) h aligned
  apply keeps_bind (aligns_heapGc t)
  intro t
  apply keeps_get
  intro h aligned
  exact keeps_ite (fun _ => placed t) (fun _ => keeps_abort trivial) h aligned

end LGears.Gc
