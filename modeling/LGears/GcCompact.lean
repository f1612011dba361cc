import LGears.GcVisit

/- The compaction of the old space: the marked blocks move down, one after another, and
   none is overwritten before it has been moved. -/
namespace LGears.Gc
open StateExcept

/-- Blocks in the order of their addresses between a and stop, with gaps. -/
def Spread (cells : Cells) : Nat → List Nat → Nat → Prop
  | a, [], stop => a ≤ stop
  | a, hdr :: hdrs, stop =>
    a ≤ hdr ∧ ∃ b, cells hdr = some b ∧ Spread cells (hdr + (BHDR_SIZE + b.size)) hdrs stop

section spread
variable {cells cells' : Cells} {a stop : Nat} {hdrs : List Nat}

theorem Spread.lower (spread : Spread cells a hdrs stop) {low : Nat} (le : low ≤ a) :
    Spread cells low hdrs stop := by
  cases hdrs with
  | nil => exact Nat.le_trans le spread
  | cons hdr hdrs => exact ⟨Nat.le_trans le spread.1, spread.2⟩

theorem Chain.spread (chain : Chain cells a hdrs stop) (p : Nat → Bool) :
    Spread cells a (hdrs.filter p) stop := by
  induction hdrs generalizing a with
  | nil => exact Nat.le_of_eq chain
  | cons hdr hdrs ih =>
    obtain ⟨rfl, b, at_hdr, rest⟩ := chain
    by_cases live : p hdr
    · rw [List.filter_cons_of_pos live]
      exact ⟨Nat.le_refl _, b, at_hdr, ih rest⟩
    · rw [List.filter_cons_of_neg live]
      exact (ih rest).lower (by omega)

theorem Spread.le (spread : Spread cells a hdrs stop) : a ≤ stop := by
  induction hdrs generalizing a with
  | nil => exact spread
  | cons hdr hdrs ih =>
    obtain ⟨low, _, _, rest⟩ := spread
    have := ih rest
    omega

theorem Spread.above (spread : Spread cells a hdrs stop) {x : Nat} (member : x ∈ hdrs) : a ≤ x := by
  induction hdrs generalizing a with
  | nil => cases member
  | cons hdr hdrs ih =>
    obtain ⟨low, _, _, rest⟩ := spread
    rcases List.mem_cons.mp member with here | later
    · omega
    · have := ih rest later
      omega

theorem Spread.congr (spread : Spread cells a hdrs stop)
    (same : ∀ x ∈ hdrs, ∀ b, cells x = some b → cells' x = some b) :
    Spread cells' a hdrs stop := by
  induction hdrs generalizing a with
  | nil => exact spread
  | cons hdr hdrs ih =>
    obtain ⟨low, b, at_hdr, rest⟩ := spread
    exact ⟨low, b, same hdr (by simp) b at_hdr, ih rest fun x member => same x (by simp [member])⟩

end spread

/-- The block as it is stored when it has been moved. -/
def Block.unmarked (b : Block) : Block := { b with remembered := false }

/-- The blocks at hdrs have been moved, to the places that are paired with them. -/
structure Moved (h : Heap) (hdrs : List Nat) (moves : List (Nat × Nat)) (h' : Heap) : Prop where
  layout : Layout h'
  sources : moves.map Prod.fst = hdrs
  frame : h' = { h with
    old := h'.old
    oldMap := h.oldMap.map (moves.reverse ++ ·)
    remembered := h.remembered ++ moves.map Prod.snd
    cells := h'.cells }
  old : h'.old.mem = h.old.mem ∧ h'.old.hdrs = h.old.hdrs ++ moves.map Prod.snd
  moved : ∀ m ∈ moves, ∃ b, h.cells m.1 = some b ∧ h'.cells m.2 = some b.unmarked
  kept : ∀ c d, h.cells c = some d → c ∉ hdrs →
    c + (BHDR_SIZE + d.size) ≤ h.old.pos ∨ h.old.mem + h.old.size ≤ c → h'.cells c = some d

section compact
variable {h : Heap} {hdr : Nat} {b : Block}

/-- The heap after the block b at hdr has been moved to the end of the old space. -/
def movedOne (h : Heap) (hdr : Nat) (b : Block) : Heap :=
  { h with
    old := h.old.append (b.size + BHDR_SIZE)
    oldMap := h.oldMap.map ((hdr, h.old.pos) :: ·)
    remembered := h.remembered ++ [h.old.pos]
    cells := Cells.put (Function.update h.cells hdr (some b.unmarked)) h.old.pos b.unmarked }

theorem ends_moveOld {E : Abort → Prop} {Q : PUnit → Heap → Prop} (at_hdr : h.cells hdr = some b)
    (room : b.size + BHDR_SIZE ≤ h.old.freeMem) (after : Q ⟨⟩ (movedOne h hdr b)) :
    Ends (moveOld hdr) h Q E := by
  unfold moveOld
  rw [modifyHdr, ends_bind, ends_update, at_hdr, Option.map_some, ends_bind]
  rw [ends_readHdr_some (Function.update_self _ _ _), ends_bind]
  apply ends_copyToOld
  · intro full
    exact absurd full (Nat.not_lt.mpr room)
  · intro _
    exact after

theorem Layout.movedOne (layout : Layout h) (at_hdr : h.cells hdr = some b)
    (room : b.size + BHDR_SIZE ≤ h.old.freeMem) : Layout (movedOne h hdr b) := by
  have unmarked := layout.modifyHdr hdr (f := Block.unmarked) fun _ => rfl
  rw [at_hdr, Option.map_some] at unmarked
  have copied := unmarked.copyToOld (b := b.unmarked) (layout.sized hdr b at_hdr) room
  exact copied.flags _ _ _

theorem movedOne_kept {c : Nat} {d : Block} (at_c : h.cells c = some d) (other : c ≠ hdr)
    (apart : c + (BHDR_SIZE + d.size) ≤ h.old.pos ∨ h.old.pos + (BHDR_SIZE + b.size) ≤ c) :
    (movedOne h hdr b).cells c = some d := by
  have before : Function.update h.cells hdr (some b.unmarked) c = some d := by
    rw [Function.update_of_ne other]
    exact at_c
  exact put_apart before apart

theorem ends_moveAll {hdrs : List Nat} {stop : Nat} (layout : Layout h)
    (spread : Spread h.cells h.old.pos hdrs stop) (inside : stop ≤ h.old.mem + h.old.size) :
    Ends (moveAll hdrs) h (fun _ h' => ∃ moves, Moved h hdrs moves h') fun _ => False := by
  induction hdrs generalizing h with
  | nil =>
    apply Exists.intro []
    constructor
    · exact layout
    · rfl
    · have map : h.oldMap.map (([] : List (Nat × Nat)).reverse ++ ·) = h.oldMap := by
        cases h.oldMap <;> rfl
      rw [map, List.map_nil, List.append_nil]
    · simp
    · simp
    · intro c d at_c _ _
      exact at_c
  | cons hdr hdrs ih =>
    obtain ⟨low, b, at_hdr, rest⟩ := spread
    have total := layout.old.total
    have bound := rest.le
    have room : b.size + BHDR_SIZE ≤ h.old.freeMem := by omega
    have later : Spread (movedOne h hdr b).cells (movedOne h hdr b).old.pos hdrs stop := by
      have raised : Spread h.cells (movedOne h hdr b).old.pos hdrs stop := by
        apply rest.lower
        simp only [movedOne, Space.append]
        omega
      apply raised.congr
      intro x member d at_x
      have above := rest.above member
      exact movedOne_kept at_x (by unfold BHDR_SIZE at above; omega) (.inr (by omega))
    unfold moveAll
    rw [ends_bind]
    apply ends_moveOld at_hdr room
    apply (ih (layout.movedOne at_hdr room) later inside).post
    intro _ h' done
    obtain ⟨moves, done⟩ := done
    have first : h'.cells h.old.pos = some b.unmarked := by
      apply done.kept _ _ put_same
      · intro member
        have above := rest.above member
        unfold BHDR_SIZE at above
        omega
      · simp only [movedOne, Space.append, Block.unmarked]
        omega
    apply Exists.intro ((hdr, h.old.pos) :: moves)
    constructor
    · exact done.layout
    · simp [done.sources]
    · have frame := done.frame
      simp only [movedOne] at frame
      rw [frame]
      cases h.oldMap <;> simp
    · simp [done.old, movedOne, Space.append]
    · intro m member
      rcases List.mem_cons.mp member with here | further
      · subst here
        exact ⟨b, at_hdr, first⟩
      · obtain ⟨d, at_source, at_place⟩ := done.moved m further
        have source : m.1 ∈ hdrs := done.sources ▸ List.mem_map_of_mem further
        have above := rest.above source
        have other : m.1 ≠ hdr := by
          unfold BHDR_SIZE at above
          omega
        have before := put_before at_source (by unfold BHDR_SIZE at above; omega)
        rw [Function.update_of_ne other] at before
        exact ⟨d, before, at_place⟩
    · intro c d at_c absent clear
      rw [List.mem_cons, not_or] at absent
      have still := movedOne_kept (b := b) at_c absent.1 (by omega)
      apply done.kept c d still absent.2
      simp only [movedOne, Space.append]
      omega

end compact

/-- What a compaction does, from the heap a marking pass leaves. -/
theorem ends_heapGcOld {h : Heap} (layout : Layout h) :
    Ends heapGcOld h (fun _ h' => ∃ moves, Moved { h with old := h.old.reset, oldMap := some [] }
      (liveSet h.cells h.old.hdrs) moves h') fun _ => False := by
  unfold heapGcOld
  rw [ends_bind, ends_get, ends_bind, ends_update]
  have total := layout.old.total
  have reset : Layout { h with old := h.old.reset, oldMap := some [] } := by
    obtain ⟨memSize, fresh, sizes, halves, oldAt, positive, aligned, apart⟩ := layout.areas
    exact {
      areas := ⟨memSize, fresh, sizes, halves, by
        rcases oldAt with absent | present
        · left
          simp [absent, Space.reset]
        · exact .inr present, positive, aligned, apart⟩
      sized := layout.sized
      fresh := layout.fresh
      survived := layout.survived
      future := layout.future
      old := Space.reset_laid _ _
      placed := layout.placed }
  exact ends_moveAll reset (layout.old.chain.spread _) (by simp only [Space.reset]; omega)

end LGears.Gc
