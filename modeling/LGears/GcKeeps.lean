import LGears.Gc

/- What every visit of a pointer and every rewriting of words keeps, a whole pass keeps. -/
namespace LGears.Gc
open StateExcept

/-- The header of a block, without its words. -/
def Block.header (b : Block) : Block := { b with words := fun _ => 0 }

@[simp] theorem header_setWord (b : Block) (i : Nat) (w : Nat) :
    (b.setWord i w).header = b.header := rfl

@[simp] theorem header_setInner (data : Nat) (b : Block) :
    (setInner data b).header = b.header := by
  unfold setInner
  cases innerPointer b <;> rfl

theorem header_fields {b b' : Block} (same : b'.header = b.header) :
    b'.type = b.type ∧ b'.forward = b.forward ∧ b'.generation = b.generation ∧
      b'.remembered = b.remembered ∧ b'.size = b.size := by
  simpa [Block.header] using same

section operations
variable {h : Heap} {E : Abort → Prop}

@[simp] theorem ends_update {f : Heap → Heap} {Q : PUnit → Heap → Prop} :
    Ends (update f) h Q E ↔ Q ⟨⟩ (f h) := Iff.rfl

@[simp] theorem ends_abort {α : Type} {e : Abort} {Q : α → Heap → Prop} :
    Ends (abort e) h Q E ↔ E e := Iff.rfl

theorem ends_readHdr {hdr : Nat} {Q : Block → Heap → Prop} (undefined : E .undefined)
    (found : ∀ b, h.cells hdr = some b → Q b h) : Ends (readHdr hdr) h Q E := by
  unfold Ends readHdr
  cases at_hdr : h.cells hdr with
  | none => exact undefined
  | some b => exact found b at_hdr

theorem ends_readHdr_some {hdr : Nat} {b : Block} {Q : Block → Heap → Prop}
    (at_hdr : h.cells hdr = some b) : Ends (readHdr hdr) h Q E ↔ Q b h := by
  simp only [Ends, readHdr, at_hdr]

theorem ends_copyToSurvived {b : Block} {Q : Nat → Heap → Prop}
    (full : h.futureSurvived.freeMem < b.size + BHDR_SIZE → E .survivedFull)
    (room : b.size + BHDR_SIZE ≤ h.futureSurvived.freeMem → Q h.futureSurvived.pos
      { h with
        futureSurvived := h.futureSurvived.append (b.size + BHDR_SIZE)
        cells := h.cells.put h.futureSurvived.pos b }) :
    Ends (copyToSurvived b) h Q E := by
  by_cases enough : h.futureSurvived.freeMem < b.size + BHDR_SIZE
  · simpa [Ends, copyToSurvived, enough] using full enough
  · simpa [Ends, copyToSurvived, enough] using room (by omega)

theorem ends_copyToOld {b : Block} {Q : Nat → Heap → Prop}
    (full : h.old.freeMem < b.size + BHDR_SIZE → E .oldFull)
    (room : b.size + BHDR_SIZE ≤ h.old.freeMem → Q h.old.pos
      { h with old := h.old.append (b.size + BHDR_SIZE), cells := h.cells.put h.old.pos b }) :
    Ends (copyToOld b) h Q E := by
  by_cases enough : h.old.freeMem < b.size + BHDR_SIZE
  · simpa [Ends, copyToOld, enough] using full enough
  · simpa [Ends, copyToOld, enough] using room (by omega)

theorem ends_lookupOld {obj hdr : Nat} {Q : Nat → Heap → Prop} (found : ∀ w, Q w h) :
    Ends (lookupOld obj hdr) h Q E := by
  unfold Ends lookupOld
  cases h.oldMap.bind (List.lookup hdr) <;> exact found _

theorem keeps_readHdr {α : Type} {I : Heap → Prop} (undefined : E .undefined) {hdr : Nat}
    {f : Block → GcM α}
    (rest : ∀ h b, I h → h.cells hdr = some b → Ends (f b) h (fun _ => I) E) :
    Keeps I E (readHdr hdr >>= f) := by
  intro h holds
  rw [ends_bind]
  exact ends_readHdr undefined fun b => rest h b holds

end operations

theorem ends_scanFrom {E : Abort → Prop} {list : Heap → List Nat} {J : Nat → Heap → Prop} {n : Nat}
    (visit : ∀ i h hdr, J i h → (list h)[i]? = some hdr →
      Ends (visitHdr hdr) h (fun _ => J (i + 1)) E)
    (bound : ∀ i h, J i h → i ≤ (list h).length ∧ (list h).length ≤ n) {h : Heap} {fuel i : Nat}
    (enough : n < fuel + i) (start : J i h) :
    Ends (scanFrom list fuel i) h (fun k h' => J k h' ∧ k = (list h').length) E := by
  induction fuel generalizing h i with
  | zero =>
    have most := bound i h start
    omega
  | succ fuel ih =>
    unfold scanFrom
    rw [ends_bind, ends_get]
    cases next : (list h)[i]? with
    | none =>
      have last : (list h).length ≤ i := List.getElem?_eq_none_iff.mp next
      have most := bound i h start
      exact ⟨start, by omega⟩
    | some hdr =>
      simp only [ends_bind]
      apply (visit i h hdr start next).post
      intro _ h' after
      exact ih (by omega) after

/-- I is kept by the steps of a pass, which fail only with E. -/
structure Steps (I : Heap → Prop) (E : Abort → Prop) : Prop where
  mark : ∀ obj, Keeps I E (heapMark obj)
  words : ∀ hdr f, (∀ b : Block, (f b).header = b.header) → Keeps I E (modifyHdr hdr f)
  forget : Keeps I E forget
  undefined : E .undefined
  fuel : E .fuel

section steps
variable {I : Heap → Prop} {E : Abort → Prop}

theorem keeps_abort {α : Type} {e : Abort} (fails : E e) : Keeps I E (abort e : GcM α) :=
  fun _ _ => fails

theorem keeps_read (undefined : E .undefined) (hdr : Nat) : Keeps I E (readHdr hdr) :=
  fun _ holds => ends_readHdr undefined fun _ _ => holds

theorem Steps.markEnv (steps : Steps I E) (env : Nat) : Keeps I E (markEnv env) := by
  apply keeps_ite
  · intro _
    exact keeps_pure env
  · intro _
    exact keeps_bind (steps.mark _) fun w => keeps_pure _

theorem Steps.visitSlot (steps : Steps I E) (hdr : Nat) (slot : Slot) :
    Keeps I E (visitSlot hdr slot) := by
  apply keeps_bind (keeps_read steps.undefined hdr)
  intro b
  apply keeps_ite
  · intro _
    exact keeps_abort steps.undefined
  intro _
  apply keeps_bind (keeps_ite (fun _ => steps.markEnv _) fun _ => steps.mark _)
  intro w
  exact steps.words hdr _ fun b => header_setWord b _ w

theorem Steps.visitSlots (steps : Steps I E) (hdr : Nat) (slots : List Slot) :
    Keeps I E (visitSlots hdr slots) := by
  induction slots with
  | nil => exact keeps_pure _
  | cons slot slots ih => exact keeps_bind (steps.visitSlot hdr slot) fun _ => ih

theorem Steps.visitHdr (steps : Steps I E) (hdr : Nat) : Keeps I E (visitHdr hdr) := by
  apply keeps_bind (keeps_read steps.undefined hdr)
  intro b
  apply keeps_bind (steps.words hdr _ fun b => header_setInner _ b)
  intro _
  exact steps.visitSlots hdr _

theorem Steps.visitStack (steps : Steps I E) (opstack : Nat → Nat) (n : Nat) :
    Keeps I E (visitStack opstack n) := by
  induction n with
  | zero => exact keeps_pure _
  | succ n ih =>
    apply keeps_bind ih
    intro opstack
    exact keeps_bind (steps.mark _) fun _ => keeps_pure _

theorem Steps.visitAll (steps : Steps I E) (ws : List Nat) : Keeps I E (visitAll ws) := by
  induction ws with
  | nil => exact keeps_pure _
  | cons w ws ih =>
    apply keeps_bind (steps.mark w)
    intro w
    exact keeps_bind ih fun _ => keeps_pure _

theorem Steps.threadGetRoots (steps : Steps I E) (t : Thread) :
    Keeps I E (threadGetRoots t) := by
  apply keeps_bind (steps.markEnv _)
  intro env
  apply keeps_bind (steps.visitStack _ _)
  intro opstack
  apply keeps_bind (steps.markEnv _)
  intro closure
  apply keeps_bind (steps.mark _)
  intro libCache
  apply keeps_bind (steps.mark _)
  intro exceptionHandlers
  exact keeps_bind (steps.visitAll _) fun _ => keeps_pure _

theorem Steps.scanFrom (steps : Steps I E) (list : Heap → List Nat) (fuel i : Nat) :
    Keeps I E (scanFrom list fuel i) := by
  induction fuel generalizing i with
  | zero => exact keeps_abort steps.fuel
  | succ fuel ih =>
    apply keeps_get
    intro h holds
    cases (list h)[i]? with
    | none => exact holds
    | some hdr => exact keeps_bind (steps.visitHdr hdr) (fun _ => ih (i + 1)) h holds

theorem Steps.heapGcLoop (steps : Steps I E) (fuel i : Nat) : Keeps I E (heapGcLoop fuel i) := by
  induction fuel generalizing i with
  | zero => exact keeps_abort steps.fuel
  | succ fuel ih =>
    apply keeps_get
    intro h holds
    apply keeps_ite (fun _ => keeps_pure _) _ h holds
    intro _
    apply keeps_bind (keeps_bind (steps.scanFrom _ fuel 0) fun _ => steps.forget)
    intro _
    exact keeps_bind (steps.scanFrom _ fuel i) ih

theorem Steps.heapGcMain (steps : Steps I E) (fuel : Nat) (t : Thread) :
    Keeps I E (heapGcMain fuel t) := by
  apply keeps_bind (steps.threadGetRoots t)
  intro t
  apply keeps_bind
  · apply keeps_get
    intro h holds
    apply keeps_ite (fun _ => keeps_pure _) _ h holds
    intro _
    exact keeps_bind (steps.scanFrom _ fuel 0) fun _ => keeps_pure _
  intro _
  apply keeps_bind (steps.scanFrom _ fuel 0)
  intro i
  exact keeps_bind (steps.heapGcLoop fuel i) fun _ => keeps_pure _

end steps

end LGears.Gc
