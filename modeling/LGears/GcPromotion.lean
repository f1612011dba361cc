import Mathlib.Algebra.Order.BigOperators.Group.List
import Mathlib.Algebra.Order.Group.Nat
import LGears.GcRuns

/- Promotion: the blocks of the last generation in the survived space fit in what is left
   of the old space, through every step of a minor collection. -/
namespace LGears.Gc
open StateExcept

/-- What the block at a takes when it is promoted; nothing once it has been copied. -/
def thirdBytes (cells : Cells) (a : Nat) : Nat :=
  match cells a with
  | some b => if b.forward = false ∧ b.generation = 3 then BHDR_SIZE + b.size else 0
  | none => 0

/-- A minor collection whose blocks of the last generation have room in the old space. -/
structure Room (h : Heap) : Prop where
  layout : Layout h
  minor : h.fullGc = false
  fresh : ∀ a ∈ h.fresh.hdrs, thirdBytes h.cells a = 0
  enough : (h.survived.hdrs.map (thirdBytes h.cells)).sum ≤ oldRoom h

theorem sum_map_congr {f g : Nat → Nat} {l : List Nat} (same : ∀ x ∈ l, g x = f x) :
    (l.map g).sum = (l.map f).sum := by
  rw [List.map_congr_left same]

theorem sum_map_change {f g : Nat → Nat} {l : List Nat} {a : Nat} (nodup : l.Nodup)
    (member : a ∈ l) (same : ∀ x ∈ l, x ≠ a → g x = f x) :
    (l.map g).sum + f a = (l.map f).sum + g a := by
  induction l with
  | nil => cases member
  | cons x l ih =>
    obtain ⟨absent, nodup⟩ := List.nodup_cons.mp nodup
    simp only [List.map_cons, List.sum_cons]
    by_cases here : a = x
    · subst here
      have rest : (l.map g).sum = (l.map f).sum := sum_map_congr fun y y_in =>
        same y (List.mem_cons_of_mem _ y_in) fun y_a => absent (y_a ▸ y_in)
      omega
    · have later : a ∈ l := (List.mem_cons.mp member).resolve_left here
      have first := same x List.mem_cons_self (Ne.symm here)
      have rest := ih nodup later fun y y_in => same y (List.mem_cons_of_mem _ y_in)
      omega

section room
variable {h h' : Heap} {obj w : Nat}

theorem thirdBytes_modify {cells : Cells} (hdr : Nat) {f : Block → Block}
    (same : ∀ b, (f b).header = b.header) :
    thirdBytes (Function.update cells hdr ((cells hdr).map f)) = thirdBytes cells := by
  funext a
  unfold thirdBytes
  by_cases here : a = hdr
  · subst here
    rw [Function.update_self]
    cases cells a with
    | none => rfl
    | some b =>
      obtain ⟨_, forward, generation, _, size⟩ := header_fields (same b)
      simp only [Option.map_some, forward, generation, size]
  · rw [Function.update_of_ne here]

/- A visit of one block leaves what the others take. -/
theorem Marked.thirdBytes (marked : Marked h obj w h') (layout : Layout h) {c : Nat}
    (young : Young h c) (other : c ≠ hdrOf obj) :
    thirdBytes h'.cells c = thirdBytes h.cells c := by
  unfold Gc.thirdBytes
  rw [marked.frame layout (.inl young) other]

theorem Room.copied (room : Room h) {b : Block} {cells : Cells} (points : Points h obj b)
    (young : Young h (hdrOf obj)) (present : b.forward = false) (below : b.generation ≠ 3)
    (copy : Copied h.cells cells (hdrOf obj) h.futureSurvived.pos b b.remembered)
    (enough : b.size + BHDR_SIZE ≤ h.futureSurvived.freeMem)
    (layout : Layout (copied h b cells)) : Room (copied h b cells) := by
  have marked := Marked.copied b cells points young present below enough copy
  have same : ∀ c, Young h c → thirdBytes cells c = thirdBytes h.cells c := by
    intro c young'
    by_cases here : c = hdrOf obj
    · subst here
      simp [thirdBytes, copy.at_source, points.block, below]
    · exact marked.thirdBytes room.layout young' here
  constructor
  · exact layout
  · exact room.minor
  · intro a member
    exact (same a (.inl member)).trans (room.fresh a member)
  · have total := sum_map_congr (l := h.survived.hdrs) fun a member => same a (.inr member)
    calc (h.survived.hdrs.map (thirdBytes cells)).sum
        = (h.survived.hdrs.map (thirdBytes h.cells)).sum := total
      _ ≤ oldRoom h := room.enough

theorem oldRoom_promoted (layout : Layout h) {b : Block} {cells : Cells} :
    oldRoom (Gc.promoted h b cells) = oldRoom h - (b.size + BHDR_SIZE) := by
  have positive := layout.areas.positive
  simp only [oldRoom, Gc.promoted, oldSpace, Space.append]
  by_cases absent : h.old.mem = 0
  · simp only [absent, if_true, Space.init]
    rw [if_neg (by omega)]
  · simp only [if_neg absent]

theorem Room.promoted (room : Room h) {b : Block} {cells : Cells} (points : Points h obj b)
    (young : Young h (hdrOf obj)) (present : b.forward = false) (third : b.generation = 3)
    (copy : Copied h.cells cells (hdrOf obj) (oldSpace h).pos b false)
    (enough : b.size + BHDR_SIZE ≤ oldRoom h)
    (layout : Layout (promoted h b cells)) : Room (promoted h b cells) := by
  have marked := Marked.promoted b cells points young present third room.minor enough copy
  have takes : thirdBytes h.cells (hdrOf obj) = BHDR_SIZE + b.size := by
    simp [thirdBytes, points.block, present, third]
  have taken : thirdBytes cells (hdrOf obj) = 0 := by
    simp [thirdBytes, copy.at_source]
  have survivor : hdrOf obj ∈ h.survived.hdrs := by
    rcases young with member | member
    · have nothing := room.fresh _ member
      rw [takes] at nothing
      unfold BHDR_SIZE at nothing
      omega
    · exact member
  constructor
  · exact layout
  · exact room.minor
  · intro a member
    by_cases here : a = hdrOf obj
    · exact here ▸ taken
    · exact (marked.thirdBytes room.layout (.inl member) here).trans (room.fresh a member)
  · have total := sum_map_change (g := thirdBytes cells) room.layout.survived.chain.nodup survivor
      fun a member other => marked.thirdBytes room.layout (.inr member) other
    have before := room.enough
    have after : oldRoom (Gc.promoted h b cells) = oldRoom h - (b.size + BHDR_SIZE) :=
      oldRoom_promoted room.layout
    rw [after]
    show (h.survived.hdrs.map (thirdBytes cells)).sum ≤ _
    omega

/- The promotion of a block never finds the old space full. -/
theorem Room.fits (room : Room h) {e : Abort} (fails : MarkFails h obj e) : e ≠ .oldFull := by
  intro full
  subst full
  cases fails with
  | oldFull b points young present third minor full =>
    have takes : thirdBytes h.cells (hdrOf obj) = BHDR_SIZE + b.size := by
      simp [thirdBytes, points.block, present, third]
    rcases young with member | member
    · have nothing := room.fresh _ member
      unfold BHDR_SIZE at *
      omega
    · have at_most := List.le_sum_of_mem (List.mem_map_of_mem (f := thirdBytes h.cells) member)
      have enough := room.enough
      omega

theorem keeps_room_heapMark (obj : Nat) : Keeps Room (· ≠ .oldFull) (heapMark obj) := by
  intro h room
  have layout := keeps_layout_heapMark obj h room.layout
  unfold Ends at layout ⊢
  have visit : Ends (heapMark obj) h (Marked h obj) (MarkFails h obj) :=
      ends_heapMark room.layout
  unfold Ends at visit
  cases result : heapMark obj h with
  | error e =>
    rw [result] at visit
    exact room.fits visit
  | ok r =>
    obtain ⟨w, h'⟩ := r
    rw [result] at visit layout
    simp only at visit layout
    cases visit with
    | immediate => exact room
    | future => exact room
    | old => exact room
    | forwarded => exact room
    | postponed => exact room
    | reached b points inside full unmarked => exact absurd (room.minor ▸ full) (by simp)
    | postpones b points young present third full unmarked =>
      exact absurd (room.minor ▸ full) (by simp)
    | copied b cells points young present below enough copy =>
      exact room.copied points young present below copy enough layout
    | promoted b cells points young present third minor enough copy =>
      exact room.promoted points young present third copy enough layout

theorem steps_room : Steps Room (· ≠ .oldFull) where
  mark := keeps_room_heapMark
  words := by
    intro hdr f same h room
    have takes : thirdBytes (Function.update h.cells hdr ((h.cells hdr).map f)) =
        thirdBytes h.cells := thirdBytes_modify hdr same
    constructor
    · exact room.layout.modifyHdr hdr fun b => size_of_header (same b)
    · exact room.minor
    · intro a member
      exact (congrFun takes a).trans (room.fresh a member)
    · show (h.survived.hdrs.map (thirdBytes _)).sum ≤ oldRoom h
      rw [takes]
      exact room.enough
  forget := fun h room => ⟨room.layout.flags _ _ _, room.minor, room.fresh, room.enough⟩
  undefined := by decide
  fuel := by decide

theorem Chain.thirdBytes_le {cells : Cells} {a stop : Nat} {hdrs : List Nat}
    (chain : Chain cells a hdrs stop) : a + (hdrs.map (Gc.thirdBytes cells)).sum ≤ stop := by
  induction hdrs generalizing a with
  | nil => exact Nat.le_of_eq chain
  | cons hdr hdrs ih =>
    obtain ⟨rfl, b, at_hdr, rest⟩ := chain
    have one : Gc.thirdBytes cells hdr ≤ BHDR_SIZE + b.size := by
      simp only [Gc.thirdBytes, at_hdr]
      split <;> omega
    have others := ih rest
    rw [List.map_cons, List.sum_cons]
    omega

/- At rest the survivors fit in what is left of the old space, unless a full collection is
   due. -/
theorem Rest.toRoom (rest : Rest h) (minor : h.fullGc = false) : Room h := by
  have layout := rest.quiet.layout
  constructor
  · exact layout
  · exact minor
  · intro a member
    obtain ⟨b, at_a, _⟩ := layout.fresh.inside member
    have young := rest.fresh a member b at_a
    simp [Gc.thirdBytes, at_a, young]
  · have bytes := layout.survived.chain.thirdBytes_le
    have total := layout.survived.total
    have size := layout.areas.sizes.1
    have fits : SURVIVED_SIZE ≤ oldRoom h := by
      unfold oldRoom
      rcases rest.room minor with absent | enough
      · rw [if_pos absent]
        decide
      · by_cases absent : h.old.mem = 0
        · rw [if_pos absent]
          decide
        · rw [if_neg absent]
          exact enough
    omega

theorem ends_heapGc_minor (room : Room h) (t : Thread) :
    Ends (heapGc t) h (fun _ _ => True) (· ≠ .oldFull) := by
  unfold heapGc heapGcPasses
  rw [ends_bind, ends_get, ends_bind, ends_bind]
  apply (steps_room.heapGcMain _ t h room).post
  intro t h' after
  rw [ends_bind, ends_get]
  simp only [after.minor, Bool.false_eq_true, if_false]
  rw [ends_pure, ends_bind, ends_update, ends_bind, ends_update, ends_bind]
  apply ends_ite.mpr
  constructor
  · intro _
    rw [ends_bind]
    apply ends_readHdr (by decide)
    intro _ _
    trivial
  · intro _
    trivial

/-- In every state of a run in which no full collection is due, no promotion of the next
    collection finds the old space full. -/
theorem heapGc_promotes {s : State} (run : Run (fun _ => True) s) (minor : s.heap.fullGc = false) :
    heapGc s.thread s.heap ≠ .error .oldFull := by
  intro full
  have ends := ends_heapGc_minor (run.rest.toRoom minor) s.thread
  exact ends.failed full rfl

/-- Two blocks have been copied three times. -/
def thirdPlay : List Act := [.alloc 15, .alloc 39, .collect, .collect, .collect]

/- Both are promoted by the next collection, which takes the old space for them. -/
theorem heapGc_promotes_two : ∃ ws h h',
    play (fun _ h => !h.fullGc) thirdPlay [] (heapInit 8 1000000) = some (ws, h) ∧
      h.survived.hdrs.length = 2 ∧ h.old.mem = 0 ∧
      (∃ t, heapGc (rooted ws) h = .ok (t, h')) ∧ h'.old.hdrs = [1000000, 1000024] ∧
      heapGc (rooted ws) h ≠ .error .oldFull := by
  have promotes : ((play (fun _ h => !h.fullGc) thirdPlay [] (heapInit 8 1000000)).any fun s =>
      s.2.survived.hdrs.length = 2 && s.2.old.mem = 0 && !s.2.fullGc &&
        (heapGc (rooted s.1) s.2).toOption.any fun t =>
          t.2.old.hdrs = [1000000, 1000024]) = true := by
    decide +kernel
  obtain ⟨⟨ws, h⟩, plays, checked⟩ := (Option.any_eq_true _ _).mp promotes
  simp only [Bool.and_eq_true, decide_eq_true_eq, Bool.not_eq_true'] at checked
  obtain ⟨⟨⟨two, empty⟩, minor⟩, collected⟩ := checked
  obtain ⟨⟨t, h'⟩, result, moved⟩ := (Option.any_eq_true _ _).mp collected
  have result' : heapGc (rooted ws) h = .ok (t, h') := by
    cases both : heapGc (rooted ws) h with
    | error e => simp [both, Except.toOption] at result
    | ok r =>
      simp only [both, Except.toOption, Option.some.injEq] at result
      rw [result]
  have run := play_run (p := fun _ => True) (fun _ _ => trivial) (run_start _) rfl plays
  exact ⟨ws, h, h', plays, two, empty, ⟨t, result'⟩, of_decide_eq_true moved,
    heapGc_promotes (s := ⟨rooted ws, h⟩) run minor⟩

end room

end LGears.Gc
