import LGears.StringShape

/- The checks of positions. A primitive keeps the low 32 bits of a fixnum before it compares. -/
namespace LGears.IndexChecks
open Tagged hiding Obj
open Arithmetic Overwrite Strings StringShape

/-- struct_t, and whether the pointer to it has the tag of the heap. -/
structure Struct (α : Type) where
  onHeap : Bool
  fields : List α
  /-- The size is an int. -/
  small : fields.length < 2 ^ 31

/-- bytevector_t -/
structure Bytevector where
  data : List UInt8
  /-- The size is an int. -/
  small : data.length < 2 ^ 31

section primitives
variable {α : Type}

/-- SAFE_ASSERT((pos >= 0) && (st->size > pos)) -/
def Struct.holds (st : Struct α) (pos : Int) : Prop := 0 ≤ pos ∧ pos < st.fields.length

instance (st : Struct α) (pos : Int) : Decidable (st.holds pos) :=
  inferInstanceAs (Decidable (_ ∧ _))

/-- The field; the object is a struct or something else. -/
def structRef (obj : Option (Struct α)) (opos : Word) : Option α :=
  match obj with
  | some st =>
    if getTag opos = tagFixnum ∧ st.holds (intOf opos) then st.fields[(intOf opos).toNat]?
    else none
  | none => none

/-- The fields afterwards; the tag of the position is not looked at. -/
def structSet (obj : Option (Struct α)) (opos : Word) (val : α) : Option (List α) :=
  match obj with
  | some st =>
    if st.onHeap ∧ st.holds (intOf opos) then some (st.fields.set (intOf opos).toNat val)
    else none
  | none => none

/-- The bytes afterwards; the tag of the position is looked at twice and that of the value not. -/
def bytevector8Set (obj : Option Bytevector) (opos oval : Word) : Option (List UInt8) :=
  match obj with
  | some bv =>
    if getTag opos = tagFixnum ∧ getTag opos = tagFixnum ∧
        (0 ≤ intOf opos ∧ intOf opos < bv.data.length) ∧ 0 < intOf oval ∧ intOf oval < 256 then
      some (bv.data.set (intOf opos).toNat (UInt8.ofNat (intOf oval).toNat))
    else none
  | none => none

end primitives

/-- It succeeds in the range, and elsewhere it fails. -/
structure Exactly (range succeeds fails : Prop) : Prop where
  inside : range → succeeds
  outside : ¬range → fails

/- A primitive that fails exactly when its check does. -/
theorem exactly_iff {range succeeds fails c p : Prop}
    (success : succeeds ↔ c ∧ p) (failure : fails ↔ ¬c) :
    Exactly range succeeds fails ↔ range ∧ c ∧ p ∨ ¬range ∧ ¬c := by
  constructor
  · intro exactly
    by_cases inside : range
    · exact .inl ⟨inside, success.mp (exactly.inside inside)⟩
    · exact .inr ⟨inside, failure.mp (exactly.outside inside)⟩
  · rintro (⟨inside, both⟩ | ⟨outside, refused⟩)
    · exact ⟨fun _ => success.mpr both, fun out => absurd inside out⟩
    · exact ⟨fun inside => absurd inside outside, fun _ => failure.mpr refused⟩

theorem exactly_of_error {range succeeds fails : Prop} (outside : ¬range) (failed : fails) :
    Exactly range succeeds fails :=
  ⟨fun inside => absurd inside outside, fun _ => failed⟩

theorem intOf_small {w : Word} (low : 0 ≤ value w) (high : value w < 2 ^ 31) :
    intOf w = value w := Int.bmod_eq_of_le (by omega) (by omega)

/-- The length of a string. -/
def lengthOf (m : Memory) (o : Obj) : Option Int := (m.string o).map fun s => s.size - 1

/-- The position is in front of the end. -/
def Within (length : Option Int) (w : Word) : Prop :=
  ∃ n, length = some n ∧ 0 ≤ value w ∧ value w < n

/-- The strings have their characters in their memory. -/
structure Intact (m : Memory) : Prop where
  sized : ∀ o s, m.string o = some s → 1 ≤ s.size ∧ s.size < 2 ^ 31
  inside : ∀ o s, m.string o = some s → s.size - 1 ≤ (m.text s.str).length
  flag : ∀ n s, m.string (.heapString n) = some s → s.allocated = true → s.str = .block n

theorem intact_of_wellFormed {m : Memory} (wf : WellFormed m) : Intact m := by
  constructor
  · intro o s string
    exact ⟨(rep_of_string wf string).positive, wf.small o s string⟩
  · intro o s string
    have inside := (rep_of_string wf string).inside
    omega
  · intro n s string allocated
    rcases wf.place n s string with own | ⟨k, borrowed⟩
    · exact own
    · rw [borrowed.allocated] at allocated
      cases allocated

section strings
variable {m : Memory} {w : Word}

theorem write_ne_error {r : Region} {pos : Int} {bytes : List UInt8} :
    m.write r pos bytes ≠ .error := by
  unfold Memory.write
  split
  · simp
  · split <;> simp

theorem asFixnum_word (fixnum : getTag w = tagFixnum) : (Obj.word w).asFixnum = some w :=
  if_pos fixnum

theorem within_some {n : Int} : Within (some n) w ↔ 0 ≤ value w ∧ value w < n := by
  constructor
  · rintro ⟨k, same, range⟩
    cases same
    exact range
  · intro range
    exact ⟨n, rfl, range⟩

theorem stringRef_exactly (intact : Intact m) (o : Obj) (number : getTag w = tagFixnum) :
    Exactly (Within (lengthOf m o) w) (∃ c, stringRef m o (.word w) = .ok c m)
        (stringRef m o (.word w) = .error) ↔
      ∀ n, lengthOf m o = some n → Within (some n) w ∨ n ≤ intOf w := by
  unfold stringRef lengthOf
  rw [asFixnum_word number]
  cases string : m.string o with
  | none =>
    refine iff_of_true (exactly_of_error ?_ rfl) ?_
    · rintro ⟨n, missing, -⟩
      cases missing
    · intro n missing
      cases missing
  | some s =>
    have sized := intact.sized o s string
    simp only [Option.map_some, Option.some_inj, forall_eq']
    rw [exactly_iff (c := intOf w < s.size - 1) (p := True)]
    · rw [within_some]
      constructor
      · rintro (⟨range, -⟩ | ⟨-, refused⟩)
        · exact .inl range
        · exact .inr (by omega)
      · rintro (range | beyond)
        · rw [intOf_small range.1 (by omega)]
          exact .inl ⟨range, range.2, trivial⟩
        · by_cases range : 0 ≤ value w ∧ value w < s.size - 1
          · rw [intOf_small range.1 (by omega)] at beyond
            omega
          · exact .inr ⟨range, by omega⟩
    · split
      · rename_i below
        exact ⟨fun _ => ⟨below, trivial⟩, fun _ => ⟨_, rfl⟩⟩
      · rename_i beyond
        exact ⟨fun ⟨c, same⟩ => (by cases same), fun both => absurd both.1 beyond⟩
    · split
      · rename_i below
        exact ⟨fun same => (by cases same), fun beyond => absurd below beyond⟩
      · rename_i beyond
        exact ⟨fun _ => beyond, fun _ => rfl⟩

theorem stringSet_exactly (intact : Intact m) (o : Obj) {c : Word}
    (number : getTag w = tagFixnum) (character : getTag c = tagChar) :
    Exactly (Within (lengthOf m o) w) (∃ v m', stringSet m o (.word w) (.word c) = .ok v m')
        (stringSet m o (.word w) (.word c) = .error) ↔
      ∀ s, m.string o = some s →
        Within (lengthOf m o) w ∧ (∀ k, s.str ≠ .literal k) ∨
          ¬(0 ≤ intOf w ∧ intOf w < s.size - 1) := by
  have char : (Obj.word c).asChar = some c := if_pos character
  unfold stringSet lengthOf
  rw [asFixnum_word number, char]
  cases string : m.string o with
  | none =>
    refine iff_of_true (exactly_of_error ?_ rfl) ?_
    · rintro ⟨n, missing, -⟩
      cases missing
    · intro s missing
      cases missing
  | some s =>
    have sized := intact.sized o s string
    have inside := intact.inside o s string
    simp only [Option.map_some, Option.some_inj, forall_eq']
    rw [exactly_iff (c := 0 ≤ intOf w ∧ intOf w < s.size - 1)
      (p := ∀ k, s.str ≠ .literal k), within_some]
    · constructor
      · rintro (⟨range, -, writable⟩ | ⟨-, refused⟩)
        · exact .inl ⟨range, writable⟩
        · exact .inr refused
      · rintro (⟨range, writable⟩ | refused)
        · rw [intOf_small range.1 (by omega)]
          exact .inl ⟨range, range, writable⟩
        · refine .inr ⟨?_, refused⟩
          intro range
          rw [intOf_small range.1 (by omega)] at refused
          exact refused range
    · split
      · rename_i range
        constructor
        · rintro ⟨v, m', done⟩
          refine ⟨range, ?_⟩
          intro k literal
          rw [literal] at done
          cases done
        · rintro ⟨-, writable⟩
          refine ⟨_, _, write_inside writable range.1 ?_⟩
          rw [List.length_singleton]
          omega
      · rename_i refused
        exact ⟨fun ⟨v, m', same⟩ => (by cases same), fun both => absurd both.1 refused⟩
    · split
      · rename_i range
        exact iff_of_false write_ne_error (not_not_intro range)
      · rename_i refused
        exact iff_of_true rfl refused

/-- What string-copy! demands of the string it writes to. -/
def ownsText (o : Obj) (s : StringT) : Bool :=
  match o with
  | .heapString _ => s.allocated
  | _ => false

theorem copy_outcome (intact : Intact m) {dest src : Obj} {d s : StringT}
    (number : getTag w = tagFixnum) (target : m.string dest = some d)
    (source : m.string src = some s) :
    ((∃ v m', stringCopyTo m dest (.word w) src = .ok v m') ↔
      (ownsText dest d = true ∧ 0 ≤ intOf w ∧ intAdd (intOf w) s.size ≤ d.size) ∧
        ∃ v m', m.write d.str (intOf w) (m.bytes s.str 0 (s.size - 1).toNat) = .ok v m') ∧
    (stringCopyTo m dest (.word w) src = .error ↔
      ¬(ownsText dest d = true ∧ 0 ≤ intOf w ∧ intAdd (intOf w) s.size ≤ d.size)) := by
  have positive := (intact.sized src s source).1
  have whole : stringCopyTo m dest (.word w) src =
      if ownsText dest d = true ∧ 0 ≤ intOf w ∧ intAdd (intOf w) s.size ≤ d.size then
        m.write d.str (intOf w) (m.bytes s.str 0 (s.size - 1).toNat)
      else .error := by
    unfold stringCopyTo
    rw [asFixnum_word number, target, source]
    cases dest with
    | heapString n =>
      simp only [ownsText, if_neg (show ¬s.size < 1 by omega)]
      by_cases owns : d.allocated = true
      · simp only [owns, if_true, true_and]
      · simp only [owns, Bool.false_eq_true, if_false, false_and]
    | _ => simp [ownsText]
  rw [whole]
  split
  · rename_i check
    exact ⟨(and_iff_right check).symm, iff_of_false write_ne_error (not_not_intro check)⟩
  · rename_i refused
    refine ⟨iff_of_false ?_ fun both => refused both.1, iff_of_true rfl refused⟩
    rintro ⟨v, m', same⟩
    cases same

theorem stringCopyTo_exactly (intact : Intact m) (dest src : Obj)
    (number : getTag w = tagFixnum) :
    Exactly
        (∃ d s, m.string dest = some d ∧ m.string src = some s ∧ 0 ≤ value w ∧
          value w + (s.size - 1) ≤ d.size - 1)
        (∃ v m', stringCopyTo m dest (.word w) src = .ok v m')
        (stringCopyTo m dest (.word w) src = .error) ↔
      ∀ d s, m.string dest = some d → m.string src = some s →
        ownsText dest d = true ∧ 0 ≤ value w ∧ value w + (s.size - 1) ≤ d.size - 1 ∨
          ¬(0 ≤ value w ∧ value w + (s.size - 1) ≤ d.size - 1) ∧
            ¬(ownsText dest d = true ∧ 0 ≤ intOf w ∧ intAdd (intOf w) s.size ≤ d.size) := by
  cases target : m.string dest with
  | none =>
    refine iff_of_true (exactly_of_error ?_ ?_) ?_
    · rintro ⟨d, s, missing, -⟩
      cases missing
    · unfold stringCopyTo
      rw [target]
      cases dest <;> rfl
    · intro d s missing
      cases missing
  | some d =>
    cases source : m.string src with
    | none =>
      refine iff_of_true (exactly_of_error ?_ ?_) ?_
      · rintro ⟨d, s, -, missing, -⟩
        cases missing
      · unfold stringCopyTo
        rw [source, target]
        cases dest <;> rfl
      · intro d s _ missing
        cases missing
    | some s =>
      have sizedD := intact.sized dest d target
      have sizedS := intact.sized src s source
      have range_iff : (∃ d' s', some d = some d' ∧ some s = some s' ∧ 0 ≤ value w ∧
          value w + (s'.size - 1) ≤ d'.size - 1) ↔
            0 ≤ value w ∧ value w + (s.size - 1) ≤ d.size - 1 := by
        constructor
        · rintro ⟨_, _, ⟨⟩, ⟨⟩, range⟩
          exact range
        · intro range
          exact ⟨d, s, rfl, rfl, range⟩
      have outcome := copy_outcome intact number target source
      rw [range_iff, exactly_iff outcome.1 outcome.2]
      constructor
      · rintro (⟨range, check, -⟩ | refused) _ _ ⟨⟩ ⟨⟩
        · exact .inl ⟨check.1, range⟩
        · exact .inr refused
      · intro condition
        rcases condition d s rfl rfl with ⟨owns, range⟩ | refused
        · have same := intOf_small range.1 (by omega)
          refine .inl ⟨range, ⟨owns, ?_, ?_⟩, ?_⟩
          · rw [same]
            exact range.1
          · rw [same, intAdd_of_small] <;> omega
          · have own : ∃ n, d.str = .block n := by
              cases dest with
              | heapString n => exact ⟨n, intact.flag n d target owns⟩
              | _ => cases owns
            obtain ⟨n, own⟩ := own
            have inside := intact.inside dest d target
            refine ⟨_, _, write_inside (by simp [own]) (by omega) ?_⟩
            rw [length_bytes]
            omega
        · exact .inr refused

end strings

section structs
variable {α : Type} {w u : Word}

/- A primitive that gives a value exactly when its check holds. -/
theorem option_outcome {c : Prop} [Decidable c] {r : Option α}
    (present : c → ∃ v, r = some v) :
    ((∃ v, (if c then r else none) = some v) ↔ c ∧ True) ∧
      ((if c then r else none) = none ↔ ¬c) := by
  by_cases holds : c
  · obtain ⟨v, same⟩ := present holds
    rw [if_pos holds, same]
    exact ⟨iff_of_true ⟨v, rfl⟩ ⟨holds, trivial⟩, iff_of_false (by simp) (not_not_intro holds)⟩
  · rw [if_neg holds]
    exact ⟨iff_of_false (by simp) fun both => holds both.1, iff_of_true rfl holds⟩

theorem structRef_exactly (obj : Option (Struct α)) (number : getTag w = tagFixnum) :
    Exactly (∃ st, obj = some st ∧ st.holds (value w)) (∃ v, structRef obj w = some v)
        (structRef obj w = none) ↔
      ∀ st, obj = some st → st.holds (value w) ∨ ¬st.holds (intOf w) := by
  cases obj with
  | none =>
    refine iff_of_true (exactly_of_error ?_ rfl) ?_
    · rintro ⟨st, missing, -⟩
      cases missing
    · intro st missing
      cases missing
  | some st =>
    have small := st.small
    have outcome := option_outcome
      (c := getTag w = tagFixnum ∧ st.holds (intOf w))
      (r := st.fields[(intOf w).toNat]?) (by
        rintro ⟨-, low, high⟩
        exact ⟨_, List.getElem?_eq_getElem (by omega)⟩)
    simp only [Option.some_inj, exists_eq_left', forall_eq']
    refine (exactly_iff outcome.1 outcome.2).trans ?_
    simp only [number, true_and, and_true]
    constructor
    · rintro (⟨range, -⟩ | ⟨-, refused⟩)
      · exact .inl range
      · exact .inr refused
    · intro condition
      by_cases range : st.holds (value w)
      · have same := intOf_small range.1 (by have := range.2; omega)
        rw [same]
        exact .inl ⟨range, range⟩
      · exact .inr ⟨range, condition.resolve_left range⟩

theorem structSet_exactly (obj : Option (Struct α)) (w : Word) (val : α) :
    Exactly (∃ st, obj = some st ∧ st.holds (value w)) (∃ v, structSet obj w val = some v)
        (structSet obj w val = none) ↔
      ∀ st, obj = some st → st.onHeap = true ∧ st.holds (value w) ∨
        ¬st.holds (value w) ∧ ¬(st.onHeap = true ∧ st.holds (intOf w)) := by
  cases obj with
  | none =>
    refine iff_of_true (exactly_of_error ?_ rfl) ?_
    · rintro ⟨st, missing, -⟩
      cases missing
    · intro st missing
      cases missing
  | some st =>
    have small := st.small
    have outcome := option_outcome (c := st.onHeap = true ∧ st.holds (intOf w))
      (r := some (st.fields.set (intOf w).toNat val)) fun _ => ⟨_, rfl⟩
    simp only [Option.some_inj, exists_eq_left', forall_eq']
    refine (exactly_iff outcome.1 outcome.2).trans ?_
    constructor
    · rintro (⟨range, check, -⟩ | refused)
      · exact .inl ⟨check.1, range⟩
      · exact .inr refused
    · rintro (⟨heap, range⟩ | refused)
      · have same := intOf_small range.1 (by have := range.2; omega)
        rw [same]
        exact .inl ⟨range, ⟨heap, range⟩, trivial⟩
      · exact .inr refused

/-- The positions and values that bytevector-u8-set! has to take. -/
def Bytevector.takes (bv : Bytevector) (pos val : Int) : Prop :=
  (0 ≤ pos ∧ pos < bv.data.length) ∧ 0 ≤ val ∧ val ≤ 255

theorem bytevector8Set_exactly (obj : Option Bytevector) (number : getTag w = tagFixnum) :
    Exactly (∃ bv, obj = some bv ∧ bv.takes (value w) (value u))
        (∃ v, bytevector8Set obj w u = some v) (bytevector8Set obj w u = none) ↔
      ∀ bv, obj = some bv → bv.takes (value w) (value u) ∧ value u ≠ 0 ∨
        ¬bv.takes (value w) (value u) ∧ ¬(bv.takes (intOf w) (intOf u) ∧ intOf u ≠ 0) := by
  cases obj with
  | none =>
    refine iff_of_true (exactly_of_error ?_ rfl) ?_
    · rintro ⟨bv, missing, -⟩
      cases missing
    · intro bv missing
      cases missing
  | some bv =>
    have small := bv.small
    have outcome := option_outcome
      (c := getTag w = tagFixnum ∧ getTag w = tagFixnum ∧
        (0 ≤ intOf w ∧ intOf w < bv.data.length) ∧ 0 < intOf u ∧ intOf u < 256)
      (r := some (bv.data.set (intOf w).toNat (UInt8.ofNat (intOf u).toNat)))
      fun _ => ⟨_, rfl⟩
    have same_check : (getTag w = tagFixnum ∧ getTag w = tagFixnum ∧
        (0 ≤ intOf w ∧ intOf w < bv.data.length) ∧ 0 < intOf u ∧ intOf u < 256) ↔
          bv.takes (intOf w) (intOf u) ∧ intOf u ≠ 0 := by
      unfold Bytevector.takes
      simp only [number, true_and]
      omega
    simp only [Option.some_inj, exists_eq_left', forall_eq']
    refine (exactly_iff outcome.1 outcome.2).trans ?_
    rw [same_check]
    have agree : bv.takes (value w) (value u) → intOf w = value w ∧ intOf u = value u := by
      intro range
      have below := range.1.2
      have limit := range.2.2
      exact ⟨intOf_small range.1.1 (by omega), intOf_small range.2.1 (by omega)⟩
    constructor
    · rintro (⟨range, check, -⟩ | refused)
      · rw [(agree range).2] at check
        exact .inl ⟨range, check.2⟩
      · exact .inr refused
    · rintro (⟨range, nonzero⟩ | refused)
      · rw [(agree range).1, (agree range).2]
        exact .inl ⟨range, ⟨range, nonzero⟩, trivial⟩
      · exact .inr refused

end structs

/- Each primitive takes exactly the positions in range, unless the low bits of a position out of
   range are in range; bytevector-u8-set! takes no zero. -/
theorem positions_in_range_iff {m : Memory} (intact : Intact m) {α : Type} :
    (∀ o w, getTag w = tagFixnum →
      (Exactly (Within (lengthOf m o) w) (∃ c, stringRef m o (.word w) = .ok c m)
          (stringRef m o (.word w) = .error) ↔
        ∀ n, lengthOf m o = some n → Within (some n) w ∨ n ≤ intOf w)) ∧
    (∀ o w c, getTag w = tagFixnum → getTag c = tagChar →
      (Exactly (Within (lengthOf m o) w) (∃ v m', stringSet m o (.word w) (.word c) = .ok v m')
          (stringSet m o (.word w) (.word c) = .error) ↔
        ∀ s, m.string o = some s →
          Within (lengthOf m o) w ∧ (∀ k, s.str ≠ .literal k) ∨
            ¬(0 ≤ intOf w ∧ intOf w < s.size - 1))) ∧
    (∀ dest src w, getTag w = tagFixnum →
      (Exactly
          (∃ d s, m.string dest = some d ∧ m.string src = some s ∧ 0 ≤ value w ∧
            value w + (s.size - 1) ≤ d.size - 1)
          (∃ v m', stringCopyTo m dest (.word w) src = .ok v m')
          (stringCopyTo m dest (.word w) src = .error) ↔
        ∀ d s, m.string dest = some d → m.string src = some s →
          ownsText dest d = true ∧ 0 ≤ value w ∧ value w + (s.size - 1) ≤ d.size - 1 ∨
            ¬(0 ≤ value w ∧ value w + (s.size - 1) ≤ d.size - 1) ∧
              ¬(ownsText dest d = true ∧ 0 ≤ intOf w ∧ intAdd (intOf w) s.size ≤ d.size))) ∧
    (∀ (obj : Option (Struct α)) w, getTag w = tagFixnum →
      (Exactly (∃ st, obj = some st ∧ st.holds (value w)) (∃ v, structRef obj w = some v)
          (structRef obj w = none) ↔
        ∀ st, obj = some st → st.holds (value w) ∨ ¬st.holds (intOf w))) ∧
    (∀ (obj : Option (Struct α)) w val, getTag w = tagFixnum →
      (Exactly (∃ st, obj = some st ∧ st.holds (value w)) (∃ v, structSet obj w val = some v)
          (structSet obj w val = none) ↔
        ∀ st, obj = some st → st.onHeap = true ∧ st.holds (value w) ∨
          ¬st.holds (value w) ∧ ¬(st.onHeap = true ∧ st.holds (intOf w)))) ∧
    ∀ obj w u, getTag w = tagFixnum → getTag u = tagFixnum →
      (Exactly (∃ bv, obj = some bv ∧ bv.takes (value w) (value u))
          (∃ v, bytevector8Set obj w u = some v) (bytevector8Set obj w u = none) ↔
        ∀ bv, obj = some bv → bv.takes (value w) (value u) ∧ value u ≠ 0 ∨
          ¬bv.takes (value w) (value u) ∧ ¬(bv.takes (intOf w) (intOf u) ∧ intOf u ≠ 0)) := by
  refine ⟨?_, ?_, ?_, ?_, ?_, ?_⟩
  · intro o w number
    exact stringRef_exactly intact o number
  · intro o w c number character
    exact stringSet_exactly intact o number character
  · intro dest src w number
    exact stringCopyTo_exactly intact dest src number
  · intro obj w number
    exact structRef_exactly obj number
  · intro obj w val _
    exact structSet_exactly obj w val
  · intro obj w u number _
    exact bytevector8Set_exactly obj number

theorem intact_filled : Intact (filled 8) := by
  have only : ∀ o s, (filled 8).string o = some s →
      o = .heapString 0 ∧ s = ⟨.block 0, 9, true⟩ := by
    intro o s string
    cases o with
    | heapString n =>
      cases n with
      | zero =>
        cases string
        exact ⟨rfl, rfl⟩
      | succ n => cases string
    | _ => cases string
  constructor
  · intro o s string
    obtain ⟨-, rfl⟩ := only o s string
    decide
  · intro o s string
    obtain ⟨-, rfl⟩ := only o s string
    decide
  · intro n s string _
    obtain ⟨place, rfl⟩ := only _ s string
    cases place
    rfl

/-- The fixnum -1. -/
def minusOne : Word := makeFixnum (-1)

def oneByte : Bytevector := ⟨[7], by decide⟩

/- (string-ref (make-string 8 #\a) -1) reads the byte in front of the text. -/
theorem stringRef_minus_one :
    ¬Exactly (Within (lengthOf (filled 8) (.heapString 0)) minusOne)
        (∃ c, stringRef (filled 8) (.heapString 0) (.word minusOne) = .ok c (filled 8))
        (stringRef (filled 8) (.heapString 0) (.word minusOne) = .error) ∧
      ¬Exactly (∃ bv, some oneByte = some bv ∧ bv.takes (value 0) (value 0))
        (∃ v, bytevector8Set (some oneByte) 0 0 = some v)
        (bytevector8Set (some oneByte) 0 0 = none) := by
  have index : intOf minusOne = -1 := by decide
  have number : (Obj.word minusOne).asFixnum = some minusOne := by decide
  have string : (filled 8).string (.heapString 0) = some ⟨.block 0, 9, true⟩ := rfl
  have read : stringRef (filled 8) (.heapString 0) (.word minusOne) =
      .ok (.word (charWord 0)) (filled 8) := by
    unfold stringRef
    rw [string, number]
    dsimp only
    rw [index]
    rfl
  constructor
  · intro exactly
    have failed := exactly.outside (by
      rintro ⟨n, -, low, -⟩
      exact absurd low (by decide))
    rw [read] at failed
    cases failed
  · intro exactly
    obtain ⟨v, done⟩ := exactly.inside ⟨_, rfl, ⟨by decide, by decide⟩, by decide, by decide⟩
    cases done

theorem positions_in_range_eight :
    Exactly (Within (lengthOf (filled 8) (.heapString 0)) 64#64)
      (∃ c, stringRef (filled 8) (.heapString 0) (.word 64#64) = .ok c (filled 8))
      (stringRef (filled 8) (.heapString 0) (.word 64#64) = .error) := by
  refine ((positions_in_range_iff (α := Unit) intact_filled).1 _ _ (by decide)).mpr ?_
  intro n length
  cases length
  exact .inr (by decide)

end LGears.IndexChecks
