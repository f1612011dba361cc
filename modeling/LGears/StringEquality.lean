import LGears.CoreStrings

/- string=? compares texts up to their first zero, and string-length is kept beside them. -/
namespace LGears.StringEquality
open Tagged hiding Obj
open Arithmetic Strings StringShape StringTexts CoreStrings

/-- The actions in which strings are made and filled. No name is so long that its size overflows an
    int, and no string-set! writes a zero into the text of a symbol. -/
def Fills (m : Memory) (_ : Collection) : Action → Prop
  | .stringConcat _ _ | .substring _ _ _ => False
  | .stringSet str _ val => ∀ w s k, val.asChar = some w → m.string str = some s →
      s.str = .symbol k → charByte w ≠ 0
  | .symbolToString sym => ∀ n, sym = .symbol n → (m.text (.symbol n)).length < 2 ^ 31
  | .readString bytes => (cText bytes).length + 1 < 2 ^ 31
  | _ => True

/-- The strings have their shape, all that own their text have the flag, and no block is larger than
    the fresh space. -/
structure Plain (m : Memory) : Prop where
  wf : WellFormed m
  flagged : ∀ gc, Safe m gc
  blocks : ∀ n, (m.text (.block n)).length ≤ freshSize

section steps
variable {m m' : Memory} {gc : Collection} {a : Action} {v : Obj}

theorem heapAlloc_limit {total : Int} {room : Nat} (alloc : heapAlloc total = .block room) :
    room + 16 ≤ freshSize := by
  unfold heapAlloc at alloc
  dsimp only at alloc
  split at alloc
  · cases alloc
  · split at alloc
    · cases alloc
    · split at alloc
      · cases alloc
      · rename_i low enough full
        cases alloc
        have above := le_alignUp (total.bmod (2 ^ 32)).toNat
        omega

theorem length_setText {r : Region} {bytes : List UInt8} (same : bytes.length = (m.text r).length)
    (n : Nat) : ((m.setText r bytes).text (.block n)).length = (m.text (.block n)).length := by
  cases r with
  | block k =>
    simp only [Memory.setText]
    cases entry : m.heap[k]? with
    | none => rfl
    | some p =>
      by_cases here : k = n
      · subst here
        have inside := (List.getElem?_eq_some_iff.mp entry).1
        simp only [Memory.text, entry] at same ⊢
        rw [List.getElem?_set_self inside]
        exact same
      · simp only [Memory.text]
        rw [List.getElem?_set_ne here]
  | _ => rfl

theorem effect_blocks (effect : Effect m gc m') (plain : Plain m) (n : Nat) :
    (m'.text (.block n)).length ≤ freshSize := by
  cases effect with
  | same => exact plain.blocks n
  | collected =>
    rw [collect_eq plain.wf (plain.flagged gc)]
    exact plain.blocks n
  | fresh flag done =>
    obtain ⟨room, bytes, alloc, _, fits, _, rfl⟩ := newString_ok done
    rw [collect_eq plain.wf (plain.flagged gc), text_added]
    have limit := heapAlloc_limit alloc
    split
    · rw [length_filled fits]
      omega
    · exact plain.blocks n
  | written done =>
    unfold Memory.write at done
    split at done
    · cases done
    · split at done
      · rename_i inside
        cases done
        rw [length_setText (Overwrite.length_overwrite inside.2)]
        exact plain.blocks n
      · cases done
  | symbol name =>
    unfold Strings.makeSymbol
    split
    · exact plain.blocks n
    · exact plain.blocks n
  | literal done =>
    unfold readString at done
    split at done
    · cases done
      exact plain.blocks n
    · cases done

theorem value_of_small {w : Word} (small : (fixnum w).toNat < 2 ^ 60) :
    value w = (fixnum w).toNat := by
  rw [value, BitVec.toInt_eq_toNat_cond, if_pos (by omega)]

theorem copy_fits (plain : Plain m) {n : Nat} {dst : StringT} {pos size : Int} {r : Region}
    (string : m.string (.heapString n) = some dst) (flag : dst.allocated = true) (low : 0 ≤ pos)
    (positive : 1 ≤ size)
    (done : m.write dst.str pos (m.bytes r 0 (size - 1).toNat) = .ok v m') :
    pos + size < 2 ^ 31 := by
  have own : dst.str = .block n := by
    rcases plain.wf.place n dst string with own | ⟨k, borrowed⟩
    · exact own
    · rw [borrowed.allocated] at flag
      cases flag
  rw [own] at done
  simp only [Memory.write] at done
  split at done
  · rename_i inside
    have limit := plain.blocks n
    have fits := inside.2
    rw [length_bytes] at fits
    unfold freshSize at limit
    omega
  · cases done

theorem fit_of_done (plain : Plain m) (fills : Fills m gc a) (done : act m gc a = .ok v m') :
    Fit m gc a := by
  cases a with
  | makeString len fill =>
    refine ⟨plain.flagged gc, ?_⟩
    intro w number
    simp only [act, makeString, number] at done
    split at done
    · rename_i w' c same _
      cases same
      obtain ⟨room, bytes, alloc, copied, fits, _, _⟩ := newString_ok done
      rw [Option.some_inj] at copied
      subst copied
      rw [List.length_append, List.length_replicate, List.length_singleton] at fits
      have limit := heapAlloc_limit alloc
      unfold freshSize at limit
      rw [value_of_small (by omega)]
      omega
    · cases done
  | stringCopyTo dest pos src =>
    intro w s number source
    cases dest with
    | heapString n =>
      simp only [act, stringCopyTo, source, number] at done
      cases string : m.string (.heapString n) with
      | none =>
        rw [string] at done
        cases done
      | some dst =>
        rw [string] at done
        dsimp only at done
        split at done
        · rename_i flag
          split at done
          · rename_i range
            split at done
            · cases done
            · rename_i positive
              exact copy_fits plain string flag range.1 (by omega) done
          · cases done
        · cases done
    | _ => cases done
  | stringConcat a' b' => exact fills.elim
  | substring str start stop => exact fills.elim
  | stringSet str pos val => exact fills
  | symbolToString sym => exact ⟨plain.flagged gc, fills⟩
  | stringCopy src => exact plain.flagged gc
  | allocate => exact plain.flagged gc
  | readString bytes =>
    simp only [act, readString] at done
    split at done
    · rename_i zero
      exact ⟨zero, fills⟩
    · cases done
  | _ => trivial

end steps

section runs
variable {m m' : Memory} {a b : Obj} {x y : List UInt8}

theorem step_plain (plain : Plain m) (step : Step Fills m m') : Plain m' := by
  obtain ⟨gc, a, fills, after⟩ := step
  cases done : act m gc a with
  | ok v t =>
    rw [done] at after
    cases after
    have other : ∀ a' b', a ≠ .stringConcat a' b' := by
      rintro a' b' rfl
      exact fills
    have effect := act_effect other done
    have keeps := act_wellFormed plain.wf (fit_of_done plain fills done)
    rw [done] at keeps
    exact ⟨keeps, fun gc' => effect.safe plain.wf (plain.flagged gc) (plain.flagged gc'),
      effect_blocks effect plain⟩
  | error =>
    rw [done] at after
    cases after
    exact plain
  | abort | undefined =>
    rw [done] at after
    cases after

theorem run_plain (plain : Plain m) (run : Relation.ReflTransGen (Step Fills) m m') : Plain m' := by
  induction run with
  | refl => exact plain
  | tail _ step ih => exact step_plain ih step

theorem plain_empty (outside : Region → Int → UInt8) : Plain (Memory.empty outside) where
  wf := wellFormed_empty outside
  flagged gc n s _ string _ := by cases string
  blocks n := Nat.zero_le _

/-- The strings have the same string-length, which is an int, and the same character at every
    position. -/
def SameContents (m : Memory) (a b : Obj) : Prop :=
  ∃ n : Nat, n < 2 ^ 31 ∧ stringLength m a = .ok (.word (num n)) m ∧ stringLength m b = .ok (.word (num n)) m ∧
    ∀ i : Nat, i < n → stringRef m a (.word (num i)) = stringRef m b (.word (num i))

theorem num_inj {i j : Nat} (low : i < 2 ^ 31) (low' : j < 2 ^ 31) (same : num i = num j) :
    i = j := by
  have values := congrArg value same
  rw [value_small (by omega) (by omega), value_small (by omega) (by omega)] at values
  omega

theorem length_num (n : Nat) : makeFixnum (BitVec.ofNat 64 n) = num n := by
  rw [num, BitVec.ofInt_natCast]

theorem sameContents_iff (wf : WellFormed m) (first : textOf m a = some x)
    (second : textOf m b = some y) : SameContents m a b ↔ x = y := by
  have small := length_small wf first
  have small' := length_small wf second
  have seen := textOf_seen wf first
  have seen' := textOf_seen wf second
  have counted : ∀ {n : Nat} {o : Obj} {z : List UInt8}, n < 2 ^ 31 → z.length < 2 ^ 31 →
      Seen m o z → stringLength m o = .ok (.word (num n)) m → z.length = n := by
    intro n o z low low' here length
    rw [here.length, length_num, Outcome.ok.injEq, Obj.word.injEq] at length
    exact num_inj low' low length.1
  have char : ∀ {i : Nat} {o : Obj} {z : List UInt8} (inside : i < z.length), z.length < 2 ^ 31 →
      Seen m o z → stringRef m o (.word (num i)) = .ok (charObj z[i]) m := by
    intro i o z inside low here
    have index := CoreStrings.intOf_small (n := i) (by omega) (by omega)
    exact here.ref _ _ i _ (asFixnum_num i) index (List.getElem?_eq_getElem inside)
  constructor
  · rintro ⟨n, low, length, length', chars⟩
    have count := counted low (by omega) seen length
    have count' := counted low (by omega) seen' length'
    apply List.ext_getElem (count.trans count'.symm)
    intro i inside inside'
    have same := chars i (by omega)
    rw [char inside (by omega) seen, char inside' (by omega) seen', Outcome.ok.injEq] at same
    have bytes := congrArg charByte (Obj.word.inj same.1)
    rwa [charByte_charWord, charByte_charWord] at bytes
  · rintro rfl
    refine ⟨x.length, by omega, ?_, ?_, ?_⟩
    · rw [seen.length, length_num]
    · rw [seen'.length, length_num]
    · intro i inside
      rw [char inside (by omega) seen, char inside (by omega) seen']

/- In every run that makes and fills strings string=? of two strings is equality of their contents
   exactly when they are equal or differ before a zero. -/
theorem string_eq_iff {outside : Region → Int → UInt8}
    (run : Relation.ReflTransGen (Step Fills) (Memory.empty outside) m)
    (first : textOf m a = some x) (second : textOf m b = some y) :
    (stringEq m a b = .ok (.word ctrue) m ↔ SameContents m a b) ↔ (cText x = cText y → x = y) := by
  have plain := run_plain (plain_empty outside) run
  rw [(textOf_seen plain.wf first).eq b y second, sameContents_iff plain.wf first second]
  by_cases same : cText x = cText y
  · rw [decide_eq_true same]
    constructor
    · intro both _
      exact both.mp rfl
    · intro equal
      exact ⟨fun _ => equal same, fun _ => rfl⟩
  · rw [decide_eq_false same]
    constructor
    · intro _ never
      exact absurd never same
    · intro _
      constructor
      · intro never
        exact absurd never (by simp [cif]; decide)
      · rintro rfl
        exact absurd rfl same

/- Two strings of eight characters, one of them filled with zeros from its second position on. -/
def eightTwice : Memory :=
  (filled 8).added ⟨.block 1, 9, true⟩ 16 (List.replicate 8 97 ++ [0])

theorem run_eightTwice : Relation.ReflTransGen (Step Fills) clear eightTwice := by
  have first : Step Fills clear (filled 8) :=
    ⟨still, .makeString (fixnumObj 8) (.word (charWord 97)), trivial,
      congrArg (Outcome.after clear) makeString_eight⟩
  have done : stringCopy (filled 8) (.heapString 0) still = .ok (.heapString 1) eightTwice := by
    have string : (filled 8).string (.heapString 0) = some ⟨.block 0, 9, true⟩ := rfl
    have alloc : heapAlloc (9 + 16) = .block 16 := by decide
    unfold stringCopy
    rw [string]
    dsimp only
    rw [newString_done alloc rfl (by decide)]
    rfl
  have second : Step Fills (filled 8) eightTwice :=
    ⟨still, .stringCopy (.heapString 0), trivial, congrArg (Outcome.after (filled 8)) done⟩
  exact .tail (.single first) second

/-- The memory after string-set!. -/
def set (m : Memory) (n i : Nat) (c : UInt8) : Memory :=
  m.setText (.block n) (Overwrite.overwrite (m.text (.block n)) i [c])

theorem set_step {n i : Nat} {size : Int} {flag : Bool} (c : UInt8)
    (string : m.string (.heapString n) = some ⟨.block n, size, flag⟩) (inside : i < size - 1)
    (small : size < 2 ^ 31) (room : i < (m.text (.block n)).length) :
    Step Fills m (set m n i c) := by
  refine ⟨still, .stringSet (.heapString n) (.word (num i)) (charObj c), ?_, ?_⟩
  · intro w s k _ string' shared
    rw [string, Option.some_inj] at string'
    subst string'
    cases shared
  · have index : intOf (num i) = i := CoreStrings.intOf_small (by omega) (by omega)
    have done : stringSet m (.heapString n) (.word (num i)) (charObj c) =
        .ok (.word (makeObj 3 tagConst)) (set m n i c) := by
      unfold stringSet
      rw [string, asFixnum_num, asChar_charObj]
      dsimp only
      rw [index, if_pos ⟨by omega, inside⟩, charByte_charWord]
      exact write_inside (fun k never => by cases never) (by omega)
        (by rw [List.length_singleton]; omega)
    exact congrArg (Outcome.after m) done

/- A string and its copy that have been made different behind a zero. -/
theorem equal_behind_zero : ∃ m,
    Relation.ReflTransGen (Step Fills) clear m ∧
    stringEq m (.heapString 0) (.heapString 1) = .ok (.word ctrue) m ∧
    stringRef m (.heapString 0) (fixnumObj 2) = .ok (.word (charWord 97)) m ∧
    stringRef m (.heapString 1) (fixnumObj 2) = .ok (.word (charWord 98)) m := by
  have first : Step Fills eightTwice (set eightTwice 0 1 0) :=
    set_step 0 rfl (by decide) (by decide) (by decide)
  have second : Step Fills (set eightTwice 0 1 0) (set (set eightTwice 0 1 0) 1 1 0) :=
    set_step 0 rfl (by decide) (by decide) (by decide)
  have third : Step Fills (set (set eightTwice 0 1 0) 1 1 0)
      (set (set (set eightTwice 0 1 0) 1 1 0) 1 2 98) :=
    set_step 98 rfl (by decide) (by decide) (by decide)
  exact ⟨_, .tail (.tail (.tail run_eightTwice first) second) third, by rfl, by rfl, by rfl⟩

/- A string of eight characters and its copy. -/
theorem string_eq_twice :
    stringEq eightTwice (.heapString 0) (.heapString 1) = .ok (.word ctrue) eightTwice ↔
      SameContents eightTwice (.heapString 0) (.heapString 1) := by
  have first : textOf eightTwice (.heapString 0) = some (List.replicate 8 97) := by decide
  have second : textOf eightTwice (.heapString 1) = some (List.replicate 8 97) := by decide
  exact (string_eq_iff run_eightTwice first second).mpr fun _ => rfl

theorem symbolToString_done {gc : Collection} {n : Nat} {name : List UInt8}
    (known : m.symbols[n]? = some name) : symbolToString m (.symbol n) gc =
      .ok (.heapString (m.collect gc).heap.length) ((m.collect gc).added
        ⟨.symbol n, ((cText name).length + 1 : Int).bmod (2 ^ 32), false⟩ 0 []) := by
  have alloc : heapAlloc 16 = .block 0 := by decide
  unfold symbolToString
  dsimp only
  rw [known]
  exact newString_done alloc rfl (Nat.le_refl 0)

/-- The string a, a symbol with this text and the strings that symbol->string has made of it. -/
def symbolMemory (text : List UInt8) (strings : List StringT) : Memory :=
  { clear with
    symbols := [text]
    heap := (⟨.block 0, 2, true⟩, [97, 0]) :: strings.map fun s => (s, []) }

/- A zero in the text of a symbol ends the string that symbol->string makes of it; when the zero is
   overwritten the string has lost its terminator, and string=? sees what is behind its end. -/
theorem symbol_text_grows :
    let s : StringT := ⟨.symbol 0, 4, false⟩
    let t : StringT := ⟨.symbol 0, 2, false⟩
    symbolToString (symbolMemory [97, 98, 99, 0] []) (.symbol 0) still =
      .ok (.heapString 1) (symbolMemory [97, 98, 99, 0] [s]) ∧
    stringSet (symbolMemory [97, 98, 99, 0] [s]) (.heapString 1) (fixnumObj 1)
      (.word (charWord 0)) = .ok (.word (makeObj 3 tagConst)) (symbolMemory [97, 0, 99, 0] [s]) ∧
    symbolToString (symbolMemory [97, 0, 99, 0] [s]) (.symbol 0) still =
      .ok (.heapString 2) (symbolMemory [97, 0, 99, 0] [s, t]) ∧
    stringSet (symbolMemory [97, 0, 99, 0] [s, t]) (.heapString 1) (fixnumObj 1)
      (.word (charWord 98)) =
        .ok (.word (makeObj 3 tagConst)) (symbolMemory [97, 98, 99, 0] [s, t]) ∧
    textOf (symbolMemory [97, 98, 99, 0] [s, t]) (.heapString 0) = some [97] ∧
    textOf (symbolMemory [97, 98, 99, 0] [s, t]) (.heapString 2) = some [97] ∧
    stringEq (symbolMemory [97, 98, 99, 0] [s, t]) (.heapString 0) (.heapString 2) =
      .ok (.word cfalse) (symbolMemory [97, 98, 99, 0] [s, t]) := by
  refine ⟨?_, by rfl, ?_, by rfl, by rfl, by rfl, by rfl⟩
  · have size : (((cText [97, 98, 99, 0]).length : Int) + 1).bmod (2 ^ 32) = 4 := by decide
    rw [symbolToString_done (show _ = some [97, 98, 99, 0] from rfl), size]
    rfl
  · have size : (((cText [97, 0, 99, 0]).length : Int) + 1).bmod (2 ^ 32) = 2 := by decide
    rw [symbolToString_done (show _ = some [97, 0, 99, 0] from rfl), size]
    rfl

end runs

end LGears.StringEquality
