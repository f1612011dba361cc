import LGears.StringShape

/- The texts of strings: what a primitive returns, and what stays of it in a run. -/
namespace LGears.StringTexts
open Tagged hiding Obj
open Arithmetic Overwrite Strings StringShape

/-- The text of a string has as many bytes as its size says, but for the terminator. -/
def textOf (m : Memory) (o : Obj) : Option (List UInt8) := (m.string o).map (chars m)

/-- The text is what string-length, string-ref and string=? see of the string o. -/
structure Seen (m : Memory) (o : Obj) (text : List UInt8) : Prop where
  length : stringLength m o = .ok (.word (makeFixnum (BitVec.ofNat 64 text.length))) m
  ref : ∀ (pos : Obj) (w : Word) (i : Nat) b, pos.asFixnum = some w → intOf w = i →
    text[i]? = some b → stringRef m o pos = .ok (.word (charWord b)) m
  eq : ∀ o' text', textOf m o' = some text' →
    stringEq m o o' = .ok (.word (cif (cText text = cText text'))) m

/-- The text that a primitive gives the string it returns, by the texts of its arguments. -/
def resultText (m : Memory) : Action → Option (List UInt8)
  | .makeString len fill => do
    let len ← len.asFixnum
    let fill ← fill.asChar
    return List.replicate (fixnum len).toNat (charByte fill)
  | .stringConcat a b => do return (← textOf m a) ++ (← textOf m b)
  | .stringCopy src => textOf m src
  | .substring str start stop => do
    let text ← textOf m str
    let start ← start.asFixnum
    let stop ← stop.asFixnum
    return (text.drop (intOf start).toNat).take ((intOf stop).toNat - (intOf start).toNat)
  | .symbolToString (.symbol n) => (m.symbols[n]?).map cText
  | _ => none

/-- string-set! and string-copy! change a string. -/
def Writes (o : Obj) : Action → Prop
  | .stringSet str _ _ => str = o
  | .stringCopyTo dest _ _ => dest = o
  | _ => False

/-- No other string has the text that string-set! changes. -/
def Alone (m : Memory) : Action → Prop
  | .stringSet str pos _ => ∀ s w, m.string str = some s → pos.asFixnum = some w →
      0 ≤ intOf w → intOf w < s.size - 1 → ∀ o t, o ≠ str → m.string o = some t → t.str ≠ s.str
  | _ => True

/-- The condition of a step that keeps the texts. -/
def Steady (m : Memory) (gc : Collection) (a : Action) : Prop := Fit m gc a ∧ Alone m a

section texts
variable {m m' : Memory} {gc : Collection} {o v : Obj} {s : StringT} {text : List UInt8}
  {a : Action} {room : Nat} {bytes : List UInt8}

theorem textOf_some : textOf m o = some text ↔ ∃ s, m.string o = some s ∧ chars m s = text :=
  Option.map_eq_some_iff

theorem textOf_seen (wf : WellFormed m) (here : textOf m o = some text) : Seen m o text := by
  obtain ⟨s, string, rfl⟩ := textOf_some.mp here
  have rep := rep_of_string wf string
  constructor
  · exact stringLength_chars string rep
  · intro pos w i b number index char
    exact stringRef_chars string rep number index char
  · intro o' text' there
    obtain ⟨t, string', rfl⟩ := textOf_some.mp there
    exact stringEq_chars string string' rep (rep_of_string wf string')

/- What stays of a text. -/

theorem textOf_congr (here : textOf m o = some text)
    (same : ∀ s, m.string o = some s → m'.string o = some s ∧ m'.text s.str = m.text s.str) :
    textOf m' o = some text := by
  obtain ⟨s, string, rfl⟩ := textOf_some.mp here
  obtain ⟨string', bytes⟩ := same s string
  exact textOf_some.mpr ⟨s, string', by rw [chars, chars, bytes]⟩

theorem str_old (wf : WellFormed m) (string : m.string o = some s) :
    s.str ≠ .block m.heap.length := by
  intro new
  cases o with
  | heapString n =>
    rcases wf.place n s string with own | ⟨k, borrowed⟩
    · rw [own, Region.block.injEq] at new
      rw [new, Memory.string, List.getElem?_eq_none (Nat.le_refl _)] at string
      cases string
    · rw [borrowed.str] at new
      cases new
  | constString n =>
    obtain ⟨_, k, literal⟩ := wf.consts n s string
    rw [literal] at new
    cases new
  | _ => cases string

theorem string_added_old {t : StringT} (string : m.string o = some s) :
    (m.added t room bytes).string o = some s := by
  cases o with
  | heapString n =>
    rw [string_added, if_neg]
    · exact string
    · intro new
      rw [new, Memory.string, List.getElem?_eq_none (Nat.le_refl _)] at string
      cases string
  | _ => exact string

theorem textOf_added (wf : WellFormed m) {t : StringT} (here : textOf m o = some text) :
    textOf (m.added t room bytes) o = some text := by
  apply textOf_congr here
  intro s string
  constructor
  · exact string_added_old string
  · rw [text_added, if_neg (str_old wf string)]

theorem newString_keeps_text (wf : WellFormed m) (safe : Safe m gc) {total size : Int}
    {str : Nat → Region} {allocated : Bool} {copy : Memory → Option (List UInt8)}
    (next : (m.newString total str size allocated copy gc).after m = some m')
    (here : textOf m o = some text) : textOf m' o = some text := by
  cases done : m.newString total str size allocated copy gc with
  | ok v u =>
    rw [done] at next
    cases next
    obtain ⟨room, bytes, _, _, _, _, rfl⟩ := newString_ok done
    rw [collect_eq wf safe]
    exact textOf_added (wf.outside gc.outside) here
  | error =>
    rw [done] at next
    cases next
    exact here
  | abort | undefined =>
    rw [done] at next
    cases next

theorem write_keeps_text {pos : Int} {new : List UInt8} {r : Region}
    (next : (m.write r pos new).after m = some m') (here : textOf m o = some text)
    (apart : ∀ s, m.string o = some s → s.str ≠ r) : textOf m' o = some text := by
  have kept : textOf (m.setText r (overwrite (m.text r) pos.toNat new)) o = some text := by
    apply textOf_congr here
    intro s string
    exact ⟨(string_setText o).trans string, text_setText_ne (apart s string)⟩
  unfold Memory.write at next
  split at next
  · cases next
  · split at next
    · cases next
      exact kept
    · cases next

theorem textOf_grown (wf : WellFormed m) (symbols literals : List (List UInt8))
    (consts : List StringT) (table : List (BitVec 32 × Nat)) (here : textOf m o = some text) :
    textOf (grown m symbols literals consts table) o = some text := by
  apply textOf_congr here
  intro s string
  have rep := rep_of_string wf string
  have positive := rep.positive
  have inside := rep.inside
  constructor
  · cases o with
    | constString n =>
      have entry : m.consts[n]? = some s := string
      have below := (List.getElem?_eq_some_iff.mp entry).1
      simp only [Memory.string, grown, List.getElem?_append_left below]
      exact entry
    | _ => exact string
  · exact text_grown (by omega)

theorem stringCopyTo_keeps_text (wf : WellFormed m) {dest pos src : Obj}
    (next : (stringCopyTo m dest pos src).after m = some m') (here : textOf m o = some text)
    (other : dest ≠ o) : textOf m' o = some text := by
  unfold stringCopyTo at next
  split at next
  · rename_i n dst s w source number target
    split at next
    · rename_i allocated
      have own : dst.str = .block n := by
        rcases wf.place n dst target with own | ⟨k, borrowed⟩
        · exact own
        · rw [borrowed.allocated] at allocated
          cases allocated
      dsimp only at next
      split at next
      · split at next
        · cases next
        · apply write_keeps_text next here
          intro t string same
          rw [own] at same
          cases o with
          | heapString k =>
            rcases wf.place k t string with block | ⟨j, borrowed⟩
            · rw [block, Region.block.injEq] at same
              exact other (by rw [same])
            · rw [borrowed.str] at same
              cases same
          | constString k =>
            obtain ⟨_, j, literal⟩ := wf.consts k t string
            rw [literal] at same
            cases same
          | _ => cases string
      · cases next
        exact here
    · cases next
      exact here
  · cases next
    exact here

theorem stringSet_keeps_text {str pos val : Obj} (alone : Alone m (.stringSet str pos val))
    (next : (stringSet m str pos val).after m = some m') (here : textOf m o = some text)
    (other : str ≠ o) : textOf m' o = some text := by
  unfold stringSet at next
  split at next
  · rename_i s w c string number character
    dsimp only at next
    split at next
    · rename_i range
      apply write_keeps_text next here
      intro t string'
      exact alone s w string number range.1 range.2 o t (Ne.symm other) string'
    · cases next
      exact here
  · cases next
    exact here

theorem act_keeps_text (wf : WellFormed m) (steady : Steady m gc a) (other : ¬ Writes o a)
    (next : (act m gc a).after m = some m') (here : textOf m o = some text) :
    textOf m' o = some text := by
  obtain ⟨fit, alone⟩ := steady
  cases a with
  | makeString len fill =>
    simp only [act, makeString] at next
    split at next
    · exact newString_keeps_text wf fit.1 next here
    · cases next
      exact here
  | stringConcat a b =>
    simp only [act, stringConcat] at next
    split at next
    · exact newString_keeps_text wf fit.1 next here
    · cases next
      exact here
  | stringCopyTo dest pos src => exact stringCopyTo_keeps_text wf next here other
  | stringCopy src =>
    simp only [act, stringCopy] at next
    split at next
    · exact newString_keeps_text wf fit next here
    · cases next
      exact here
  | symbolToString sym =>
    simp only [act, symbolToString] at next
    split at next
    · split at next
      · exact newString_keeps_text wf fit.1 next here
      · cases next
        exact here
    · cases next
      exact here
  | stringRef str pos =>
    simp only [act, stringRef] at next
    split at next
    · split at next <;> (cases next; exact here)
    · cases next
      exact here
  | stringSet str pos val => exact stringSet_keeps_text alone next here other
  | stringLength str =>
    simp only [act, stringLength] at next
    split at next <;> (cases next; exact here)
  | stringEq a b =>
    simp only [act, stringEq] at next
    split at next
    · split at next
      · cases next
        exact here
      · cases next
    · cases next
      exact here
  | substring str start stop =>
    simp only [act, substring] at next
    split at next
    · split at next
      · exact newString_keeps_text wf fit.1 next here
      · cases next
        exact here
    · cases next
      exact here
  | makeSymbol name =>
    cases next
    unfold makeSymbol
    split
    · exact here
    · have kept := textOf_grown wf [name.bytes ++ [0]] [] []
        ((stringHash name.bytes, m.symbols.length) :: m.symTable) here
      simpa [grown] using kept
  | readString bytes =>
    simp only [act, readString] at next
    split at next
    · cases next
      have kept := textOf_grown wf [] [bytes]
        [⟨.literal m.literals.length, ((cText bytes).length + 1 : Int).bmod (2 ^ 32), false⟩]
        m.symTable here
      simpa [grown] using kept
    · cases next
  | allocate =>
    cases next
    rw [collect_eq wf fit]
    exact here

/- What a primitive returns. -/

theorem chars_new {t : StringT} (str : t.str = .block m.heap.length)
    (copied : t.size - 1 ≤ bytes.length) (fits : bytes.length ≤ room) :
    chars (m.added t room bytes) t = bytes.take (t.size - 1).toNat := by
  rw [chars, text_added, if_pos str]
  apply List.ext_getElem?
  intro i
  rw [List.getElem?_take, List.getElem?_take]
  by_cases below : i < (t.size - 1).toNat
  · have inside : i < bytes.length := by omega
    rw [if_pos below, if_pos below, getElem?_filled fits (by omega),
      List.getElem?_eq_getElem inside]
    rfl
  · rw [if_neg below, if_neg below]

theorem take_bytes (r : Region) {start count n : Nat} (le : n ≤ count) :
    (m.bytes r start count).take n = m.bytes r start n := by
  simp [Memory.bytes, ← List.map_take, List.take_range, Nat.min_eq_left le]

theorem Rep.bytes_front (rep : Rep m s) : m.bytes s.str 0 (s.size - 1).toNat = chars m s := by
  have positive := rep.positive
  have front := rep.bytes_chars (Nat.zero_le (s.size - 1).toNat) (by omega)
  rw [Nat.sub_zero, List.drop_zero, List.take_of_length_le] at front
  · exact front
  · have length := rep.length_chars
    omega

theorem newString_textOf (wf : WellFormed m) (safe : Safe m gc) {total size : Int}
    {str : Nat → Region} {allocated : Bool} {copy : Memory → Option (List UInt8)}
    (done : m.newString total str size allocated copy gc = .ok v m') :
    ∃ room bytes, heapAlloc total = .block room ∧
      copy { m with outside := gc.outside } = some bytes ∧ bytes.length ≤ room ∧
        textOf m' v = some (chars
          (Memory.added { m with outside := gc.outside } ⟨str m.heap.length, size, allocated⟩
            room bytes)
          ⟨str m.heap.length, size, allocated⟩) := by
  obtain ⟨room, bytes, alloc, copied, fits, rfl, rfl⟩ := newString_ok done
  rw [collect_eq wf safe] at copied ⊢
  refine ⟨room, bytes, alloc, copied, fits, ?_⟩
  apply textOf_some.mpr
  refine ⟨_, ?_, rfl⟩
  rw [string_added]
  exact if_pos rfl

theorem makeString_text (wf : WellFormed m) {len fill : Obj} (fit : Fit m gc (.makeString len fill))
    (done : makeString m len fill gc = .ok v m')
    (result : resultText m (.makeString len fill) = some text) : textOf m' v = some text := by
  obtain ⟨safe, bounds⟩ := fit
  unfold makeString at done
  split at done
  · rename_i w c number character
    have low := (bounds w number).1
    have high := (bounds w number).2
    have count := toNat_fixnum low
    obtain ⟨room, bytes, alloc, copied, fits, here⟩ := newString_textOf wf safe done
    obtain ⟨limit, _⟩ := heapAlloc_block (by omega) (by omega) alloc
    have same : (((fixnum w).toNat : Int) + 1).bmod (2 ^ 32) = (fixnum w).toNat + 1 :=
      Int.bmod_eq_of_le (by omega) (by omega)
    rw [Option.some_inj] at copied
    subst copied
    rw [here, same, chars_new rfl (by simp) fits]
    simp only [resultText, number, character, Option.bind_eq_bind, Option.bind_some,
      Option.pure_def] at result
    rw [← result]
    simp
  · cases done

theorem stringConcat_text (wf : WellFormed m) {a b : Obj} (fit : Fit m gc (.stringConcat a b))
    (done : stringConcat m a b gc = .ok v m')
    (result : resultText m (.stringConcat a b) = some text) : textOf m' v = some text := by
  obtain ⟨safe, left, right, bound⟩ := fit
  unfold stringConcat at done
  split at done
  · rename_i s t first second
    have sum := bound s t first second
    have repS := rep_of_string wf first
    have repT := rep_of_string wf second
    have lowS := repS.positive
    have lowT := repT.positive
    obtain ⟨room, bytes, alloc, copied, fits, here⟩ := newString_textOf wf safe done
    obtain ⟨limit, _⟩ := heapAlloc_block (by omega) (by omega) alloc
    have same : (s.size + t.size - 1).bmod (2 ^ 32) = s.size + t.size - 1 :=
      Int.bmod_eq_of_le (by omega) (by omega)
    rw [if_neg (by simp [left, right]; omega), Option.some_inj] at copied
    subst copied
    rw [here, same, chars_new rfl (by simp [length_bytes]; omega) fits]
    simp only [resultText, textOf, first, second, Option.map_some, Option.bind_eq_bind,
      Option.bind_some, Option.pure_def, Option.some_inj] at result
    subst result
    have repS' : Rep { m with outside := gc.outside } s := rep_of_string (wf.outside _) first
    have repT' : Rep { m with outside := gc.outside } t := rep_of_string (wf.outside _) second
    have front : Memory.bytes { m with outside := gc.outside } s.str 0 (s.size - 1).toNat =
        chars m s := Rep.bytes_front repS'
    have back : Memory.bytes { m with outside := gc.outside } t.str 0 (t.size - 1).toNat =
        chars m t := Rep.bytes_front repT'
    have lengthS := repS.length_chars
    have rest : (s.size + t.size - 1 - 1).toNat - (chars m s).length = (t.size - 1).toNat := by
      omega
    dsimp only
    rw [front, List.take_append, List.take_of_length_le (by omega), rest,
      take_bytes _ (by omega), back]
  · cases done

theorem stringCopy_text (wf : WellFormed m) {src : Obj} (fit : Fit m gc (.stringCopy src))
    (done : stringCopy m src gc = .ok v m')
    (result : resultText m (.stringCopy src) = some text) : textOf m' v = some text := by
  unfold stringCopy at done
  split at done
  · rename_i s string
    have string' : { m with outside := gc.outside }.string src = some s := string
    have rep' : Rep { m with outside := gc.outside } s := rep_of_string (wf.outside _) string'
    have front : Memory.bytes { m with outside := gc.outside } s.str 0 (s.size - 1).toNat =
        chars m s := Rep.bytes_front rep'
    have positive := rep'.positive
    obtain ⟨room, bytes, _, copied, fits, here⟩ := newString_textOf wf fit done
    rw [string', Option.map_some, Option.some_inj] at copied
    subst copied
    rw [here, chars_new rfl (by simp [length_bytes]) fits]
    dsimp only
    rw [take_bytes _ (by omega), front]
    simp only [resultText, textOf, string, Option.map_some] at result
    exact result
  · cases done

theorem substring_text (wf : WellFormed m) {str start stop : Obj}
    (fit : Fit m gc (.substring str start stop)) (done : substring m str start stop gc = .ok v m')
    (result : resultText m (.substring str start stop) = some text) : textOf m' v = some text := by
  cases string : m.string str with
  | none =>
    simp only [resultText, textOf, string, Option.map_none, Option.bind_eq_bind,
      Option.bind_none] at result
    cases result
  | some s =>
    cases first : start.asFixnum with
    | none => simp [resultText, first] at result
    | some x =>
      cases last : stop.asFixnum with
      | none => simp [resultText, last] at result
      | some y =>
        obtain ⟨t, string_v, equal⟩ := (substring_slice wf fit first last done).chars s string
        simp only [resultText, textOf, string, first, last, Option.map_some, Option.bind_eq_bind,
          Option.bind_some, Option.pure_def, Option.some_inj] at result
        rw [← result]
        exact textOf_some.mpr ⟨t, string_v, equal⟩

theorem symbolToString_text (wf : WellFormed m) {sym : Obj} (fit : Fit m gc (.symbolToString sym))
    (done : symbolToString m sym gc = .ok v m')
    (result : resultText m (.symbolToString sym) = some text) : textOf m' v = some text := by
  obtain ⟨safe, bound⟩ := fit
  unfold symbolToString at done
  split at done
  · rename_i n
    split at done
    · rename_i name known
      obtain ⟨length, below, bytes_eq⟩ := symbol_size wf known
      have small := bound n rfl
      rw [bytes_eq] at small
      have same : ((cText name).length + 1 : Int).bmod (2 ^ 32) = (cText name).length + 1 := by
        rw [Int.bmod_eq_of_le] <;> omega
      obtain ⟨room, bytes, _, _, _, here⟩ := newString_textOf wf safe done
      simp only [resultText, known, Option.map_some, Option.some_inj] at result
      rw [here, same, chars, text_added, if_neg (by simp)]
      have there : Memory.text { m with outside := gc.outside } (.symbol n) = name := bytes_eq
      have whole : cText name <+: name := List.takeWhile_prefix _
      rw [there, ← result]
      dsimp only
      rw [Int.add_sub_cancel, Int.toNat_natCast, ← List.prefix_iff_eq_take.mp whole]
    · cases done
  · cases done

theorem act_text (wf : WellFormed m) (fit : Fit m gc a) (done : act m gc a = .ok v m')
    (result : resultText m a = some text) : textOf m' v = some text := by
  cases a with
  | makeString len fill => exact makeString_text wf fit done result
  | stringConcat a b => exact stringConcat_text wf fit done result
  | stringCopy src => exact stringCopy_text wf fit done result
  | substring str start stop => exact substring_text wf fit done result
  | symbolToString sym => exact symbolToString_text wf fit done result
  | _ => cases result

end texts

section runs
variable {m m' : Memory} {o : Obj} {text : List UInt8}

theorem steady_fit (run : Relation.ReflTransGen (Step Steady) m m') :
    Relation.ReflTransGen (Step Fit) m m' :=
  Relation.ReflTransGen.mono (fun _ _ ⟨gc, a, steady, next⟩ => ⟨gc, a, steady.1, next⟩) _ _ run

theorem run_keeps_text (wf : WellFormed m)
    (run : Relation.ReflTransGen (Step fun m gc a => Steady m gc a ∧ ¬ Writes o a) m m')
    (here : textOf m o = some text) : textOf m' o = some text := by
  have both : WellFormed m' ∧ textOf m' o = some text := by
    induction run with
    | refl => exact ⟨wf, here⟩
    | tail _ step ih =>
      obtain ⟨gc, a, ⟨steady, other⟩, next⟩ := step
      exact ⟨(act_wellFormed ih.1 steady.1).after ih.1 next,
        act_keeps_text ih.1 steady other next ih.2⟩
  exact both.2

/- In a run of steady steps every string is seen with its text, a new one has the text of its
   operands, and what does not write to a string leaves its text as it is. -/
theorem steady_run_keeps_texts {outside : Region → Int → UInt8}
    (run : Relation.ReflTransGen (Step Steady) (Memory.empty outside) m) :
    (∀ o text, textOf m o = some text → Seen m o text) ∧
      (∀ gc a, Steady m gc a → (act m gc a).Keeps fun _ => True) ∧
      (∀ gc a v m' text, Steady m gc a → act m gc a = .ok v m' → resultText m a = some text →
        textOf m' v = some text) ∧
      ∀ o text m', textOf m o = some text →
        Relation.ReflTransGen (Step fun m gc a => Steady m gc a ∧ ¬ Writes o a) m m' →
          textOf m' o = some text ∧ Seen m' o text := by
  have wf := run_wellFormed (wellFormed_empty outside) (steady_fit run)
  constructor
  · intro o text here
    exact textOf_seen wf here
  · constructor
    · intro gc a steady
      exact (act_wellFormed wf steady.1).mono fun _ _ => trivial
    · constructor
      · intro gc a v m' text steady done result
        exact act_text wf steady.1 done result
      · intro o text m' here later
        have kept := run_keeps_text wf later here
        have fits : Relation.ReflTransGen (Step Fit) m m' :=
          Relation.ReflTransGen.mono
            (fun _ _ ⟨gc, a, steady, next⟩ => ⟨gc, a, steady.1.1, next⟩) _ _ later
        exact ⟨kept, textOf_seen (run_wellFormed wf fits) kept⟩

end runs

theorem safe_still (m : Memory) : Safe m still := by
  intro n s moves
  cases moves

/-- A collection that moves the string 0, and leaves other bytes around the texts. -/
def movesFirst : Collection := ⟨fun n => n == 0, fun _ _ => 7⟩

/- The string of (make-string 8 #\a) is moved by a collection, and moved again while string-copy
   copies it. -/
theorem steady_run_keeps_moved : ∃ m m' : Memory,
    (act (filled 8) movesFirst .allocate).after (filled 8) = some m ∧
      Seen m (.heapString 0) (List.replicate 8 97) ∧
      stringRef m (.heapString 0) (fixnumObj 7) = .ok (.word (charWord 97)) m ∧
      act m movesFirst (.stringCopy (.heapString 0)) = .ok (.heapString 1) m' ∧
      textOf m' (.heapString 1) = some (List.replicate 8 97) := by
  have number : (fixnumObj 8).asFixnum = some 64#64 := by decide
  have steady : Steady clear still (.makeString (fixnumObj 8) (.word (charWord 97))) := by
    refine ⟨⟨safe_still clear, ?_⟩, trivial⟩
    intro w same
    rw [number, Option.some_inj] at same
    rw [← same]
    decide
  have run : Relation.ReflTransGen (Step Steady) clear (filled 8) :=
    .single ⟨still, _, steady, congrArg (Outcome.after clear) makeString_eight⟩
  have owns : Safe (filled 8) movesFirst := by
    intro n s moves string _
    rw [eq_of_beq moves] at string
    cases string
    rfl
  have moved : (act (filled 8) movesFirst .allocate).after (filled 8) =
      some ((filled 8).collect movesFirst) := rfl
  have later := (steady_run_keeps_texts run).2.2.2 (.heapString 0) (List.replicate 8 97) _ (by decide)
    (.single ⟨movesFirst, .allocate, ⟨⟨owns, trivial⟩, id⟩, moved⟩)
  have owns' : Safe ((filled 8).collect movesFirst) movesFirst := by
    intro n s moves string _
    rw [eq_of_beq moves] at string
    cases string
    rfl
  have run' : Relation.ReflTransGen (Step Steady) clear ((filled 8).collect movesFirst) :=
    run.tail ⟨movesFirst, .allocate, ⟨owns, trivial⟩, moved⟩
  have copy : ∃ m', act ((filled 8).collect movesFirst) movesFirst (.stringCopy (.heapString 0)) =
      .ok (.heapString 1) m' := ⟨_, rfl⟩
  obtain ⟨m', copy⟩ := copy
  have text := (steady_run_keeps_texts run').2.2.1 movesFirst (.stringCopy (.heapString 0)) _ m'
    (List.replicate 8 97) ⟨owns', trivial⟩ copy (by decide)
  exact ⟨_, m', moved, later.2, later.2.ref _ _ 7 97 rfl (by decide) rfl, copy, text⟩

/-- A collection that moves the string 1. -/
def movesSecond : Collection := ⟨fun n => n == 1, fun _ _ => 0⟩

/- The result of string-concat has left its text behind when a collection has moved it. -/
theorem concat_loses_text : ∃ m m' : Memory,
    Relation.ReflTransGen (Step fun _ _ _ => True) clear m ∧
      (act m movesSecond .allocate).after m = some m' ∧
      stringRef m (.heapString 1) (fixnumObj 0) = .ok (.word (charWord 97)) m ∧
      stringRef m' (.heapString 1) (fixnumObj 0) = .ok (.word (charWord 0)) m' ∧
      textOf m (.heapString 1) = some (List.replicate 16 97) ∧
      textOf m' (.heapString 1) = some [] := by
  have first : Step (fun _ _ _ => True) clear (filled 8) :=
    ⟨still, .makeString (fixnumObj 8) (.word (charWord 97)), trivial,
      congrArg (Outcome.after clear) makeString_eight⟩
  have second : Step (fun _ _ _ => True) (filled 8) _ :=
    ⟨still, .stringConcat (.heapString 0) (.heapString 0), trivial, rfl⟩
  exact ⟨_, _, .tail (.tail .refl first) second, rfl, by rfl, by rfl, by rfl, by rfl⟩

end LGears.StringTexts
