import LGears.Strings

/- The shape of strings: every text ends with its terminator, inside the memory that belongs
   to it. -/
namespace LGears.StringShape
open Tagged hiding Obj
open Arithmetic Overwrite Strings

/-- The text of the string takes size bytes, all inside its memory, the last of them zero. -/
structure Rep (m : Memory) (s : StringT) : Prop where
  positive : 1 ≤ s.size
  inside : s.size ≤ (m.text s.str).length
  terminated : (m.text s.str)[(s.size - 1).toNat]? = some 0

/-- The string has the text of a symbol. -/
structure Borrowed (m : Memory) (s : StringT) (k : Nat) : Prop where
  str : s.str = .symbol k
  allocated : s.allocated = false
  known : k < m.symbols.length
  size : s.size = (m.text (.symbol k)).length

structure WellFormed (m : Memory) : Prop where
  small : ∀ o s, m.string o = some s → s.size < 2 ^ 31
  place : ∀ n s, m.string (.heapString n) = some s → s.str = .block n ∨ ∃ k, Borrowed m s k
  own : ∀ n s, m.string (.heapString n) = some s → s.str = .block n → Rep m s
  consts : ∀ n s, m.string (.constString n) = some s → Rep m s ∧ ∃ k, s.str = .literal k
  symbols : ∀ bytes ∈ m.symbols, ∃ name : CString, bytes = name.bytes ++ [0]

/-- The collection moves no string that owns its text without the flag. -/
def Safe (m : Memory) (gc : Collection) : Prop :=
  ∀ n s, gc.moves n = true → m.string (.heapString n) = some s → s.str = .block n →
    s.allocated = true

/-- The arguments of an action that keeps the strings in shape. -/
def Fit (m : Memory) (gc : Collection) : Action → Prop
  | .makeString len _ => Safe m gc ∧
      ∀ w, len.asFixnum = some w → 0 ≤ value w ∧ value w < 2 ^ 32 - 32
  | .stringConcat a b => Safe m gc ∧ gc.movesObj a = false ∧ gc.movesObj b = false ∧
      ∀ s t, m.string a = some s → m.string b = some t → s.size + t.size < 2 ^ 32 - 30
  | .stringCopyTo _ pos src =>
      ∀ w s, pos.asFixnum = some w → m.string src = some s → intOf w + s.size < 2 ^ 31
  | .stringSet str _ val => ∀ w s k, val.asChar = some w → m.string str = some s →
      s.str = .symbol k → charByte w ≠ 0
  | .substring _ start stop => Safe m gc ∧
      ∀ v w, start.asFixnum = some v → stop.asFixnum = some w → (intOf w - intOf v) % 8 ≠ 0
  | .symbolToString sym => Safe m gc ∧ ∀ n, sym = .symbol n → (m.text (.symbol n)).length < 2 ^ 31
  | .stringCopy _ | .allocate => Safe m gc
  | .readString bytes => 0 ∈ bytes ∧ (cText bytes).length + 1 < 2 ^ 31
  | .stringRef .. | .stringLength _ | .stringEq .. | .makeSymbol _ => True

section texts
variable {m : Memory} {s : StringT} {room : Nat} {bytes : List UInt8}

theorem string_added (n : Nat) : (m.added s room bytes).string (.heapString n) =
    if n = m.heap.length then some s else m.string (.heapString n) := by
  simp only [Memory.string, Memory.added]
  by_cases new : n = m.heap.length
  · subst new
    simp
  · rw [if_neg new]
    by_cases old : n < m.heap.length
    · rw [List.getElem?_append_left old]
    · rw [List.getElem?_eq_none, List.getElem?_eq_none]
      · omega
      · rw [List.length_append, List.length_singleton]
        omega

theorem text_added (r : Region) : (m.added s room bytes).text r =
    if r = .block m.heap.length then overwrite (List.replicate room 0) 0 bytes else m.text r := by
  cases r with
  | block n =>
    simp only [Memory.text, Memory.added, Region.block.injEq]
    by_cases new : n = m.heap.length
    · subst new
      simp
    · rw [if_neg new]
      by_cases old : n < m.heap.length
      · rw [List.getElem?_append_left old]
      · rw [List.getElem?_eq_none (by simp; omega), List.getElem?_eq_none (by omega)]
  | _ => rfl

theorem getElem?_filled (fits : bytes.length ≤ room) {i : Nat} (inside : i < room) :
    (overwrite (List.replicate room 0) 0 bytes)[i]? = some ((bytes[i]?).getD 0) := by
  rw [getElem?_overwrite (by simpa using fits)]
  by_cases copied : i < bytes.length
  · rw [if_pos (by omega), Nat.sub_zero, List.getElem?_eq_getElem copied]
    rfl
  · rw [if_neg (by omega), List.getElem?_replicate, if_pos inside,
      List.getElem?_eq_none (Nat.not_lt.mp copied)]
    rfl

theorem length_filled (fits : bytes.length ≤ room) :
    (overwrite (List.replicate room 0) 0 bytes).length = room := by
  rw [length_overwrite (by simpa using fits), List.length_replicate]

end texts

section invariant
variable {m : Memory} {gc : Collection}

theorem WellFormed.outside (wf : WellFormed m) (outside : Region → Int → UInt8) :
    WellFormed { m with outside := outside } where
  small := wf.small
  place n s string := by
    rcases wf.place n s string with own | ⟨k, borrowed⟩
    · exact .inl own
    · exact .inr ⟨k, borrowed.str, borrowed.allocated, borrowed.known, borrowed.size⟩
  own n s string own :=
    have rep := wf.own n s string own
    ⟨rep.positive, rep.inside, rep.terminated⟩
  consts n s string :=
    have rep := (wf.consts n s string).1
    ⟨⟨rep.positive, rep.inside, rep.terminated⟩, (wf.consts n s string).2⟩
  symbols := wf.symbols

theorem collect_placed (place : ∀ n s, m.string (.heapString n) = some s →
      s.str = .block n ∨ (s.allocated = false ∧ ∃ k, s.str = .symbol k)) (safe : Safe m gc) :
    m.collect gc = { m with outside := gc.outside } := by
  have same : m.heap.mapIdx (fun n (p : StringT × List UInt8) =>
      (if gc.moves n then stringVisit n p.1 else p.1, p.2)) = m.heap := by
    apply List.ext_getElem?
    intro n
    rw [List.getElem?_mapIdx]
    cases entry : m.heap[n]? with
    | none => rfl
    | some p =>
      obtain ⟨s, bytes⟩ := p
      have string : m.string (.heapString n) = some s := by simp [Memory.string, entry]
      have stays : gc.moves n = true → stringVisit n s = s := by
        intro moves
        unfold stringVisit
        rcases place n s string with own | ⟨unflagged, k, shared⟩
        · rw [if_pos (safe n s moves string own)]
          cases s
          cases own
          rfl
        · rw [if_neg (by simp [unflagged]), if_neg (by simp [shared])]
      cases moves : gc.moves n with
      | false => simp
      | true => simp [stays moves]
  unfold Memory.collect
  rw [same]

theorem collect_eq (wf : WellFormed m) (safe : Safe m gc) :
    m.collect gc = { m with outside := gc.outside } := by
  apply collect_placed _ safe
  intro n s string
  rcases wf.place n s string with own | ⟨k, borrowed⟩
  · exact .inl own
  · exact .inr ⟨borrowed.allocated, k, borrowed.str⟩

/-- A string that may be added when its text is bytes. -/
structure Fresh (m : Memory) (s : StringT) (room : Nat) (bytes : List UInt8) : Prop where
  str : s.str = .block m.heap.length
  positive : 1 ≤ s.size
  inside : s.size ≤ room
  fits : bytes.length ≤ room
  terminated : (bytes[(s.size - 1).toNat]?).getD 0 = 0

theorem wellFormed_added {s : StringT} {room : Nat} {bytes : List UInt8} (wf : WellFormed m)
    (small : s.size < 2 ^ 31) (new : Fresh m s room bytes ∨ ∃ k, Borrowed m s k) :
    WellFormed (m.added s room bytes) := by
  have older : ∀ r, r ≠ .block m.heap.length → (m.added s room bytes).text r = m.text r := by
    intro r other
    rw [text_added, if_neg other]
  have exists_old : ∀ n t, m.string (.heapString n) = some t → n < m.heap.length := by
    intro n t string
    by_contra beyond
    rw [Memory.string, List.getElem?_eq_none (Nat.not_lt.mp beyond)] at string
    cases string
  have keeps : ∀ t k, Borrowed m t k → Borrowed (m.added s room bytes) t k := by
    intro t k borrowed
    exact ⟨borrowed.str, borrowed.allocated, borrowed.known, by
      rw [older _ (by simp)]
      exact borrowed.size⟩
  have moved : ∀ t, t.str ≠ .block m.heap.length → Rep m t → Rep (m.added s room bytes) t := by
    intro t other rep
    constructor
    · exact rep.positive
    · rw [older _ other]
      exact rep.inside
    · rw [older _ other]
      exact rep.terminated
  constructor
  · intro o t string
    cases o with
    | heapString n =>
      rw [string_added] at string
      split at string
      · cases string
        exact small
      · exact wf.small _ t string
    | constString n => exact wf.small (.constString n) t string
    | _ => cases string
  · intro n t string
    rw [string_added] at string
    split at string
    · rename_i here
      cases string
      rcases new with fresh | ⟨k, borrowed⟩
      · exact .inl (here ▸ fresh.str)
      · exact .inr ⟨k, keeps _ k borrowed⟩
    · rcases wf.place n t string with own | ⟨k, borrowed⟩
      · exact .inl own
      · exact .inr ⟨k, keeps t k borrowed⟩
  · intro n t string own
    rw [string_added] at string
    split at string
    · rename_i here
      cases string
      rcases new with fresh | ⟨k, borrowed⟩
      · have filled : (m.added s room bytes).text s.str =
            overwrite (List.replicate room 0) 0 bytes := by
          rw [text_added, if_pos fresh.str]
        have positive := fresh.positive
        have inside := fresh.inside
        constructor
        · exact positive
        · rw [filled, length_filled fresh.fits]
          exact inside
        · rw [filled, getElem?_filled fresh.fits (by omega), fresh.terminated]
      · rw [borrowed.str] at own
        cases own
    · rename_i old
      apply moved
      · rw [own]
        simpa using old
      · exact wf.own n t string own
  · intro n t string
    obtain ⟨rep, k, str⟩ := wf.consts n t string
    exact ⟨moved t (by simp [str]) rep, k, str⟩
  · exact wf.symbols

theorem write_own (wf : WellFormed m) {n : Nat} {s : StringT} {pos : Int}
    (bytes : List UInt8) (string : m.string (.heapString n) = some s) (own : s.str = .block n)
    (low : 0 ≤ pos) (high : pos + bytes.length ≤ s.size - 1) : (m.write s.str pos bytes).Keeps WellFormed := by
  have rep := wf.own n s string own
  have inside := rep.inside
  have fits : pos.toNat + bytes.length ≤ (m.text s.str).length := by omega
  have others : ∀ r, r ≠ s.str →
      (m.setText s.str (overwrite (m.text s.str) pos.toNat bytes)).text r = m.text r :=
    fun r other => text_setText_ne other
  have written : (m.setText s.str (overwrite (m.text s.str) pos.toNat bytes)).text s.str =
      overwrite (m.text s.str) pos.toNat bytes := by
    rw [own]
    exact text_setText_block string _
  have length := (congrArg List.length written).trans (length_overwrite fits)
  rw [write_inside (by simp [own]) low fits]
  constructor
  · intro o t same
    rw [string_setText] at same
    exact wf.small o t same
  · intro k t same
    rw [string_setText] at same
    rcases wf.place k t same with mine | ⟨l, borrowed⟩
    · exact .inl mine
    · exact .inr ⟨l, borrowed.str, borrowed.allocated, by
        rw [own, symbols_setText_block]
        exact borrowed.known, by
        rw [others _ (by simp [own])]
        exact borrowed.size⟩
  · intro k t same mine
    rw [string_setText] at same
    have rep' := wf.own k t same mine
    by_cases here : t.str = s.str
    · have one : k = n := by
        rw [mine, own, Region.block.injEq] at here
        exact here
      subst one
      rw [string, Option.some_inj] at same
      subst same
      constructor
      · exact rep.positive
      · rw [length]
        exact inside
      · rw [written, getElem?_overwrite fits, if_neg (by omega)]
        exact rep.terminated
    · constructor
      · exact rep'.positive
      · rw [others _ here]
        exact rep'.inside
      · rw [others _ here]
        exact rep'.terminated
  · intro k t same
    rw [string_setText] at same
    obtain ⟨rep', l, str⟩ := wf.consts k t same
    have other : t.str ≠ s.str := by simp [own, str]
    refine ⟨⟨rep'.positive, ?_, ?_⟩, l, str⟩
    · rw [others _ other]
      exact rep'.inside
    · rw [others _ other]
      exact rep'.terminated
  · rw [own, symbols_setText_block]
    exact wf.symbols

theorem text_symbol {k : Nat} (known : k < m.symbols.length) :
    m.symbols[k]? = some m.symbols[k] ∧ m.text (.symbol k) = m.symbols[k] := by
  have entry := List.getElem?_eq_getElem known
  exact ⟨entry, by simp [Memory.text, entry]⟩

theorem write_symbol (wf : WellFormed m) {s : StringT} {k : Nat} {pos : Int} {b : UInt8}
    (borrowed : Borrowed m s k) (low : 0 ≤ pos) (high : pos < s.size - 1) (nonzero : b ≠ 0) :
    (m.write s.str pos [b]).Keeps WellFormed := by
  have size := borrowed.size
  have fits : pos.toNat + [b].length ≤ (m.text s.str).length := by
    rw [borrowed.str, List.length_singleton]
    omega
  have known : (m.text s.str).length ≠ 0 := by
    rw [List.length_singleton] at fits
    omega
  have others : ∀ r, r ≠ s.str →
      (m.setText s.str (overwrite (m.text s.str) pos.toNat [b])).text r = m.text r :=
    fun r other => text_setText_ne other
  have written : (m.setText s.str (overwrite (m.text s.str) pos.toNat [b])).text s.str =
      overwrite (m.text s.str) pos.toNat [b] := text_setText_self known
  have length := (congrArg List.length written).trans (length_overwrite fits)
  rw [write_inside (by simp [borrowed.str]) low fits]
  have keeps : ∀ t l, Borrowed m t l →
      Borrowed (m.setText s.str (overwrite (m.text s.str) pos.toNat [b])) t l := by
    intro t l other
    refine ⟨other.str, other.allocated, ?_, ?_⟩
    · rw [borrowed.str]
      simpa [Memory.setText] using other.known
    · by_cases same : Region.symbol l = s.str
      · rw [same, length, ← same]
        exact other.size
      · rw [others _ same]
        exact other.size
  constructor
  · intro o t same
    rw [string_setText] at same
    exact wf.small o t same
  · intro j t same
    rw [string_setText] at same
    rcases wf.place j t same with mine | ⟨l, other⟩
    · exact .inl mine
    · exact .inr ⟨l, keeps t l other⟩
  · intro j t same mine
    rw [string_setText] at same
    have rep := wf.own j t same mine
    have apart : t.str ≠ s.str := by simp [mine, borrowed.str]
    refine ⟨rep.positive, ?_, ?_⟩
    · rw [others _ apart]
      exact rep.inside
    · rw [others _ apart]
      exact rep.terminated
  · intro j t same
    rw [string_setText] at same
    obtain ⟨rep, l, str⟩ := wf.consts j t same
    have apart : t.str ≠ s.str := by simp [str, borrowed.str]
    refine ⟨⟨rep.positive, ?_, ?_⟩, l, str⟩
    · rw [others _ apart]
      exact rep.inside
    · rw [others _ apart]
      exact rep.terminated
  · intro bytes member
    rw [borrowed.str] at member
    rcases List.mem_or_eq_of_mem_set member with old | rfl
    · exact wf.symbols bytes old
    · obtain ⟨entry, text⟩ := text_symbol borrowed.known
      obtain ⟨name, shape⟩ := wf.symbols _ (List.mem_of_getElem? entry)
      rw [shape] at text
      have inside : pos.toNat < name.bytes.length := by
        rw [text, List.length_append, List.length_singleton] at size
        omega
      have nulFree : 0 ∉ name.bytes.set pos.toNat b := by
        intro zero
        rcases List.mem_or_eq_of_mem_set zero with old | new
        · exact name.nulFree old
        · exact nonzero new.symm
      refine ⟨⟨_, nulFree⟩, ?_⟩
      rw [text, overwrite_singleton (by simp; omega), List.set_append_left _ _ inside]

theorem Rep.at_terminator {s : StringT} (rep : Rep m s) :
    (m.bytes s.str 0 s.size.toNat)[(s.size - 1).toNat]? = some 0 := by
  have positive := rep.positive
  have inside := rep.inside
  rw [getElem?_bytes (by omega) (by omega), Nat.zero_add]
  exact rep.terminated

theorem newString_wellFormed (wf : WellFormed m) (safe : Safe m gc) {total size : Int}
    {str : Nat → Region} {allocated : Bool} {text : Memory → Option (List UInt8)}
    (low : 16 ≤ total) (high : total < 2 ^ 32 - 15)
    (filled : ∀ room, total < 2 ^ 31 → room = alignUp (total - 16).toNat → ∃ bytes,
      size < 2 ^ 31 ∧ text { m with outside := gc.outside } = some bytes ∧ bytes.length ≤ room ∧
        (Fresh m ⟨str m.heap.length, size, allocated⟩ room bytes ∨
          ∃ k, Borrowed m ⟨str m.heap.length, size, allocated⟩ k)) :
    (m.newString total str size allocated text gc).Keeps WellFormed := by
  apply newString_keeps (heapAlloc_large low (by omega))
  intro room alloc
  obtain ⟨limit, roomy⟩ := heapAlloc_block low high alloc
  obtain ⟨bytes, small, copied, fits, new⟩ := filled room limit roomy
  rw [collect_eq wf safe]
  refine ⟨bytes, copied, fits, wellFormed_added (wf.outside _) small ?_⟩
  rcases new with fresh | ⟨k, borrowed⟩
  · exact .inl ⟨fresh.str, fresh.positive, fresh.inside, fresh.fits, fresh.terminated⟩
  · exact .inr ⟨k, borrowed.str, borrowed.allocated, borrowed.known, borrowed.size⟩

theorem fresh_block {size : Int} {allocated : Bool} {room : Nat} {bytes : List UInt8}
    (positive : 1 ≤ size) (inside : size ≤ room) (fits : bytes.length ≤ room)
    (terminated : (bytes[(size - 1).toNat]?).getD 0 = 0) :
    Fresh m ⟨.block m.heap.length, size, allocated⟩ room bytes :=
  ⟨rfl, positive, inside, fits, terminated⟩

theorem toNat_fixnum {w : Word} (low : 0 ≤ value w) : ((fixnum w).toNat : Int) = value w := by
  rw [value, BitVec.toInt_eq_toNat_cond] at *
  split at low
  · simp_all
  · have below := (fixnum w).isLt
    omega

theorem makeString_wellFormed (wf : WellFormed m) {len fill : Obj}
    (fit : Fit m gc (.makeString len fill)) : (makeString m len fill gc).Keeps WellFormed := by
  obtain ⟨safe, bounds⟩ := fit
  unfold makeString
  split
  · rename_i w c number character
    have low := (bounds w number).1
    have high := (bounds w number).2
    have count := toNat_fixnum low
    refine newString_wellFormed wf safe ?_ ?_ ?_
    · omega
    · omega
    intro room limit enough
    have same : (((fixnum w).toNat : Int) + 1).bmod (2 ^ 32) = (fixnum w).toNat + 1 :=
      Int.bmod_eq_of_le (by omega) (by omega)
    rw [same]
    have roomy : (fixnum w).toNat + 1 ≤ room := by
      have fits := le_alignUp (16 + ((fixnum w).toNat : Int) + 1 - 16).toNat
      omega
    refine ⟨_, by omega, rfl, by simpa using roomy, .inl ?_⟩
    apply fresh_block
    · omega
    · omega
    · simpa using roomy
    · simp
  · trivial

theorem rep_of_string (wf : WellFormed m) {o : Obj} {s : StringT} (string : m.string o = some s) :
    Rep m s := by
  cases o with
  | heapString n =>
    rcases wf.place n s string with own | ⟨k, borrowed⟩
    · exact wf.own n s string own
    · obtain ⟨entry, text⟩ := text_symbol borrowed.known
      obtain ⟨name, shape⟩ := wf.symbols _ (List.mem_of_getElem? entry)
      have size := borrowed.size
      have whole : m.text (.symbol k) = name.bytes ++ [0] := text.trans shape
      rw [whole, List.length_append, List.length_singleton] at size
      constructor
      · omega
      · rw [borrowed.str, whole, List.length_append, List.length_singleton]
        omega
      · rw [borrowed.str, whole, show (s.size - 1).toNat = name.bytes.length by omega]
        simp
  | constString n => exact (wf.consts n s string).1
  | _ => cases string

theorem stringConcat_wellFormed (wf : WellFormed m) {oa ob : Obj}
    (fit : Fit m gc (.stringConcat oa ob)) : (stringConcat m oa ob gc).Keeps WellFormed := by
  obtain ⟨safe, left, right, bound⟩ := fit
  unfold stringConcat
  split
  · rename_i a b first second
    have sum := bound a b first second
    have repA := rep_of_string wf first
    have repB := rep_of_string wf second
    have lowA := repA.positive
    have lowB := repB.positive
    refine newString_wellFormed wf safe ?_ ?_ ?_
    · omega
    · omega
    intro room limit enough
    have same : (a.size + b.size - 1).bmod (2 ^ 32) = a.size + b.size - 1 :=
      Int.bmod_eq_of_le (by omega) (by omega)
    rw [same]
    have roomy : (a.size + b.size - 1).toNat ≤ room := by
      have fits := le_alignUp (a.size + b.size - 1 + 16 - 16).toNat
      omega
    have copied : ¬(gc.movesObj oa = true ∨ gc.movesObj ob = true ∨ a.size < 1 ∨ b.size < 0) := by
      rintro (moved | moved | short | short)
      · simp [left] at moved
      · simp [right] at moved
      · omega
      · omega
    have second' : { m with outside := gc.outside }.string ob = some b := second
    have terminator := (rep_of_string (wf.outside gc.outside) second').at_terminator
    refine ⟨_, by omega, if_neg copied, ?_, .inl ?_⟩
    · rw [List.length_append, length_bytes, length_bytes]
      omega
    · apply fresh_block
      · omega
      · omega
      · rw [List.length_append, length_bytes, length_bytes]
        omega
      · rw [List.getElem?_append_right (by rw [length_bytes]; omega), length_bytes,
          show (a.size + b.size - 1 - 1).toNat - (a.size - 1).toNat = (b.size - 1).toNat by omega,
          terminator]
        rfl
  · trivial

theorem stringCopy_wellFormed (wf : WellFormed m) {src : Obj} (safe : Safe m gc) :
    (stringCopy m src gc).Keeps WellFormed := by
  unfold stringCopy
  split
  · rename_i s string
    have rep := rep_of_string wf string
    have positive := rep.positive
    have small := wf.small src s string
    have string' : { m with outside := gc.outside }.string src = some s := string
    have terminator := (rep_of_string (wf.outside gc.outside) string').at_terminator
    refine newString_wellFormed wf safe ?_ ?_ ?_
    · omega
    · omega
    intro room limit enough
    have roomy : s.size.toNat ≤ room := by
      have fits := le_alignUp (s.size + 16 - 16).toNat
      omega
    refine ⟨_, small, by rw [string', Option.map_some], ?_, .inl ?_⟩
    · rw [length_bytes]
      exact roomy
    · apply fresh_block positive
      · omega
      · rw [length_bytes]
        exact roomy
      · rw [terminator]
        rfl
  · trivial

theorem substring_wellFormed (wf : WellFormed m) {str start stop : Obj}
    (fit : Fit m gc (.substring str start stop)) :
    (substring m str start stop gc).Keeps WellFormed := by
  obtain ⟨safe, apart⟩ := fit
  unfold substring
  split
  · rename_i s v w string first last
    have length := apart v w first last
    have small := wf.small str s string
    dsimp only
    split
    · rename_i range
      have room_above : (intOf w - intOf v).toNat < alignUp (intOf w - intOf v).toNat := by
        apply lt_alignUp
        omega
      have string' : { m with outside := gc.outside }.string str = some s := string
      refine newString_wellFormed wf safe ?_ ?_ ?_
      · omega
      · omega
      intro room limit enough
      have exact_room : room = alignUp (intOf w - intOf v).toNat := by
        rw [enough]
        congr 2
        omega
      refine ⟨_, by omega, by rw [string', Option.map_some], ?_, .inl ?_⟩
      · rw [length_bytes]
        omega
      · apply fresh_block
        · omega
        · omega
        · rw [length_bytes]
          omega
        · rw [List.getElem?_eq_none]
          · rfl
          · rw [length_bytes]
            omega
    · trivial
  · trivial

theorem cText_name (name : CString) : cText (name.bytes ++ [0]) = name.bytes := by
  have whole : name.bytes.takeWhile (· ≠ 0) = name.bytes :=
    congrArg CString.bytes (CString.truncate_self name)
  unfold cText
  rw [List.takeWhile_append, whole, if_pos rfl]
  simp

theorem symbol_size (wf : WellFormed m) {k : Nat} {bytes : List UInt8}
    (known : m.symbols[k]? = some bytes) :
    (cText bytes).length + 1 = bytes.length ∧ k < m.symbols.length ∧
      m.text (.symbol k) = bytes := by
  obtain ⟨name, shape⟩ := wf.symbols bytes (List.mem_of_getElem? known)
  refine ⟨?_, (List.getElem?_eq_some_iff.mp known).1, by simp [Memory.text, known]⟩
  rw [shape, cText_name, List.length_append, List.length_singleton]

theorem symbolToString_wellFormed (wf : WellFormed m) {sym : Obj}
    (fit : Fit m gc (.symbolToString sym)) : (symbolToString m sym gc).Keeps WellFormed := by
  obtain ⟨safe, bound⟩ := fit
  unfold symbolToString
  split
  · rename_i n
    split
    · rename_i bytes known
      obtain ⟨length, here, text⟩ := symbol_size wf known
      have small := bound n rfl
      rw [text] at small
      have same : ((cText bytes).length + 1 : Int).bmod (2 ^ 32) = bytes.length := by
        rw [Int.bmod_eq_of_le] <;> omega
      rw [same]
      refine newString_wellFormed wf safe ?_ ?_ ?_
      · omega
      · omega
      intro room limit enough
      refine ⟨[], by omega, rfl, Nat.zero_le room, .inr ⟨n, rfl, rfl, here, ?_⟩⟩
      rw [text]
    · trivial
  · trivial

theorem intAdd_of_small {x y : Int} (low : -2 ^ 31 ≤ x + y) (high : x + y < 2 ^ 31) :
    intAdd x y = x + y := Int.bmod_eq_of_le (by omega) (by omega)

theorem stringCopyTo_wellFormed (wf : WellFormed m) {dest pos src : Obj}
    (fit : Fit m gc (.stringCopyTo dest pos src)) :
    (stringCopyTo m dest pos src).Keeps WellFormed := by
  unfold stringCopyTo
  split
  · rename_i n dst s w source number target
    have bound := fit w s number source
    have rep := rep_of_string wf source
    have positive := rep.positive
    split
    · rename_i allocated
      have own : dst.str = .block n := by
        rcases wf.place n dst target with own | ⟨k, borrowed⟩
        · exact own
        · rw [borrowed.allocated] at allocated
          cases allocated
      dsimp only
      split
      · rename_i range
        rw [intAdd_of_small (by omega) bound] at range
        rw [if_neg (by omega)]
        refine write_own wf _ target own range.1 ?_
        rw [length_bytes]
        omega
      · trivial
    · trivial
  · trivial

theorem stringSet_wellFormed (wf : WellFormed m) {str pos val : Obj}
    (fit : Fit m gc (.stringSet str pos val)) : (stringSet m str pos val).Keeps WellFormed := by
  unfold stringSet
  split
  · rename_i s w c string number character
    dsimp only
    split
    · rename_i range
      cases str with
      | heapString n =>
        rcases wf.place n s string with own | ⟨k, borrowed⟩
        · refine write_own wf _ string own range.1 ?_
          rw [List.length_singleton]
          omega
        · exact write_symbol wf borrowed range.1 range.2 (fit c s k character string borrowed.str)
      | constString n =>
        obtain ⟨k, literal⟩ := (wf.consts n s string).2
        rw [literal]
        trivial
      | _ => cases string
    · trivial
  · trivial

theorem stringRef_wellFormed (wf : WellFormed m) (str pos : Obj) :
    (stringRef m str pos).Keeps WellFormed := by
  unfold stringRef
  split
  · dsimp only
    split
    · exact wf
    · trivial
  · trivial

theorem stringLength_wellFormed (wf : WellFormed m) (str : Obj) :
    (stringLength m str).Keeps WellFormed := by
  unfold stringLength
  split
  · exact wf
  · trivial

theorem Rep.cstring {s : StringT} (rep : Rep m s) :
    CString.at (m.text s.str) = some (.truncate (m.text s.str)) :=
  if_pos (List.mem_of_getElem? rep.terminated)

theorem stringEq_wellFormed (wf : WellFormed m) (a b : Obj) :
    (stringEq m a b).Keeps WellFormed := by
  unfold stringEq
  split
  · rename_i s t first second
    rw [(rep_of_string wf first).cstring, (rep_of_string wf second).cstring]
    exact wf
  · trivial

/-- The memory with more symbols, and with more strings among the constants. -/
def grown (m : Memory) (symbols literals : List (List UInt8)) (consts : List StringT)
    (table : List (BitVec 32 × Nat)) : Memory :=
  { m with
    symbols := m.symbols ++ symbols
    literals := m.literals ++ literals
    consts := m.consts ++ consts
    symTable := table }

theorem text_grown {symbols literals : List (List UInt8)} {consts : List StringT}
    {table : List (BitVec 32 × Nat)} {r : Region} (known : (m.text r).length ≠ 0) :
    (grown m symbols literals consts table).text r = m.text r := by
  cases r with
  | symbol k =>
    have inside : k < m.symbols.length := by
      by_contra beyond
      simp [Memory.text, List.getElem?_eq_none (Nat.not_lt.mp beyond)] at known
    simp only [Memory.text, grown, List.getElem?_append_left inside]
  | literal k =>
    have inside : k < m.literals.length := by
      by_contra beyond
      simp [Memory.text, List.getElem?_eq_none (Nat.not_lt.mp beyond)] at known
    simp only [Memory.text, grown, List.getElem?_append_left inside]
  | _ => rfl

theorem string_grown {symbols literals : List (List UInt8)} {consts : List StringT}
    {table : List (BitVec 32 × Nat)} {n : Nat} {t : StringT}
    (string : (grown m symbols literals consts table).string (.constString n) = some t) :
    m.string (.constString n) = some t ∨ t ∈ consts := by
  have entry : (m.consts ++ consts)[n]? = some t := string
  by_cases old : n < m.consts.length
  · rw [List.getElem?_append_left old] at entry
    exact .inl entry
  · rw [List.getElem?_append_right (Nat.not_lt.mp old)] at entry
    exact .inr (List.mem_of_getElem? entry)

theorem wellFormed_grown (wf : WellFormed m) (symbols literals : List (List UInt8))
    (consts : List StringT) (table : List (BitVec 32 × Nat))
    (named : ∀ bytes ∈ symbols, ∃ name : CString, bytes = name.bytes ++ [0])
    (read : ∀ s ∈ consts, s.size < 2 ^ 31 ∧ Rep (grown m symbols literals consts table) s ∧
      ∃ k, s.str = .literal k) :
    WellFormed (grown m symbols literals consts table) := by
  have moved : ∀ t, Rep m t → Rep (grown m symbols literals consts table) t := by
    intro t rep
    have positive := rep.positive
    have inside := rep.inside
    have same : (grown m symbols literals consts table).text t.str = m.text t.str :=
      text_grown (by omega)
    constructor
    · exact positive
    · rw [same]
      exact inside
    · rw [same]
      exact rep.terminated
  constructor
  · intro o t string
    cases o with
    | heapString n => exact wf.small (.heapString n) t string
    | constString n =>
      rcases string_grown string with old | new
      · exact wf.small (.constString n) t old
      · exact (read t new).1
    | _ => cases string
  · intro n t string
    rcases wf.place n t string with own | ⟨k, borrowed⟩
    · exact .inl own
    · have known := borrowed.known
      refine .inr ⟨k, borrowed.str, borrowed.allocated, ?_, ?_⟩
      · unfold grown
        simp only [List.length_append]
        omega
      · have rep := rep_of_string (o := .heapString n) wf string
        have positive := rep.positive
        rw [text_grown]
        · exact borrowed.size
        · rw [← borrowed.str]
          have inside := rep.inside
          omega
  · intro n t string own
    exact moved t (wf.own n t string own)
  · intro n t string
    rcases string_grown string with old | new
    · exact ⟨moved t (wf.consts n t old).1, (wf.consts n t old).2⟩
    · exact (read t new).2
  · intro bytes member
    rcases List.mem_append.mp member with old | new
    · exact wf.symbols bytes old
    · exact named bytes new

theorem terminator_at {bytes : List UInt8} (zero : 0 ∈ bytes) :
    bytes[(cText bytes).length]? = some 0 := by
  induction bytes with
  | nil => cases zero
  | cons b rest ih =>
    by_cases here : b = 0
    · subst here
      simp [cText]
    · have later : 0 ∈ rest := by
        rcases List.mem_cons.mp zero with same | later
        · exact absurd same.symm here
        · exact later
      have step : cText (b :: rest) = b :: cText rest := by
        unfold cText
        rw [List.takeWhile_cons_of_pos (by simpa using here)]
      rw [step, List.length_cons, List.getElem?_cons_succ]
      exact ih later

theorem readString_wellFormed (wf : WellFormed m) {bytes : List UInt8}
    (fit : Fit m gc (.readString bytes)) : (readString m bytes).Keeps WellFormed := by
  obtain ⟨zero, small⟩ := fit
  unfold readString
  rw [if_pos zero]
  have terminated := terminator_at zero
  have whole : (cText bytes).length < bytes.length := (List.getElem?_eq_some_iff.mp terminated).1
  have same : ((cText bytes).length + 1 : Int).bmod (2 ^ 32) = (cText bytes).length + 1 := by
    rw [Int.bmod_eq_of_le] <;> omega
  rw [same]
  have kept := wellFormed_grown wf [] [bytes]
    [⟨.literal m.literals.length, (cText bytes).length + 1, false⟩] m.symTable (by simp) (by
      intro s member
      rw [List.mem_singleton] at member
      subst member
      have text : (grown m [] [bytes] [⟨.literal m.literals.length, (cText bytes).length + 1, false⟩]
          m.symTable).text (.literal m.literals.length) = bytes := by
        simp [grown, Memory.text]
      refine ⟨by simp only; omega, ⟨by simp only; omega, ?_, ?_⟩, _, rfl⟩
      · rw [text]
        simp only
        omega
      · rw [text]
        simpa using terminated)
  simp only [grown, List.append_nil] at kept
  exact kept

theorem makeSymbol_wellFormed (wf : WellFormed m) (name : CString) :
    WellFormed (makeSymbol m name).2 := by
  unfold makeSymbol
  split
  · exact wf
  · rename_i missing
    have kept := wellFormed_grown wf [name.bytes ++ [0]] [] []
      ((stringHash name.bytes, m.symbols.length) :: m.symTable) (by simp) (by simp)
    simpa [grown] using kept

theorem act_wellFormed (wf : WellFormed m) {a : Action} (fit : Fit m gc a) :
    (act m gc a).Keeps WellFormed := by
  cases a with
  | makeString len fill => exact makeString_wellFormed wf fit
  | stringConcat a b => exact stringConcat_wellFormed wf fit
  | stringCopyTo dest pos src => exact stringCopyTo_wellFormed wf fit
  | stringCopy src => exact stringCopy_wellFormed wf fit
  | symbolToString sym => exact symbolToString_wellFormed wf fit
  | stringRef str pos => exact stringRef_wellFormed wf str pos
  | stringSet str pos val => exact stringSet_wellFormed wf fit
  | stringLength str => exact stringLength_wellFormed wf str
  | stringEq a b => exact stringEq_wellFormed wf a b
  | substring str start stop => exact substring_wellFormed wf fit
  | makeSymbol name => exact makeSymbol_wellFormed wf name
  | readString bytes => exact readString_wellFormed wf fit
  | allocate =>
    change WellFormed (m.collect gc)
    rw [collect_eq wf fit]
    exact wf.outside gc.outside

theorem wellFormed_empty (outside : Region → Int → UInt8) :
    WellFormed (Memory.empty outside) := by
  constructor
  · intro o s string
    cases o <;> simp [Memory.string, Memory.empty] at string
  · intro n s string
    simp [Memory.string, Memory.empty] at string
  · intro n s string
    simp [Memory.string, Memory.empty] at string
  · intro n s string
    simp [Memory.string, Memory.empty] at string
  · simp [Memory.empty]

theorem run_wellFormed {m' : Memory} (wf : WellFormed m)
    (run : Relation.ReflTransGen (Step Fit) m m') : WellFormed m' :=
  run_keeps (fun _ _ _ wf fit => act_wellFormed wf fit) run wf

/-- The characters of a string. -/
def chars (m : Memory) (s : StringT) : List UInt8 := (m.text s.str).take (s.size - 1).toNat

theorem Rep.length_chars {s : StringT} (rep : Rep m s) :
    ((chars m s).length : Int) = s.size - 1 := by
  have positive := rep.positive
  have inside := rep.inside
  rw [chars, List.length_take, Nat.min_eq_left (by omega)]
  omega

theorem stringLength_chars {o : Obj} {s : StringT} (string : m.string o = some s)
    (rep : Rep m s) :
    stringLength m o = .ok (.word (makeFixnum (BitVec.ofNat 64 (chars m s).length))) m := by
  simp only [stringLength, string]
  rw [← rep.length_chars, BitVec.ofInt_natCast]

theorem stringRef_chars {o pos : Obj} {s : StringT} {w : Word} (string : m.string o = some s)
    (rep : Rep m s) (number : pos.asFixnum = some w) {i : Nat} (index : intOf w = i) {b : UInt8}
    (char : (chars m s)[i]? = some b) : stringRef m o pos = .ok (.word (charWord b)) m := by
  have below := (List.getElem?_eq_some_iff.mp char).1
  have length := rep.length_chars
  have inside := rep.inside
  have same : (m.text s.str)[i]? = some b := by
    rw [chars, List.getElem?_take] at char
    split at char
    · exact char
    · cases char
  simp only [stringRef, string, number, index]
  rw [if_pos (by omega), Memory.byte, if_pos (by omega), Int.toNat_natCast, same]
  rfl

theorem Rep.cText_chars {s : StringT} (rep : Rep m s) :
    cText (chars m s) = cText (m.text s.str) := by
  obtain ⟨below, zero⟩ := List.getElem?_eq_some_iff.mp rep.terminated
  have split : m.text s.str = chars m s ++ 0 :: (m.text s.str).drop ((s.size - 1).toNat + 1) := by
    rw [chars, ← zero, ← List.drop_eq_getElem_cons below, List.take_append_drop]
  rw [split, cText, cText, List.takeWhile_append]
  split
  · rename_i whole
    rw [List.takeWhile_cons_of_neg (by simp), List.append_nil]
    exact (List.takeWhile_prefix _).eq_of_length whole
  · rfl

theorem stringEq_chars {a b : Obj} {s t : StringT} (first : m.string a = some s)
    (second : m.string b = some t) (repS : Rep m s) (repT : Rep m t) :
    stringEq m a b = .ok (.word (cif (cText (chars m s) = cText (chars m t)))) m := by
  simp only [stringEq, first, second, repS.cstring, repT.cstring]
  rw [repS.cText_chars, repT.cText_chars]
  simp [CString.truncate, cText]

/-- The string v of m' has the characters from start up to stop of the string o of m. -/
structure Slice (m : Memory) (o : Obj) (start stop : Nat) (m' : Memory) (v : Obj) : Prop where
  length : stringLength m' v = .ok (.word (makeFixnum (BitVec.ofNat 64 (stop - start)))) m'
  chars : ∀ s, m.string o = some s → ∃ t, m'.string v = some t ∧
    StringShape.chars m' t = ((StringShape.chars m s).drop start).take (stop - start)
  ref : ∀ p q (x y : Word) (i : Nat), p.asFixnum = some x → q.asFixnum = some y → intOf x = i →
    intOf y = (start + i : Nat) → i < stop - start →
      ∃ c, stringRef m' v p = .ok c m' ∧ stringRef m o q = .ok c m
  eq : ∀ u s t, m.string o = some s → m'.string u = some t → stringEq m' v u =
    .ok (.word (cif (cText (((StringShape.chars m s).drop start).take (stop - start)) =
      cText (StringShape.chars m' t)))) m'

theorem getElem?_chars {s : StringT} {i : Nat} (below : i < s.size - 1) :
    (chars m s)[i]? = (m.text s.str)[i]? := by
  rw [chars, List.getElem?_take, if_pos (by omega)]

theorem chars_added {s : StringT} {room : Nat} {bytes : List UInt8}
    (str : s.str = .block m.heap.length) (size : s.size - 1 = bytes.length)
    (fits : bytes.length ≤ room) : chars (m.added s room bytes) s = bytes := by
  rw [chars, text_added, if_pos str, size, Int.toNat_natCast]
  apply List.ext_getElem?
  intro i
  rw [List.getElem?_take]
  by_cases below : i < bytes.length
  · rw [if_pos below, getElem?_filled fits (by omega), List.getElem?_eq_getElem below]
    rfl
  · rw [if_neg below, List.getElem?_eq_none (Nat.not_lt.mp below)]

theorem Rep.bytes_chars {s : StringT} (rep : Rep m s) {start stop : Nat} (ordered : start ≤ stop)
    (inside : stop < s.size) :
    m.bytes s.str start (stop - start) = ((chars m s).drop start).take (stop - start) := by
  have whole := rep.inside
  apply List.ext_getElem?
  intro i
  rw [List.getElem?_take, List.getElem?_drop]
  by_cases below : i < stop - start
  · rw [if_pos below, getElem?_bytes below (by omega), getElem?_chars (by omega)]
  · rw [if_neg below, List.getElem?_eq_none]
    rw [length_bytes]
    omega

theorem substring_slice (wf : WellFormed m) {o start stop v : Obj} {x y : Word} {m' : Memory}
    (fit : Fit m gc (.substring o start stop)) (first : start.asFixnum = some x)
    (last : stop.asFixnum = some y) (done : substring m o start stop gc = .ok v m') :
    Slice m o (intOf x).toNat (intOf y).toNat m' v := by
  have wf' : WellFormed m' := by
    have keeps := substring_wellFormed wf fit
    rw [done] at keeps
    exact keeps
  unfold substring at done
  rw [first, last] at done
  cases string : m.string o with
  | none =>
    rw [string] at done
    cases done
  | some s =>
    rw [string] at done
    dsimp only at done
    split at done
    · rename_i range
      have rep := rep_of_string wf string
      have small := wf.small o s string
      have string' : { m with outside := gc.outside }.string o = some s := string
      have rep' := rep_of_string (wf.outside gc.outside) string'
      obtain ⟨room, bytes, -, copied, fits, rfl, rfl⟩ := newString_ok done
      rw [collect_eq wf fit.1] at copied wf' ⊢
      have count : (intOf y - intOf x).toNat = (intOf y).toNat - (intOf x).toNat := by omega
      rw [string', Option.map_some, Option.some_inj, count,
        rep'.bytes_chars (by omega) (by omega)] at copied
      have length := congrArg List.length copied
      rw [List.length_take, List.length_drop] at length
      have all := rep.length_chars
      have same : chars { m with outside := gc.outside } s = chars m s := rfl
      rw [same] at copied length
      generalize new : StringT.mk (.block m.heap.length) (intOf y - intOf x + 1) true = t at wf' ⊢
      have string_v : (Memory.added { m with outside := gc.outside } t room bytes).string
          (.heapString m.heap.length) = some t := by
        rw [string_added]
        exact if_pos rfl
      have chars_v : chars (Memory.added { m with outside := gc.outside } t room bytes) t =
          bytes := by
        apply chars_added _ _ fits
        · rw [← new]
        · rw [← new]
          simp only
          omega
      have rep_v := rep_of_string wf' string_v
      constructor
      · rw [stringLength_chars string_v rep_v, chars_v]
        congr
        omega
      · intro s' known
        rw [string, Option.some_inj] at known
        subst known
        exact ⟨t, string_v, chars_v.trans copied.symm⟩
      · intro p q j k i index index' here there below
        have inside : (intOf x).toNat + i < (chars m s).length := by omega
        have char := List.getElem?_eq_getElem inside
        refine ⟨_, stringRef_chars string_v rep_v index here ?_,
          stringRef_chars string rep index' there char⟩
        rw [chars_v, ← copied, List.getElem?_take, if_pos below, List.getElem?_drop, char]
      · intro u s' t' known other
        rw [string, Option.some_inj] at known
        subst known
        rw [stringEq_chars string_v other rep_v (rep_of_string wf' other), chars_v, copied]
    · cases done

/- In a run of fitting actions. -/
theorem fitting_run_keeps_shape {outside : Region → Int → UInt8}
    (run : Relation.ReflTransGen (Step Fit) (Memory.empty outside) m) :
    (∀ o s, m.string o = some s → Rep m s) ∧
      (∀ gc a, Fit m gc a → (act m gc a).Keeps fun _ => True) ∧
      ∀ gc o start stop x y v m', Fit m gc (.substring o start stop) →
        start.asFixnum = some x → stop.asFixnum = some y →
        substring m o start stop gc = .ok v m' →
          Slice m o (intOf x).toNat (intOf y).toNat m' v := by
  have wf := run_wellFormed (wellFormed_empty outside) run
  constructor
  · intro o s string
    exact rep_of_string wf string
  · constructor
    · intro gc a fit
      exact (act_wellFormed wf fit).mono fun _ _ => trivial
    · intro gc o start stop x y v m' fit first last done
      exact substring_slice wf fit first last done

end invariant

/-- A collection that moves nothing. -/
def still : Collection := ⟨fun _ => false, fun _ _ => 0⟩

def clear : Memory := Memory.empty fun _ _ => 0

/-- The memory after (make-string n #\a) of a small n. -/
def filled (n : Nat) : Memory :=
  clear.added ⟨.block 0, n + 1, true⟩ (alignUp (n + 1)) (List.replicate n 97 ++ [0])

def fixnumObj (n : Nat) : Obj := .word (makeFixnum (BitVec.ofNat 64 n))

theorem makeString_eight :
    makeString clear (fixnumObj 8) (.word (charWord 97)) still = .ok (.heapString 0) (filled 8) := by
  have number : (fixnumObj 8).asFixnum = some 64#64 := by decide
  have character : (Obj.word (charWord 97)).asChar = some (charWord 97) := by decide
  have count : (fixnum 64#64).toNat = 8 := by decide
  have fill : charByte (charWord 97) = 97 := by decide
  have alloc : heapAlloc (16 + (8 : Nat) + 1) = .block 16 := by decide
  unfold makeString
  rw [number, character]
  dsimp only
  rw [count, fill]
  unfold Memory.newString
  rw [alloc]
  rfl

/- The text of all eight characters has a block of eight bytes, with no room for the
   terminator. -/
theorem substring_eight :
    substring (filled 8) (.heapString 0) (fixnumObj 0) (fixnumObj 8) still =
      .ok (.heapString 1) ((filled 8).added ⟨.block 1, 9, true⟩ 8 (List.replicate 8 97)) := by
  have first : (fixnumObj 0).asFixnum = some 0#64 := by decide
  have last : (fixnumObj 8).asFixnum = some 64#64 := by decide
  have start : intOf 0#64 = 0 := by decide
  have stop : intOf 64#64 = 8 := by decide
  have alloc : heapAlloc (8 - 0 + 16) = .block 8 := by decide
  have string : (filled 8).string (.heapString 0) = some ⟨.block 0, 9, true⟩ := rfl
  unfold substring
  rw [string, first, last]
  dsimp only
  rw [start, stop, if_pos (by decide)]
  unfold Memory.newString
  rw [alloc]
  rfl

/- The terminator is missing in a run that takes all of a string. -/
theorem unterminated_slice : ∃ m v s,
    Relation.ReflTransGen (Step fun _ _ _ => True) clear m ∧ m.string v = some s ∧ ¬Rep m s ∧
      ¬(act m still (.stringEq v v)).Keeps fun _ => True := by
  have first : Step (fun _ _ _ => True) clear (filled 8) :=
    ⟨still, .makeString (fixnumObj 8) (.word (charWord 97)), trivial,
      congrArg (Outcome.after clear) makeString_eight⟩
  have second : Step (fun _ _ _ => True) (filled 8) _ :=
    ⟨still, .substring (.heapString 0) (fixnumObj 0) (fixnumObj 8), trivial,
      congrArg (Outcome.after (filled 8)) substring_eight⟩
  have missing : act ((filled 8).added ⟨.block 1, 9, true⟩ 8 (List.replicate 8 97)) still
      (.stringEq (.heapString 1) (.heapString 1)) = .undefined := rfl
  refine ⟨_, .heapString 1, ⟨.block 1, 9, true⟩, .tail (.tail .refl first) second, rfl, ?_, ?_⟩
  · intro rep
    exact absurd rep.inside (by decide)
  · rw [missing]
    exact id

theorem fitting_run_keeps_eight :
    (∀ o s, (filled 8).string o = some s → Rep (filled 8) s) ∧
      Slice (filled 8) (.heapString 0) 2 5
        ((filled 8).added ⟨.block 1, 4, true⟩ 8 (List.replicate 3 97)) (.heapString 1) := by
  have number : (fixnumObj 8).asFixnum = some 64#64 := by decide
  have first : (fixnumObj 2).asFixnum = some 16#64 := by decide
  have last : (fixnumObj 5).asFixnum = some 40#64 := by decide
  have start : intOf 16#64 = 2 := by decide
  have stop : intOf 40#64 = 5 := by decide
  have safe : ∀ m, Safe m still := fun m n s moves => by cases moves
  have fit : Fit clear still (.makeString (fixnumObj 8) (.word (charWord 97))) := by
    refine ⟨safe _, ?_⟩
    intro w same
    rw [number, Option.some_inj] at same
    rw [← same]
    decide
  have run : Relation.ReflTransGen (Step Fit) clear (filled 8) :=
    .single ⟨still, _, fit, congrArg (Outcome.after clear) makeString_eight⟩
  have inner : Fit (filled 8) still (.substring (.heapString 0) (fixnumObj 2) (fixnumObj 5)) := by
    refine ⟨safe _, ?_⟩
    intro v w from_two to_five
    rw [first, Option.some_inj] at from_two
    rw [last, Option.some_inj] at to_five
    rw [← from_two, ← to_five]
    decide
  have done : substring (filled 8) (.heapString 0) (fixnumObj 2) (fixnumObj 5) still =
      .ok (.heapString 1) ((filled 8).added ⟨.block 1, 4, true⟩ 8 (List.replicate 3 97)) := by
    have string : (filled 8).string (.heapString 0) = some ⟨.block 0, 9, true⟩ := rfl
    have alloc : heapAlloc (5 - 2 + 16) = .block 8 := by decide
    unfold substring
    rw [string, first, last]
    dsimp only
    rw [start, stop, if_pos (by decide)]
    unfold Memory.newString
    rw [alloc]
    rfl
  obtain ⟨shape, -, slices⟩ := fitting_run_keeps_shape run
  have slice := slices still _ _ _ _ _ _ _ inner first last done
  rw [start, stop] at slice
  exact ⟨shape, slice⟩

end LGears.StringShape
