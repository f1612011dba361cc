import LGears.CoreStrings
import LGears.Library.Runs

/- The procedure string-split of core.strings. Its pieces may lack a terminator: substring allocates
   no byte for it. -/
namespace LGears.StringSplit
open Tagged hiding Obj
open Opcode Arithmetic Strings StringShape StringTexts CoreStrings StateExcept Runs

section procedures
variable (gc : Nat → Collection)

/-- (memq val lst) for objects that are compared as words. -/
def memq (val : Obj) : List Obj → Option (List Obj)
  | [] => none
  | o :: lst => if o = val then some (o :: lst) else memq val lst

/-- (match? n) -/
def isMatch (str : Obj) (sep : List Obj) (n : Word) : Proc Bool := do
  return (memq (← stringRef gc str n) sep).isSome

/-- (substring str start end) -/
def substring (str : Obj) (start stop : Word) : Proc Obj :=
  perform gc (.substring str (.word start) (.word stop))

/-- (list o) -/
def list (o : Obj) : Proc (List Obj) := cons gc o []

/-- The loop of string-split. -/
def splitLoop (str : Obj) (sep : List Obj) (len : Word) : Nat → Word → Word → Proc (List Obj)
  | 0, _, _ => stop .fuel
  | fuel + 1, last, pos => do
    let ss (l : Word) := substring gc str last l
    if equal pos (← operate .opSub len (num 1)) then
      if ← isMatch gc str sep pos then
        if equal (← operate .opSub len (num 1)) last then
          return []
        else
          let l ← if ← isMatch gc str sep pos then operate .opSub len (num 1) else pure len
          list gc (← ss l)
      else
        list gc (← ss len)
    else if ← isMatch gc str sep pos then
      if equal last pos then
        let last ← operate .opAdd (num 1) last
        let pos ← operate .opAdd (num 1) pos
        splitLoop str sep len fuel last pos
      else
        let piece ← ss pos
        let last ← operate .opAdd (num 1) pos
        let pos ← operate .opAdd (num 1) pos
        let rest ← splitLoop str sep len fuel last pos
        cons gc piece rest
    else
      let pos ← operate .opAdd (num 1) pos
      splitLoop str sep len fuel last pos

/-- (string-split str sep) -/
def stringSplit (fuel : Nat) (str : Obj) (sep : List Obj) : Proc (List Obj) := do
  let len ← stringLength gc str
  splitLoop gc str sep len fuel (num 0) (num 0)

end procedures

/- The characters of strings that may lack a terminator. -/

structure Sound (m : Memory) : Prop where
  sized : ∀ o s, m.string o = some s →
    1 ≤ s.size ∧ s.size < 2 ^ 31 ∧ s.size - 1 ≤ (m.text s.str).length
  place : ∀ n s, m.string (.heapString n) = some s →
    s.str = .block n ∨ (s.allocated = false ∧ ∃ k, s.str = .symbol k)
  consts : ∀ n s, m.string (.constString n) = some s → ∃ k, s.str = .literal k

section memory
variable {m m' : Memory} {gc : Collection} {o v : Obj} {x : List UInt8}

theorem sound_of_wellFormed (wf : WellFormed m) : Sound m where
  sized o s string := by
    have rep := rep_of_string wf string
    have inside := rep.inside
    exact ⟨rep.positive, wf.small o s string, by omega⟩
  place n s string := by
    rcases wf.place n s string with own | ⟨k, borrowed⟩
    · exact .inl own
    · exact .inr ⟨borrowed.allocated, k, borrowed.str⟩
  consts n s string := (wf.consts n s string).2

theorem Sound.outside (sound : Sound m) (outside : Region → Int → UInt8) :
    Sound { m with outside := outside } :=
  ⟨sound.sized, sound.place, sound.consts⟩

theorem Sound.length (sound : Sound m) {s : StringT} (string : m.string o = some s) :
    ((chars m s).length : Int) = s.size - 1 := by
  obtain ⟨positive, _, inside⟩ := sound.sized o s string
  rw [chars, List.length_take, Nat.min_eq_left (by omega)]
  omega

theorem Sound.old (sound : Sound m) {s : StringT} (string : m.string o = some s) :
    s.str ≠ .block m.heap.length := by
  cases o with
  | heapString n =>
    rcases sound.place n s string with own | ⟨_, k, shared⟩
    · rw [own]
      intro same
      rw [Region.block.inj same, Memory.string, List.getElem?_eq_none (Nat.le_refl _)] at string
      cases string
    · simp [shared]
  | constString n =>
    obtain ⟨k, literal⟩ := sound.consts n s string
    simp [literal]
  | _ => cases string

/- A new string of n characters. -/
section added
variable {room : Nat} {bytes : List UInt8}

def newPiece (m : Memory) (n : Nat) : StringT := ⟨.block m.heap.length, n + 1, true⟩

theorem text_piece (fits : bytes.length ≤ room) :
    ((m.added (newPiece m bytes.length) room bytes).text (.block m.heap.length)).length = room := by
  rw [text_added, if_pos rfl, length_filled fits]

theorem string_piece {o : Obj} {s : StringT}
    (string : (m.added (newPiece m bytes.length) room bytes).string o = some s) :
    (o = .heapString m.heap.length ∧ s = newPiece m bytes.length) ∨ m.string o = some s := by
  cases o with
  | heapString n =>
    rw [string_added] at string
    split at string
    · rename_i new
      cases string
      exact .inl ⟨congrArg Obj.heapString new, rfl⟩
    · exact .inr string
  | constString n => exact .inr string
  | _ => cases string

theorem Sound.added (sound : Sound m) (small : bytes.length + 1 < 2 ^ 31)
    (fits : bytes.length ≤ room) : Sound (m.added (newPiece m bytes.length) room bytes) where
  sized o s string := by
    rcases string_piece string with ⟨_, rfl⟩ | old
    · have filled := text_piece (m := m) fits
      have size : (newPiece m bytes.length).size = bytes.length + 1 := rfl
      have str : (newPiece m bytes.length).str = .block m.heap.length := rfl
      rw [str, filled, size]
      omega
    · rw [text_added, if_neg (sound.old old)]
      exact sound.sized o s old
  place n s string := by
    rcases string_piece string with ⟨new, rfl⟩ | old
    · cases new
      exact .inl rfl
    · exact sound.place n s old
  consts n s string := sound.consts n s string

theorem Safe.added (safe : Safe m gc) :
    Safe (m.added (newPiece m bytes.length) room bytes) gc := by
  intro n s moves string own
  rcases string_piece string with ⟨_, rfl⟩ | old
  · rfl
  · exact safe n s moves old own

theorem Sound.text_added (sound : Sound m) (here : textOf m o = some x) :
    textOf (m.added (newPiece m bytes.length) room bytes) o = some x := by
  obtain ⟨s, string, same⟩ := textOf_some.mp here
  have string' : (m.added (newPiece m bytes.length) room bytes).string o = some s :=
    string_added_old string
  refine textOf_some.mpr ⟨s, string', ?_⟩
  rw [chars, StringShape.text_added, if_neg (sound.old string)]
  exact same

theorem text_new (fits : bytes.length ≤ room) :
    textOf (m.added (newPiece m bytes.length) room bytes) (.heapString m.heap.length) =
      some bytes := by
  have string : (m.added (newPiece m bytes.length) room bytes).string
      (.heapString m.heap.length) = some (newPiece m bytes.length) := by
    rw [string_added, if_pos rfl]
  refine textOf_some.mpr ⟨_, string, chars_added rfl ?_ fits⟩
  show ((bytes.length : Int) + 1) - 1 = bytes.length
  omega

end added

end memory

section primitives
variable {gc : Nat → Collection} {w u w' : World} {o v : Obj} {x : List UInt8}

/-- The characters of the strings are there, and the collections do not spoil them. -/
structure Fair (gc : Nat → Collection) (w : World) : Prop where
  sound : Sound w.memory
  safe : ∀ t, Safe w.memory (gc t)

theorem Fair.same (fair : Fair gc w) (memory : w'.memory = w.memory) : Fair gc w' :=
  ⟨memory ▸ fair.sound, memory ▸ fair.safe⟩

theorem small_length (fair : Fair gc w) (text : textOf w.memory o = some x) :
    x.length < 2 ^ 31 - 1 := by
  obtain ⟨s, string, rfl⟩ := textOf_some.mp text
  have length := fair.sound.length string
  have small := (fair.sound.sized o s string).2.1
  omega

/-- The character of a byte is one of the separators. -/
def isSep (sep : List Obj) (b : UInt8) : Bool := decide (charObj b ∈ sep)

theorem memq_isSome (val : Obj) (sep : List Obj) : (memq val sep).isSome = decide (val ∈ sep) := by
  induction sep with
  | nil => rfl
  | cons o sep ih =>
    rw [memq]
    by_cases same : o = val
    · simp [same]
    · rw [if_neg same, ih]
      simp [Ne.symm same]

theorem isMatch_returns (fair : Fair gc w) (text : textOf w.memory o = some x) (sep : List Obj)
    {i : Nat} {b : UInt8} (char : x[i]? = some b) :
    ∃ u, Returns (isMatch gc o sep (num i)) w (isSep sep b) u ∧ u.memory = w.memory ∧
      u.budget = w.budget := by
  have small := small_length fair text
  have inside := (List.getElem?_eq_some_iff.mp char).1
  obtain ⟨s, string, rfl⟩ := textOf_some.mp text
  have length := fair.sound.length string
  have index : intOf (num i) = i := CoreStrings.intOf_small (by omega) (by omega)
  have byte : w.memory.byte s.str i = b := by
    rw [chars, List.getElem?_take] at char
    split at char
    · rw [Memory.byte, if_pos (by omega), Int.toNat_natCast, char]
      rfl
    · cases char
  have done : act w.memory (gc w.clock) (.stringRef o (.word (num i))) =
      .ok (charObj b) w.memory := by
    simp only [act, Strings.stringRef, string, asFixnum_num, index]
    rw [if_pos (by omega), byte]
    rfl
  have first : Returns (CoreStrings.stringRef gc o (num i)) w (charObj b)
      { w with clock := w.clock + 1, asked := w.asked ++ [(o, num i)] } :=
    returns_perform.mpr ⟨_, done, Nat.zero_le _, rfl⟩
  refine ⟨{ w with clock := w.clock + 1, asked := w.asked ++ [(o, num i)] }, ?_, rfl, rfl⟩
  rw [isMatch, returns_after first, memq_isSome]
  exact returns_pure.mpr ⟨rfl, rfl⟩

theorem isMatch_end (fair : Fair gc w) (text : textOf w.memory o = some x) {sep : List Obj}
    {i : Nat} (high : x.length ≤ i) (bound : i < 2 ^ 31) {r : Bool} :
    ¬ Returns (isMatch gc o sep (num i)) w r w' := by
  intro returned
  rw [isMatch, returns_bind] at returned
  obtain ⟨c, u, char, _⟩ := returned
  obtain ⟨m, done, _⟩ := returns_perform.mp char
  obtain ⟨s, string, rfl⟩ := textOf_some.mp text
  have length := fair.sound.length string
  have index : intOf (num i) = i := CoreStrings.intOf_small (by omega) (by omega)
  simp only [act, Strings.stringRef, string, asFixnum_num, index] at done
  rw [if_neg (by omega)] at done
  cases done

theorem length_returns (fair : Fair gc w) (text : textOf w.memory o = some x) :
    ∃ u, Returns (CoreStrings.stringLength gc o) w (num x.length) u ∧ u.memory = w.memory ∧
      u.budget = w.budget := by
  obtain ⟨s, string, rfl⟩ := textOf_some.mp text
  have done : act w.memory (gc w.clock) (.stringLength o) =
      .ok (.word (num (chars w.memory s).length)) w.memory := by
    simp only [act, Strings.stringLength, string]
    rw [fair.sound.length string]
    rfl
  refine ⟨{ w with clock := w.clock + 1 }, ?_, rfl, rfl⟩
  rw [CoreStrings.stringLength, returns_after (returns_perform.mpr ⟨_, done, Nat.zero_le _, rfl⟩)]
  exact returns_pure.mpr ⟨rfl, rfl⟩

theorem collected (fair : Fair gc w) (t : Nat) :
    w.memory.collect (gc t) = { w.memory with outside := (gc t).outside } :=
  collect_placed fair.sound.place (fair.safe t)

theorem pair_returns (fair : Fair gc w) (enough : 0 < w.budget) (a : Obj) (d : List Obj) :
    ∃ u, Returns (cons gc a d) w (a :: d) u ∧ Fair gc u ∧ Keeps w u ∧ w.budget = u.budget + 1 := by
  have done : Returns (perform gc .allocate) w (.word (makeObj 3 tagConst))
      { w with
        memory := w.memory.collect (gc w.clock)
        clock := w.clock + 1
        budget := w.budget - 1 } :=
    returns_perform.mpr ⟨_, rfl, enough, rfl⟩
  refine ⟨{ w with
    memory := w.memory.collect (gc w.clock)
    clock := w.clock + 1
    budget := w.budget - 1 }, ?_, ?_, ⟨?_, ?_⟩, (Nat.sub_add_cancel enough).symm⟩
  · rw [cons, returns_after done]
    exact returns_pure.mpr ⟨rfl, rfl⟩
  · constructor
    · rw [collected fair]
      exact fair.sound.outside _
    · rw [collected fair]
      exact fair.safe
  · intro o x text
    dsimp only
    rw [collected fair]
    exact text
  · intro o s string
    dsimp only
    rw [collected fair]
    exact string

/-- A piece of n characters has room in the fresh space. -/
def PieceRoom (n : Nat) : Prop := alignUp (16 + n) + 8 ≤ freshSize

theorem heapAlloc_piece {n : Nat} (room : PieceRoom n) :
    ∃ bytes, heapAlloc (n + 16) = .block bytes ∧ n ≤ bytes := by
  unfold PieceRoom at room
  have above := le_alignUp (16 + n)
  have small : alignUp (16 + n) ≤ 2 ^ 17 := by
    unfold freshSize at room
    omega
  have wrapped : ((n : Int) + 16).bmod (2 ^ 32) = n + 16 :=
    Int.bmod_eq_of_le (by omega) (by omega)
  have count : ((n : Int) + 16).toNat = 16 + n := by omega
  refine ⟨alignUp (16 + n) - 16, ?_, by omega⟩
  unfold heapAlloc
  simp only [wrapped, count]
  rw [if_neg (by omega), if_neg (by omega), if_neg (by omega)]

theorem pieceRoom_of_block {n bytes : Nat} (bound : n < 2 ^ 31 - 1)
    (alloc : heapAlloc (n + 16) = .block bytes) : PieceRoom n := by
  unfold heapAlloc at alloc
  dsimp only at alloc
  split at alloc
  · cases alloc
  · split at alloc
    · cases alloc
    · split at alloc
      · cases alloc
      · rename_i low enough full
        have wrapped : ((n : Int) + 16).bmod (2 ^ 32) = n + 16 := by
          rw [Int.bmod_def] at *
          omega
        have count : ((n : Int) + 16).toNat = 16 + n := by omega
        rw [wrapped, count] at full
        exact Nat.not_lt.mp full

theorem bytes_part {m : Memory} {s : StringT} (whole : ((chars m s).length : Int) = s.size - 1)
    {i j : Nat} (inside : j ≤ (chars m s).length) :
    m.bytes s.str i (j - i) = ((chars m s).drop i).take (j - i) := by
  apply List.ext_getElem?
  intro k
  rw [List.getElem?_take, List.getElem?_drop]
  have limit : (chars m s).length ≤ (m.text s.str).length := by
    rw [chars, List.length_take]
    exact Nat.min_le_right _ _
  by_cases below : k < j - i
  · rw [if_pos below, getElem?_bytes below (by omega), getElem?_chars (by omega)]
  · rw [if_neg below, List.getElem?_eq_none]
    rw [length_bytes]
    omega

theorem substring_eq (fair : Fair gc w) (text : textOf w.memory o = some x) {i j : Nat}
    (ordered : i ≤ j) (inside : j ≤ x.length) :
    ∃ copy : Memory → Option (List UInt8),
      copy (w.memory.collect (gc w.clock)) = some ((x.drop i).take (j - i)) ∧
      act w.memory (gc w.clock) (.substring o (.word (num i)) (.word (num j))) =
        w.memory.newString ((j - i : Nat) + 16) .block ((j - i : Nat) + 1) true copy
          (gc w.clock) := by
  have small := small_length fair text
  obtain ⟨s, string, rfl⟩ := textOf_some.mp text
  have length := fair.sound.length string
  have first : intOf (num i) = i := CoreStrings.intOf_small (by omega) (by omega)
  have last : intOf (num j) = j := CoreStrings.intOf_small (by omega) (by omega)
  have total : (j : Int) - i + 16 = (j - i : Nat) + 16 := by omega
  have size : (j : Int) - i + 1 = (j - i : Nat) + 1 := by omega
  have count : ((j : Int) - i).toNat = j - i := by omega
  refine ⟨fun m => (m.string o).map fun str => m.bytes str.str i (j - i), ?_, ?_⟩
  · have part := bytes_part (m := { w.memory with outside := (gc w.clock).outside }) length inside
      (i := i)
    rw [collected fair]
    show (w.memory.string o).map _ = _
    rw [string, Option.map_some]
    exact congrArg some part
  · simp only [act, Strings.substring, string, asFixnum_num, first, last]
    rw [if_pos ⟨by omega, by omega, by omega⟩, total, size, Int.toNat_natCast, count]

theorem length_part {i j : Nat} (inside : j ≤ x.length) :
    ((x.drop i).take (j - i)).length = j - i := by
  rw [List.length_take, List.length_drop]
  omega

theorem substring_returns (fair : Fair gc w) (text : textOf w.memory o = some x) {i j : Nat}
    (ordered : i ≤ j) (inside : j ≤ x.length) (room : PieceRoom (j - i)) (enough : 0 < w.budget) :
    ∃ v u, Returns (substring gc o (num i) (num j)) w v u ∧ Fair gc u ∧ Keeps w u ∧
      textOf u.memory v = some ((x.drop i).take (j - i)) ∧ w.budget = u.budget + 1 := by
  have small := small_length fair text
  obtain ⟨bytes, alloc, fits⟩ := heapAlloc_piece room
  obtain ⟨copy, copied, done⟩ := substring_eq fair text ordered inside
  rw [← length_part inside] at fits
  rw [newString_done alloc copied fits, collected fair] at done
  have length := length_part (x := x) (i := i) inside
  generalize (x.drop i).take (j - i) = y at *
  rw [← length] at done
  have small : y.length + 1 < 2 ^ 31 := by omega
  have sound := fair.sound.outside (gc w.clock).outside
  refine ⟨_, _, returns_perform.mpr ⟨_, done, enough, rfl⟩, ⟨sound.added small fits, ?_⟩,
    ⟨?_, ?_⟩, ?_, (Nat.sub_add_cancel enough).symm⟩
  · intro t
    exact Safe.added (m := { w.memory with outside := (gc w.clock).outside }) (fair.safe t)
  · intro o z here
    exact sound.text_added here
  · intro o s here
    exact string_added_old (m := { w.memory with outside := (gc w.clock).outside }) here
  · exact text_new (m := { w.memory with outside := (gc w.clock).outside }) fits

theorem substring_room (fair : Fair gc w) (text : textOf w.memory o = some x) {i j : Nat}
    (ordered : i ≤ j) (inside : j ≤ x.length)
    (returned : Returns (substring gc o (num i) (num j)) w v u) : PieceRoom (j - i) := by
  have small := small_length fair text
  obtain ⟨m, done, _⟩ := returns_perform.mp returned
  obtain ⟨copy, _, equal⟩ := substring_eq fair text ordered inside
  rw [equal] at done
  obtain ⟨room, bytes, alloc, _⟩ := newString_ok done
  exact pieceRoom_of_block (by omega) alloc

end primitives

section loop
variable {gc : Nat → Collection} {w w' : World} {o : Obj} {sep : List Obj} {x : List UInt8}

/-- What the loop does at a position, by what has been found there. -/
def splitStep (gc : Nat → Collection) (str : Obj) (len last pos : Nat) (found : Bool)
    (loop : Nat → Nat → Proc (List Obj)) : Proc (List Obj) :=
  if pos + 1 = len then
    if found then
      if last = pos then pure [] else substring gc str (num last) (num pos) >>= list gc
    else substring gc str (num last) (num len) >>= list gc
  else if found then
    if last = pos then loop (pos + 1) (pos + 1)
    else do
      let piece ← substring gc str (num last) (num pos)
      let rest ← loop (pos + 1) (pos + 1)
      cons gc piece rest
  else loop last (pos + 1)

theorem operate_returns {op : Op} {a b n : Int} (exact_ : exactOp op a b = some n) :
    Returns (operate op (num a) (num b)) w (num n) w :=
  (returns_operate exact_).mpr ⟨rfl, rfl⟩

theorem exact_next (n : Nat) : exactOp .opAdd 1 (n : Int) = some ((n + 1 : Nat) : Int) := by
  rw [exactOp, Int.add_comm]
  rfl

variable (sep) in
theorem splitLoop_step (fair : Fair gc w) (text : textOf w.memory o = some x) {last pos : Nat}
    (le : last ≤ pos) {b : UInt8} (char : x[pos]? = some b) :
    ∃ u, u.memory = w.memory ∧ u.budget = w.budget ∧ ∀ fuel l w',
      Returns (splitLoop gc o sep (num x.length) (fuel + 1) (num last) (num pos)) w l w' ↔
        Returns (splitStep gc o x.length last pos (isSep sep b) fun last pos =>
          splitLoop gc o sep (num x.length) fuel (num last) (num pos)) u l w' := by
  have small := small_length fair text
  have inside := (List.getElem?_eq_some_iff.mp char).1
  have before : ∀ {w : World}, Returns (operate .opSub (num x.length) (num 1)) w
      (num (x.length - 1 : Nat)) w := by
    intro w
    apply operate_returns
    rw [exactOp, Int.ofNat_sub (by omega)]
    rfl
  have after : ∀ {w : World} (n : Nat), Returns (operate .opAdd (num 1) (num n)) w
      (num (n + 1 : Nat)) w := fun n => operate_returns (exact_next n)
  have same : ∀ {i j : Nat}, i < x.length → j < x.length →
      equal (num i) (num j) = decide (i = j) := by
    intro i j low low'
    rw [equal_num (by omega) (by omega) (by omega) (by omega)]
    simp
  obtain ⟨u, found, memory, budget⟩ := isMatch_returns fair text sep char
  have here := same inside (show x.length - 1 < x.length by omega)
  have there := same (show x.length - 1 < x.length by omega) (show last < x.length by omega)
  have meet := same (show last < x.length by omega) inside
  by_cases end_ : pos + 1 = x.length
  · rw [decide_eq_true (by omega)] at here
    cases sep_b : isSep sep b with
    | false =>
      rw [sep_b] at found
      refine ⟨u, memory, budget, ?_⟩
      intro fuel l w'
      rw [splitStep, if_pos end_, if_neg Bool.false_ne_true, splitLoop, returns_after before, here,
        if_pos rfl, returns_after found, if_neg Bool.false_ne_true]
    | true =>
      rw [sep_b] at found
      by_cases empty : last = pos
      · rw [decide_eq_true (by omega)] at there
        refine ⟨u, memory, budget, ?_⟩
        intro fuel l w'
        rw [splitStep, if_pos end_, if_pos rfl, if_pos empty, splitLoop, returns_after before, here,
          if_pos rfl, returns_after found, if_pos rfl, returns_after before, there, if_pos rfl]
      · rw [decide_eq_false (by omega)] at there
        obtain ⟨v, again, memory', budget'⟩ :=
          isMatch_returns (fair.same memory) (memory ▸ text) sep char
        rw [sep_b] at again
        have last_pos : x.length - 1 = pos := by omega
        refine ⟨v, memory'.trans memory, budget'.trans budget, ?_⟩
        intro fuel l w'
        rw [splitStep, if_pos end_, if_pos rfl, if_neg empty, splitLoop, returns_after before, here,
          if_pos rfl, returns_after found, if_pos rfl, returns_after before, there,
          if_neg Bool.false_ne_true, returns_after again, if_pos rfl, returns_after before, last_pos]
  · rw [decide_eq_false (by omega)] at here
    cases sep_b : isSep sep b with
    | false =>
      rw [sep_b] at found
      refine ⟨u, memory, budget, ?_⟩
      intro fuel l w'
      rw [splitStep, if_neg end_, if_neg Bool.false_ne_true, splitLoop, returns_after before, here,
        if_neg Bool.false_ne_true, returns_after found, if_neg Bool.false_ne_true,
        returns_after (after pos)]
    | true =>
      rw [sep_b] at found
      refine ⟨u, memory, budget, ?_⟩
      intro fuel l w'
      rw [splitStep, if_neg end_, if_pos rfl, splitLoop, returns_after before, here,
        if_neg Bool.false_ne_true, returns_after found, if_pos rfl, meet]
      by_cases empty : last = pos
      · rw [decide_eq_true empty, if_pos rfl, if_pos empty, returns_after (after last),
          returns_after (after pos), empty]
      · rw [decide_eq_false empty, if_neg Bool.false_ne_true, if_neg empty, returns_bind,
          returns_bind]
        apply exists_congr
        intro piece
        apply exists_congr
        intro t
        rw [returns_after (after pos), returns_after (after pos)]

theorem drop_split {last pos : Nat} (le : last ≤ pos) {b : UInt8} (char : x[pos]? = some b) :
    x.drop last = (x.drop last).take (pos - last) ++ b :: x.drop (pos + 1) := by
  obtain ⟨inside, same⟩ := List.getElem?_eq_some_iff.mp char
  have behind : (x.drop last).drop (pos - last) = b :: x.drop (pos + 1) := by
    rw [List.drop_drop, ← same, show last + (pos - last) = pos by omega]
    exact List.drop_eq_getElem_cons inside
  rw [← behind, List.take_append_drop]

theorem run_next {last pos : Nat} (le : last ≤ pos) {b : UInt8} (char : x[pos]? = some b) :
    (x.drop last).take (pos + 1 - last) = (x.drop last).take (pos - last) ++ [b] := by
  rw [show pos + 1 - last = pos - last + 1 by omega, List.take_add_one, List.getElem?_drop,
    show last + (pos - last) = pos by omega, char]
  rfl

theorem run_some {last pos : Nat} (lt : last < pos) (inside : pos < x.length) :
    (x.drop last).take (pos - last) ≠ [] := by
  intro empty
  have length := length_part (x := x) (i := last) inside.le
  rw [empty, List.length_nil] at length
  omega

/-- No separator from last up to pos. -/
def Free (sep : List Obj) (x : List UInt8) (last pos : Nat) : Prop :=
  ∀ c ∈ (x.drop last).take (pos - last), isSep sep c = false

theorem Free.next {last pos : Nat} (free : Free sep x last pos) (le : last ≤ pos) {b : UInt8}
    (char : x[pos]? = some b) (other : isSep sep b = false) : Free sep x last (pos + 1) := by
  intro c member
  rw [run_next le char] at member
  rcases List.mem_append.mp member with before | here
  · exact free c before
  · rw [List.mem_singleton.mp here]
    exact other

theorem free_start (n : Nat) : Free sep x n n := by
  intro c member
  rw [Nat.sub_self, List.take_zero] at member
  cases member

/- The pieces from last on, by what is found at pos. -/

theorem cut_end {n : Nat} (beyond : x.length ≤ n) : Cut (isSep sep) (x.drop n) [] := by
  rw [List.drop_eq_nil_of_le beyond]
  exact .nil

theorem cut_skip {pos : Nat} {b : UInt8} (char : x[pos]? = some b) (found : isSep sep b = true)
    {ys : List (List UInt8)} (rest : Cut (isSep sep) (x.drop (pos + 1)) ys) :
    Cut (isSep sep) (x.drop pos) ys := by
  have split := drop_split (Nat.le_refl pos) char
  rw [Nat.sub_self, List.take_zero, List.nil_append] at split
  rw [split]
  exact .skip found rest

theorem cut_piece {last pos : Nat} (lt : last < pos) (free : Free sep x last pos) {b : UInt8}
    (char : x[pos]? = some b) (found : isSep sep b = true) {ys : List (List UInt8)}
    (rest : Cut (isSep sep) (x.drop (pos + 1)) ys) :
    Cut (isSep sep) (x.drop last) ((x.drop last).take (pos - last) :: ys) := by
  have whole := Cut.piece (run_some lt (List.getElem?_eq_some_iff.mp char).1) free found rest
  rw [← drop_split lt.le char] at whole
  exact whole

theorem cut_last {last : Nat} (lt : last < x.length) (free : Free sep x last x.length) :
    Cut (isSep sep) (x.drop last) [(x.drop last).take (x.length - last)] := by
  have whole : (x.drop last).take (x.length - last) = x.drop last :=
    List.take_of_length_le (by rw [List.length_drop])
  rw [Free, whole] at free
  rw [whole]
  apply Cut.last _ free
  intro none
  have length := congrArg List.length none
  rw [List.length_drop, List.length_nil] at length
  omega

/-- The texts of the pieces. -/
def Texts (w : World) (l : List Obj) (ys : List (List UInt8)) : Prop :=
  List.Forall₂ (fun o y => textOf w.memory o = some y) l ys

theorem Texts.keeps {l : List Obj} {ys : List (List UInt8)} (texts : Texts w l ys)
    (keeps : Keeps w w') : Texts w' l ys :=
  texts.imp fun o y here => keeps.text o y here

theorem list_returns (fair : Fair gc w) (text : textOf w.memory o = some x) {i j : Nat}
    (ordered : i ≤ j) (inside : j ≤ x.length) (room : PieceRoom (j - i)) (enough : 2 ≤ w.budget) :
    ∃ l w', Returns (substring gc o (num i) (num j) >>= list gc) w l w' ∧
      Fair gc w' ∧ Keeps w w' ∧ Texts w' l [(x.drop i).take (j - i)] ∧
        w.budget = w'.budget + 2 := by
  obtain ⟨v, t, made, fair_t, keeps_t, piece, budget_t⟩ :=
    substring_returns fair text ordered inside room (by omega)
  obtain ⟨w', paired, fair', keeps', budget'⟩ := pair_returns fair_t (by omega) v []
  refine ⟨[v], w', ?_, fair', keeps_t.trans keeps', ?_, by omega⟩
  · rw [returns_after made]
    exact paired
  · exact .cons (keeps'.text v _ piece) .nil

theorem splitLoop_returns {k : Nat} {last pos : Nat} (count : pos + k + 1 = x.length)
    (le : last ≤ pos) (free : Free sep x last pos) (fair : Fair gc w)
    (text : textOf w.memory o = some x)
    (rooms : ∀ y ∈ runs (isSep sep) (x.drop last), PieceRoom y.length)
    (enough : 2 * (runs (isSep sep) (x.drop last)).length ≤ w.budget) :
    ∃ l w' ys, Returns (splitLoop gc o sep (num x.length) (k + 1) (num last) (num pos)) w l w' ∧
      Fair gc w' ∧ Keeps w w' ∧ Texts w' l ys ∧ Cut (isSep sep) (x.drop last) ys ∧
        w.budget = w'.budget + 2 * ys.length := by
  induction k generalizing w last pos with
  | zero =>
    have inside : pos < x.length := by omega
    have char := List.getElem?_eq_getElem inside
    obtain ⟨u, memory, budget_u, step⟩ := splitLoop_step sep fair text le char
    have fair_u := fair.same memory
    have text_u : textOf u.memory o = some x := memory ▸ text
    have keeps_u : Keeps w u := (Keeps.refl u).same memory
    simp only [step, splitStep, if_pos count]
    cases found : isSep sep x[pos] with
    | true =>
      rw [if_pos rfl]
      have rest : Cut (isSep sep) (x.drop (pos + 1)) [] := cut_end (by omega)
      by_cases empty : last = pos
      · rw [if_pos empty]
        subst empty
        exact ⟨[], u, [], returns_pure.mpr ⟨rfl, rfl⟩, fair_u, keeps_u, .nil,
          cut_skip char found rest, budget_u.symm⟩
      · have cut := cut_piece (by omega) free char found rest
        have room := rooms _ (cut.eq ▸ List.mem_singleton_self _)
        rw [length_part inside.le] at room
        rw [← cut.eq, List.length_singleton] at enough
        obtain ⟨l, w', made, fair', keeps', texts, budget'⟩ :=
          list_returns fair_u text_u le inside.le room (by omega)
        rw [if_neg empty]
        exact ⟨l, w', _, made, fair', keeps_u.trans keeps', texts, cut, budget_u ▸ budget'⟩
    | false =>
      have free' := free.next le char found
      rw [count] at free'
      have cut := cut_last (show last < x.length by omega) free'
      have room := rooms _ (cut.eq ▸ List.mem_singleton_self _)
      rw [length_part (Nat.le_refl _)] at room
      rw [← cut.eq, List.length_singleton] at enough
      obtain ⟨l, w', made, fair', keeps', texts, budget'⟩ :=
        list_returns fair_u text_u (show last ≤ x.length by omega) (Nat.le_refl _) room (by omega)
      rw [if_neg Bool.false_ne_true]
      exact ⟨l, w', _, made, fair', keeps_u.trans keeps', texts, cut, budget_u ▸ budget'⟩
  | succ k ih =>
    have inside : pos < x.length := by omega
    have char := List.getElem?_eq_getElem inside
    obtain ⟨u, memory, budget_u, step⟩ := splitLoop_step sep fair text le char
    have fair_u := fair.same memory
    have text_u : textOf u.memory o = some x := memory ▸ text
    have keeps_u : Keeps w u := (Keeps.refl u).same memory
    simp only [step, splitStep, if_neg (show pos + 1 ≠ x.length by omega)]
    cases found : isSep sep x[pos] with
    | true =>
      rw [if_pos rfl]
      by_cases empty : last = pos
      · rw [if_pos empty]
        subst empty
        rw [← (cut_skip char found (cut_runs _ _)).eq] at rooms enough
        obtain ⟨l, w', ys, made, fair', keeps', texts, rest, budget'⟩ :=
          ih (show last + 1 + k + 1 = x.length by omega) (Nat.le_refl _) (free_start _) fair_u
            text_u rooms (budget_u ▸ enough)
        exact ⟨l, w', ys, made, fair', keeps_u.trans keeps', texts, cut_skip char found rest,
          budget_u ▸ budget'⟩
      · rw [← (cut_piece (by omega) free char found (cut_runs _ _)).eq] at rooms enough
        rw [List.length_cons] at enough
        have room := rooms _ List.mem_cons_self
        rw [length_part inside.le] at room
        obtain ⟨v, t, piece, fair_t, keeps_t, text_v, budget_t⟩ :=
          substring_returns fair_u text_u le inside.le room (by omega)
        obtain ⟨l, t', ys, made, fair_t', keeps_t', texts, rest, budget_t'⟩ :=
          ih (show pos + 1 + k + 1 = x.length by omega) (Nat.le_refl _) (free_start _) fair_t
            (keeps_t.text o x text_u) (fun y member => rooms y (List.mem_cons_of_mem _ member))
            (by omega)
        have count_ys := congrArg List.length rest.eq
        obtain ⟨w', paired, fair', keeps', budget'⟩ := pair_returns fair_t' (by omega) v l
        refine ⟨v :: l, w', _, ?_, fair', ((keeps_u.trans keeps_t).trans keeps_t').trans keeps', ?_,
          cut_piece (by omega) free char found rest, by rw [List.length_cons]; omega⟩
        · rw [if_neg empty, returns_after piece, returns_after made]
          exact paired
        · exact .cons (keeps'.text v _ (keeps_t'.text v _ text_v)) (texts.keeps keeps')
    | false =>
      obtain ⟨l, w', ys, made, fair', keeps', texts, rest, budget'⟩ :=
        ih (show pos + 1 + k + 1 = x.length by omega) (by omega) (free.next le char found) fair_u
          text_u rooms (budget_u ▸ enough)
      rw [if_neg Bool.false_ne_true]
      exact ⟨l, w', ys, made, fair', keeps_u.trans keeps', texts, rest, budget_u ▸ budget'⟩

theorem splitLoop_rooms {fuel last pos : Nat} (inside : pos < x.length) (le : last ≤ pos)
    (free : Free sep x last pos) (fair : Fair gc w) (text : textOf w.memory o = some x)
    {l : List Obj}
    (returned : Returns (splitLoop gc o sep (num x.length) fuel (num last) (num pos)) w l w') :
    (∀ y ∈ runs (isSep sep) (x.drop last), PieceRoom y.length) ∧ Fair gc w' ∧
      w.budget = w'.budget + 2 * (runs (isSep sep) (x.drop last)).length := by
  induction fuel generalizing w w' last pos l with
  | zero => cases returned
  | succ fuel ih =>
    have char := List.getElem?_eq_getElem inside
    obtain ⟨u, memory, budget_u, step⟩ := splitLoop_step sep fair text le char
    have fair_u := fair.same memory
    have text_u : textOf u.memory o = some x := memory ▸ text
    rw [step, splitStep] at returned
    have one : ∀ {i j : Nat}, i ≤ j → j ≤ x.length →
        Returns (substring gc o (num i) (num j) >>= list gc) u l w' →
        (∀ y ∈ [(x.drop i).take (j - i)], PieceRoom y.length) ∧ Fair gc w' ∧
          w.budget = w'.budget + 2 := by
      intro i j ordered whole made
      have made' := made
      rw [returns_bind] at made'
      obtain ⟨v, t, piece, paired⟩ := made'
      have room := substring_room fair_u text_u ordered whole piece
      obtain ⟨v', t', piece', _, _, _, budget_t⟩ :=
        substring_returns fair_u text_u ordered whole room (perform_enough piece)
      obtain ⟨rfl, rfl⟩ := piece.unique piece'
      have enough := cons_enough paired
      obtain ⟨l', w'', whole', fair', _, _, budget'⟩ :=
        list_returns fair_u text_u ordered whole room (by omega)
      obtain ⟨rfl, rfl⟩ := made.unique whole'
      refine ⟨?_, fair', budget_u ▸ budget'⟩
      intro y member
      rw [List.mem_singleton.mp member, length_part whole]
      exact room
    cases found : isSep sep x[pos] with
    | true =>
      rw [found] at returned
      by_cases end_ : pos + 1 = x.length
      · have rest : Cut (isSep sep) (x.drop (pos + 1)) [] := cut_end (by omega)
        rw [if_pos end_, if_pos rfl] at returned
        by_cases empty : last = pos
        · subst empty
          rw [if_pos rfl] at returned
          obtain ⟨_, rfl⟩ := returns_pure.mp returned
          rw [← (cut_skip char found rest).eq]
          exact ⟨fun y never => (by cases never), fair_u, budget_u.symm⟩
        · rw [if_neg empty] at returned
          rw [← (cut_piece (by omega) free char found rest).eq]
          exact one le inside.le returned
      · rw [if_neg end_, if_pos rfl] at returned
        by_cases empty : last = pos
        · rw [if_pos empty] at returned
          subst empty
          rw [← (cut_skip char found (cut_runs _ _)).eq, ← budget_u]
          exact ih (show last + 1 < x.length by omega) (Nat.le_refl _) (free_start _) fair_u text_u
            returned
        · rw [if_neg empty, returns_bind] at returned
          obtain ⟨v, t, piece, returned⟩ := returned
          have room := substring_room fair_u text_u le inside.le piece
          obtain ⟨v', t', piece', fair_t, keeps_t, _, budget_t⟩ :=
            substring_returns fair_u text_u le inside.le room (perform_enough piece)
          obtain ⟨rfl, rfl⟩ := piece.unique piece'
          rw [returns_bind] at returned
          obtain ⟨rest, r, made, paired⟩ := returned
          rw [← (cut_piece (by omega) free char found (cut_runs _ _)).eq, List.length_cons]
          obtain ⟨rooms, fair_r, budget_r⟩ :=
            ih (show pos + 1 < x.length by omega) (Nat.le_refl _) (free_start _) fair_t
              (keeps_t.text o x text_u) made
          obtain ⟨w'', paired', fair', _, budget'⟩ := pair_returns fair_r (cons_enough paired) v rest
          obtain ⟨rfl, rfl⟩ := paired.unique paired'
          refine ⟨?_, fair', by omega⟩
          intro y member
          rcases List.mem_cons.mp member with rfl | later
          · rw [length_part inside.le]
            exact room
          · exact rooms y later
    | false =>
      rw [found] at returned
      have free' := free.next le char found
      by_cases end_ : pos + 1 = x.length
      · rw [if_pos end_, if_neg Bool.false_ne_true] at returned
        rw [end_] at free'
        rw [← (cut_last (show last < x.length by omega) free').eq]
        exact one (by omega) (Nat.le_refl _) returned
      · rw [if_neg end_, if_neg Bool.false_ne_true] at returned
        rw [← budget_u]
        exact ih (show pos + 1 < x.length by omega) (by omega) free' fair_u text_u returned

theorem stringSplit_empty (fair : Fair gc w) (text : textOf w.memory o = some []) {fuel : Nat}
    {l : List Obj} : ¬ Returns (stringSplit gc fuel o sep) w l w' := by
  intro returned
  obtain ⟨u, length, memory, _⟩ := length_returns fair text
  rw [stringSplit, returns_after length] at returned
  cases fuel with
  | zero => cases returned
  | succ fuel =>
    have before : Returns (operate .opSub (num ((([] : List UInt8).length : Nat) : Int)) (num 1)) u
        (num (-1)) u := operate_returns rfl
    have apart : equal (num 0) (num (-1)) = false := by
      rw [equal_num (by omega) (by omega) (by omega) (by omega)]
      rfl
    rw [splitLoop, returns_after before, apart, if_neg Bool.false_ne_true, returns_bind] at returned
    obtain ⟨r, t, found, _⟩ := returned
    exact isMatch_end (fair.same memory) (memory ▸ text) (i := 0) (Nat.le_refl _) (by decide) found

/-- string-split returns the runs of the text that have no separator. -/
def Splits (gc : Nat → Collection) (w : World) (o : Obj) (sep : List Obj) (x : List UInt8) : Prop :=
  ∃ fuel l w' ys, Returns (stringSplit gc fuel o sep) w l w' ∧ Texts w' l ys ∧
    Cut (isSep sep) x ys ∧ (∀ y ∈ ys, y ≠ [] ∧ ∀ b ∈ y, isSep sep b = false) ∧
      ys.flatten = x.filter fun b => !isSep sep b

theorem splits_iff (fair : Fair gc w) (text : textOf w.memory o = some x) :
    Splits gc w o sep x ↔ x ≠ [] ∧ (∀ y ∈ runs (isSep sep) x, PieceRoom y.length) ∧
      2 * (runs (isSep sep) x).length ≤ w.budget := by
  obtain ⟨u, length, memory, budget⟩ := length_returns fair text
  have fair_u := fair.same memory
  have text_u : textOf u.memory o = some x := memory ▸ text
  constructor
  · rintro ⟨fuel, l, w', ys, returned, _⟩
    have some : x ≠ [] := by
      rintro rfl
      exact stringSplit_empty fair text returned
    rw [stringSplit, returns_after length] at returned
    obtain ⟨rooms, _, spent⟩ := splitLoop_rooms (List.length_pos_iff.mpr some) (Nat.le_refl 0)
      (free_start 0) fair_u text_u returned
    rw [List.drop_zero] at rooms spent
    exact ⟨some, rooms, by omega⟩
  · rintro ⟨some, rooms, enough⟩
    have positive := List.length_pos_iff.mpr some
    obtain ⟨l, w', ys, made, _, _, texts, cut, _⟩ :=
      splitLoop_returns (show 0 + (x.length - 1) + 1 = x.length by omega) (Nat.le_refl 0)
        (free_start 0) fair_u text_u rooms (budget ▸ enough)
    refine ⟨x.length - 1 + 1, l, w', ys, ?_, texts, cut, cut.facts.1, cut.facts.2⟩
    rw [stringSplit, returns_after length]
    exact made

/-- The memory with the string " ab  c" among its constants. -/
def worded : Memory :=
  { clear with
    literals := [[32, 97, 98, 32, 32, 99, 0]]
    consts := [⟨.literal 0, 7, false⟩] }

theorem wellFormed_worded : WellFormed worded := by
  have fit : Fit clear still (.readString [32, 97, 98, 32, 32, 99, 0]) := ⟨by decide, by decide⟩
  have done : act clear still (.readString [32, 97, 98, 32, 32, 99, 0]) =
      .ok (.constString 0) worded := by
    have size : ((cText [32, 97, 98, 32, 32, 99, 0]).length + 1 : Int).bmod (2 ^ 32) = 7 := by decide
    rw [act, readString, if_pos (by decide), size]
    rfl
  have keeps := act_wellFormed (wellFormed_empty fun _ _ => 0) fit
  rwa [← clear, done] at keeps

/- It has two runs between spaces. -/
theorem splits_words :
    Splits (fun _ => still) ⟨worded, 0, [], 4⟩ (.constString 0) [charObj 32]
      [32, 97, 98, 32, 32, 99] := by
  have fair : Fair (fun _ => still) ⟨worded, 0, [], 4⟩ :=
    ⟨sound_of_wellFormed wellFormed_worded, fun _ => safe_still worded⟩
  have text : textOf worded (.constString 0) = some [32, 97, 98, 32, 32, 99] := by decide
  have pieces : runs (isSep [charObj 32]) [32, 97, 98, 32, 32, 99] = [[97, 98], [99]] := by decide
  refine (splits_iff fair text).mpr ⟨by decide, ?_, by rw [pieces]; decide⟩
  intro y member
  rw [pieces] at member
  have short : y.length ≤ 2 := by
    simp at member
    rcases member with rfl | rfl <;> decide
  unfold PieceRoom alignUp freshSize
  omega

/- The empty string has no run, and string-split raises an error. -/
theorem splits_not_empty :
    Sound (filled 0) ∧ textOf (filled 0) (.heapString 0) = some [] ∧
      stringSplit (fun _ => still) 1 (.heapString 0) [charObj 32] ⟨filled 0, 0, [], 16⟩ =
        .error .raised ∧
      ∀ sep, ¬ Splits (fun _ => still) ⟨filled 0, 0, [], 16⟩ (.heapString 0) sep [] := by
  have text : textOf (filled 0) (.heapString 0) = some [] := by decide
  have sound := sound_of_wellFormed wellFormed_zero
  refine ⟨sound, text, by rfl, ?_⟩
  rintro sep ⟨fuel, l, w', ys, returned, _⟩
  exact stringSplit_empty (w := ⟨filled 0, 0, [], 16⟩) ⟨sound, fun _ => safe_still (filled 0)⟩ text
    returned

end loop

end LGears.StringSplit
