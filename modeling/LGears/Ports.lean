import LGears.CoreStrings

/- The input ports of core.ports: characters and lines are taken from a buffer, which is filled by
   the builtin procedure fd-read-string!. -/
namespace LGears.Ports
open Tagged hiding Obj
open Opcode Arithmetic Overwrite Strings StringShape StringTexts CoreStrings StateExcept

/-- The strings, the two fields of the buffer that change, and what has not been read of the file. -/
structure State where
  world : World
  bufferRec : Word
  bufferPos : Word
  input : List UInt8

abbrev Io := StateT State (Except Stop)

/-- A procedure that leaves the buffer and the file alone. -/
def onStrings {α : Type} (c : Proc α) : Io α := fun s =>
  match c s.world with
  | .ok (a, w) => .ok (a, { s with world := w })
  | .error e => .error e

/-- ceof -/
def eofObject : Word := makeObj 4 tagConst

/-- #\newline -/
def newline : Word := makeChar 10

section procedures
variable (gc : Nat → Collection) (read : Obj → Io Word) (buf : Obj)

/-- (port-fetch port buf), where buf is the string of the buffer and read is fd-read-string!. -/
def portFetch : Io Word := do
  let count ← read buf
  modify fun s => { s with bufferRec := count }
  modify fun s => { s with bufferPos := num 0 }
  return count

/-- (port-access-buffer p) -/
def portAccessBuffer : Io Unit := do
  if equal (← get).bufferRec (num 0) then
    let _ ← portFetch read buf

/-- (get-char p) -/
def getChar : Io Obj := do
  portAccessBuffer read buf
  let count := (← get).bufferRec
  if count = eofObject then
    return .word eofObject
  else
    let opos := (← get).bufferPos
    let res ← onStrings (stringRef gc buf opos)
    let pos ← onStrings (operate .opAdd opos (num 1))
    modify fun s => { s with bufferPos := pos }
    let count ← onStrings (operate .opSub count (num 1))
    modify fun s => { s with bufferRec := count }
    return res

/-- (lookahead-char p) -/
def lookaheadChar : Io Obj := do
  portAccessBuffer read buf
  if (← get).bufferRec = eofObject then
    return .word eofObject
  else
    onStrings (stringRef gc buf (← get).bufferPos)

/-- The fold of reverse. -/
def reverseLoop : List Obj → List Obj → Proc (List Obj)
  | res, [] => pure res
  | res, o :: lst => do reverseLoop (← cons gc o res) lst

/-- (reverse lst) -/
def reverse (lst : List Obj) : Proc (List Obj) := reverseLoop gc [] lst

/-- (list->string (reverse res)) -/
def reversed (res : List Obj) : Proc Obj := do listToString gc (← reverse gc res)

/-- The loop of get-line. -/
def getLineLoop : Nat → List Obj → Io Obj
  | 0, _ => fun _ => .error .fuel
  | fuel + 1, res => do
    let c ← getChar gc read buf
    if c = .word eofObject then
      if res.isEmpty then
        return .word eofObject
      else
        onStrings (reversed gc res)
    else if c = .word newline then
      onStrings (reversed gc res)
    else
      getLineLoop fuel (← onStrings (cons gc c res))

/-- (get-line p) -/
def getLine (fuel : Nat) : Io Obj := getLineLoop gc read buf fuel []

/-- A call on the port. -/
inductive Call where
  | getChar
  | lookaheadChar
  | getLine
  deriving DecidableEq, Repr

def call (fuel : Nat) : Call → Io Obj
  | .getChar => getChar gc read buf
  | .lookaheadChar => lookaheadChar gc read buf
  | .getLine => getLine gc read buf fuel

def calls (fuel : Nat) : List Call → Io (List Obj)
  | [] => pure []
  | c :: cs => do
    let o ← call gc read buf fuel c
    let os ← calls fuel cs
    return o :: os

end procedures

/- What the calls should return. -/

inductive Answer where
  | eof
  | char (b : UInt8)
  | line (text : List UInt8)
  deriving DecidableEq, Repr

/-- The first character that is left. -/
def peek : List UInt8 → Answer
  | [] => .eof
  | b :: _ => .char b

/-- The characters up to the next newline. -/
def line (rest : List UInt8) : List UInt8 := rest.takeWhile (· ≠ 10)

/-- What is behind the next newline. -/
def behind (rest : List UInt8) : List UInt8 := (rest.dropWhile (· ≠ 10)).tail

def answer (rest : List UInt8) : Call → Answer
  | .getChar | .lookaheadChar => peek rest
  | .getLine => if rest = [] then .eof else .line (line rest)

def left (rest : List UInt8) : Call → List UInt8
  | .getChar => rest.tail
  | .lookaheadChar => rest
  | .getLine => behind rest

/-- The answers to calls on a port with these characters left. -/
def answers (rest : List UInt8) : List Call → List Answer
  | [] => []
  | c :: cs => answer rest c :: answers (left rest c) cs

/-- The blocks that are allocated for an answer: the pairs of the characters and of the reversed
    list, and the string. -/
def blocks : Answer → Nat
  | .line text => 2 * text.length + 1
  | _ => 0

/-- The object is the answer. -/
def Shows (m : Memory) (o : Obj) : Answer → Prop
  | .eof => o = .word eofObject
  | .char b => o = charObj b
  | .line text => textOf m o = some text

/-- The string has been made by make-string. -/
def Owned (m : Memory) (o : Obj) : Prop :=
  ∃ n s, o = .heapString n ∧ m.string o = some s ∧ s.str = .block n ∧ s.allocated = true

/-- fd-read-string! stores between 1 and the buffer's length next characters of the file at the start
    of the string and returns their number, or the eof object when none are left. It allocates
    nothing. -/
structure Reads (gc : Nat → Collection) (read : Obj → Io Word) : Prop where
  stores : ∀ s str x, Ready gc s.world → Owned s.world.memory str →
    textOf s.world.memory str = some x → x ≠ [] → s.input ≠ [] →
    ∃ k w, 1 ≤ k ∧ k ≤ x.length ∧ k ≤ s.input.length ∧
      Returns (read str) s (num k) { s with world := w, input := s.input.drop k } ∧ Ready gc w ∧
        KeepsBut str s.world w ∧ textOf w.memory str = some (overwrite x 0 (s.input.take k)) ∧
          w.budget = s.world.budget
  eof : ∀ s str x, Ready gc s.world → Owned s.world.memory str →
    textOf s.world.memory str = some x → s.input = [] →
    ∃ w, Returns (read str) s eofObject { s with world := w } ∧ Ready gc w ∧ Keeps s.world w ∧
      w.budget = s.world.budget

/-- The characters of the buffer that have not been taken, and those of the file, are rest. -/
structure Holds (gc : Nat → Collection) (buf : Obj) (s : State) (rest : List UInt8) : Prop where
  ready : Ready gc s.world
  owned : Owned s.world.memory buf
  count : ∃ x, textOf s.world.memory buf = some x ∧ x ≠ [] ∧
    ((s.bufferRec = eofObject ∧ s.input = [] ∧ rest = []) ∨
      ∃ p n : Nat, s.bufferRec = num n ∧ s.bufferPos = num p ∧ p + n ≤ x.length ∧
        rest = (x.drop p).take n ++ s.input)

section calls
variable {gc : Nat → Collection} {read : Obj → Io Word} {buf : Obj} {s s' t : State}
  {rest : List UInt8}

theorem holds_new {w : World} (ready : Ready gc w) (owned : Owned w.memory buf) {x : List UInt8}
    (text : textOf w.memory buf = some x) (some : x ≠ []) (input : List UInt8) :
    Holds gc buf ⟨w, num 0, num 0, input⟩ input :=
  ⟨ready, owned, x, text, some, .inr ⟨0, 0, rfl, rfl, Nat.zero_le _, rfl⟩⟩

theorem returns_onStrings {α : Type} {c : Proc α} {a : α} :
    Returns (onStrings c) s a s' ↔
      ∃ w, Returns c s.world a w ∧ s' = { s with world := w } := by
  unfold Returns onStrings
  cases c s.world with
  | error e =>
    constructor
    · intro never
      cases never
    · rintro ⟨w, never, _⟩
      cases never
  | ok r =>
    obtain ⟨b, w⟩ := r
    constructor
    · intro same
      cases same
      exact ⟨w, rfl, rfl⟩
    · rintro ⟨w', same, rfl⟩
      cases same
      rfl

theorem on_strings {α : Type} {c : Proc α} {a : α} {w : World} (returned : Returns c s.world a w) :
    Returns (onStrings c) s a { s with world := w } :=
  returns_onStrings.mpr ⟨w, returned, rfl⟩

theorem returns_get {β : Type} {f : State → Io β} {b : β} :
    Returns (get >>= f) s b s' ↔ Returns (f s) s b s' := Iff.rfl

theorem returns_modify {β : Type} {g : State → State} {f : Unit → Io β} {b : β} :
    Returns (modify g >>= f) s b s' ↔ Returns (f ()) (g s) b s' := Iff.rfl

theorem charWord_ne_eof (b : UInt8) : charObj b ≠ .word eofObject := by
  intro same
  have tag := congrArg getTag (Obj.word.inj same)
  rw [charWord_tag] at tag
  exact absurd tag (by decide)

theorem num_ne_eof (n : Int) : num n ≠ eofObject := by
  intro same
  have tag := congrArg getTag same
  rw [num, getTag_makeFixnum] at tag
  exact absurd tag (by decide)

theorem Owned.keeps {w w' : World} {o : Obj} (owned : Owned w.memory o)
    (kept : ∀ o s, w.memory.string o = some s → w'.memory.string o = some s) :
    Owned w'.memory o := by
  obtain ⟨n, s, name, string, own, flag⟩ := owned
  exact ⟨n, s, name, kept o s string, own, flag⟩

theorem ready_same {w w' : World} (ready : Ready gc w) (memory : w'.memory = w.memory) :
    Ready gc w' :=
  ⟨memory ▸ ready.wf, memory ▸ ready.safe⟩

theorem keeps_same {w w' u : World} (keeps : KeepsBut buf u w) (memory : w'.memory = w.memory) :
    KeepsBut buf u w' :=
  ⟨memory ▸ keeps.text, memory ▸ keeps.string⟩

/-- Where the count is not 0 when characters are left. -/
structure Filled (gc : Nat → Collection) (buf : Obj) (s : State) (rest : List UInt8) : Prop where
  ready : Ready gc s.world
  owned : Owned s.world.memory buf
  count : ∃ x, textOf s.world.memory buf = some x ∧ x ≠ [] ∧
    ((s.bufferRec = eofObject ∧ s.input = [] ∧ rest = []) ∨
      ∃ p n : Nat, s.bufferRec = num (n + 1 : Nat) ∧ s.bufferPos = num p ∧ p + (n + 1) ≤ x.length ∧
        rest = (x.drop p).take (n + 1) ++ s.input)

theorem Filled.holds (filled : Filled gc buf s rest) : Holds gc buf s rest := by
  obtain ⟨x, text, some, eof | ⟨p, n, counted⟩⟩ := filled.count
  · exact ⟨filled.ready, filled.owned, x, text, some, .inl eof⟩
  · exact ⟨filled.ready, filled.owned, x, text, some, .inr ⟨p, n + 1, counted⟩⟩

theorem equal_eof : equal eofObject (num 0) = false := by decide +kernel

theorem take_stored (x new : List UInt8) :
    ((overwrite x 0 new).drop 0).take new.length = new := by
  rw [List.drop_zero, overwrite, List.take_zero, List.nil_append, List.take_left]

theorem portAccessBuffer_returns (reads : Reads gc read) (holds : Holds gc buf s rest) :
    ∃ s', Returns (portAccessBuffer read buf) s () s' ∧ Filled gc buf s' rest ∧
      KeepsBut buf s.world s'.world ∧ s'.world.budget = s.world.budget := by
  obtain ⟨ready, owned, x, text, some, eof | ⟨p, n, count, pos, inside, same⟩⟩ := holds
  · refine ⟨s, ?_, ⟨ready, owned, x, text, some, .inl eof⟩, .refl _ _, rfl⟩
    rw [portAccessBuffer, returns_get, eof.1, equal_eof, if_neg Bool.false_ne_true]
    exact returns_pure.mpr ⟨rfl, rfl⟩
  · have small := length_small ready.wf text
    have zero : equal s.bufferRec (num 0) = decide (n = 0) := by
      rw [count, equal_num (by omega) (by omega) (by omega) (by omega)]
      simp
    by_cases none : n = 0
    · subst none
      rw [List.take_zero, List.nil_append] at same
      rw [decide_eq_true rfl] at zero
      by_cases ended : s.input = []
      · obtain ⟨w, stored, ready', keeps, budget⟩ := reads.eof s buf x ready owned text ended
        refine ⟨{ s with world := w, bufferRec := eofObject, bufferPos := num 0 }, ?_,
          ⟨ready', owned.keeps keeps.string, x, keeps.text buf x text, some,
            .inl ⟨rfl, ended, same.trans ended⟩⟩, ⟨fun o y _ => keeps.text o y, keeps.string⟩,
          budget⟩
        rw [portAccessBuffer, returns_get, zero, if_pos rfl, portFetch, returns_bind]
        refine ⟨eofObject, _, ?_, returns_pure.mpr ⟨rfl, rfl⟩⟩
        rw [returns_after stored, returns_modify, returns_modify]
        exact returns_pure.mpr ⟨rfl, rfl⟩
      · obtain ⟨k, w, positive, fits, enough, stored, ready', keeps, text', budget⟩ :=
          reads.stores s buf x ready owned text some ended
        have length : (s.input.take k).length = k := List.length_take_of_le enough
        have whole : (overwrite x 0 (s.input.take k)).length = x.length :=
          length_overwrite (by omega)
        have first := take_stored x (s.input.take k)
        rw [length] at first
        refine ⟨⟨w, num k, num 0, s.input.drop k⟩, ?_,
          ⟨ready', owned.keeps keeps.string, _, text', ?_, .inr ⟨0, k - 1, ?_, rfl, ?_, ?_⟩⟩, keeps,
          budget⟩
        · rw [portAccessBuffer, returns_get, zero, if_pos rfl, portFetch, returns_bind]
          refine ⟨num k, _, ?_, returns_pure.mpr ⟨rfl, rfl⟩⟩
          rw [returns_after stored, returns_modify, returns_modify]
          exact returns_pure.mpr ⟨rfl, rfl⟩
        · intro empty
          rw [empty, List.length_nil] at whole
          exact some (List.length_eq_zero_iff.mp whole.symm)
        · rw [show k - 1 + 1 = k by omega]
        · rw [whole]
          omega
        · rw [show k - 1 + 1 = k by omega, first, same, List.take_append_drop]
    · rw [decide_eq_false none] at zero
      obtain ⟨m, rfl⟩ := Nat.exists_eq_succ_of_ne_zero none
      refine ⟨s, ?_, ⟨ready, owned, x, text, some, .inr ⟨p, m, count, pos, inside, same⟩⟩,
        .refl _ _, rfl⟩
      rw [portAccessBuffer, returns_get, zero, if_neg Bool.false_ne_true]
      exact returns_pure.mpr ⟨rfl, rfl⟩

/-- The object for an answer that is no line. -/
def peekObj : List UInt8 → Obj
  | [] => .word eofObject
  | b :: _ => charObj b

theorem first_char {x : List UInt8} (input : List UInt8) {p n : Nat} (inside : p + (n + 1) ≤ x.length) :
    ∃ b, x[p]? = some b ∧ (x.drop p).take (n + 1) ++ input =
      b :: ((x.drop (p + 1)).take n ++ input) := by
  refine ⟨x[p], List.getElem?_eq_getElem (by omega), ?_⟩
  rw [List.drop_eq_getElem_cons (show p < x.length by omega), List.take_succ_cons, List.cons_append]

theorem stringRef_world {w : World} {o : Obj} {x : List UInt8} (ready : Ready gc w)
    (text : textOf w.memory o = some x) {i : Nat} {b : UInt8} (char : x[i]? = some b) :
    ∃ w', Returns (stringRef gc o (num i)) w (charObj b) w' ∧ w'.memory = w.memory ∧
      w'.budget = w.budget :=
  ⟨_, stringRef_returns ready text char, rfl, rfl⟩

theorem lookaheadChar_returns (reads : Reads gc read) (holds : Holds gc buf s rest) :
    ∃ s', Returns (lookaheadChar gc read buf) s (peekObj rest) s' ∧ Holds gc buf s' rest ∧
      KeepsBut buf s.world s'.world ∧ s'.world.budget = s.world.budget := by
  obtain ⟨t, accessed, filled, keeps, budget⟩ := portAccessBuffer_returns reads holds
  obtain ⟨x, text, some, ⟨eof, ended, none⟩ | ⟨p, n, count, pos, inside, same⟩⟩ := filled.count
  · refine ⟨t, ?_, filled.holds, keeps, budget⟩
    rw [lookaheadChar, returns_after accessed, returns_get, if_pos eof, none]
    exact returns_pure.mpr ⟨rfl, rfl⟩
  · obtain ⟨b, char, first⟩ := first_char t.input inside
    obtain ⟨w, taken, memory, spent⟩ := stringRef_world filled.ready text char
    rw [← pos] at taken
    refine ⟨{ t with world := w }, ?_, ⟨ready_same filled.ready memory, memory ▸ filled.owned, x,
      memory ▸ text, some, .inr ⟨p, n + 1, count, pos, inside, same⟩⟩, keeps_same keeps memory,
      spent.trans budget⟩
    rw [lookaheadChar, returns_after accessed, returns_get, if_neg (count ▸ num_ne_eof _),
      returns_get, same, first]
    exact on_strings taken

theorem getChar_returns (reads : Reads gc read) (holds : Holds gc buf s rest) :
    ∃ s', Returns (getChar gc read buf) s (peekObj rest) s' ∧ Holds gc buf s' rest.tail ∧
      KeepsBut buf s.world s'.world ∧ s'.world.budget = s.world.budget := by
  obtain ⟨t, accessed, filled, keeps, budget⟩ := portAccessBuffer_returns reads holds
  obtain ⟨x, text, some, ⟨eof, ended, none⟩ | ⟨p, n, count, pos, inside, same⟩⟩ := filled.count
  · refine ⟨t, ?_, ?_, keeps, budget⟩
    · rw [getChar, returns_after accessed, returns_get, if_pos eof, none]
      exact returns_pure.mpr ⟨rfl, rfl⟩
    · rw [none]
      rw [none] at filled
      exact filled.holds
  · obtain ⟨b, char, first⟩ := first_char t.input inside
    have small := length_small filled.ready.wf text
    obtain ⟨w, taken, memory, spent⟩ := stringRef_world filled.ready text char
    have next : ∀ {w : World}, Returns (operate .opAdd (num p) (num 1)) w (num (p + 1 : Nat)) w :=
      (returns_operate rfl).mpr ⟨rfl, rfl⟩
    have less : ∀ {w : World}, Returns (operate .opSub (num (n + 1 : Nat)) (num 1)) w (num n) w :=
      (returns_operate (by simp [exactOp])).mpr ⟨rfl, rfl⟩
    refine ⟨⟨w, num n, num (p + 1 : Nat), t.input⟩, ?_, ⟨ready_same filled.ready memory,
      memory ▸ filled.owned, x, memory ▸ text, some, .inr ⟨p + 1, n, rfl, rfl, by omega, ?_⟩⟩,
      keeps_same keeps memory, spent.trans budget⟩
    · rw [getChar, returns_after accessed, returns_get, if_neg (count ▸ num_ne_eof _), returns_get,
        pos, returns_after (on_strings taken), returns_after (on_strings next), returns_modify,
        count, returns_after (on_strings less), returns_modify, same, first]
      exact returns_pure.mpr ⟨rfl, rfl⟩
    · rw [same, first, List.tail_cons]

/- get-line -/

theorem reverseLoop_returns {w : World} (ready : Ready gc w) (res lst : List Obj)
    (enough : lst.length ≤ w.budget) :
    ∃ w', Returns (reverseLoop gc res lst) w (lst.reverse ++ res) w' ∧ Ready gc w' ∧ Keeps w w' ∧
      w.budget = w'.budget + lst.length := by
  induction lst generalizing w res with
  | nil => exact ⟨w, returns_pure.mpr ⟨rfl, rfl⟩, ready, .refl w, rfl⟩
  | cons o lst ih =>
    rw [List.length_cons] at enough
    obtain ⟨u, pair, ready_u, keeps_u, _, budget_u⟩ := cons_returns ready (by omega) o res
    obtain ⟨w', rest, ready', keeps', budget'⟩ := ih ready_u (o :: res) (by omega)
    refine ⟨w', ?_, ready', keeps_u.trans keeps', by rw [List.length_cons]; omega⟩
    rw [List.reverse_cons, List.append_assoc, reverseLoop, returns_bind]
    exact ⟨_, u, pair, rest⟩

theorem reverseLoop_enough {w w' : World} (ready : Ready gc w) {res lst l : List Obj}
    (returned : Returns (reverseLoop gc res lst) w l w') : lst.length ≤ w.budget := by
  induction lst generalizing w res with
  | nil => exact Nat.zero_le _
  | cons o lst ih =>
    rw [reverseLoop, returns_bind] at returned
    obtain ⟨res', u, pair, rest⟩ := returned
    obtain ⟨u', pair', ready_u, _, _, budget⟩ := cons_returns ready (cons_enough pair) o res
    obtain ⟨rfl, rfl⟩ := pair.unique pair'
    have later := ih ready_u rest
    rw [List.length_cons]
    omega

theorem charObj_words (x : List UInt8) : x.map charObj = (x.map charWord).map .word := by
  rw [List.map_map]
  rfl

theorem reversed_returns {w : World} (ready : Ready gc w) {x : List UInt8} (room : Room x.length)
    (enough : x.length + 1 ≤ w.budget) :
    ∃ v w', Returns (reversed gc (x.map charObj).reverse) w v w' ∧ Ready gc w' ∧ Keeps w w' ∧
      textOf w'.memory v = some x ∧ (∀ y, textOf w.memory v ≠ some y) ∧
        w.budget = w'.budget + (x.length + 1) := by
  have length : (x.map charObj).reverse.length = x.length := by
    rw [List.length_reverse, List.length_map]
  obtain ⟨u, turned, ready_u, keeps_u, budget_u⟩ :=
    reverseLoop_returns ready [] (x.map charObj).reverse (by omega)
  rw [List.reverse_reverse, List.append_nil, charObj_words] at turned
  obtain ⟨v, w', made, ready', buffer, keeps', _, new, budget'⟩ :=
    listToString_returns (charObj_tags x) (by rwa [List.length_map]) ready_u (by omega)
  refine ⟨v, w', ?_, ready', keeps_u.trans keeps', ?_, ?_, by omega⟩
  · rw [reversed, returns_bind]
    rw [← charObj_words] at turned made
    exact ⟨_, u, turned, made⟩
  · rw [buffer.text, charByte_charObj]
  · intro y here
    exact new y (keeps_u.text v y here)

theorem reversed_room {w w' : World} (ready : Ready gc w) {x : List UInt8} {v : Obj}
    (returned : Returns (reversed gc (x.map charObj).reverse) w v w') :
    Room x.length ∧ x.length + 1 ≤ w.budget := by
  rw [reversed, reverse, returns_bind] at returned
  obtain ⟨l, u, turned, made⟩ := returned
  have enough := reverseLoop_enough ready turned
  obtain ⟨u', turned', ready_u, _, budget_u⟩ :=
    reverseLoop_returns ready [] (x.map charObj).reverse enough
  obtain ⟨rfl, rfl⟩ := turned.unique turned'
  rw [List.reverse_reverse, List.append_nil, charObj_words] at made
  obtain ⟨room, _, _, _, budget⟩ := made_of_returns (charObj_tags x) ready_u made
  rw [List.length_map] at room
  rw [List.length_reverse, List.length_map] at budget_u
  exact ⟨room, by omega⟩

theorem holds_same {w : World} (holds : Holds gc buf s rest) (ready : Ready gc w)
    (keeps : Keeps s.world w) : Holds gc buf { s with world := w } rest := by
  obtain ⟨_, owned, x, text, counted⟩ := holds
  exact ⟨ready, owned.keeps keeps.string, x, keeps.text buf x text, counted⟩

theorem keeps_but {w w' u : World} (first : KeepsBut buf w u) (second : Keeps u w') :
    KeepsBut buf w w' :=
  first.trans ⟨fun o x _ => second.text o x, second.string⟩

theorem newline_char : Obj.word newline = charObj 10 := by decide +kernel

theorem charObj_inj {a b : UInt8} (same : charObj a = charObj b) : a = b := by
  have bytes := congrArg charByte (Obj.word.inj same)
  rwa [charByte_charWord, charByte_charWord] at bytes

theorem line_cons {b : UInt8} (other : b ≠ 10) : line (b :: rest) = b :: line rest := by
  rw [line, List.takeWhile_cons_of_pos (by simpa using other)]
  rfl

theorem behind_cons {b : UInt8} (other : b ≠ 10) : behind (b :: rest) = behind rest := by
  rw [behind, List.dropWhile_cons_of_pos (by simpa using other)]
  rfl

/-- What get-line should return after the characters acc of the line. -/
def lineAnswer (acc rest : List UInt8) : Answer :=
  if acc ++ rest = [] then .eof else .line (acc ++ line rest)

/-- The blocks that get-line still allocates after the characters acc of the line. -/
def lineBlocks (acc rest : List UInt8) : Nat :=
  if acc ++ rest = [] then 0 else 2 * (line rest).length + acc.length + 1

theorem lineBlocks_ended {acc rest : List UInt8} (some : acc ++ rest ≠ []) (ended : line rest = []) :
    lineBlocks acc rest = acc.length + 1 := by
  rw [lineBlocks, if_neg some, ended, List.length_nil]
  omega

theorem lineBlocks_cons {acc : List UInt8} {b : UInt8} (other : b ≠ 10) :
    lineBlocks acc (b :: rest) = lineBlocks (acc ++ [b]) rest + 1 := by
  rw [lineBlocks, lineBlocks, if_neg (by simp), if_neg (by simp), line_cons other,
    List.length_cons, List.length_append, List.length_singleton]
  omega

theorem Owned.ne_word {m : Memory} {o : Obj} (owned : Owned m o) (w : Word) : .word w ≠ o := by
  obtain ⟨n, s, rfl, _⟩ := owned
  exact fun never => by cases never

theorem getLineLoop_returns {fuel : Nat} (long : rest.length < fuel) (reads : Reads gc read)
    (holds : Holds gc buf s rest) (acc : List UInt8)
    (room : ∀ text, lineAnswer acc rest = .line text → Room text.length)
    (enough : lineBlocks acc rest ≤ s.world.budget) :
    ∃ o s', Returns (getLineLoop gc read buf fuel (acc.map charObj).reverse) s o s' ∧
      Holds gc buf s' (behind rest) ∧ KeepsBut buf s.world s'.world ∧ o ≠ buf ∧
        Shows s'.world.memory o (lineAnswer acc rest) ∧
          s.world.budget = s'.world.budget + lineBlocks acc rest := by
  induction fuel generalizing s rest acc with
  | zero => exact absurd long (Nat.not_lt_zero _)
  | succ fuel ih =>
    obtain ⟨t, got, holds_t, keeps_t, budget_t⟩ := getChar_returns reads holds
    have finish : ∀ {x : List UInt8} {r : List UInt8}, Holds gc buf t r → Room x.length →
        x.length + 1 ≤ s.world.budget →
        ∃ o s', Returns (onStrings (reversed gc (x.map charObj).reverse)) t o s' ∧
          Holds gc buf s' r ∧ KeepsBut buf s.world s'.world ∧ o ≠ buf ∧
            textOf s'.world.memory o = some x ∧
              s.world.budget = s'.world.budget + (x.length + 1) := by
      intro x r holds_r room enough
      obtain ⟨v, w, made, ready_w, keeps_w, text, new, budget⟩ :=
        reversed_returns holds_t.ready room (budget_t ▸ enough)
      refine ⟨v, _, on_strings made, holds_same holds_r ready_w keeps_w, keeps_but keeps_t keeps_w,
        ?_, text, budget_t ▸ budget⟩
      rintro rfl
      obtain ⟨y, there, _⟩ := holds_t.count
      exact new y there
    cases rest with
    | nil =>
      by_cases none : acc = []
      · subst none
        refine ⟨.word eofObject, t, ?_, holds_t, keeps_t, holds.owned.ne_word _, rfl, budget_t.symm⟩
        rw [getLineLoop, returns_after got, peekObj, if_pos rfl]
        exact returns_pure.mpr ⟨rfl, rfl⟩
      · have whole : lineAnswer acc [] = .line acc := by
          simp [lineAnswer, line, none]
        rw [lineBlocks_ended (by simpa using none) rfl] at enough ⊢
        rw [whole] at room ⊢
        obtain ⟨o, s', made, result⟩ := finish (x := acc) holds_t (room acc rfl) enough
        refine ⟨o, s', ?_, result⟩
        have some : (acc.map charObj).reverse.isEmpty = false := by simpa using none
        rw [getLineLoop, returns_after got, peekObj, if_pos rfl, some, if_neg Bool.false_ne_true]
        exact made
    | cons b rest =>
      rw [List.tail_cons] at holds_t
      by_cases ends : b = 10
      · subst ends
        have whole : lineAnswer acc (10 :: rest) = .line acc := by
          simp [lineAnswer, line]
        have after : behind (10 :: rest) = rest := by simp [behind]
        rw [lineBlocks_ended (by simp) (by simp [line])] at enough ⊢
        rw [whole] at room ⊢
        rw [after]
        obtain ⟨o, s', made, result⟩ := finish (x := acc) holds_t (room acc rfl) enough
        refine ⟨o, s', ?_, result⟩
        rw [getLineLoop, returns_after got, peekObj, if_neg (charWord_ne_eof _), newline_char,
          if_pos rfl]
        exact made
      · have more : lineAnswer acc (b :: rest) = lineAnswer (acc ++ [b]) rest := by
          simp [lineAnswer, line_cons ends]
        rw [lineBlocks_cons ends] at enough ⊢
        rw [more] at room ⊢
        rw [behind_cons ends]
        obtain ⟨w, pair, ready_w, keeps_w, _, budget_w⟩ :=
          cons_returns holds_t.ready (by omega) (charObj b) (acc.map charObj).reverse
        obtain ⟨o, s', looped, holds', keeps', other, shows_, budget'⟩ := ih
          (by rw [List.length_cons] at long; omega) (holds_same holds_t ready_w keeps_w)
          (acc ++ [b]) room (by dsimp only; omega)
        refine ⟨o, s', ?_, holds', (keeps_but keeps_t keeps_w).trans keeps', other, shows_, ?_⟩
        · rw [List.map_append, List.reverse_append] at looped
          rw [getLineLoop, returns_after got, peekObj, if_neg (charWord_ne_eof _), newline_char,
            if_neg fun same => ends (charObj_inj same), returns_after (on_strings pair)]
          exact looped
        · dsimp only at budget'
          omega

theorem getLineLoop_room {fuel : Nat} (reads : Reads gc read) (holds : Holds gc buf s rest)
    (acc : List UInt8) {o : Obj}
    (returned : Returns (getLineLoop gc read buf fuel (acc.map charObj).reverse) s o s') :
    (∀ text, lineAnswer acc rest = .line text → Room text.length) ∧
      Holds gc buf s' (behind rest) ∧ s.world.budget = s'.world.budget + lineBlocks acc rest := by
  induction fuel generalizing s rest acc with
  | zero => cases returned
  | succ fuel ih =>
    obtain ⟨t, got, holds_t, _, budget_t⟩ := getChar_returns reads holds
    have finish : ∀ {x r : List UInt8}, Holds gc buf t r →
        Returns (onStrings (reversed gc (x.map charObj).reverse)) t o s' →
        Room x.length ∧ Holds gc buf s' r ∧ s.world.budget = s'.world.budget + (x.length + 1) := by
      intro x r holds_r made
      obtain ⟨w, line_made, rfl⟩ := returns_onStrings.mp made
      obtain ⟨room, enough⟩ := reversed_room holds_t.ready line_made
      obtain ⟨v, w', made', ready_w, keeps_w, _, _, budget⟩ :=
        reversed_returns holds_t.ready room enough
      obtain ⟨rfl, rfl⟩ := line_made.unique made'
      exact ⟨room, holds_same holds_r ready_w keeps_w, budget_t ▸ budget⟩
    rw [getLineLoop, returns_after got] at returned
    cases rest with
    | nil =>
      rw [peekObj, if_pos rfl] at returned
      by_cases none : acc = []
      · subst none
        obtain ⟨_, rfl⟩ := returns_pure.mp returned
        exact ⟨fun text never => (by cases never), holds_t, budget_t.symm⟩
      · have whole : lineAnswer acc [] = .line acc := by
          simp [lineAnswer, line, none]
        have some : (acc.map charObj).reverse.isEmpty = false := by simpa using none
        rw [some, if_neg Bool.false_ne_true] at returned
        rw [lineBlocks_ended (by simpa using none) rfl]
        obtain ⟨room, rest⟩ := finish (x := acc) holds_t returned
        refine ⟨?_, rest⟩
        intro text same
        rw [whole] at same
        cases same
        exact room
    | cons b rest =>
      rw [List.tail_cons] at holds_t
      rw [peekObj, if_neg (charWord_ne_eof _), newline_char] at returned
      by_cases ends : b = 10
      · subst ends
        have whole : lineAnswer acc (10 :: rest) = .line acc := by
          simp [lineAnswer, line]
        have after : behind (10 :: rest) = rest := by simp [behind]
        rw [if_pos rfl] at returned
        rw [lineBlocks_ended (by simp) (by simp [line]), after]
        obtain ⟨room, rest⟩ := finish (x := acc) holds_t returned
        refine ⟨?_, rest⟩
        intro text same
        rw [whole] at same
        cases same
        exact room
      · have more : lineAnswer acc (b :: rest) = lineAnswer (acc ++ [b]) rest := by
          simp [lineAnswer, line_cons ends]
        rw [if_neg fun same => ends (charObj_inj same), returns_bind] at returned
        obtain ⟨res, u, consed, returned⟩ := returned
        obtain ⟨w, pair, rfl⟩ := returns_onStrings.mp consed
        obtain ⟨w', pair', ready_w, keeps_w, _, budget_w⟩ :=
          cons_returns holds_t.ready (cons_enough pair) (charObj b) (acc.map charObj).reverse
        obtain ⟨rfl, rfl⟩ := pair.unique pair'
        rw [more, behind_cons ends, lineBlocks_cons ends]
        obtain ⟨rooms, holds', budget'⟩ := ih (holds_same holds_t ready_w keeps_w) (acc ++ [b])
          (by rw [List.map_append, List.reverse_append]; exact returned)
        dsimp only at budget'
        exact ⟨rooms, holds', by omega⟩

/- The calls. -/

theorem blocks_getLine : blocks (answer rest .getLine) = lineBlocks [] rest := by
  rw [answer, lineBlocks, List.nil_append]
  split
  · rfl
  · rw [blocks, List.length_nil]

theorem blocks_peek : blocks (peek rest) = 0 := by
  cases rest with
  | nil => rfl
  | cons b rest => rfl

theorem call_returns {fuel : Nat} (long : rest.length < fuel) (reads : Reads gc read)
    (holds : Holds gc buf s rest) (c : Call)
    (room : ∀ text, answer rest c = .line text → Room text.length)
    (enough : blocks (answer rest c) ≤ s.world.budget) :
    ∃ o s', Returns (call gc read buf fuel c) s o s' ∧ Holds gc buf s' (left rest c) ∧
      KeepsBut buf s.world s'.world ∧ o ≠ buf ∧ Shows s'.world.memory o (answer rest c) ∧
        s.world.budget = s'.world.budget + blocks (answer rest c) := by
  have other : peekObj rest ≠ buf := by
    cases rest with
    | nil => exact holds.owned.ne_word _
    | cons b rest => exact holds.owned.ne_word _
  have shown : ∀ {m : Memory}, Shows m (peekObj rest) (peek rest) := by
    intro m
    cases rest with
    | nil => rfl
    | cons b rest => rfl
  cases c with
  | getChar =>
    obtain ⟨s', got, holds', keeps, budget⟩ := getChar_returns reads holds
    exact ⟨_, s', got, holds', keeps, other, shown, by rw [answer, blocks_peek, budget]; rfl⟩
  | lookaheadChar =>
    obtain ⟨s', got, holds', keeps, budget⟩ := lookaheadChar_returns reads holds
    exact ⟨_, s', got, holds', keeps, other, shown, by rw [answer, blocks_peek, budget]; rfl⟩
  | getLine =>
    rw [blocks_getLine] at enough ⊢
    have same : answer rest .getLine = lineAnswer [] rest := rfl
    rw [same] at room ⊢
    exact getLineLoop_returns long reads holds [] room enough

theorem call_room {fuel : Nat} (reads : Reads gc read) (holds : Holds gc buf s rest) {c : Call}
    {o : Obj} (returned : Returns (call gc read buf fuel c) s o s') :
    (∀ text, answer rest c = .line text → Room text.length) ∧ Holds gc buf s' (left rest c) ∧
      s.world.budget = s'.world.budget + blocks (answer rest c) := by
  have short : ∀ text, peek rest ≠ .line text := by
    intro text
    cases rest with
    | nil => exact fun never => by cases never
    | cons b rest => exact fun never => by cases never
  cases c with
  | getChar =>
    obtain ⟨t, got, holds_t, _, budget⟩ := getChar_returns reads holds
    obtain ⟨_, rfl⟩ := returned.unique got
    exact ⟨fun text same => absurd same (short text), holds_t,
      by rw [answer, blocks_peek, budget]; rfl⟩
  | lookaheadChar =>
    obtain ⟨t, got, holds_t, _, budget⟩ := lookaheadChar_returns reads holds
    obtain ⟨_, rfl⟩ := returned.unique got
    exact ⟨fun text same => absurd same (short text), holds_t,
      by rw [answer, blocks_peek, budget]; rfl⟩
  | getLine =>
    rw [blocks_getLine]
    exact getLineLoop_room reads holds [] returned

theorem left_length (rest : List UInt8) (c : Call) : (left rest c).length ≤ rest.length := by
  cases c with
  | getChar => exact (List.tail_sublist rest).length_le
  | lookaheadChar => exact Nat.le_refl _
  | getLine => exact (List.tail_sublist _).length_le.trans (List.length_dropWhile_le _ _)

theorem Shows.keeps {w w' : World} {o : Obj} {a : Answer} (shows_ : Shows w.memory o a)
    (other : o ≠ buf) (keeps : KeepsBut buf w w') : Shows w'.memory o a := by
  cases a with
  | eof => exact shows_
  | char b => exact shows_
  | line text => exact keeps.text o text other shows_

theorem calls_returns {fuel : Nat} (long : rest.length < fuel) (reads : Reads gc read)
    (holds : Holds gc buf s rest) (cs : List Call)
    (rooms : ∀ text, .line text ∈ answers rest cs → Room text.length)
    (enough : ((answers rest cs).map blocks).sum ≤ s.world.budget) :
    ∃ os s', Returns (calls gc read buf fuel cs) s os s' ∧ KeepsBut buf s.world s'.world ∧
      List.Forall₂ (fun o a => o ≠ buf ∧ Shows s'.world.memory o a) os (answers rest cs) := by
  induction cs generalizing s rest with
  | nil => exact ⟨[], s, returns_pure.mpr ⟨rfl, rfl⟩, .refl _ _, .nil⟩
  | cons c cs ih =>
    rw [answers, List.map_cons, List.sum_cons] at enough
    obtain ⟨o, t, first, holds_t, keeps_t, other, shows_, budget⟩ :=
      call_returns long reads holds c (fun text same => rooms text (same ▸ List.mem_cons_self))
        (by omega)
    obtain ⟨os, s', later, keeps', all⟩ := ih ((left_length rest c).trans_lt long) holds_t
      (fun text member => rooms text (List.mem_cons_of_mem _ member)) (by omega)
    refine ⟨o :: os, s', ?_, keeps_t.trans keeps', .cons ⟨other, shows_.keeps other keeps'⟩ all⟩
    rw [calls, returns_after first, returns_after later]
    exact returns_pure.mpr ⟨rfl, rfl⟩

theorem calls_room {fuel : Nat} (reads : Reads gc read) (holds : Holds gc buf s rest)
    {cs : List Call} {os : List Obj} (returned : Returns (calls gc read buf fuel cs) s os s') :
    (∀ text, .line text ∈ answers rest cs → Room text.length) ∧
      ((answers rest cs).map blocks).sum ≤ s.world.budget := by
  induction cs generalizing s rest os s' with
  | nil => exact ⟨fun text never => (by cases never), Nat.zero_le _⟩
  | cons c cs ih =>
    rw [calls, returns_bind] at returned
    obtain ⟨o, t, first, returned⟩ := returned
    rw [returns_bind] at returned
    obtain ⟨os', u, later, _⟩ := returned
    obtain ⟨room, holds_t, budget⟩ := call_room reads holds first
    obtain ⟨rooms, enough⟩ := ih holds_t later
    constructor
    · intro text member
      rcases List.mem_cons.mp member with here | there
      · exact room text here.symm
      · exact rooms text there
    · rw [answers, List.map_cons, List.sum_cons]
      omega

/- The calls return what the characters that are left say, however the file is cut, exactly when
   the lines that are asked for have room, and the heap for all their pairs. -/
theorem calls_iff (reads : Reads gc read) (holds : Holds gc buf s rest) (cs : List Call) :
    (∃ fuel os s', Returns (calls gc read buf fuel cs) s os s' ∧
      List.Forall₂ (Shows s'.world.memory) os (answers rest cs)) ↔
        (∀ text, .line text ∈ answers rest cs → Room text.length) ∧
          ((answers rest cs).map blocks).sum ≤ s.world.budget := by
  constructor
  · rintro ⟨fuel, os, s', returned, _⟩
    exact calls_room reads holds returned
  · rintro ⟨rooms, enough⟩
    obtain ⟨os, s', returned, _, all⟩ :=
      calls_returns (Nat.lt_succ_self rest.length) reads holds cs rooms enough
    exact ⟨_, os, s', returned, all.imp fun o a both => both.2⟩

end calls

section samples

/-- A fd-read-string! that stores at most so many characters at a time. -/
def fdReadString (most : Nat) (str : Obj) : Io Word := fun s =>
  match s.world.memory.string str with
  | none => .error .raised
  | some t =>
    if s.input = [] then .ok (eofObject, s)
    else
      let new := s.input.take (min most (t.size - 1).toNat)
      match s.world.memory.write t.str 0 new with
      | .ok _ m => .ok (num new.length,
          { s with world := { s.world with memory := m }, input := s.input.drop new.length })
      | _ => .error .raised

theorem reads_fdReadString (gc : Nat → Collection) {most : Nat} (positive : 1 ≤ most) :
    Reads gc (fdReadString most) where
  stores s str x ready owned text some more := by
    obtain ⟨n, t, rfl, string, own, flag⟩ := owned
    obtain ⟨t', string', same⟩ := textOf_some.mp text
    rw [string, Option.some_inj] at string'
    subst string'
    have count := (rep_of_string ready.wf string).length_chars
    rw [same] at count
    have positive' := List.length_pos_iff.mpr some
    have left := List.length_pos_iff.mpr more
    have size : (t.size - 1).toNat = x.length := by omega
    generalize taken : s.input.take (min most x.length) = new
    have length : new.length = min (min most x.length) s.input.length := by
      rw [← taken, List.length_take]
    obtain ⟨m, done, wf, chars', _, safe, others, strings⟩ :=
      write_owned (i := 0) ready.wf string own same new (by omega)
    have again : s.input.take new.length = new := by
      rw [length, ← taken, List.take_eq_take_iff]
      omega
    refine ⟨new.length, { s.world with memory := m }, by omega, by omega, by omega, ?_,
      ⟨wf, fun c => safe (gc c) (ready.safe c)⟩, ⟨others, fun o r here => (strings o).trans here⟩, ?_,
      rfl⟩
    · unfold Returns fdReadString
      rw [string]
      dsimp only
      rw [if_neg more, size, taken, show (0 : Int) = (0 : Nat) from rfl, done]
    · rw [again]
      exact textOf_some.mpr ⟨t, (strings _).trans string, chars'⟩
  eof s str x ready owned text ended := by
    obtain ⟨n, t, rfl, string, own, flag⟩ := owned
    refine ⟨s.world, ?_, ready, .refl _, rfl⟩
    unfold Returns fdReadString
    rw [string]
    dsimp only
    rw [if_pos ended]

/-- A new port; the string of its buffer has the length 8. -/
def port (input : List UInt8) : State := ⟨⟨filled 8, 0, [], 10⟩, num 0, num 0, input⟩

theorem holds_port (input : List UInt8) :
    Holds (fun _ => still) (.heapString 0) (port input) input := by
  have text : textOf (filled 8) (.heapString 0) = some (List.replicate 8 97) := by decide
  exact holds_new (ready_still wellFormed_filled) ⟨0, _, rfl, rfl, rfl, rfl⟩ text (by decide) input

/- The two lines of a file that is read by twos. -/
theorem calls_two_lines : ∃ fuel os s',
    Returns (calls (fun _ => still) (fdReadString 2) (.heapString 0) fuel
      [.lookaheadChar, .getLine, .getChar, .getLine, .getLine, .getChar])
      (port [97, 98, 99, 10, 100, 101]) os s' ∧
    List.Forall₂ (Shows s'.world.memory) os
      [.char 97, .line [97, 98, 99], .char 100, .line [101], .eof, .eof] := by
  apply (calls_iff (reads_fdReadString _ (by decide)) (holds_port [97, 98, 99, 10, 100, 101])
    [.lookaheadChar, .getLine, .getChar, .getLine, .getLine, .getChar]).mpr
  have all : answers [97, 98, 99, 10, 100, 101]
      [.lookaheadChar, .getLine, .getChar, .getLine, .getLine, .getChar] =
        [.char 97, .line [97, 98, 99], .char 100, .line [101], .eof, .eof] := by decide
  rw [all]
  refine ⟨?_, by decide⟩
  intro text member
  have short : text.length ≤ 3 := by
    simp at member
    rcases member with rfl | rfl <;> decide
  unfold Room alignUp freshSize
  omega

theorem answer_replicate (n : Nat) :
    answer (List.replicate (n + 1) 97) .getLine = .line (List.replicate (n + 1) 97) := by
  rw [answer, if_neg (by simp), line, List.takeWhile_replicate]
  rfl

/- A line of 131048 characters is not returned: list->string has no room for it. -/
theorem long_line_fails : ¬ ∃ fuel os s',
    Returns (calls (fun _ => still) (fdReadString 8) (.heapString 0) fuel [.getLine])
      (port (List.replicate 131048 97)) os s' := by
  intro ⟨fuel, os, s', returned⟩
  have room := (calls_room (reads_fdReadString _ (by decide)) (holds_port _) returned).1
    (List.replicate 131048 97) (by
      rw [answers, answer_replicate]
      exact List.mem_cons_self)
  rw [List.length_replicate] at room
  unfold Room alignUp freshSize at room
  omega

end samples

end LGears.Ports
