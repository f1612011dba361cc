import LGears.StringTexts
import LGears.Library.Returns

/- The procedures of core.strings, on the strings of the virtual machine. A list of Scheme is a list
   of objects here; only its pairs are allocated. -/
namespace LGears.CoreStrings
open Tagged hiding Obj
open Opcode Arithmetic Overwrite Strings StateExcept

/-- Why a procedure does not return. -/
inductive Stop where
  /-- A primitive has failed, and the exception handler is called. -/
  | raised
  | abort
  | undefined
  | fuel
  deriving DecidableEq, Repr

/-- The strings, the count of the primitives that were called, and the positions for which string-ref
    was called. -/
structure World where
  memory : Memory
  clock : Nat
  asked : List (Obj × Word)
  /-- How many of the allocations to come succeed before one is the FATAL of heap_alloc or of
      space_put, because what is alive does not fit. The closures and environments that the machine
      allocates on the way to a block are counted with it. -/
  budget : Nat

abbrev Proc := StateT World (Except Stop)

def stop {α : Type} (e : Stop) : Proc α := fun _ => .error e

/- Fixnums. -/

def num (n : Int) : Word := makeFixnum (BitVec.ofInt 64 n)

/-- (op a b) for an operation of the virtual machine. -/
def operate (op : Op) (a b : Word) : Proc Word :=
  match binary op a b with
  | some c => pure c
  | none => stop .undefined

/-- Whether (= a b) is not #f. -/
def equal (a b : Word) : Bool := binary .opEq a b ≠ some cfalse

section procedures
variable (gc : Nat → Collection)

/- The primitives; gc says which collection each of them starts. -/

/-- The blocks that a primitive allocates on the heap. -/
def blocks : Action → Nat
  | .makeString .. | .stringConcat .. | .stringCopy .. | .symbolToString .. | .substring ..
  | .allocate => 1
  | _ => 0

def perform (a : Action) : Proc Obj := fun w =>
  match act w.memory (gc w.clock) a with
  | .ok v m =>
    if blocks a ≤ w.budget then
      .ok (v, { w with memory := m, clock := w.clock + 1, budget := w.budget - blocks a })
    else .error .abort
  | .error => .error .raised
  | .abort => .error .abort
  | .undefined => .error .undefined

/-- (string-ref str pos) -/
def stringRef (str : Obj) (pos : Word) : Proc Obj := fun w =>
  perform gc (.stringRef str (.word pos)) { w with asked := w.asked ++ [(str, pos)] }

/-- (string-length str) -/
def stringLength (str : Obj) : Proc Word := do
  match ← perform gc (.stringLength str) with
  | .word n => pure n
  | _ => stop .undefined

/-- (cons a d) -/
def cons (a : Obj) (d : List Obj) : Proc (List Obj) := do
  let _ ← perform gc .allocate
  return a :: d

/- core.strings -/

/-- The loop of list->string. -/
def fillLoop (sres : Obj) : Word → List Obj → Proc Obj
  | _, [] => pure sres
  | pos, char :: chars => do
    let _ ← perform gc (.stringSet sres (.word pos) char)
    fillLoop sres (← operate .opAdd pos (num 1)) chars

/-- (list->string lst) -/
def listToString (lst : List Obj) : Proc Obj := do
  let slen := num lst.length
  let sres ← perform gc (.makeString (.word slen) (.word (charWord 32)))
  fillLoop gc sres (num 0) lst

/-- The loop of string->list. -/
def stringToListLoop (str : Obj) : Nat → Word → List Obj → Proc (List Obj)
  | 0, _, _ => stop .fuel
  | fuel + 1, pos, res => do
    if equal pos (num 0) then
      cons gc (← stringRef gc str pos) res
    else
      let next ← operate .opSub pos (num 1)
      let res ← cons gc (← stringRef gc str pos) res
      stringToListLoop str fuel next res

/-- (string->list str) -/
def stringToList (fuel : Nat) (str : Obj) : Proc (List Obj) := do
  let pos ← operate .opSub (← stringLength gc str) (num 1)
  stringToListLoop gc str fuel pos []

/-- The fold of sum-strings. -/
def sumStrings : Word → List Obj → Proc Word
  | len, [] => pure len
  | len, s :: strings => do
    let len ← operate .opAdd len (← stringLength gc s)
    sumStrings len strings

/-- The loop of string-append. -/
def appendLoop (res : Obj) : List Obj → Word → Proc Obj
  | [], _ => pure res
  | s :: args, pos => do
    let _ ← perform gc (.stringCopyTo res (.word pos) s)
    let pos ← operate .opAdd pos (← stringLength gc s)
    appendLoop res args pos

/-- (string-append args ...) -/
def stringAppend (args : List Obj) : Proc Obj := do
  let tlen ← sumStrings gc (num 0) args
  let res ← perform gc (.makeString (.word tlen) (.word (charWord 32)))
  appendLoop gc res args (num 0)

end procedures

section numbers

theorem num_operate (op : Op) {a b n : Int} (exact_ : exactOp op a b = some n) :
    binary op (num a) (num b) = some (num n) := by
  have payload_num : ∀ k, payload (num k) = BitVec.ofInt 61 k := by
    intro k
    rw [num, payload_makeFixnum, TwosComplement.setWidth_ofInt (by decide)]
  have computes : wordOp op (payload (num a)) (payload (num b)) = some (BitVec.ofInt 61 n) := by
    rw [payload_num, payload_num, wordOp_ofInt, exact_]
    rfl
  obtain ⟨c, result, same⟩ := binary_payload computes
  have equal : c.word = num n :=
    payload_inj (b := ⟨num n, getTag_makeFixnum _⟩) (same.trans (payload_num n).symm)
  rw [result, equal]

theorem returns_operate {op : Op} {a b n : Int} {w w' : World} {v : Word}
    (exact_ : exactOp op a b = some n) :
    Returns (operate op (num a) (num b)) w v w' ↔ num n = v ∧ w = w' := by
  rw [operate, num_operate op exact_]
  exact returns_pure

theorem value_num (n : Int) : value (num n) = n.bmod (2 ^ 61) := by
  rw [num, value_makeFixnum, BitVec.toInt_ofInt]
  exact Int.bmod_bmod_of_dvd (by decide)

theorem intOf_num (n : Int) : intOf (num n) = n.bmod (2 ^ 32) := by
  rw [intOf, value_num]
  exact Int.bmod_bmod_of_dvd (by decide)

theorem value_small {n : Int} (low : -2 ^ 60 ≤ n) (high : n < 2 ^ 60) : value (num n) = n := by
  rw [value_num]
  exact Int.bmod_eq_of_le (by omega) (by omega)

theorem intOf_small {n : Int} (low : -2 ^ 31 ≤ n) (high : n < 2 ^ 31) : intOf (num n) = n := by
  rw [intOf_num]
  exact Int.bmod_eq_of_le (by omega) (by omega)

theorem asFixnum_num (n : Int) : (Obj.word (num n)).asFixnum = some (num n) :=
  if_pos (getTag_makeFixnum _)

theorem equal_num {a b : Int} (low : -2 ^ 60 ≤ a) (high : a < 2 ^ 60) (low' : -2 ^ 60 ≤ b)
    (high' : b < 2 ^ 60) : equal (num a) (num b) = decide (a = b) := by
  rw [equal, binary_eq, value_small low high, value_small low' high']
  by_cases same : a = b
  · simp [same, show cif true ≠ cfalse by decide]
  · simp [same, show cif false = cfalse by decide]

/-- The character that string-ref returns for a byte. -/
def charObj (b : UInt8) : Obj := .word (charWord b)

theorem asChar_charObj (b : UInt8) : (charObj b).asChar = some (charWord b) := by
  have tags : ∀ i : Fin 256, getTag (charWord ⟨⟨i⟩⟩) = tagChar := by decide +kernel
  exact if_pos (tags b.toBitVec.toFin)

theorem charByte_charWord (b : UInt8) : charByte (charWord b) = b := by
  have bytes : ∀ i : Fin 256, charByte (charWord ⟨⟨i⟩⟩) = ⟨⟨i⟩⟩ := by decide +kernel
  exact bytes b.toBitVec.toFin

end numbers

section primitives
open StringShape StringTexts
variable {gc : Nat → Collection} {w w' : World} {m m' : Memory} {o v : Obj} {x : List UInt8}

theorem returns_perform {a : Action} : Returns (perform gc a) w v w' ↔
    ∃ m, act w.memory (gc w.clock) a = .ok v m ∧ blocks a ≤ w.budget ∧
      w' = { w with memory := m, clock := w.clock + 1, budget := w.budget - blocks a } := by
  unfold Returns perform
  cases act w.memory (gc w.clock) a with
  | ok u m =>
    dsimp only
    split
    · rename_i enough
      constructor
      · intro same
        cases same
        exact ⟨m, rfl, enough, rfl⟩
      · rintro ⟨n, same, _, rfl⟩
        cases same
        rfl
    · rename_i short
      constructor
      · intro never
        cases never
      · rintro ⟨n, _, enough, _⟩
        exact absurd enough short
  | error | abort | undefined =>
    constructor
    · intro never
      cases never
    · rintro ⟨n, never, _⟩
      cases never

theorem perform_enough {a : Action} (returned : Returns (perform gc a) w v w') :
    blocks a ≤ w.budget := by
  obtain ⟨_, _, enough, _⟩ := returns_perform.mp returned
  exact enough

/-- What an action does to the strings, string-concat apart. -/
inductive Effect (m : Memory) (c : Collection) : Memory → Prop where
  | same : Effect m c m
  | collected : Effect m c (m.collect c)
  | fresh {total size : Int} {str : Nat → Region} {allocated : Bool}
      {text : Memory → Option (List UInt8)} {v : Obj} {m' : Memory}
      (flag : ∀ n, str n = .block n → allocated = true)
      (done : m.newString total str size allocated text c = .ok v m') : Effect m c m'
  | written {r : Region} {pos : Int} {bytes : List UInt8} {v : Obj} {m' : Memory}
      (done : m.write r pos bytes = .ok v m') : Effect m c m'
  | symbol (name : CString) : Effect m c (Strings.makeSymbol m name).2
  | literal {bytes : List UInt8} {v : Obj} {m' : Memory} (done : readString m bytes = .ok v m') :
      Effect m c m'

theorem act_effect {c : Collection} {a : Action} (other : ∀ a' b', a ≠ .stringConcat a' b')
    (done : act m c a = .ok v m') : Effect m c m' := by
  cases a with
  | makeString len fill =>
    simp only [act, makeString] at done
    split at done
    · exact .fresh (fun _ _ => rfl) done
    · cases done
  | stringConcat a' b' => exact absurd rfl (other a' b')
  | stringCopyTo dest pos src =>
    simp only [act, stringCopyTo] at done
    split at done
    · split at done
      · split at done
        · split at done
          · cases done
          · exact .written done
        · cases done
      · cases done
    · cases done
  | stringCopy src =>
    simp only [act, stringCopy] at done
    split at done
    · exact .fresh (fun _ _ => rfl) done
    · cases done
  | symbolToString sym =>
    simp only [act, symbolToString] at done
    split at done
    · split at done
      · exact .fresh (fun _ never => by cases never) done
      · cases done
    · cases done
  | stringSet str pos val =>
    simp only [act, stringSet] at done
    split at done
    · split at done
      · exact .written done
      · cases done
    · cases done
  | substring str start stop =>
    simp only [act, Strings.substring] at done
    split at done
    · split at done
      · exact .fresh (fun _ _ => rfl) done
      · cases done
    · cases done
  | stringRef str pos =>
    simp only [act, Strings.stringRef] at done
    split at done
    · split at done
      · cases done
        exact .same
      · cases done
    · cases done
  | stringLength str =>
    simp only [act, Strings.stringLength] at done
    split at done
    · cases done
      exact .same
    · cases done
  | stringEq a' b' =>
    simp only [act, stringEq] at done
    split at done
    · split at done
      · cases done
        exact .same
      · cases done
    · cases done
  | makeSymbol str =>
    cases done
    exact .symbol str
  | readString bytes => exact .literal done
  | allocate =>
    cases done
    exact .collected

theorem string_written {r : Region} {pos : Int} {bytes : List UInt8}
    (done : m.write r pos bytes = .ok v m') (o : Obj) : m'.string o = m.string o := by
  unfold Memory.write at done
  split at done
  · cases done
  · split at done
    · cases done
      exact string_setText o
    · cases done

theorem string_symbol (name : CString) (o : Obj) :
    (Strings.makeSymbol m name).2.string o = m.string o := by
  unfold Strings.makeSymbol
  split
  · rfl
  · rfl

/- A collection that moves no string without its flag does so after every such action. -/
theorem Effect.safe {c c' : Collection} (effect : Effect m c m') (wf : WellFormed m)
    (safe_c : Safe m c) (safe : Safe m c') : Safe m' c' := by
  cases effect with
  | same => exact safe
  | collected =>
    rw [collect_eq wf safe_c]
    exact safe
  | fresh flag done =>
    obtain ⟨room, bytes, _, _, _, _, rfl⟩ := newString_ok done
    rw [collect_eq wf safe_c]
    intro n s moves string own
    rw [string_added] at string
    split at string
    · rename_i new
      cases string
      exact flag _ (new ▸ own)
    · exact safe n s moves string own
  | written done =>
    intro n s moves string own
    rw [string_written done] at string
    exact safe n s moves string own
  | symbol name =>
    intro n s moves string own
    rw [string_symbol] at string
    exact safe n s moves string own
  | literal done =>
    unfold readString at done
    split at done
    · cases done
      exact safe
    · cases done

/-- The strings have their shape, and the collections do not spoil it. -/
structure Ready (gc : Nat → Collection) (w : World) : Prop where
  wf : WellFormed w.memory
  safe : ∀ t, Safe w.memory (gc t)

/-- The strings and their texts stay. -/
structure Keeps (w w' : World) : Prop where
  text : ∀ o x, textOf w.memory o = some x → textOf w'.memory o = some x
  string : ∀ o s, w.memory.string o = some s → w'.memory.string o = some s

theorem Keeps.refl (w : World) : Keeps w w := ⟨fun _ _ => id, fun _ _ => id⟩

theorem Keeps.trans {u v w : World} (first : Keeps u v) (second : Keeps v w) : Keeps u w where
  text o x here := second.text o x (first.text o x here)
  string o s here := second.string o s (first.string o s here)

theorem Keeps.same {u v w : World} (memory : v.memory = u.memory) (keeps : Keeps v w) :
    Keeps u w :=
  ⟨memory ▸ keeps.text, memory ▸ keeps.string⟩

theorem perform_ready {a : Action} (ready : Ready gc w) (fit : Fit w.memory (gc w.clock) a)
    (other : ∀ a' b', a ≠ .stringConcat a' b') (done : Returns (perform gc a) w v w') :
    Ready gc w' := by
  obtain ⟨m, result, _, rfl⟩ := returns_perform.mp done
  constructor
  · have keeps := act_wellFormed ready.wf fit
    rw [result] at keeps
    exact keeps
  · exact fun t => (act_effect other result).safe ready.wf (ready.safe _) (ready.safe t)

theorem length_small (wf : WellFormed m) (text : textOf m o = some x) : x.length < 2 ^ 31 - 1 := by
  obtain ⟨s, string, rfl⟩ := textOf_some.mp text
  have rep := rep_of_string wf string
  have small := wf.small o s string
  have length := rep.length_chars
  have positive := rep.positive
  omega

theorem stringRef_returns (ready : Ready gc w) (text : textOf w.memory o = some x) {i : Nat}
    {b : UInt8} (char : x[i]? = some b) :
    Returns (stringRef gc o (num i)) w (charObj b)
      { w with clock := w.clock + 1, asked := w.asked ++ [(o, num i)] } := by
  have small := length_small ready.wf text
  have inside := (List.getElem?_eq_some_iff.mp char).1
  have seen := (textOf_seen ready.wf text).ref (.word (num i)) (num i) i b (asFixnum_num _)
    (intOf_small (by omega) (by omega)) char
  apply returns_perform.mpr
  exact ⟨w.memory, seen, Nat.zero_le _, rfl⟩

theorem stringLength_returns (ready : Ready gc w) (text : textOf w.memory o = some x) :
    Returns (stringLength gc o) w (num x.length) { w with clock := w.clock + 1 } := by
  have seen := (textOf_seen ready.wf text).length
  unfold stringLength
  rw [returns_bind]
  refine ⟨.word (num x.length), { w with clock := w.clock + 1 }, ?_, ?_⟩
  · apply returns_perform.mpr
    refine ⟨w.memory, ?_, Nat.zero_le _, rfl⟩
    rw [num, BitVec.ofInt_natCast]
    exact seen
  · rw [returns_pure]
    exact ⟨rfl, rfl⟩

theorem cons_returns (ready : Ready gc w) (enough : 0 < w.budget) (a : Obj) (d : List Obj) :
    ∃ w', Returns (cons gc a d) w (a :: d) w' ∧ Ready gc w' ∧ Keeps w w' ∧ w'.asked = w.asked ∧
      w.budget = w'.budget + 1 := by
  have done : Returns (perform gc .allocate) w (.word (makeObj 3 tagConst))
      { w with
        memory := w.memory.collect (gc w.clock)
        clock := w.clock + 1
        budget := w.budget - 1 } :=
    returns_perform.mpr ⟨_, rfl, enough, rfl⟩
  have fit : Fit w.memory (gc w.clock) .allocate := ready.safe _
  refine ⟨_, ?_, perform_ready ready fit (fun _ _ never => by cases never) done, ⟨?_, ?_⟩, rfl,
    (Nat.sub_add_cancel enough).symm⟩
  · rw [cons, returns_bind]
    exact ⟨_, _, done, returns_pure.mpr ⟨rfl, rfl⟩⟩
  · intro o x text
    dsimp only
    rw [collect_eq ready.wf (ready.safe _)]
    exact text
  · intro o s string
    dsimp only
    rw [collect_eq ready.wf (ready.safe _)]
    exact string

theorem cons_enough {a : Obj} {d l : List Obj} (returned : Returns (cons gc a d) w l w') :
    0 < w.budget := by
  rw [cons, returns_bind] at returned
  obtain ⟨_, _, done, _⟩ := returned
  exact perform_enough done

/-- A string that has been made and owns its text x. -/
structure Buffer (m : Memory) (res : Obj) (x : List UInt8) : Prop where
  own : ∃ n s, res = .heapString n ∧ m.string res = some s ∧ s.str = .block n ∧
    s.allocated = true ∧ chars m s = x ∧ (m.text s.str).length ≤ freshSize

theorem Buffer.text {res : Obj} (buffer : Buffer m res x) : textOf m res = some x := by
  obtain ⟨n, s, _, string, _, _, same, _⟩ := buffer.own
  exact textOf_some.mpr ⟨s, string, same⟩

/-- The strings stay, and the texts of all but one. -/
structure KeepsBut (res : Obj) (w w' : World) : Prop where
  text : ∀ o x, o ≠ res → textOf w.memory o = some x → textOf w'.memory o = some x
  string : ∀ o s, w.memory.string o = some s → w'.memory.string o = some s

theorem KeepsBut.refl (res : Obj) (w : World) : KeepsBut res w w :=
  ⟨fun _ _ _ => id, fun _ _ => id⟩

theorem KeepsBut.trans {res : Obj} {u v w : World} (first : KeepsBut res u v)
    (second : KeepsBut res v w) : KeepsBut res u w where
  text o x other here := second.text o x other (first.text o x other here)
  string o s here := second.string o s (first.string o s here)

/- A string that has been made since may have changed. -/
theorem Keeps.but {u v w : World} {res : Obj} (first : Keeps u v) (second : KeepsBut res v w)
    (new : ∀ x, textOf u.memory res ≠ some x) : Keeps u w where
  text o x here := by
    apply second.text o x _ (first.text o x here)
    rintro rfl
    exact new x here
  string o s here := second.string o s (first.string o s here)

/-- A string of n characters has room in the fresh space. -/
def Room (n : Nat) : Prop := alignUp (17 + n) + 8 ≤ freshSize

theorem Room.small {n : Nat} (room : Room n) : n < 2 ^ 17 := by
  unfold Room alignUp freshSize at room
  omega

theorem heapAlloc_room {n : Nat} (room : Room n) :
    ∃ bytes, heapAlloc (16 + n + 1) = .block bytes ∧ n + 1 ≤ bytes ∧ bytes ≤ freshSize := by
  have small := room.small
  have wrapped : ((16 : Int) + n + 1).bmod (2 ^ 32) = 16 + n + 1 :=
    Int.bmod_eq_of_le (by omega) (by omega)
  have count : ((16 : Int) + n + 1).toNat = 17 + n := by omega
  unfold Room at room
  refine ⟨alignUp (17 + n) - 16, ?_, ?_, by omega⟩
  · unfold heapAlloc
    simp only [wrapped, count]
    rw [if_neg (by omega), if_neg (by omega), if_neg (by omega)]
  · have above := le_alignUp (17 + n)
    omega

theorem count_num {n : Nat} (room : Room n) : (fixnum (num n)).toNat = n := by
  have small := room.small
  have same := value_small (n := n) (by omega) (by omega)
  have count := toNat_fixnum (w := num n) (by rw [same]; omega)
  rw [same] at count
  omega

theorem newString_done {c : Collection} {total size : Int} {str : Nat → Region} {allocated : Bool}
    {text : Memory → Option (List UInt8)} {room : Nat} {bytes : List UInt8}
    (alloc : heapAlloc total = .block room) (copied : text (m.collect c) = some bytes)
    (fits : bytes.length ≤ room) : m.newString total str size allocated text c =
      .ok (.heapString (m.collect c).heap.length)
        ((m.collect c).added ⟨str (m.collect c).heap.length, size, allocated⟩ room bytes) := by
  simp only [Memory.newString, alloc, copied, if_pos fits]
  rfl

theorem makeString_room (wf : WellFormed m) {c : Collection} (safe : Safe m c) {n : Nat}
    (room : Room n) (fill : UInt8) : ∃ bytes, n + 1 ≤ bytes ∧ bytes ≤ freshSize ∧
      makeString m (.word (num n)) (charObj fill) c = .ok (.heapString m.heap.length)
        (Memory.added { m with outside := c.outside } ⟨.block m.heap.length, n + 1, true⟩ bytes
          (List.replicate n fill ++ [0])) := by
  have small := room.small
  obtain ⟨bytes, alloc, above, limit⟩ := heapAlloc_room room
  have size : ((n : Int) + 1).bmod (2 ^ 32) = n + 1 := Int.bmod_eq_of_le (by omega) (by omega)
  have fits : (List.replicate n fill ++ [0]).length ≤ bytes := by simpa using above
  refine ⟨bytes, above, limit, ?_⟩
  unfold makeString
  rw [asFixnum_num, asChar_charObj]
  dsimp only
  rw [charByte_charWord, count_num room, size, newString_done alloc rfl fits, collect_eq wf safe]

theorem makeString_returns (ready : Ready gc w) (enough : 0 < w.budget) {n : Nat} (room : Room n)
    (fill : UInt8) :
    ∃ res w', Returns (perform gc (.makeString (.word (num n)) (charObj fill))) w res w' ∧
      Ready gc w' ∧ Buffer w'.memory res (List.replicate n fill) ∧ Keeps w w' ∧
        (∀ x, textOf w.memory res ≠ some x) ∧ w'.asked = w.asked ∧ w.budget = w'.budget + 1 := by
  have small := room.small
  have fit : Fit w.memory (gc w.clock) (.makeString (.word (num n)) (charObj fill)) := by
    refine ⟨ready.safe _, ?_⟩
    intro v number
    rw [asFixnum_num, Option.some_inj] at number
    rw [← number, value_small] <;> omega
  obtain ⟨bytes, above, limit, done⟩ := makeString_room ready.wf (ready.safe w.clock) room fill
  have fits : (List.replicate n fill ++ [0]).length ≤ bytes := by simpa using above
  have returned : Returns (perform gc (.makeString (.word (num n)) (charObj fill))) w
      (.heapString w.memory.heap.length) _ := returns_perform.mpr ⟨_, done, enough, rfl⟩
  refine ⟨_, _, returned, perform_ready ready fit (fun _ _ never => by cases never) returned,
    ?_, ⟨?_, ?_⟩, ?_, rfl, (Nat.sub_add_cancel enough).symm⟩
  · refine ⟨w.memory.heap.length, ⟨.block w.memory.heap.length, n + 1, true⟩, rfl, ?_, rfl, rfl, ?_,
      ?_⟩
    · rw [string_added]
      exact if_pos rfl
    · have length : ((n : Int) + 1 - 1).toNat = n := by omega
      rw [chars_new rfl (by simp) fits]
      dsimp only
      rw [length, List.take_append_of_le_length (by simp), List.take_of_length_le (by simp)]
    · rw [text_added, if_pos rfl, length_filled fits]
      exact limit
  · intro o x here
    exact textOf_added (ready.wf.outside _) here
  · intro o s here
    exact string_added_old (m := { w.memory with outside := (gc w.clock).outside }) here
  · intro x here
    obtain ⟨s, string, _⟩ := textOf_some.mp here
    rw [Memory.string, List.getElem?_eq_none (Nat.le_refl _)] at string
    cases string

theorem write_owned (wf : WellFormed m) {n : Nat} {s : StringT}
    (string : m.string (.heapString n) = some s) (own : s.str = .block n) (same : chars m s = x)
    {i : Nat} (bytes : List UInt8) (inside : i + bytes.length ≤ x.length) :
    ∃ m', m.write s.str i bytes = .ok (.word (makeObj 3 tagConst)) m' ∧ WellFormed m' ∧
      chars m' s = overwrite x i bytes ∧ (m'.text s.str).length = (m.text s.str).length ∧
        (∀ c, Safe m c → Safe m' c) ∧
          (∀ o y, o ≠ .heapString n → textOf m o = some y → textOf m' o = some y) ∧
            ∀ o, m'.string o = m.string o := by
  have rep := wf.own n s string own
  have count := rep.length_chars
  have whole := rep.inside
  rw [same] at count
  have fits : (i : Int).toNat + bytes.length ≤ (m.text s.str).length := by omega
  have done := write_inside (m := m) (fun k never => by rw [own] at never; cases never)
    (Int.natCast_nonneg i) fits
  have keeps := write_own wf bytes string own (Int.natCast_nonneg i) (by omega)
  rw [done] at keeps
  have text : (m.setText s.str (overwrite (m.text s.str) (i : Int).toNat bytes)).text s.str =
      overwrite (m.text s.str) i bytes := by
    rw [own]
    exact text_setText_block string _
  refine ⟨_, done, keeps, ?_, ?_, ?_, ?_, ?_⟩
  · rw [chars, text, ← same]
    apply List.ext_getElem?
    intro k
    have inside' : i + bytes.length ≤ (chars m s).length := by rw [same]; exact inside
    rw [List.getElem?_take, getElem?_overwrite (by omega), getElem?_overwrite (by omega)]
    by_cases below : k < (s.size - 1).toNat
    · rw [if_pos below, getElem?_chars (by omega)]
    · rw [if_neg below, if_neg (by omega), List.getElem?_eq_none (by rw [same]; omega)]
  · have fits' : i + bytes.length ≤ (m.text s.str).length := by simpa using fits
    rw [text, length_overwrite fits']
  · intro c safe k t moves string' mine
    rw [string_setText] at string'
    exact safe k t moves string' mine
  · intro o y other here
    apply write_keeps_text (congrArg (Outcome.after m) done) here
    intro t there equal
    rw [own] at equal
    cases o with
    | heapString k =>
      rcases wf.place k t there with mine | ⟨j, borrowed⟩
      · rw [mine, Region.block.injEq] at equal
        exact other (by rw [equal])
      · rw [borrowed.str] at equal
        cases equal
    | constString k =>
      obtain ⟨_, j, literal⟩ := wf.consts k t there
      rw [literal] at equal
      cases equal
    | _ => cases there
  · intro o
    exact string_setText _

theorem write_returns (wf : WellFormed m) {res : Obj} (buffer : Buffer m res x) {s : StringT}
    (string : m.string res = some s) {i : Nat} (bytes : List UInt8)
    (inside : i + bytes.length ≤ x.length) :
    ∃ m', m.write s.str i bytes = .ok (.word (makeObj 3 tagConst)) m' ∧ WellFormed m' ∧
      Buffer m' res (overwrite x i bytes) ∧ (∀ c, Safe m c → Safe m' c) ∧
        (∀ o y, o ≠ res → textOf m o = some y → textOf m' o = some y) ∧
          ∀ o t, m.string o = some t → m'.string o = some t := by
  obtain ⟨n, t, rfl, string', own, flag, same, block⟩ := buffer.own
  rw [string, Option.some_inj] at string'
  subst string'
  obtain ⟨m', done, wf', chars', length, safe, others, strings⟩ :=
    write_owned wf string own same bytes inside
  refine ⟨m', done, wf', ⟨n, s, rfl, (strings _).trans string, own, flag, chars', ?_⟩, safe, others,
    ?_⟩
  · rw [length]
    exact block
  · intro o t here
    rw [strings]
    exact here

theorem stringSet_returns (ready : Ready gc w) {res : Obj} (buffer : Buffer w.memory res x)
    {i : Nat} (inside : i < x.length) {c : Word} (tag : getTag c = tagChar) :
    ∃ v w', Returns (perform gc (.stringSet res (.word (num i)) (.word c))) w v w' ∧ Ready gc w' ∧
      Buffer w'.memory res (x.set i (charByte c)) ∧ KeepsBut res w w' ∧ w'.asked = w.asked ∧
        w'.budget = w.budget := by
  have small := length_small ready.wf buffer.text
  obtain ⟨n, s, name, string, own, flag, same, _⟩ := buffer.own
  have length := (rep_of_string ready.wf string).length_chars
  rw [same] at length
  obtain ⟨m', written, wf, after, safe, others, strings⟩ :=
    write_returns ready.wf buffer string [charByte c] (show i + 1 ≤ x.length by omega)
  rw [overwrite_singleton inside] at after
  have index : intOf (num i) = i := intOf_small (by omega) (by omega)
  have done : act w.memory (gc w.clock) (.stringSet res (.word (num i)) (.word c)) =
      .ok (.word (makeObj 3 tagConst)) m' := by
    have char : (Obj.word c).asChar = some c := if_pos tag
    simp only [act, Strings.stringSet, string, asFixnum_num, char, index]
    rw [if_pos (by omega)]
    exact written
  refine ⟨_, _, returns_perform.mpr ⟨m', done, Nat.zero_le _, rfl⟩, ⟨wf, ?_⟩, after,
    ⟨others, strings⟩, rfl, rfl⟩
  intro t
  exact safe (gc t) (ready.safe t)

theorem stringCopyTo_returns (ready : Ready gc w) {res src : Obj} {y : List UInt8}
    (buffer : Buffer w.memory res x) (text : textOf w.memory src = some y) {i : Nat}
    (inside : i + y.length ≤ x.length) :
    ∃ v w', Returns (perform gc (.stringCopyTo res (.word (num i)) src)) w v w' ∧ Ready gc w' ∧
      Buffer w'.memory res (overwrite x i y) ∧ KeepsBut res w w' ∧ w'.asked = w.asked ∧
        w'.budget = w.budget := by
  have small := length_small ready.wf buffer.text
  obtain ⟨n, s, name, string, own, flag, same, _⟩ := buffer.own
  obtain ⟨t, source, copied⟩ := textOf_some.mp text
  have rep := rep_of_string ready.wf source
  have length := (rep_of_string ready.wf string).length_chars
  have length' := rep.length_chars
  have positive := rep.positive
  rw [same] at length
  rw [copied] at length'
  obtain ⟨m', written, wf, after, safe, others, strings⟩ := write_returns ready.wf buffer string _ inside
  have index : intOf (num i) = i := intOf_small (by omega) (by omega)
  have sum : intAdd i t.size = i + t.size := intAdd_of_small (by omega) (by omega)
  have done : act w.memory (gc w.clock) (.stringCopyTo res (.word (num i)) src) =
      .ok (.word (makeObj 3 tagConst)) m' := by
    have bytes : w.memory.bytes t.str 0 (t.size - 1).toNat = y := copied ▸ Rep.bytes_front rep
    subst name
    simp only [act, Strings.stringCopyTo, string, source, asFixnum_num, flag, index, sum, bytes]
    rw [if_pos trivial, if_pos (by omega), if_neg (by omega)]
    exact written
  refine ⟨_, _, returns_perform.mpr ⟨m', done, Nat.zero_le _, rfl⟩, ⟨wf, ?_⟩, after,
    ⟨others, strings⟩, rfl, rfl⟩
  intro t
  exact safe (gc t) (ready.safe t)

end primitives

section returned
open StringShape StringTexts
variable {gc : Nat → Collection} {w w' : World} {o res v : Obj} {x y : List UInt8}

theorem fillLoop_returns {l : List Word} (tags : ∀ c ∈ l, getTag c = tagChar) {i : Nat}
    (ready : Ready gc w) (buffer : Buffer w.memory res x) (length : i + l.length = x.length) :
    ∃ w', Returns (fillLoop gc res (num i) (l.map .word)) w res w' ∧ Ready gc w' ∧
      Buffer w'.memory res (x.take i ++ l.map charByte) ∧ KeepsBut res w w' ∧
        w'.asked = w.asked ∧ w'.budget = w.budget := by
  induction l generalizing i w x with
  | nil =>
    refine ⟨w, returns_pure.mpr ⟨rfl, rfl⟩, ready, ?_, .refl res w, rfl, rfl⟩
    rw [List.take_of_length_le (by simp at length; omega), List.map_nil, List.append_nil]
    exact buffer
  | cons c l ih =>
    rw [List.length_cons] at length
    obtain ⟨v, u, set, ready_u, buffer_u, keeps_u, asked_u, budget_u⟩ :=
      stringSet_returns ready buffer (i := i) (by omega) (tags c List.mem_cons_self)
    obtain ⟨w', rest, ready', buffer', keeps', asked', budget'⟩ :=
      ih (fun d member => tags d (List.mem_cons_of_mem c member)) ready_u buffer_u (i := i + 1)
        (by rw [List.length_set]; omega)
    refine ⟨w', ?_, ready', ?_, keeps_u.trans keeps', asked'.trans asked_u,
      budget'.trans budget_u⟩
    · rw [List.map_cons, fillLoop, returns_bind]
      refine ⟨v, u, set, ?_⟩
      rw [returns_bind]
      exact ⟨num (i + 1), u, (returns_operate (n := (i : Int) + 1) rfl).mpr ⟨rfl, rfl⟩, rest⟩
    · rw [List.take_add_one, List.take_set_of_le (Nat.le_refl i),
        List.getElem?_set_self (by omega)] at buffer'
      simpa using buffer'

theorem listToString_returns {l : List Word} (tags : ∀ c ∈ l, getTag c = tagChar)
    (room : Room l.length) (ready : Ready gc w) (enough : 0 < w.budget) :
    ∃ v w', Returns (listToString gc (l.map .word)) w v w' ∧ Ready gc w' ∧
      Buffer w'.memory v (l.map charByte) ∧ Keeps w w' ∧ w'.asked = w.asked ∧
        (∀ x, textOf w.memory v ≠ some x) ∧ w.budget = w'.budget + 1 := by
  obtain ⟨res, u, made, ready_u, buffer_u, keeps_u, new, asked_u, budget_u⟩ :=
    makeString_returns ready enough room 32
  obtain ⟨w', filled, ready', buffer', keeps', asked', budget'⟩ :=
    fillLoop_returns tags ready_u buffer_u (i := 0) (by simp)
  refine ⟨res, w', ?_, ready', by simpa using buffer', keeps_u.but keeps' new,
    asked'.trans asked_u, new, by rw [budget', budget_u]⟩
  rw [listToString, List.length_map, returns_bind]
  exact ⟨res, u, made, filled⟩

theorem stringSet_inside (ready : Ready gc w) (buffer : Buffer w.memory res x) {i : Nat}
    (low : i ≤ x.length) {c : Obj}
    (returned : Returns (perform gc (.stringSet res (.word (num i)) c)) w v w') :
    i < x.length := by
  have small := length_small ready.wf buffer.text
  obtain ⟨n, s, _, string, _, _, same, _⟩ := buffer.own
  have length := (rep_of_string ready.wf string).length_chars
  rw [same] at length
  have index : intOf (num i) = i := CoreStrings.intOf_small (by omega) (by omega)
  obtain ⟨m, done, _⟩ := returns_perform.mp returned
  simp only [act, Strings.stringSet, string, asFixnum_num] at done
  split at done
  · rename_i here number _
    cases here
    cases number
    rw [index] at done
    split at done
    · omega
    · cases done
  · cases done

theorem fillLoop_room {l : List Word} (tags : ∀ c ∈ l, getTag c = tagChar) {i : Nat}
    (ready : Ready gc w) (buffer : Buffer w.memory res x) (low : i ≤ x.length)
    (returned : Returns (fillLoop gc res (num i) (l.map .word)) w v w') :
    i + l.length ≤ x.length := by
  induction l generalizing i w x with
  | nil => simpa using low
  | cons c l ih =>
    rw [List.map_cons, fillLoop, returns_bind] at returned
    obtain ⟨v', u, set, rest⟩ := returned
    have inside := stringSet_inside ready buffer low set
    obtain ⟨v'', u', set', ready_u, buffer_u, _, _⟩ :=
      stringSet_returns ready buffer inside (tags c List.mem_cons_self)
    obtain ⟨_, rfl⟩ := set.unique set'
    rw [returns_bind] at rest
    obtain ⟨p, t, next, rest⟩ := rest
    obtain ⟨rfl, rfl⟩ := (returns_operate (n := (i : Int) + 1) rfl).mp next
    have behind := ih (fun d member => tags d (List.mem_cons_of_mem c member)) ready_u buffer_u
      (i := i + 1) (by rw [List.length_set]; omega) rest
    rw [List.length_set] at behind
    rw [List.length_cons]
    omega

theorem makeString_room_of_returns {len : Word} {fill : UInt8}
    (returned : Returns (perform gc (.makeString (.word len) (charObj fill))) w res w') :
    Room (fixnum len).toNat := by
  obtain ⟨m, done, _⟩ := returns_perform.mp returned
  simp only [act, makeString] at done
  split at done
  · rename_i v c number _
    have same : v = len := by
      unfold Obj.asFixnum at number
      dsimp only at number
      split at number
      · cases number
        rfl
      · cases number
    subst same
    obtain ⟨room, bytes, alloc, copied, fits, _, _⟩ := newString_ok done
    rw [Option.some_inj] at copied
    subst copied
    rw [List.length_append, List.length_replicate, List.length_singleton] at fits
    unfold heapAlloc at alloc
    dsimp only at alloc
    split at alloc
    · cases alloc
    · split at alloc
      · cases alloc
      · split at alloc
        · cases alloc
        · rename_i low enough full
          cases alloc
          have wrapped : ((16 : Int) + (fixnum v).toNat + 1).bmod (2 ^ 32) =
              16 + (fixnum v).toNat + 1 := by
            unfold alignUp freshSize at *
            rw [Int.bmod_def] at *
            omega
          rw [wrapped] at full
          have count : ((16 : Int) + (fixnum v).toNat + 1).toNat = 17 + (fixnum v).toNat := by
            omega
          rw [count] at full
          exact Nat.not_lt.mp full
  · cases done

theorem Room.mono {m n : Nat} (room : Room n) (le : m ≤ n) : Room m := by
  unfold Room alignUp freshSize at *
  omega

theorem num_toNat (n : Int) : num n = num (fixnum (num n)).toNat := by
  have word := fixnum_word ⟨num n, getTag_makeFixnum _⟩
  calc num n = makeFixnum (fixnum (num n)) := word.symm
    _ = num (fixnum (num n)).toNat := by
      rw [num, num, BitVec.ofInt_natCast, BitVec.ofNat_toNat, BitVec.setWidth_eq]

theorem listToString_room {l : List Word} (tags : ∀ c ∈ l, getTag c = tagChar) (ready : Ready gc w)
    (returned : Returns (listToString gc (l.map .word)) w v w') :
    Room l.length ∧ 0 < w.budget := by
  rw [listToString, List.length_map, returns_bind] at returned
  obtain ⟨res, u, made, filled⟩ := returned
  have room := makeString_room_of_returns made
  have enough : 0 < w.budget := perform_enough made
  generalize count : (fixnum (num l.length)).toNat = k at room
  rw [num_toNat l.length, count] at made
  obtain ⟨res', u', made', ready_u, buffer_u, _⟩ := makeString_returns ready enough room 32
  obtain ⟨rfl, rfl⟩ := made.unique made'
  have below := fillLoop_room tags ready_u buffer_u (i := 0) (Nat.zero_le _) filled
  rw [List.length_replicate, Nat.zero_add] at below
  exact ⟨room.mono below, enough⟩

/- string->list -/

/-- The positions for which string-ref is called, from n - 1 down to 0. -/
def positions (o : Obj) : Nat → List (Obj × Word)
  | 0 => []
  | n + 1 => (o, num n) :: positions o n

theorem stringToListLoop_returns (ready : Ready gc w) (text : textOf w.memory o = some x) {i : Nat}
    (inside : i < x.length) (enough : i < w.budget) (res : List Obj) :
    ∃ w', Returns (stringToListLoop gc o (i + 1) (num i) res) w
        ((x.take (i + 1)).map charObj ++ res) w' ∧ Ready gc w' ∧ Keeps w w' ∧
      w'.asked = w.asked ++ positions o (i + 1) ∧ w.budget = w'.budget + (i + 1) := by
  induction i generalizing w res with
  | zero =>
    have char := List.getElem?_eq_getElem inside
    have first := stringRef_returns ready text char
    obtain ⟨w', pair, ready', keeps, asked, budget⟩ := cons_returns
      (w := { w with clock := w.clock + 1, asked := w.asked ++ [(o, num (0 : Nat))] })
      ⟨ready.wf, ready.safe⟩ enough (charObj x[0]) res
    refine ⟨w', ?_, ready', ⟨keeps.text, keeps.string⟩, asked, budget⟩
    have one : (x.take (0 + 1)).map charObj ++ res = charObj x[0] :: res := by
      rw [List.take_add_one, char]
      rfl
    rw [one, stringToListLoop, if_pos (by rfl), returns_bind]
    exact ⟨_, _, first, pair⟩
  | succ i ih =>
    have small := length_small ready.wf text
    have char := List.getElem?_eq_getElem inside
    have first := stringRef_returns ready text char
    obtain ⟨u, pair, ready_u, keeps_u, asked_u, budget_u⟩ := cons_returns
      (w := { w with clock := w.clock + 1, asked := w.asked ++ [(o, num (i + 1 : Nat))] })
      ⟨ready.wf, ready.safe⟩ (Nat.zero_lt_of_lt enough) (charObj x[i + 1]) res
    dsimp only at budget_u
    obtain ⟨w', rest, ready', keeps', asked', budget'⟩ :=
      ih ready_u (keeps_u.text o x text) (by omega) (by omega) (charObj x[i + 1] :: res)
    refine ⟨w', ?_, ready', Keeps.trans ⟨keeps_u.text, keeps_u.string⟩ keeps', ?_, by omega⟩
    · have more : (x.take (i + 1 + 1)).map charObj ++ res =
          (x.take (i + 1)).map charObj ++ (charObj x[i + 1] :: res) := by
        rw [List.take_add_one, char, Option.toList_some, List.map_append, List.append_assoc]
        rfl
      have apart : equal (num (i + 1 : Nat)) (num 0) = false := by
        rw [equal_num (by omega) (by omega) (by omega) (by omega)]
        simp
        omega
      have less : exactOp .opSub ((i + 1 : Nat) : Int) 1 = some (i : Int) := by
        simp [exactOp]
      rw [more, stringToListLoop, apart, if_neg Bool.false_ne_true, returns_bind]
      refine ⟨_, _, (returns_operate less).mpr ⟨rfl, rfl⟩, ?_⟩
      rw [returns_bind]
      refine ⟨_, _, first, ?_⟩
      rw [returns_bind]
      exact ⟨_, _, pair, rest⟩
    · rw [asked', asked_u, List.append_assoc]
      rfl

theorem stringToList_returns (ready : Ready gc w) (text : textOf w.memory o = some x)
    (some : x ≠ []) (enough : x.length ≤ w.budget) :
    ∃ w', Returns (stringToList gc x.length o) w (x.map charObj) w' ∧ Ready gc w' ∧ Keeps w w' ∧
      w'.asked = w.asked ++ positions o x.length ∧ w.budget = w'.budget + x.length := by
  obtain ⟨i, length⟩ := Nat.exists_eq_succ_of_ne_zero (List.length_pos_iff.mpr some).ne'
  have first := stringLength_returns ready text
  have less : exactOp .opSub (x.length : Int) 1 = Option.some (i : Int) := by
    simp [exactOp, length]
  obtain ⟨w', rest, ready', keeps, asked, budget⟩ := stringToListLoop_returns
    (w := { w with clock := w.clock + 1 }) ⟨ready.wf, ready.safe⟩ text
    (show i < x.length by omega) (show i < w.budget by omega) []
  refine ⟨w', ?_, ready', ⟨keeps.text, keeps.string⟩, ?_, by rw [length]; exact budget⟩
  · rw [List.take_of_length_le (by omega), List.append_nil] at rest
    rw [stringToList, returns_bind]
    refine ⟨_, _, first, ?_⟩
    rw [returns_bind]
    refine ⟨_, _, (returns_operate less).mpr ⟨rfl, rfl⟩, ?_⟩
    rw [length]
    exact rest
  · rw [asked, length]

theorem stringToListLoop_enough (ready : Ready gc w) (text : textOf w.memory o = some x)
    {fuel i : Nat} (inside : i < x.length) {res l : List Obj}
    (returned : Returns (stringToListLoop gc o fuel (num i) res) w l w') : i < w.budget := by
  induction fuel generalizing w i res with
  | zero => cases returned
  | succ fuel ih =>
    have small := length_small ready.wf text
    have char := stringRef_returns ready text (List.getElem?_eq_getElem inside)
    rw [stringToListLoop, equal_num (by omega) (by omega) (by omega) (by omega)] at returned
    cases i with
    | zero =>
      rw [if_pos (by simp), returns_after char] at returned
      have enough := cons_enough returned
      exact enough
    | succ i =>
      have less : exactOp .opSub ((i + 1 : Nat) : Int) 1 = some (i : Int) := by simp [exactOp]
      rw [if_neg (by simp; omega), returns_after ((returns_operate less).mpr ⟨rfl, rfl⟩),
        returns_after char, returns_bind] at returned
      obtain ⟨res', u, pair, rest⟩ := returned
      have enough := cons_enough pair
      obtain ⟨u', pair', ready_u, keeps, _, budget⟩ := cons_returns
        (w := { w with clock := w.clock + 1, asked := w.asked ++ [(o, num (i + 1 : Nat))] })
        ⟨ready.wf, ready.safe⟩ enough (charObj x[i + 1]) res
      obtain ⟨rfl, rfl⟩ := pair.unique pair'
      have later := ih ready_u (keeps.text o x text) (by omega) rest
      dsimp only at budget
      omega

theorem stringToList_enough (ready : Ready gc w) (text : textOf w.memory o = some x) (some : x ≠ [])
    {fuel : Nat} {l : List Obj} (returned : Returns (stringToList gc fuel o) w l w') :
    x.length ≤ w.budget := by
  obtain ⟨i, length⟩ := Nat.exists_eq_succ_of_ne_zero (List.length_pos_iff.mpr some).ne'
  have less : exactOp .opSub (x.length : Int) 1 = Option.some (i : Int) := by
    simp [exactOp, length]
  rw [stringToList, returns_after (stringLength_returns ready text),
    returns_after ((returns_operate less).mpr ⟨rfl, rfl⟩)] at returned
  have below := stringToListLoop_enough (w := { w with clock := w.clock + 1 })
    ⟨ready.wf, ready.safe⟩ text (show i < x.length by omega) returned
  dsimp only at below
  omega

theorem stringToListLoop_below {n m : Nat} (le : n ≤ m) (pos : Word) (res : List Obj) :
    Below (stringToListLoop gc o n pos res) (stringToListLoop gc o m pos res) := by
  induction n generalizing m pos res with
  | zero =>
    intro s a s' never
    cases never
  | succ n ih =>
    obtain ⟨k, rfl⟩ : ∃ k, m = k + 1 := ⟨m - 1, by omega⟩
    rw [stringToListLoop, stringToListLoop]
    split
    · exact Below.refl _
    · apply Below.andThen
      intro next
      apply Below.andThen
      intro char
      apply Below.andThen
      intro res
      exact ih (by omega) next res

theorem stringToList_below {n m : Nat} (le : n ≤ m) :
    Below (stringToList gc n o) (stringToList gc m o) := by
  apply Below.andThen
  intro len
  apply Below.andThen
  intro pos
  exact stringToListLoop_below le pos []

theorem stringToList_unique {n m : Nat} {l l' : List Obj} {u : World}
    (first : Returns (stringToList gc n o) w l w') (second : Returns (stringToList gc m o) w l' u) :
    l = l' ∧ w' = u :=
  Returns.unique (stringToList_below (Nat.le_max_left n m) _ _ _ first)
    (stringToList_below (Nat.le_max_right n m) _ _ _ second)

theorem stringToListLoop_negative (ready : Ready gc w) (text : textOf w.memory o = some [])
    {fuel : Nat} {p : Int} (low : -2 ^ 31 - 1 ≤ p) (high : p < 0) {res l : List Obj} :
    ¬ Returns (stringToListLoop gc o fuel (num p) res) w l w' := by
  induction fuel generalizing w p res with
  | zero =>
    intro never
    cases never
  | succ fuel ih =>
    intro returned
    have apart : equal (num p) (num 0) = false := by
      rw [equal_num (by omega) (by omega) (by omega) (by omega)]
      simp
      omega
    rw [stringToListLoop, apart, if_neg Bool.false_ne_true, returns_bind] at returned
    obtain ⟨next, u, less, returned⟩ := returned
    obtain ⟨rfl, rfl⟩ := (returns_operate (n := p - 1) rfl).mp less
    rw [returns_bind] at returned
    obtain ⟨c, u, char, returned⟩ := returned
    rw [returns_bind] at returned
    obtain ⟨res', u', pair, returned⟩ := returned
    obtain ⟨m, done, _, rfl⟩ := returns_perform.mp char
    obtain ⟨s, string, empty⟩ := textOf_some.mp text
    have length := (rep_of_string ready.wf string).length_chars
    rw [empty] at length
    simp only [act, Strings.stringRef, string, asFixnum_num] at done
    split at done
    · rename_i before
      cases done
      have above : -2 ^ 31 ≤ p := by
        by_contra below
        have bottom : p = -2 ^ 31 - 1 := by omega
        have wrapped : intOf (num p) = 2 ^ 31 - 1 := by
          rw [bottom, intOf_num]
          decide
        rw [wrapped] at before
        simp at length
        omega
      obtain ⟨u'', pair', ready', keeps, _⟩ := cons_returns
        (w := { w with clock := w.clock + 1, asked := w.asked ++ [(o, num p)] })
        ⟨ready.wf, ready.safe⟩ (cons_enough pair)
        (.word (charWord (w.memory.byte s.str (intOf (num p))))) res
      obtain ⟨rfl, rfl⟩ := pair.unique pair'
      exact ih ready' (keeps.text o [] text) (by omega) (by omega) returned
    · cases done

theorem stringToList_empty (ready : Ready gc w) (text : textOf w.memory o = some []) {fuel : Nat}
    {l : List Obj} : ¬ Returns (stringToList gc fuel o) w l w' := by
  intro returned
  rw [stringToList, returns_after (stringLength_returns ready text), returns_bind] at returned
  obtain ⟨pos, u, less, returned⟩ := returned
  obtain ⟨rfl, rfl⟩ := (returns_operate (b := 1) (n := -1) rfl).mp less
  exact stringToListLoop_negative (w := { w with clock := w.clock + 1 }) ⟨ready.wf, ready.safe⟩
    text (by omega) (by omega) returned

/- string-append -/

theorem sumStrings_returns {args : List Obj} {ys : List (List UInt8)} (ready : Ready gc w)
    (texts : List.Forall₂ (fun o y => textOf w.memory o = some y) args ys) (n : Nat) :
    ∃ w', Returns (sumStrings gc (num n) args) w (num (n + ys.flatten.length : Nat)) w' ∧
      w'.memory = w.memory ∧ w'.asked = w.asked ∧ w'.budget = w.budget := by
  induction ys generalizing args w n with
  | nil =>
    cases texts
    exact ⟨w, returns_pure.mpr ⟨rfl, rfl⟩, rfl, rfl, rfl⟩
  | cons y ys ih =>
    cases texts with
    | @cons s _ args _ text texts =>
      have first := stringLength_returns ready text
      obtain ⟨w', rest, memory, asked, budget⟩ := ih (w := { w with clock := w.clock + 1 })
        ⟨ready.wf, ready.safe⟩ texts (n + y.length)
      refine ⟨w', ?_, memory, asked, budget⟩
      have sum : exactOp .opAdd (n : Int) (y.length : Int) =
          some ((n + y.length : Nat) : Int) := by
        simp [exactOp]
      have total : n + (y :: ys).flatten.length = n + y.length + ys.flatten.length := by
        simp
        omega
      rw [total, sumStrings, returns_bind]
      refine ⟨_, _, first, ?_⟩
      rw [returns_bind]
      exact ⟨_, _, (returns_operate sum).mpr ⟨rfl, rfl⟩, rest⟩

theorem take_overwrite {i : Nat} (inside : i + y.length ≤ x.length) :
    (overwrite x i y).take (i + y.length) = x.take i ++ y := by
  have front : (x.take i ++ y).length = i + y.length := by
    rw [List.length_append, List.length_take]
    omega
  rw [overwrite, List.take_append_of_le_length (by omega), List.take_of_length_le (by omega)]

theorem appendLoop_returns {args : List Obj} {ys : List (List UInt8)} {i : Nat} (ready : Ready gc w)
    (buffer : Buffer w.memory res x) (length : i + ys.flatten.length = x.length)
    (texts : List.Forall₂ (fun o y => o ≠ res ∧ textOf w.memory o = some y) args ys) :
    ∃ w', Returns (appendLoop gc res args (num i)) w res w' ∧ Ready gc w' ∧
      Buffer w'.memory res (x.take i ++ ys.flatten) ∧ KeepsBut res w w' ∧ w'.asked = w.asked ∧
        w'.budget = w.budget := by
  induction ys generalizing args i w x with
  | nil =>
    cases texts
    refine ⟨w, returns_pure.mpr ⟨rfl, rfl⟩, ready, ?_, .refl res w, rfl, rfl⟩
    rw [List.take_of_length_le (by simp at length; omega), List.flatten_nil, List.append_nil]
    exact buffer
  | cons y ys ih =>
    cases texts with
    | @cons s _ args _ text texts =>
      rw [List.flatten_cons, List.length_append] at length
      obtain ⟨v, u, copied, ready_u, buffer_u, keeps_u, asked_u, budget_u⟩ :=
        stringCopyTo_returns ready buffer text.2 (i := i) (by omega)
      have there := keeps_u.text s y text.1 text.2
      have counted := stringLength_returns ready_u there
      have later : List.Forall₂ (fun o y => o ≠ res ∧
          textOf ({ u with clock := u.clock + 1 } : World).memory o = some y) args ys :=
        texts.imp fun o y here => ⟨here.1, keeps_u.text o y here.1 here.2⟩
      obtain ⟨w', rest, ready', buffer', keeps', asked', budget'⟩ :=
        ih (w := { u with clock := u.clock + 1 }) (i := i + y.length) ⟨ready_u.wf, ready_u.safe⟩
          buffer_u (by rw [length_overwrite (by omega)]; omega) later
      refine ⟨w', ?_, ready', ?_, keeps_u.trans ⟨keeps'.text, keeps'.string⟩, asked'.trans asked_u,
        budget'.trans budget_u⟩
      · have sum : exactOp .opAdd (i : Int) (y.length : Int) =
            some ((i + y.length : Nat) : Int) := by
          simp [exactOp]
        rw [appendLoop, returns_bind]
        refine ⟨v, u, copied, ?_⟩
        rw [returns_bind]
        refine ⟨_, _, counted, ?_⟩
        rw [returns_bind]
        exact ⟨_, _, (returns_operate sum).mpr ⟨rfl, rfl⟩, rest⟩
      · rw [take_overwrite (by omega), List.append_assoc] at buffer'
        exact buffer'

theorem stringAppend_returns {args : List Obj} {ys : List (List UInt8)} (ready : Ready gc w)
    (texts : List.Forall₂ (fun o y => textOf w.memory o = some y) args ys)
    (room : Room ys.flatten.length) (enough : 0 < w.budget) :
    ∃ v w', Returns (stringAppend gc args) w v w' ∧ Ready gc w' ∧
      Buffer w'.memory v ys.flatten ∧ Keeps w w' ∧ w'.asked = w.asked ∧
        w.budget = w'.budget + 1 := by
  obtain ⟨u, summed, memory, asked, budget⟩ := sumStrings_returns ready texts 0
  rw [Nat.zero_add] at summed
  have ready_u : Ready gc u := ⟨memory ▸ ready.wf, memory ▸ ready.safe⟩
  obtain ⟨res, t, made, ready_t, buffer_t, keeps_t, new, asked_t, budget_t⟩ :=
    makeString_returns ready_u (budget ▸ enough) room 32
  have kept : ∀ o y, textOf w.memory o = some y → o ≠ res ∧ textOf t.memory o = some y := by
    intro o y here
    rw [← memory] at here
    refine ⟨?_, keeps_t.text o y here⟩
    rintro rfl
    exact new y here
  obtain ⟨w', filled, ready', buffer', keeps', asked', budget'⟩ :=
    appendLoop_returns ready_t buffer_t (i := 0) (by simp) (texts.imp kept)
  refine ⟨res, w', ?_, ready', by simpa using buffer', ?_, (asked'.trans asked_t).trans asked,
    by rw [budget', ← budget_t, budget]⟩
  · rw [stringAppend, returns_bind]
    refine ⟨_, u, summed, ?_⟩
    rw [returns_bind]
    exact ⟨res, t, made, filled⟩
  · exact Keeps.same memory (keeps_t.but keeps' new)

/- string-copy! fails where its source does not fit. -/
theorem stringCopyTo_inside {src : Obj} (ready : Ready gc w) (buffer : Buffer w.memory res x)
    (text : textOf w.memory src = some y) {i : Nat} (low : i ≤ x.length)
    (returned : Returns (perform gc (.stringCopyTo res (.word (num i)) src)) w v w') :
    i + y.length ≤ x.length := by
  have small := length_small ready.wf buffer.text
  obtain ⟨n, s, name, string, own, flag, same, block⟩ := buffer.own
  obtain ⟨t, source, copied⟩ := textOf_some.mp text
  have rep := rep_of_string ready.wf source
  have length := (rep_of_string ready.wf string).length_chars
  have length' := rep.length_chars
  have positive := rep.positive
  rw [same] at length
  rw [copied] at length'
  have index : intOf (num i) = i := CoreStrings.intOf_small (by omega) (by omega)
  have bytes : w.memory.bytes t.str 0 (t.size - 1).toNat = y := copied ▸ Rep.bytes_front rep
  obtain ⟨m, done, _⟩ := returns_perform.mp returned
  subst name
  simp only [act, Strings.stringCopyTo, string, source, asFixnum_num, flag, index, bytes] at done
  rw [if_pos trivial] at done
  split at done
  · rename_i within
    rw [if_neg (by omega)] at done
    rw [own] at done block
    simp only [Memory.write] at done
    split at done
    · rename_i fits
      have limit : i + y.length ≤ freshSize := by
        have below := fits.2
        rw [Int.toNat_natCast] at below
        omega
      have sum : intAdd i t.size = i + t.size := by
        unfold freshSize at limit
        exact intAdd_of_small (by omega) (by omega)
      rw [sum] at within
      omega
    · cases done
  · cases done

theorem appendLoop_room {args : List Obj} {ys : List (List UInt8)} {i : Nat} (ready : Ready gc w)
    (buffer : Buffer w.memory res x) (low : i ≤ x.length)
    (texts : List.Forall₂ (fun o y => o ≠ res ∧ textOf w.memory o = some y) args ys)
    (returned : Returns (appendLoop gc res args (num i)) w v w') :
    i + ys.flatten.length ≤ x.length := by
  induction ys generalizing args i w x with
  | nil => simpa using low
  | cons y ys ih =>
    cases texts with
    | @cons s _ args _ text texts =>
      rw [appendLoop, returns_bind] at returned
      obtain ⟨v', u, copied, returned⟩ := returned
      have inside := stringCopyTo_inside ready buffer text.2 low copied
      obtain ⟨v'', u', copied', ready_u, buffer_u, keeps_u, _⟩ :=
        stringCopyTo_returns ready buffer text.2 inside
      obtain ⟨_, rfl⟩ := copied.unique copied'
      rw [returns_bind] at returned
      obtain ⟨len, t, counted, returned⟩ := returned
      obtain ⟨rfl, rfl⟩ :=
        counted.unique (stringLength_returns ready_u (keeps_u.text s y text.1 text.2))
      rw [returns_bind] at returned
      obtain ⟨p, t, sum, returned⟩ := returned
      obtain ⟨rfl, rfl⟩ := (returns_operate (n := ((i + y.length : Nat) : Int)) (by
        simp [exactOp])).mp sum
      have later : List.Forall₂ (fun o y => o ≠ res ∧
          textOf ({ u with clock := u.clock + 1 } : World).memory o = some y) args ys :=
        texts.imp fun o y here => ⟨here.1, keeps_u.text o y here.1 here.2⟩
      have behind := ih (w := { u with clock := u.clock + 1 }) (i := i + y.length)
        ⟨ready_u.wf, ready_u.safe⟩ buffer_u (by rw [length_overwrite inside]; exact inside)
        later returned
      rw [length_overwrite inside] at behind
      rw [List.flatten_cons, List.length_append]
      omega

theorem stringAppend_room {args : List Obj} {ys : List (List UInt8)} (ready : Ready gc w)
    (texts : List.Forall₂ (fun o y => textOf w.memory o = some y) args ys)
    (returned : Returns (stringAppend gc args) w v w') :
    Room ys.flatten.length ∧ 0 < w.budget := by
  obtain ⟨u, summed, memory, asked, budget⟩ := sumStrings_returns ready texts 0
  rw [Nat.zero_add] at summed
  have ready_u : Ready gc u := ⟨memory ▸ ready.wf, memory ▸ ready.safe⟩
  rw [stringAppend, show (0 : Int) = (0 : Nat) from rfl, returns_after summed, returns_bind]
    at returned
  obtain ⟨res, t, made, filled⟩ := returned
  have room := makeString_room_of_returns made
  have enough : 0 < u.budget := perform_enough made
  generalize count : (fixnum (num ys.flatten.length)).toNat = k at room
  rw [num_toNat ys.flatten.length, count] at made
  obtain ⟨res', t', made', ready_t, buffer_t, keeps_t, new, _⟩ :=
    makeString_returns ready_u enough room 32
  obtain ⟨rfl, rfl⟩ := made.unique made'
  have kept : ∀ o y, textOf w.memory o = some y → o ≠ res ∧ textOf t.memory o = some y := by
    intro o y here
    rw [← memory] at here
    refine ⟨?_, keeps_t.text o y here⟩
    rintro rfl
    exact new y here
  have below := appendLoop_room ready_t buffer_t (i := 0) (Nat.zero_le _) (texts.imp kept) filled
  rw [List.length_replicate, Nat.zero_add] at below
  exact ⟨room.mono below, budget ▸ enough⟩

/- The two directions. -/

/-- The character of a code. -/
def charOf (code : Int) : Word := makeObj (BitVec.ofInt 64 code) tagChar

/- What string-ref returns for the byte of a character is the character only up to code 127: a char
   is signed. -/
theorem charWord_charByte {code : Int} (low : -128 ≤ code) (high : code < 256) :
    charWord (charByte (charOf code)) = charOf code ↔ code < 128 := by
  have codes : ∀ i : Fin 384, charWord (charByte (charOf (i - 128 : Int))) = charOf (i - 128 : Int) ↔
      (i : Int) - 128 < 128 := by decide +kernel
  have index := codes ⟨(code + 128).toNat, by omega⟩
  have back : (((code + 128).toNat : Nat) : Int) - 128 = code := by omega
  dsimp only at index
  rw [back] at index
  exact index

theorem mem_positions {n : Nat} {r : Obj × Word} (member : r ∈ positions o n) :
    ∃ i, i < n ∧ r = (o, num i) := by
  induction n with
  | zero => cases member
  | succ n ih =>
    rcases List.mem_cons.mp member with rfl | member
    · exact ⟨n, n.lt_succ_self, rfl⟩
    · obtain ⟨i, below, same⟩ := ih member
      exact ⟨i, below.trans n.lt_succ_self, same⟩

theorem charByte_charObj (x : List UInt8) : (x.map charWord).map charByte = x := by
  rw [List.map_map]
  conv_rhs => rw [← List.map_id x]
  apply List.map_congr_left
  intro b _
  exact charByte_charWord b

theorem charWord_tag (b : UInt8) : getTag (charWord b) = tagChar := by
  have tags : ∀ i : Fin 256, getTag (charWord ⟨⟨i⟩⟩) = tagChar := by decide +kernel
  exact tags b.toBitVec.toFin

theorem charObj_tags (x : List UInt8) : ∀ c ∈ x.map charWord, getTag c = tagChar := by
  intro c member
  obtain ⟨b, _, rfl⟩ := List.mem_map.mp member
  exact charWord_tag b

theorem toList_of_returns (ready : Ready gc w) (text : textOf w.memory o = some x) {fuel : Nat}
    {l : List Obj} (returned : Returns (stringToList gc fuel o) w l w') :
    x ≠ [] ∧ l = x.map charObj ∧ Ready gc w' ∧ Keeps w w' ∧
      w'.asked = w.asked ++ positions o x.length ∧ w.budget = w'.budget + x.length := by
  have some : x ≠ [] := by
    rintro rfl
    exact stringToList_empty ready text returned
  have enough := stringToList_enough ready text some returned
  obtain ⟨u, returned', ready', keeps, asked, budget⟩ :=
    stringToList_returns ready text some enough
  obtain ⟨rfl, rfl⟩ := stringToList_unique returned returned'
  exact ⟨some, rfl, ready', keeps, asked, budget⟩

theorem made_of_returns {l : List Word} (tags : ∀ c ∈ l, getTag c = tagChar) (ready : Ready gc w)
    (returned : Returns (listToString gc (l.map .word)) w v w') :
    Room l.length ∧ Ready gc w' ∧ textOf w'.memory v = some (l.map charByte) ∧ Keeps w w' ∧
      w.budget = w'.budget + 1 := by
  obtain ⟨room, enough⟩ := listToString_room tags ready returned
  obtain ⟨v', u, returned', ready', buffer, keeps, _, _, budget⟩ :=
    listToString_returns tags room ready enough
  obtain ⟨rfl, rfl⟩ := returned.unique returned'
  exact ⟨room, ready', buffer.text, keeps, budget⟩

theorem appended_of_returns {args : List Obj} {ys : List (List UInt8)} (ready : Ready gc w)
    (texts : List.Forall₂ (fun o y => textOf w.memory o = some y) args ys)
    (returned : Returns (stringAppend gc args) w v w') :
    Room ys.flatten.length ∧ Ready gc w' ∧ textOf w'.memory v = some ys.flatten ∧
      w.budget = w'.budget + 1 := by
  obtain ⟨room, enough⟩ := stringAppend_room ready texts returned
  obtain ⟨v', u, returned', ready', buffer, _, _, budget⟩ :=
    stringAppend_returns ready texts room enough
  obtain ⟨rfl, rfl⟩ := returned.unique returned'
  exact ⟨room, ready', buffer.text, budget⟩

/-- string->list reads valid positions only and returns the characters, of which list->string makes
    an equal string. -/
def StringInverse (gc : Nat → Collection) (w : World) (o : Obj) (x : List UInt8) : Prop :=
  ∃ fuel l u reads v w', Returns (stringToList gc fuel o) w l u ∧ l = x.map charObj ∧
    u.asked = w.asked ++ reads ∧ (∀ r ∈ reads, ∃ i, i < x.length ∧ r = (o, num i)) ∧
    Returns (listToString gc l) u v w' ∧
      stringEq w'.memory v o = .ok (.word ctrue) w'.memory

/-- string->list returns the list of which list->string has made a string. -/
def ListInverse (gc : Nat → Collection) (w : World) (l : List Obj) : Prop :=
  ∃ fuel s u w', Returns (listToString gc l) w s u ∧ Returns (stringToList gc fuel s) u l w'

/-- The list of the result of string-append is the concatenation of the lists. -/
def AppendInverse (gc : Nat → Collection) (w : World) (args : List Obj) (ys : List (List UInt8)) :
    Prop :=
  ∃ fuel s u l w', Returns (stringAppend gc args) w s u ∧ Returns (stringToList gc fuel s) u l w' ∧
    l = (ys.map (List.map charObj)).flatten

/- string->list, list->string and string-append fit together for texts that are not empty and that
   have room in the fresh space, while the heap has room for the string and the pairs of the list,
   and for characters up to code 127. -/
theorem conversions_iff (ready : Ready gc w) :
    (∀ o x, textOf w.memory o = some x →
      (StringInverse gc w o x ↔ x ≠ [] ∧ Room x.length ∧ x.length + 1 ≤ w.budget)) ∧
    (∀ codes : List Int, (∀ c ∈ codes, -128 ≤ c ∧ c < 256 ∧ c ≠ 0) →
      (ListInverse gc w (codes.map fun c => .word (charOf c)) ↔
        codes ≠ [] ∧ Room codes.length ∧ codes.length + 1 ≤ w.budget ∧ ∀ c ∈ codes, c < 128)) ∧
    (∀ args ys, List.Forall₂ (fun o y => textOf w.memory o = some y) args ys →
      (AppendInverse gc w args ys ↔
        ys.flatten ≠ [] ∧ Room ys.flatten.length ∧ ys.flatten.length + 1 ≤ w.budget)) := by
  refine ⟨?_, ?_, ?_⟩
  · intro o x text
    have words : x.map charObj = (x.map charWord).map .word := by
      rw [List.map_map]
      rfl
    constructor
    · rintro ⟨fuel, l, u, reads, v, w', listed, rfl, _, _, made, _⟩
      obtain ⟨some, _, ready_u, _, _, budget_u⟩ := toList_of_returns ready text listed
      rw [words] at made
      obtain ⟨room, _, _, _, budget⟩ := made_of_returns (charObj_tags x) ready_u made
      rw [List.length_map] at room
      exact ⟨some, room, by omega⟩
    · rintro ⟨some, room, enough⟩
      obtain ⟨u, listed, ready_u, keeps_u, asked, budget_u⟩ :=
        stringToList_returns ready text some (by omega)
      have room' : Room (x.map charWord).length := by rwa [List.length_map]
      obtain ⟨v, w', made, ready', buffer, keeps', _⟩ :=
        listToString_returns (charObj_tags x) room' ready_u (by omega)
      refine ⟨x.length, _, u, positions o x.length, v, w', listed, rfl, asked,
        fun r => mem_positions, words ▸ made, ?_⟩
      have same := (textOf_seen ready'.wf buffer.text).eq o x (keeps'.text o x (keeps_u.text o x text))
      rw [charByte_charObj, decide_eq_true rfl] at same
      exact same
  · intro codes one_byte
    have tags : ∀ c ∈ codes.map charOf, getTag c = tagChar := by
      intro c member
      obtain ⟨code, _, rfl⟩ := List.mem_map.mp member
      exact getTag_makeObj (by decide) _
    have words : (codes.map fun c => Obj.word (charOf c)) = (codes.map charOf).map .word := by
      rw [List.map_map]
      rfl
    have objects : ((codes.map charOf).map charByte).map charObj =
        codes.map fun c => .word (charWord (charByte (charOf c))) := by
      rw [List.map_map, List.map_map]
      rfl
    rw [words]
    constructor
    · rintro ⟨fuel, s, u, w', made, listed⟩
      obtain ⟨room, ready_u, text, _, budget_u⟩ := made_of_returns tags ready made
      obtain ⟨some, same, _, _, _, budget⟩ := toList_of_returns ready_u text listed
      refine ⟨?_, ?_, ?_, ?_⟩
      · rintro rfl
        exact some rfl
      · rwa [List.length_map] at room
      · rw [List.length_map, List.length_map] at budget
        omega
      · intro c member
        rw [objects, ← words, List.map_inj_left] at same
        have char := same c member
        rw [Obj.word.injEq] at char
        exact (charWord_charByte (one_byte c member).1 (one_byte c member).2.1).mp char.symm
    · rintro ⟨some, room, enough, ascii⟩
      obtain ⟨s, u, made, ready_u, buffer, _, _, _, budget⟩ :=
        listToString_returns tags (by rwa [List.length_map]) ready (by omega)
      obtain ⟨w', listed, _⟩ := stringToList_returns ready_u buffer.text (by simpa using some)
        (by rw [List.length_map, List.length_map]; omega)
      have same : ((codes.map charOf).map charByte).map charObj =
          (codes.map charOf).map .word := by
        rw [objects, ← words, List.map_inj_left]
        intro c member
        rw [(charWord_charByte (one_byte c member).1 (one_byte c member).2.1).mpr (ascii c member)]
      rw [same] at listed
      exact ⟨_, s, u, w', made, listed⟩
  · intro args ys texts
    constructor
    · rintro ⟨fuel, s, u, l, w', appended, listed, _⟩
      obtain ⟨room, ready_u, text, budget_u⟩ := appended_of_returns ready texts appended
      obtain ⟨some, _, _, _, _, budget⟩ := toList_of_returns ready_u text listed
      exact ⟨some, room, by omega⟩
    · rintro ⟨some, room, enough⟩
      obtain ⟨s, u, appended, ready_u, buffer, _, _, budget⟩ :=
        stringAppend_returns ready texts room (by omega)
      obtain ⟨w', listed, _⟩ := stringToList_returns ready_u buffer.text some (by omega)
      exact ⟨_, s, u, _, w', appended, listed, List.map_flatten⟩

end returned

section samples
open StringShape StringTexts

theorem ready_still {w : World} (wf : WellFormed w.memory) : Ready (fun _ => still) w :=
  ⟨wf, fun _ => safe_still w.memory⟩

theorem wellFormed_made {len fill v : Obj} {m : Memory}
    (small : ∀ w, len.asFixnum = some w → 0 ≤ value w ∧ value w < 2 ^ 32 - 32)
    (done : makeString clear len fill still = .ok v m) : WellFormed m := by
  have fit : Fit clear still (.makeString len fill) := ⟨safe_still clear, small⟩
  have keeps := act_wellFormed (wellFormed_empty fun _ _ => 0) fit
  rw [act, ← clear, done] at keeps
  exact keeps

theorem wellFormed_filled : WellFormed (filled 8) := by
  apply wellFormed_made _ makeString_eight
  intro w same
  rw [show (fixnumObj 8).asFixnum = some 64#64 by decide, Option.some_inj] at same
  rw [← same]
  decide

/- The string "aaaaaaaa". -/
theorem conversions_eight :
    StringInverse (fun _ => still) ⟨filled 8, 0, [], 17⟩ (.heapString 0) (List.replicate 8 97) ∧
    ListInverse (fun _ => still) ⟨filled 8, 0, [], 17⟩ ([97, 98].map fun c => .word (charOf c)) ∧
    AppendInverse (fun _ => still) ⟨filled 8, 0, [], 17⟩ [.heapString 0, .heapString 0]
      [List.replicate 8 97, List.replicate 8 97] := by
  have ready : Ready (fun _ => still) ⟨filled 8, 0, [], 17⟩ := ready_still wellFormed_filled
  have both := conversions_iff ready
  have text : textOf (filled 8) (.heapString 0) = some (List.replicate 8 97) := by decide
  refine ⟨?_, ?_, ?_⟩
  · apply (both.1 _ _ text).mpr
    exact ⟨by decide, by unfold Room; decide, by decide⟩
  · apply (both.2.1 _ (by decide)).mpr
    exact ⟨by decide, by unfold Room; decide, by decide, by decide⟩
  · apply (both.2.2 _ _ (.cons text (.cons text .nil))).mpr
    exact ⟨by decide, by unfold Room; decide, by decide⟩

theorem makeString_zero :
    makeString clear (fixnumObj 0) (.word (charWord 97)) still = .ok (.heapString 0) (filled 0) := by
  have number : (fixnumObj 0).asFixnum = some 0#64 := by decide
  have character : (Obj.word (charWord 97)).asChar = some (charWord 97) := by decide
  have count : (fixnum 0#64).toNat = 0 := by decide
  have alloc : heapAlloc (16 + (0 : Nat) + 1) = .block 8 := by decide
  unfold makeString
  rw [number, character]
  dsimp only
  rw [count, newString_done alloc rfl (by decide)]
  rfl

theorem wellFormed_zero : WellFormed (filled 0) := by
  apply wellFormed_made _ makeString_zero
  intro w same
  rw [show (fixnumObj 0).asFixnum = some 0#64 by decide, Option.some_inj] at same
  rw [← same]
  decide

/- string->list of the empty string does not return, the list of the empty list->string is not
   returned, and the character of code 128 comes back as that of code -128. -/
theorem conversions_fail :
    WellFormed (filled 0) ∧ textOf (filled 0) (.heapString 0) = some [] ∧
    (∀ fuel l w', ¬ Returns (stringToList (fun _ => still) fuel (.heapString 0)) ⟨filled 0, 0, [], 17⟩ l
      w') ∧
    ¬ ListInverse (fun _ => still) ⟨filled 8, 0, [], 17⟩ [] ∧
    ¬ ListInverse (fun _ => still) ⟨filled 8, 0, [], 17⟩ [.word (charOf 128)] := by
  have wf := wellFormed_zero
  have text : textOf (filled 0) (.heapString 0) = some [] := by decide
  have ready := ready_still (w := ⟨filled 8, 0, [], 17⟩) wellFormed_filled
  refine ⟨wf, text, ?_, ?_, ?_⟩
  · intro fuel l w'
    exact stringToList_empty (w := ⟨filled 0, 0, [], 17⟩) (ready_still wf) text
  · rintro ⟨fuel, s, u, w', made, listed⟩
    obtain ⟨_, ready_u, text_u, _⟩ :=
      made_of_returns (l := []) (fun c never => by cases never) ready made
    exact stringToList_empty ready_u text_u listed
  · rintro ⟨fuel, s, u, w', made, listed⟩
    have tag : ∀ c ∈ [charOf 128], getTag c = tagChar := by
      intro c member
      rw [List.mem_singleton.mp member]
      exact getTag_makeObj (by decide) _
    obtain ⟨_, ready_u, text_u, _⟩ := made_of_returns tag ready made
    obtain ⟨_, same, _⟩ := toList_of_returns ready_u text_u listed
    rw [List.map_singleton, List.map_singleton, List.singleton_inj] at same
    have char : charOf 128 = charWord (charByte (charOf 128)) := Obj.word.inj same
    exact absurd char (by decide +kernel)

end samples

end LGears.CoreStrings
