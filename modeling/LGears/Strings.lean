import Mathlib.Logic.Relation
import LGears.Arithmetic
import LGears.Library.Overwrite

/- Strings of the virtual machine. A string_t points to a text, which it owns when the text is
   behind it in its block, or which it shares with a symbol or with the file of a module. -/
namespace LGears.Strings
open Tagged Arithmetic Overwrite

/-- Where a text is. -/
inductive Region where
  | block (string : Nat)
  | symbol (symbol : Nat)
  /-- The file of a module is mapped for reading only. -/
  | literal (literal : Nat)
  /-- Where a string has been before a collection moved it. -/
  | left (string : Nat)
  deriving DecidableEq, Repr

/-- string_t -/
structure StringT where
  str : Region
  size : Int
  allocated : Bool
  deriving DecidableEq, Repr

/-- The strings and symbols of a process. -/
structure Memory where
  /-- The strings on the heap, with the bytes of their blocks behind the string_t. -/
  heap : List (StringT × List UInt8)
  /-- The strings among the constants of the modules. -/
  consts : List StringT
  symbols : List (List UInt8)
  literals : List (List UInt8)
  /-- What the memory in front of a text and behind it holds. -/
  outside : Region → Int → UInt8
  /-- The table of symbols: the hash that was computed for the name, and the symbol. -/
  symTable : List (BitVec 32 × Nat)

/-- An argument of a primitive. -/
inductive Obj where
  | heapString (n : Nat)
  | constString (n : Nat)
  | symbol (n : Nat)
  | word (w : Word)
  | other
  deriving DecidableEq, Repr

/-- What a primitive does: it returns an object or RC_ERROR, stops the process, or goes on with
    memory that belongs to something else. -/
inductive Outcome where
  | ok (value : Obj) (m : Memory)
  | error
  | abort
  | undefined

/-- PTR(o), if IS_STRING(o). -/
def Memory.string (m : Memory) : Obj → Option StringT
  | .heapString n => (m.heap[n]?).map Prod.fst
  | .constString n => m.consts[n]?
  | _ => none

/-- A word with the tag of fixnums. -/
def Obj.asFixnum : Obj → Option Word
  | .word w => if getTag w = tagFixnum then some w else none
  | _ => none

def Obj.asChar : Obj → Option Word
  | .word w => if getTag w = tagChar then some w else none
  | _ => none

/-- The bytes of a text that belong to it. -/
def Memory.text (m : Memory) : Region → List UInt8
  | .block n => match m.heap[n]? with
    | some (_, bytes) => bytes
    | none => []
  | .symbol n => (m.symbols[n]?).getD []
  | .literal n => (m.literals[n]?).getD []
  | .left _ => []

def Memory.byte (m : Memory) (r : Region) (i : Int) : UInt8 :=
  if 0 ≤ i then ((m.text r)[i.toNat]?).getD (m.outside r i) else m.outside r i

def Memory.bytes (m : Memory) (r : Region) (start count : Nat) : List UInt8 :=
  (List.range count).map fun i => m.byte r (start + i : Nat)

def Memory.setText (m : Memory) (r : Region) (bytes : List UInt8) : Memory :=
  match r with
  | .block n => match m.heap[n]? with
    | some (s, _) => { m with heap := m.heap.set n (s, bytes) }
    | none => m
  | .symbol n => { m with symbols := m.symbols.set n bytes }
  | .literal n => { m with literals := m.literals.set n bytes }
  | .left _ => m

/-- Bytes are written to str[pos] and behind it; cvoid is returned. -/
def Memory.write (m : Memory) (r : Region) (pos : Int) (bytes : List UInt8) : Outcome :=
  match r with
  | .literal _ => .abort
  | r =>
    if 0 ≤ pos ∧ pos.toNat + bytes.length ≤ (m.text r).length then
      .ok (.word (makeObj 3 tagConst)) (m.setText r (overwrite (m.text r) pos.toNat bytes))
    else .undefined

/-- An int that holds a fixnum. -/
def intOf (w : Word) : Int := (value w).bmod (2 ^ 32)

/-- The sum of two ints. -/
def intAdd (x y : Int) : Int := (x + y).bmod (2 ^ 32)

/-- MAKE_CHAR of a char. -/
def charWord (b : UInt8) : Word := makeObj (b.toBitVec.signExtend 64) tagChar

/-- The char that holds CHAR(o). -/
def charByte (w : Word) : UInt8 := ⟨(char w).setWidth 8⟩

def alignUp (size : Nat) : Nat := (size + 7) / 8 * 8

/-- FRESH_SIZE -/
def freshSize : Nat := 1024 * 128

/-- What heap_alloc gives for a string_t and its text. -/
inductive Alloc where
  /-- A block with this many bytes behind the string_t. -/
  | block (bytes : Nat)
  | fatal
  /-- A block that is smaller than a string_t. -/
  | tooSmall
  deriving DecidableEq, Repr

/-- (heap_alloc heap size t_string); the size is passed as an int and used as a size_t. -/
def heapAlloc (size : Int) : Alloc :=
  let size := size.bmod (2 ^ 32)
  if size < -15 then .fatal
  else if size < 16 then .tooSmall
  else if freshSize < alignUp size.toNat + 8 then .fatal
  else .block (alignUp size.toNat - 16)

/-- The collection an allocation may start: which strings it moves, and what the memory around
    the texts holds afterwards. -/
structure Collection where
  moves : Nat → Bool
  outside : Region → Int → UInt8

def Collection.movesObj (gc : Collection) : Obj → Bool
  | .heapString n => gc.moves n
  | _ => false

/-- string_visit, for a string that has been moved. -/
def stringVisit (n : Nat) (s : StringT) : StringT :=
  if s.allocated then { s with str := .block n }
  else if s.str = .block n then { s with str := .left n }
  else s

def Memory.collect (m : Memory) (gc : Collection) : Memory :=
  { m with
    heap := m.heap.mapIdx fun n (s, bytes) => (if gc.moves n then stringVisit n s else s, bytes)
    outside := gc.outside }

/-- A new string is allocated and its text is copied, after the collection, unless that goes
    wrong; fresh memory is cleared. -/
def Memory.newString (m : Memory) (total : Int) (str : Nat → Region) (size : Int)
    (allocated : Bool) (text : Memory → Option (List UInt8)) (gc : Collection) : Outcome :=
  match heapAlloc total with
  | .fatal => .abort
  | .tooSmall => .undefined
  | .block room =>
    let m := m.collect gc
    match text m with
    | none => .undefined
    | some bytes =>
      if bytes.length ≤ room then
        .ok (.heapString m.heap.length) { m with
          heap := m.heap ++ [(⟨str m.heap.length, size, allocated⟩,
            overwrite (List.replicate room 0) 0 bytes)] }
      else .undefined

/-- The text up to its terminator. -/
def cText (bytes : List UInt8) : List UInt8 := bytes.takeWhile (· ≠ 0)

/-- string_hash -/
def stringHash (name : List UInt8) : BitVec 32 :=
  name.foldl (fun h b => (h <<< 5) - h + b.toBitVec.signExtend 32) 0

/-- (hash_table_lookup &sym_table str) -/
def Memory.lookupSymbol (m : Memory) (str : CString) : Option Nat :=
  (m.symTable.find? fun (hash, n) =>
    hash = stringHash str.bytes ∧ cText (m.text (.symbol n)) = str.bytes).map Prod.snd

/-- (make_symbol str) -/
def makeSymbol (m : Memory) (str : CString) : Nat × Memory :=
  match m.lookupSymbol str with
  | some n => (n, m)
  | none => (m.symbols.length, { m with
      symbols := m.symbols ++ [str.bytes ++ [0]]
      symTable := (stringHash str.bytes, m.symbols.length) :: m.symTable })

/-- fasl_read_datum for OT_STRING; bytes is the file from the string on. -/
def readString (m : Memory) (bytes : List UInt8) : Outcome :=
  if 0 ∈ bytes then
    .ok (.constString m.consts.length) { m with
      literals := m.literals ++ [bytes]
      consts := m.consts ++ [⟨.literal m.literals.length,
        ((cText bytes).length + 1 : Int).bmod (2 ^ 32), false⟩] }
  else .undefined

def makeString (m : Memory) (olen ofill : Obj) (gc : Collection) : Outcome :=
  match olen.asFixnum, ofill.asChar with
  | some len, some fill =>
    let len := (fixnum len).toNat
    m.newString (16 + len + 1) .block (((len : Int) + 1).bmod (2 ^ 32)) true
      (fun _ => some (List.replicate len (charByte fill) ++ [0])) gc
  | _, _ => .error

/-- A collection that moves one of the strings leaves the pointers to them behind; the flag
    that says that the new string owns its text is not set. -/
def stringConcat (m : Memory) (oa ob : Obj) (gc : Collection) : Outcome :=
  match m.string oa, m.string ob with
  | some a, some b =>
    m.newString (a.size + b.size - 1 + 16) .block ((a.size + b.size - 1).bmod (2 ^ 32)) false
      (fun m =>
        if gc.movesObj oa ∨ gc.movesObj ob ∨ a.size < 1 ∨ b.size < 0 then none
        else some (m.bytes a.str 0 (a.size - 1).toNat ++ m.bytes b.str 0 b.size.toNat)) gc
  | _, _ => .error

def stringCopyTo (m : Memory) (odest opos osrc : Obj) : Outcome :=
  match odest, m.string odest, m.string osrc, opos.asFixnum with
  | .heapString _, some dst, some src, some pos =>
    if dst.allocated then
      let pos := intOf pos
      if 0 ≤ pos ∧ intAdd pos src.size ≤ dst.size then
        if src.size < 1 then .undefined
        else m.write dst.str pos (m.bytes src.str 0 (src.size - 1).toNat)
      else .error
    else .error
  | _, _, _, _ => .error

def stringCopy (m : Memory) (osrc : Obj) (gc : Collection) : Outcome :=
  match m.string osrc with
  | some src =>
    m.newString (src.size + 16) .block src.size true
      (fun m => (m.string osrc).map fun src => m.bytes src.str 0 src.size.toNat) gc
  | none => .error

def symbolToString (m : Memory) (sym : Obj) (gc : Collection) : Outcome :=
  match sym with
  | .symbol n => match m.symbols[n]? with
    | some name =>
      m.newString 16 (fun _ => .symbol n) (((cText name).length + 1 : Int).bmod (2 ^ 32)) false
        (fun _ => some []) gc
    | none => .error
  | _ => .error

def stringRef (m : Memory) (ostr opos : Obj) : Outcome :=
  match m.string ostr, opos.asFixnum with
  | some str, some pos =>
    let pos := intOf pos
    if pos < str.size - 1 then .ok (.word (charWord (m.byte str.str pos))) m
    else .error
  | _, _ => .error

def stringSet (m : Memory) (ostr opos oval : Obj) : Outcome :=
  match m.string ostr, opos.asFixnum, oval.asChar with
  | some str, some pos, some val =>
    let pos := intOf pos
    if 0 ≤ pos ∧ pos < str.size - 1 then m.write str.str pos [charByte val]
    else .error
  | _, _, _ => .error

def stringLength (m : Memory) (ostr : Obj) : Outcome :=
  match m.string ostr with
  | some str => .ok (.word (makeFixnum (BitVec.ofInt 64 (str.size - 1)))) m
  | none => .error

/-- strcmp reads both texts up to their terminators. -/
def stringEq (m : Memory) (a b : Obj) : Outcome :=
  match m.string a, m.string b with
  | some sa, some sb =>
    match CString.at (m.text sa.str), CString.at (m.text sb.str) with
    | some x, some y => .ok (.word (cif (x = y))) m
    | _, _ => .undefined
  | _, _ => .error

def substring (m : Memory) (ostr ostart oend : Obj) (gc : Collection) : Outcome :=
  match m.string ostr, ostart.asFixnum, oend.asFixnum with
  | some str, some start, some stop =>
    let start := intOf start
    let stop := intOf stop
    if 0 ≤ start ∧ start ≤ stop ∧ stop < str.size then
      m.newString (stop - start + 16) .block (stop - start + 1) true
        (fun m => (m.string ostr).map fun str =>
          m.bytes str.str start.toNat (stop - start).toNat) gc
    else .error
  | _, _, _ => .error

/-- What happens to strings and symbols in a process. -/
inductive Action where
  | makeString (len fill : Obj)
  | stringConcat (a b : Obj)
  | stringCopyTo (dest pos src : Obj)
  | stringCopy (src : Obj)
  | symbolToString (sym : Obj)
  | stringRef (str pos : Obj)
  | stringSet (str pos val : Obj)
  | stringLength (str : Obj)
  | stringEq (a b : Obj)
  | substring (str start stop : Obj)
  | makeSymbol (str : CString)
  | readString (bytes : List UInt8)
  /-- The allocation of an object that is no string. -/
  | allocate
  deriving DecidableEq

def act (m : Memory) (gc : Collection) : Action → Outcome
  | .makeString len fill => makeString m len fill gc
  | .stringConcat a b => stringConcat m a b gc
  | .stringCopyTo dest pos src => stringCopyTo m dest pos src
  | .stringCopy src => stringCopy m src gc
  | .symbolToString sym => symbolToString m sym gc
  | .stringRef str pos => stringRef m str pos
  | .stringSet str pos val => stringSet m str pos val
  | .stringLength str => stringLength m str
  | .stringEq a b => stringEq m a b
  | .substring str start stop => substring m str start stop gc
  | .makeSymbol str => .ok (.symbol (Strings.makeSymbol m str).1) (Strings.makeSymbol m str).2
  | .readString bytes => readString m bytes
  | .allocate => .ok (.word (makeObj 3 tagConst)) (m.collect gc)

/-- The process before a module has been read. -/
def Memory.empty (outside : Region → Int → UInt8) : Memory := ⟨[], [], [], [], outside, []⟩

/-- The memory after an action that does not stop the process. -/
def Outcome.after (m : Memory) : Outcome → Option Memory
  | .ok _ m' => some m'
  | .error => some m
  | .abort | .undefined => none

/-- One action of a process, when the condition holds of it. -/
def Step (ok : Memory → Collection → Action → Prop) (m m' : Memory) : Prop :=
  ∃ gc a, ok m gc a ∧ (act m gc a).after m = some m'

/-- The outcome is no access to foreign memory, and P holds of the memory it leaves. -/
def Outcome.Keeps (P : Memory → Prop) : Outcome → Prop
  | .ok _ m => P m
  | .error | .abort => True
  | .undefined => False

section outcomes
variable {m : Memory} {P Q : Memory → Prop} {gc : Collection} {total size : Int}
  {str : Nat → Region} {allocated : Bool} {text : Memory → Option (List UInt8)}

theorem Outcome.Keeps.mono {o : Outcome} (keeps : o.Keeps P) (implies : ∀ m, P m → Q m) :
    o.Keeps Q := by
  cases o with
  | ok v m => exact implies m keeps
  | error | abort => trivial
  | undefined => exact keeps

theorem Outcome.Keeps.after {o : Outcome} {m' : Memory} (keeps : o.Keeps P) (start : P m)
    (next : o.after m = some m') : P m' := by
  cases o with
  | ok v m =>
    cases next
    exact keeps
  | error =>
    cases next
    exact start
  | abort | undefined => cases next

theorem run_keeps {ok : Memory → Collection → Action → Prop}
    (step : ∀ m gc a, P m → ok m gc a → (act m gc a).Keeps P) {m' : Memory}
    (run : Relation.ReflTransGen (Step ok) m m') (start : P m) : P m' := by
  induction run with
  | refl => exact start
  | tail earlier last ih =>
    obtain ⟨gc, a, condition, next⟩ := last
    exact (step _ gc a ih condition).after ih next

/-- The memory with one more string on the heap. -/
def Memory.added (m : Memory) (s : StringT) (room : Nat) (bytes : List UInt8) : Memory :=
  { m with heap := m.heap ++ [(s, overwrite (List.replicate room 0) 0 bytes)] }

theorem length_bytes (r : Region) (start count : Nat) :
    (m.bytes r start count).length = count := by
  simp [Memory.bytes]

theorem getElem?_bytes {r : Region} {start count i : Nat} (below : i < count)
    (inside : start + i < (m.text r).length) :
    (m.bytes r start count)[i]? = (m.text r)[start + i]? := by
  have at_i : (m.text r)[start + i]? = some ((m.text r)[start + i]) :=
    List.getElem?_eq_getElem inside
  have nonneg : (0 : Int) ≤ (start + i : Nat) := by omega
  simp only [Memory.bytes, List.getElem?_map, List.getElem?_range below, Option.map_some,
    Memory.byte, if_pos nonneg, Int.toNat_natCast, at_i, Option.getD_some]

theorem string_setText {r : Region} {bytes : List UInt8} (o : Obj) :
    (m.setText r bytes).string o = m.string o := by
  cases r with
  | block n =>
    simp only [Memory.setText]
    split
    · rename_i s old entry
      cases o with
      | heapString k =>
        simp only [Memory.string, List.getElem?_set]
        split
        · rename_i same
          subst same
          split
          · simp [entry]
          · simp_all
        · rfl
      | _ => rfl
    · rfl
  | _ => cases o <;> rfl

theorem text_setText_ne {r r' : Region} {bytes : List UInt8} (other : r' ≠ r) :
    (m.setText r bytes).text r' = m.text r' := by
  cases r with
  | block n =>
    simp only [Memory.setText]
    split
    · cases r' with
      | block k =>
        have apart : n ≠ k := fun same => other (by rw [same])
        simp only [Memory.text, List.getElem?_set_ne apart]
      | _ => rfl
    · rfl
  | symbol n =>
    cases r' with
    | symbol k =>
      have apart : n ≠ k := fun same => other (by rw [same])
      simp only [Memory.setText, Memory.text, List.getElem?_set_ne apart]
    | _ => rfl
  | literal n =>
    cases r' with
    | literal k =>
      have apart : n ≠ k := fun same => other (by rw [same])
      simp only [Memory.setText, Memory.text, List.getElem?_set_ne apart]
    | _ => rfl
  | left n => rfl

theorem text_setText_self {r : Region} {bytes : List UInt8} (known : (m.text r).length ≠ 0) :
    (m.setText r bytes).text r = bytes := by
  cases r with
  | block n =>
    simp only [Memory.text, Memory.setText] at known ⊢
    cases entry : m.heap[n]? with
    | none => simp [entry] at known
    | some p =>
      have inside := (List.getElem?_eq_some_iff.mp entry).1
      simp [inside]
  | symbol n =>
    simp only [Memory.text, Memory.setText] at known ⊢
    have inside : n < m.symbols.length := by
      by_contra beyond
      simp [List.getElem?_eq_none (Nat.not_lt.mp beyond)] at known
    simp [inside]
  | literal n =>
    simp only [Memory.text, Memory.setText] at known ⊢
    have inside : n < m.literals.length := by
      by_contra beyond
      simp [List.getElem?_eq_none (Nat.not_lt.mp beyond)] at known
    simp [inside]
  | left n => exact absurd rfl known

theorem text_setText_block {n : Nat} {s : StringT} (string : m.string (.heapString n) = some s)
    (bytes : List UInt8) : (m.setText (.block n) bytes).text (.block n) = bytes := by
  obtain ⟨p, entry, -⟩ := Option.map_eq_some_iff.mp string
  have inside := (List.getElem?_eq_some_iff.mp entry).1
  simp [Memory.text, Memory.setText, inside]

theorem symbols_setText_block (n : Nat) (bytes : List UInt8) :
    (m.setText (.block n) bytes).symbols = m.symbols := by
  simp only [Memory.setText]
  split <;> rfl

theorem literals_setText (r : Region) (writable : ∀ k, r ≠ .literal k) (bytes : List UInt8) :
    (m.setText r bytes).literals = m.literals := by
  cases r with
  | literal k => exact absurd rfl (writable k)
  | block n =>
    simp only [Memory.setText]
    split <;> rfl
  | _ => rfl

theorem write_inside {r : Region} {pos : Int} {bytes : List UInt8} (writable : ∀ k, r ≠ .literal k)
    (low : 0 ≤ pos) (fits : pos.toNat + bytes.length ≤ (m.text r).length) :
    m.write r pos bytes = .ok (.word (makeObj 3 tagConst))
      (m.setText r (overwrite (m.text r) pos.toNat bytes)) := by
  cases r with
  | literal k => exact absurd rfl (writable k)
  | _ => exact if_pos ⟨low, fits⟩

theorem newString_keeps (large : heapAlloc total ≠ .tooSmall)
    (filled : ∀ room, heapAlloc total = .block room → ∃ bytes,
      text (m.collect gc) = some bytes ∧ bytes.length ≤ room ∧
        P ((m.collect gc).added ⟨str (m.collect gc).heap.length, size, allocated⟩ room bytes)) :
    (m.newString total str size allocated text gc).Keeps P := by
  unfold Memory.newString
  cases alloc : heapAlloc total with
  | fatal => trivial
  | tooSmall => exact absurd alloc large
  | block room =>
    obtain ⟨bytes, copied, fits, holds⟩ := filled room alloc
    simp only [copied, if_pos fits]
    exact holds

theorem newString_ok {v : Obj} {m' : Memory}
    (done : m.newString total str size allocated text gc = .ok v m') :
    ∃ room bytes, heapAlloc total = .block room ∧ text (m.collect gc) = some bytes ∧
      bytes.length ≤ room ∧ v = .heapString (m.collect gc).heap.length ∧
        m' = (m.collect gc).added ⟨str (m.collect gc).heap.length, size, allocated⟩ room bytes := by
  unfold Memory.newString at done
  split at done
  · cases done
  · cases done
  · rename_i room alloc
    dsimp only at done
    split at done
    · cases done
    · rename_i bytes copied
      split at done
      · rename_i fits
        cases done
        exact ⟨room, bytes, alloc, copied, fits, rfl, rfl⟩
      · cases done

theorem heapAlloc_block {size : Int} {room : Nat} (low : 16 ≤ size) (high : size < 2 ^ 32 - 15)
    (alloc : heapAlloc size = .block room) : size < 2 ^ 31 ∧ room = alignUp (size - 16).toNat := by
  have wrapped : size.bmod (2 ^ 32) = size ∨ size.bmod (2 ^ 32) = size - 2 ^ 32 := by
    rw [Int.bmod_def]
    omega
  unfold heapAlloc at alloc
  simp only at alloc
  rcases wrapped with same | negative
  · rw [same, if_neg (by omega), if_neg (by omega)] at alloc
    split at alloc
    · cases alloc
    · cases alloc
      have small : size < 2 ^ 31 := by
        rw [Int.bmod_def] at same
        omega
      refine ⟨small, ?_⟩
      unfold alignUp
      omega
  · rw [negative, if_pos (by omega)] at alloc
    cases alloc

theorem le_alignUp (n : Nat) : n ≤ alignUp n := by
  unfold alignUp
  omega

theorem lt_alignUp {n : Nat} (apart : n % 8 ≠ 0) : n < alignUp n := by
  unfold alignUp
  omega

theorem heapAlloc_large {size : Int} (low : 16 ≤ size) (high : size < 2 ^ 32 - 15) :
    heapAlloc size ≠ .tooSmall := by
  unfold heapAlloc
  simp only
  have wrapped : size.bmod (2 ^ 32) = size ∨ size.bmod (2 ^ 32) = size - 2 ^ 32 := by
    rw [Int.bmod_def]
    omega
  split
  · simp
  · split
    · omega
    · split <;> simp

end outcomes

end LGears.Strings
