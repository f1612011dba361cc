import LGears.Tagged
import LGears.Library.Bytes
import LGears.Library.Returns

/- The constants of a module: what the assembler writes for them and what the loader of the
   virtual machine builds from the bytes. -/
namespace LGears.Fasl
open Bytes StateExcept Tagged

/-- A datum that is handed to put-object. -/
inductive Object where
  | null
  | bool (b : Bool)
  | char (c : Char)
  | num (i : Int)
  | sym (name : String)
  | str (s : String)
  | static (name : String)
  | pair (a d : Object)
  | vec (xs : List Object)
  | other

/- Induction with one hypothesis for every element of a vector. -/
@[elab_as_elim, induction_eliminator]
theorem Object.induct {P : Object → Prop} (null : P .null) (bool : ∀ b, P (.bool b))
    (char : ∀ c, P (.char c)) (num : ∀ i, P (.num i)) (sym : ∀ s, P (.sym s))
    (str : ∀ s, P (.str s)) (static : ∀ s, P (.static s))
    (pair : ∀ a d, P a → P d → P (.pair a d)) (vec : ∀ xs, (∀ x ∈ xs, P x) → P (.vec xs))
    (other : P .other) (x : Object) : P x := by
  let rec go : ∀ x, P x
    | .null => null
    | .bool b => bool b
    | .char c => char c
    | .num i => num i
    | .sym s => sym s
    | .str s => str s
    | .static s => static s
    | .pair a d => pair a d (go a) (go d)
    | .vec xs => vec xs fun x _ => go x
    | .other => other
  exact go x

/- The writer. -/

inductive WriteError where
  | range
  | unknown
  deriving DecidableEq, Repr

inductive ObjectType where
  | otFixnum
  | otCharacter
  | otString
  | otSymbol
  | otStatic
  | otPairBegin
  | otPairEnd
  | otStruct
  | otBoolean
  | otNull
  deriving DecidableEq, Repr

def objectTypes : List ObjectType :=
  [.otFixnum, .otCharacter, .otString, .otSymbol, .otStatic, .otPairBegin, .otPairEnd,
    .otStruct, .otBoolean, .otNull]

/-- (object-type x), the place of x in the table. -/
def objectType (x : ObjectType) : Nat := objectTypes.idxOf x

/-- A number in w bytes; the setters of bytevectors refuse one that does not fit. -/
def putUnsigned (w n : Nat) : Except WriteError (List UInt8) :=
  if n < 256 ^ w then .ok (toLE w n) else .error .range

def putType (type : ObjectType) : List UInt8 := toLE 1 (objectType type)

def numberToS64bv (i : Int) : Except WriteError (List UInt8) :=
  if -2 ^ 63 ≤ i ∧ i < 2 ^ 63 then .ok (toLE 8 (BitVec.ofInt 64 i).toNat) else .error .range

def stringToUtf8 (s : String) : List UInt8 := s.toList.flatMap String.utf8EncodeChar

/-- (string->cbv str): the length counts the terminator. -/
def stringToCbv (s : String) : Except WriteError (List UInt8) := do
  let utf8 := stringToUtf8 s
  let len ← putUnsigned 1 (1 + utf8.length)
  return len ++ (utf8 ++ [0])

def charToU16bv (c : Char) : Except WriteError (List UInt8) := putUnsigned 2 c.toNat

/-- The loop of (pair-prepare pair): the last tail, then the elements from last to first. -/
def pairPrepare (res : List Object) (a : Object) : Object → List Object
  | .pair b d => pairPrepare (a :: res) b d
  | d => d :: a :: res

/- Inside a pair the pairs of its tail have no marks of their own. -/
mutual
def put (inPair : Bool) : Object → Except WriteError (List UInt8)
  | .null => return putType .otNull
  | .bool b => return putType .otBoolean ++ toLE 1 (if b then 1 else 0)
  | .char c => do return putType .otCharacter ++ (← charToU16bv c)
  | .num i => do return putType .otFixnum ++ (← numberToS64bv i)
  | .sym s => do return putType .otSymbol ++ (← stringToCbv s)
  | .str s => do return putType .otString ++ (← stringToCbv s)
  | .static name => do return putType .otStatic ++ (← stringToCbv name)
  | .pair a d => do
    let tail ← put true d
    let first ← put false a
    return if inPair then tail ++ first
      else putType .otPairBegin ++ (tail ++ (first ++ putType .otPairEnd))
  | .vec xs => do
    let type ← stringToCbv "vector"
    let size ← putUnsigned 1 xs.length
    return putType .otStruct ++ (type ++ (size ++ (← putAll xs)))
  | .other => .error .unknown
def putAll : List Object → Except WriteError (List UInt8)
  | [] => return []
  | x :: xs => do
    let first ← put false x
    return first ++ (← putAll xs)
end

/-- (put-object obj) -/
def putObject (obj : Object) : Except WriteError (List UInt8) := put false obj

example : putObject (.pair .null .other) = .error .unknown := by
  simp [putObject, put]

/- The reader. -/

inductive LoadError where
  | assertion
  | unterminated
  | invalidStatic (name : CString)
  | unhandledType (type : Nat)
  | uninitialised
  | fuel

abbrev Load := Reader LoadError

/-- The functions installed under a name. -/
abbrev Globals := CString → Option Nat

def codeRead8 : Load Nat := ofLE <$> take .assertion 1

def codePeek8 : Load Nat := ofLE <$> peek .assertion 1

def codeRead16 : Load Nat := ofLE <$> take .assertion 2

def codeRead64 : Load Word := BitVec.ofNat 64 <$> ofLE <$> take .assertion 8

/-- The address of a string of the given length. -/
def codeReadString : Load (List UInt8) := do
  let len ← codeRead8
  let res ← pointer
  let _ ← take .assertion len
  return res

/-- What strlen finds at an address. -/
def cstringAt (mem : List UInt8) : Load CString :=
  match CString.at mem with
  | some str => pure str
  | none => failWith .unterminated

def codeReadCString : Load CString := do cstringAt (← codeReadString)

def lookupGlobal (globals : Globals) (name : CString) : Load Obj :=
  match globals name with
  | some native => pure (.func native)
  | none => failWith (.invalidStatic name)

/-- (_string al str 0) -/
def makeString (str : CString) : Obj := .string str (str.bytes.length + 1)

/-- The pair after one more element: the first one that is read is the last tail. -/
def pairExtend (new : Obj) : Option Obj → Obj
  | none => new
  | some res => .cons new res

def pairResult : Option Obj → Load Obj
  | some res => pure res
  | none => failWith .uninitialised

/- Every call and every round of a loop takes one unit of fuel; each reads a byte first. -/
mutual
def faslReadDatum (globals : Globals) : Nat → Load Obj
  | 0 => failWith .fuel
  | fuel + 1 => do
    match ← codeRead8 with
    | 0x0 => return .imm (makeFixnum (← codeRead64))
    | 0x1 => return .imm (makeChar (BitVec.ofNat 16 (← codeRead16)))
    | 0x3 => return .symbol (← codeReadCString)
    | 0x2 => return makeString (← codeReadCString)
    | 0x4 => lookupGlobal globals (← codeReadCString)
    | 0x9 => return .imm cnull
    | 0x8 => return .imm (cif ((← codeRead8) ≠ 0))
    | 0x5 => readPair globals fuel none
    | 0x7 => do
      let str ← codeReadCString
      let size ← codeRead8
      return .struct (.symbol str) (← readFields globals fuel size)
    | type => failWith (.unhandledType type)
/-- The elements of a pair, up to its end mark. -/
def readPair (globals : Globals) : Nat → Option Obj → Load Obj
  | 0, _ => failWith .fuel
  | fuel + 1, res => do
    if (← codePeek8) = 0x6 then
      let _ ← codeRead8
      pairResult res
    else
      let new ← faslReadDatum globals fuel
      readPair globals fuel (some (pairExtend new res))
def readFields (globals : Globals) : Nat → Nat → Load (List Obj)
  | _, 0 => pure []
  | 0, _ + 1 => failWith .fuel
  | fuel + 1, size + 1 => do
    let field ← faslReadDatum globals fuel
    return field :: (← readFields globals fuel size)
end

/- Writing and reading. -/

theorem putAll_pairPrepare (res : List Object) (a d : Object) :
    putAll (pairPrepare res a d) = do
      let elems ← put true (.pair a d)
      return elems ++ (← putAll res) := by
  induction d generalizing res a with
  | pair b d _ tail =>
    rw [pairPrepare, tail]
    simp [put, putAll, -bind_pure_comp]
  | _ => simp [pairPrepare, put, putAll, -bind_pure_comp]

theorem putObject_pair (a d : Object) :
    putObject (.pair a d) = do
      let elems ← putAll (pairPrepare [] a d)
      return putType .otPairBegin ++ (elems ++ putType .otPairEnd) := by
  rw [putAll_pairPrepare]
  simp [putObject, put, putAll, -bind_pure_comp]

/- The object that the loader builds where the datum was written. -/
mutual
def built (globals : Globals) : Object → Except LoadError Obj
  | .null => .ok (.imm cnull)
  | .bool b => .ok (.imm (cif b))
  | .char c => .ok (.imm (makeChar (BitVec.ofNat 16 c.toNat)))
  | .num i => .ok (.imm (makeFixnum (BitVec.ofInt 64 i)))
  | .sym s => .ok (.symbol (.truncate (stringToUtf8 s)))
  | .str s => .ok (makeString (.truncate (stringToUtf8 s)))
  | .static name =>
    let key := CString.truncate (stringToUtf8 name)
    match globals key with
    | some native => .ok (.func native)
    | none => .error (.invalidStatic key)
  | .pair a d => do
    let cdr ← built globals d
    let car ← built globals a
    return .cons car cdr
  | .vec xs => do
    return .struct (.symbol (.truncate (stringToUtf8 "vector"))) (← builtAll globals xs)
  | .other => .error .uninitialised
def builtAll (globals : Globals) : List Object → Except LoadError (List Obj)
  | [] => .ok []
  | x :: xs => do
    let field ← built globals x
    return field :: (← builtAll globals xs)
end

theorem putUnsigned_ok {w n : Nat} {bs : List UInt8} :
    putUnsigned w n = .ok bs ↔ n < 256 ^ w ∧ toLE w n = bs := by
  unfold putUnsigned
  split <;> simp_all

theorem reads_type (type : ObjectType) : Reads codeRead8 (putType type) (.ok (objectType type)) :=
  reads_number _ (by cases type <;> decide)

theorem reads_cstring {s : String} {bs : List UInt8} (written : stringToCbv s = .ok bs) :
    Reads codeReadCString bs (.ok (.truncate (stringToUtf8 s))) := by
  simp only [stringToCbv, except_bind_ok, except_pure_ok, putUnsigned_ok] at written
  obtain ⟨len, ⟨bound, rfl⟩, rfl⟩ := written
  have size : 1 + (stringToUtf8 s).length = (stringToUtf8 s ++ [0]).length := by
    simp [Nat.add_comm]
  simp only [codeReadCString, codeReadString, bind_assoc, pure_bind]
  apply reads_bind (reads_number _ bound)
  apply reads_pointer
  intro rest
  rw [size]
  apply reads_bind_last (reads_take _ _)
  rw [cstringAt, List.append_assoc, List.singleton_append, CString.at_terminated]
  exact reads_pure _

/- A datum never starts with the end mark of a pair. -/
theorem put_head {d : Object} {bs : List UInt8} (written : put false d = .ok bs) :
    ∃ type rest, type ≠ .otPairEnd ∧ bs = putType type ++ rest := by
  cases d <;> simp only [put, except_bind_ok, except_pure_ok, Bool.false_eq_true, if_false,
    reduceCtorEq] at written
  case null => exact ⟨.otNull, [], by decide, by simp [← written]⟩
  case bool => exact ⟨_, _, by decide, written.symm⟩
  case pair =>
    obtain ⟨_, _, _, _, rfl⟩ := written
    exact ⟨_, _, by decide, rfl⟩
  case vec =>
    obtain ⟨_, _, _, _, _, _, rfl⟩ := written
    exact ⟨_, _, by decide, rfl⟩
  all_goals
    obtain ⟨_, _, rfl⟩ := written
    exact ⟨_, _, by decide, rfl⟩

theorem length_putType (type : ObjectType) : (putType type).length = 1 := length_toLE 1 _

/-- The text bs of a datum is read as r whenever there is fuel for each of its bytes. -/
def ReadsDatum (globals : Globals) (bs : List UInt8) (r : Except LoadError Obj) : Prop :=
  ∀ fuel, bs.length ≤ fuel → Reads (faslReadDatum globals fuel) bs r

/-- The text bs continues a pair that is res so far, which ends as r. -/
def ReadsPair (globals : Globals) (res : Option Obj) (bs : List UInt8) (r : Except LoadError Obj) :
    Prop :=
  ∀ fuel, bs.length ≤ fuel → Reads (readPair globals fuel res) bs r

section reading
variable {globals : Globals}

theorem readsDatum_intro {type : ObjectType} {rest : List UInt8} {r : Except LoadError Obj}
    (read : ∀ fuel, rest.length ≤ fuel →
      Reads (faslReadDatum globals (fuel + 1)) (putType type ++ rest) r) :
    ReadsDatum globals (putType type ++ rest) r := by
  intro fuel enough
  rw [List.length_append, length_putType] at enough
  obtain ⟨fuel, rfl⟩ : ∃ n, fuel = n + 1 := ⟨fuel - 1, by omega⟩
  exact read fuel (by omega)

theorem readsPair_end (res : Obj) :
    ReadsPair globals (some res) (putType .otPairEnd) (.ok res) := by
  intro fuel enough
  rw [length_putType] at enough
  obtain ⟨fuel, rfl⟩ : ∃ n, fuel = n + 1 := ⟨fuel - 1, by omega⟩
  have mark := reads_type .otPairEnd
  rw [readPair, ← List.append_nil (putType .otPairEnd)]
  simp only [codePeek8, bind_map_left]
  apply reads_peek (length_putType _)
  rw [List.append_nil]
  exact reads_bind_last mark (reads_pure _)

theorem readsPair_element {res : Option Obj} {d : Object} {bs cs : List UInt8}
    {x : Except LoadError Obj} {k : Obj → Except LoadError Obj} (written : put false d = .ok bs)
    (more : 0 < cs.length) (first : ReadsDatum globals bs x)
    (next : ∀ new, x = .ok new → ReadsPair globals (some (pairExtend new res)) cs (k new)) :
    ReadsPair globals res (bs ++ cs) (x >>= k) := by
  intro fuel enough
  obtain ⟨type, rest, notEnd, rfl⟩ := put_head written
  simp only [List.length_append, length_putType] at enough
  obtain ⟨fuel, rfl⟩ : ∃ n, fuel = n + 1 := ⟨fuel - 1, by omega⟩
  have datum := first fuel (by simp only [List.length_append, length_putType]; omega)
  have element : Reads (faslReadDatum globals fuel >>= fun new =>
      readPair globals fuel (some (pairExtend new res))) (putType type ++ rest ++ cs) (x >>= k) :=
    reads_bind_result datum fun new built => next new built fuel (by omega)
  rw [readPair, List.append_assoc]
  simp only [codePeek8, bind_map_left]
  apply reads_peek (length_putType _)
  have other : ofLE (putType type) ≠ 0x6 := by
    cases type <;> first | decide | exact absurd rfl notEnd
  rw [if_neg other, ← List.append_assoc]
  exact element

theorem reads_fields {xs : List Object} (each : ∀ x ∈ xs, ∀ bs, put false x = .ok bs →
      ReadsDatum globals bs (built globals x)) :
    ∀ bs, putAll xs = .ok bs → ∀ fuel, bs.length < fuel →
      Reads (readFields globals fuel xs.length) bs (builtAll globals xs) := by
  induction xs with
  | nil =>
    intro bs written fuel _
    obtain rfl := except_pure_ok.mp written
    cases fuel <;> exact reads_pure []
  | cons x xs ih =>
    intro bs written fuel enough
    simp only [putAll, except_bind_ok, except_pure_ok] at written
    obtain ⟨first, hx, rest, hxs, rfl⟩ := written
    rw [List.length_append] at enough
    obtain ⟨fuel, rfl⟩ : ∃ n, fuel = n + 1 := ⟨fuel - 1, by omega⟩
    have field := each x (by simp) first hx fuel (by omega)
    have positive : 0 < first.length := by
      obtain ⟨type, tail, _, rfl⟩ := put_head hx
      simp [length_putType]
    have fields := ih (fun y hy => each y (by simp [hy])) rest hxs fuel (by omega)
    rw [List.length_cons, readFields, builtAll]
    apply reads_bind_result field
    intro v _
    exact reads_bind_pure fields

theorem reads_codeRead64 {i : Int} {bs : List UInt8} (written : numberToS64bv i = .ok bs) :
    Reads codeRead64 bs (.ok (BitVec.ofInt 64 i)) := by
  unfold numberToS64bv at written
  split at written
  case isFalse => cases written
  cases written
  have bound : (BitVec.ofInt 64 i).toNat < 256 ^ 8 := (BitVec.ofInt 64 i).isLt
  have read := reads_map (f := BitVec.ofNat 64) (reads_number LoadError.assertion bound)
  rwa [Except.map, BitVec.ofNat_toNat, BitVec.setWidth_eq] at read

theorem reads_alone {d : Object} (notPair : ∀ a b, d ≠ .pair a b)
    (vector : ∀ xs, d = .vec xs → ∀ x ∈ xs, ∀ bs, put false x = .ok bs →
      ReadsDatum globals bs (built globals x)) :
    ∀ bs, put false d = .ok bs → ReadsDatum globals bs (built globals d) := by
  intro bs written
  cases d <;> simp only [put, except_bind_ok, except_pure_ok, reduceCtorEq] at written
  case null =>
    subst written
    rw [← List.append_nil (putType _)]
    apply readsDatum_intro
    intro fuel _
    rw [faslReadDatum]
    exact reads_bind (reads_type _) (reads_pure _)
  case bool b =>
    subst written
    apply readsDatum_intro
    intro fuel _
    rw [faslReadDatum]
    apply reads_bind (reads_type _)
    have field : Reads codeRead8 (toLE 1 (if b then 1 else 0)) (.ok (if b then 1 else 0)) :=
      reads_number _ (by cases b <;> decide)
    have read := reads_bind_pure (f := fun n => Obj.imm (cif (n ≠ 0))) field
    cases b <;> exact read
  case char c =>
    obtain ⟨field, hfield, rfl⟩ := written
    obtain ⟨bound, rfl⟩ := putUnsigned_ok.mp hfield
    apply readsDatum_intro
    intro fuel _
    rw [faslReadDatum]
    apply reads_bind (reads_type _)
    exact reads_bind_pure (reads_number _ bound)
  case num i =>
    obtain ⟨field, hfield, rfl⟩ := written
    apply readsDatum_intro
    intro fuel _
    rw [faslReadDatum]
    apply reads_bind (reads_type _)
    exact reads_bind_pure (reads_codeRead64 hfield)
  case sym s =>
    obtain ⟨field, hfield, rfl⟩ := written
    apply readsDatum_intro
    intro fuel _
    rw [faslReadDatum]
    apply reads_bind (reads_type _)
    exact reads_bind_pure (reads_cstring hfield)
  case str s =>
    obtain ⟨field, hfield, rfl⟩ := written
    apply readsDatum_intro
    intro fuel _
    rw [faslReadDatum]
    apply reads_bind (reads_type _)
    exact reads_bind_pure (reads_cstring hfield)
  case static name =>
    obtain ⟨field, hfield, rfl⟩ := written
    apply readsDatum_intro
    intro fuel _
    rw [faslReadDatum]
    apply reads_bind (reads_type _)
    apply reads_bind_last (reads_cstring hfield)
    rw [lookupGlobal, built]
    cases globals (.truncate (stringToUtf8 name)) with
    | none => exact reads_failWith _
    | some native => exact reads_pure _
  case pair a b => exact absurd rfl (notPair a b)
  case vec xs =>
    obtain ⟨type, htype, size, hsize, fields, hfields, rfl⟩ := written
    obtain ⟨bound, rfl⟩ := putUnsigned_ok.mp hsize
    apply readsDatum_intro
    intro fuel enough
    simp only [List.length_append, length_toLE] at enough
    rw [faslReadDatum]
    apply reads_bind (reads_type _)
    apply reads_bind (reads_cstring htype)
    apply reads_bind (reads_number _ bound)
    exact reads_bind_pure (reads_fields (vector xs rfl) _ hfields fuel (by omega))

theorem put_tail {d : Object} (notPair : ∀ a b, d ≠ .pair a b) (inPair : Bool) :
    put inPair d = put false d := by
  cases d <;> simp only [put]
  case pair a b => exact absurd rfl (notPair a b)

theorem reads_tail {d : Object} (notPair : ∀ a b, d ≠ .pair a b)
    (alone : ∀ bs, put false d = .ok bs → ReadsDatum globals bs (built globals d)) :
    (∀ bs, put false d = .ok bs → ReadsDatum globals bs (built globals d)) ∧
    ∀ bs, put true d = .ok bs → ∀ cs k, 0 < cs.length →
      (∀ y, built globals d = .ok y → ReadsPair globals (some y) cs (k y)) →
      ReadsPair globals none (bs ++ cs) (built globals d >>= k) := by
  apply And.intro alone
  intro bs written cs k more next
  rw [put_tail notPair] at written
  exact readsPair_element written more (alone bs written) next

theorem reads_put (d : Object) :
    (∀ bs, put false d = .ok bs → ReadsDatum globals bs (built globals d)) ∧
    ∀ bs, put true d = .ok bs → ∀ cs k, 0 < cs.length →
      (∀ y, built globals d = .ok y → ReadsPair globals (some y) cs (k y)) →
      ReadsPair globals none (bs ++ cs) (built globals d >>= k) := by
  induction d with
  | pair a d ha hd =>
    constructor
    · intro bs written
      simp only [put, except_bind_ok, except_pure_ok, Bool.false_eq_true, if_false] at written
      obtain ⟨tail, htail, first, hfirst, rfl⟩ := written
      apply readsDatum_intro
      intro fuel enough
      rw [faslReadDatum]
      apply reads_bind (reads_type _)
      rw [built]
      apply hd.2 tail htail _ _ (by simp [length_putType]) _ fuel enough
      intro y _
      apply readsPair_element hfirst (by simp [length_putType]) (ha.1 first hfirst)
      intro new _
      exact readsPair_end _
    · intro bs written cs k more next
      simp only [put, except_bind_ok, except_pure_ok, if_true] at written
      obtain ⟨tail, htail, first, hfirst, rfl⟩ := written
      rw [List.append_assoc, built, bind_assoc]
      apply hd.2 tail htail _ _ (by rw [List.length_append]; omega)
      intro y hy
      rw [bind_assoc]
      apply readsPair_element hfirst more (ha.1 first hfirst)
      intro new hnew
      apply next
      rw [built, hy, hnew]
      rfl
  | vec xs each =>
    apply reads_tail (by simp)
    apply reads_alone (by simp)
    intro ys same x hx
    cases same
    exact (each x hx).1
  | _ => exact reads_tail (by simp) (reads_alone (by simp) (by simp))

end reading

/- What is read back. -/

/-- The procedure string-length: the terminator is not counted. -/
def stringLength (size : Nat) : Nat := size - 1

mutual
/-- The object denotes the datum; count is the string-length of the data's strings. -/
def Denotes (globals : Globals) (count : String → Nat) : Object → Obj → Prop
  | .null, o => o = .imm cnull
  | .bool b, o => o = .imm (cif b)
  | .char c, .imm o => getTag o = tagChar ∧ (fixnum (charToInteger o)).toInt = c.toNat
  | .num i, .imm o => getTag o = tagFixnum ∧ (fixnum o).toInt = i
  | .sym s, .symbol name => name.bytes = stringToUtf8 s
  | .str s, .string str size => str.bytes = stringToUtf8 s ∧ stringLength size = count s
  | .static name, .func native =>
    ∃ key : CString, key.bytes = stringToUtf8 name ∧ globals key = some native
  | .pair a d, .pair car cdr _ => Denotes globals count a car ∧ Denotes globals count d cdr
  | .vec xs, .struct typeName fields =>
    Denotes globals count (.sym "vector") typeName ∧ DenotesAll globals count xs fields
  | _, _ => False
def DenotesAll (globals : Globals) (count : String → Nat) : List Object → List Obj → Prop
  | [], fields => fields = []
  | x :: xs, field :: fields => Denotes globals count x field ∧ DenotesAll globals count xs fields
  | _ :: _, [] => False
end

mutual
/-- Every field of the datum fits its word, its C string or the table of globals. -/
def Fits (globals : Globals) (count : String → Nat) : Object → Prop
  | .null | .bool _ | .other => True
  | .char c => c.toNat < 2 ^ 15
  | .num i => -2 ^ 60 ≤ i ∧ i < 2 ^ 60
  | .sym s => 0 ∉ stringToUtf8 s
  | .str s => 0 ∉ stringToUtf8 s ∧ (stringToUtf8 s).length = count s
  | .static name =>
    ∃ key : CString, key.bytes = stringToUtf8 name ∧ (globals key).isSome
  | .pair a d => Fits globals count a ∧ Fits globals count d
  | .vec xs => FitsAll globals count xs
def FitsAll (globals : Globals) (count : String → Nat) : List Object → Prop
  | [] => True
  | x :: xs => Fits globals count x ∧ FitsAll globals count xs
end

section denotation
variable {globals : Globals} {count : String → Nat}

example (o : Obj) : ¬ Denotes globals count (.vec [.other]) (.struct o []) := by
  simp [Denotes, DenotesAll]

theorem fits_static {name : String} :
    Fits globals count (.static name) ↔ 0 ∉ stringToUtf8 name ∧
      (globals (.truncate (stringToUtf8 name))).isSome := by
  rw [Fits]
  constructor
  · rintro ⟨key, same, found⟩
    have whole : CString.truncate (stringToUtf8 name) = key := by
      rw [← same, CString.truncate_self]
    rw [whole, ← same]
    exact ⟨key.nulFree, found⟩
  · intro ⟨nulFree, found⟩
    exact ⟨_, CString.truncate_bytes.mpr nulFree, found⟩

theorem denotes_static {name : String} :
    (∃ o, built globals (.static name) = .ok o ∧ Denotes globals count (.static name) o) ↔
      Fits globals count (.static name) := by
  simp only [fits_static, built]
  cases found : globals (.truncate (stringToUtf8 name)) with
  | none => simp
  | some native =>
    simp only [Except.ok.injEq, exists_eq_left', Denotes, Option.isSome_some, and_true]
    constructor
    · intro ⟨key, same, _⟩
      rw [← same]
      exact key.nulFree
    · intro nulFree
      exact ⟨_, CString.truncate_bytes.mpr nulFree, found⟩

theorem denotes_fields {xs : List Object} (each : ∀ x ∈ xs, ∀ bs, put false x = .ok bs →
      ((∃ o, built globals x = .ok o ∧ Denotes globals count x o) ↔ Fits globals count x)) :
    ∀ bs, putAll xs = .ok bs →
      ((∃ fields, builtAll globals xs = .ok fields ∧ DenotesAll globals count xs fields) ↔
        FitsAll globals count xs) := by
  induction xs with
  | nil => simp [builtAll, DenotesAll, FitsAll]
  | cons x xs ih =>
    intro bs written
    simp only [putAll, except_bind_ok, except_pure_ok] at written
    obtain ⟨first, hx, rest, hxs, rfl⟩ := written
    rw [FitsAll, ← each x (by simp) first hx, ← ih (fun y hy => each y (by simp [hy])) rest hxs]
    simp only [builtAll, except_bind_ok, except_pure_ok]
    constructor
    · intro ⟨fields, ⟨field, hfield, others, hothers, same⟩, denotes⟩
      subst same
      exact ⟨⟨field, hfield, denotes.1⟩, others, hothers, denotes.2⟩
    · intro ⟨⟨field, hfield, first⟩, others, hothers, rest⟩
      exact ⟨_, ⟨field, hfield, others, hothers, rfl⟩, first, rest⟩

theorem denotes_cons {a d : Object} {car cdr : Obj} :
    Denotes globals count (.pair a d) (.cons car cdr) ↔
      Denotes globals count a car ∧ Denotes globals count d cdr := by
  obtain ⟨mark, same⟩ := Obj.cons_eq car cdr
  rw [same, Denotes]

theorem denotes_built {d : Object} {inPair : Bool} {bs : List UInt8}
    (written : put inPair d = .ok bs) :
    (∃ o, built globals d = .ok o ∧ Denotes globals count d o) ↔ Fits globals count d := by
  induction d generalizing inPair bs with
  | null => simp [built, Denotes, Fits]
  | bool b => simp [built, Denotes, Fits]
  | char c =>
    simp only [put, except_bind_ok, charToU16bv, putUnsigned_ok] at written
    obtain ⟨_, ⟨bound, _⟩, _⟩ := written
    simp [built, Denotes, Fits, getTag_makeChar, charToInteger_makeChar bound]
  | num i => simp [built, Denotes, Fits, getTag_makeFixnum, fixnum_makeFixnum]
  | sym s => simp [built, Denotes, Fits, CString.truncate_bytes]
  | str s =>
    simp only [built, Denotes, Fits, makeString, Except.ok.injEq, exists_eq_left']
    rw [CString.truncate_bytes]
    constructor
    · intro ⟨nulFree, length⟩
      rw [CString.truncate_bytes.mpr nulFree] at length
      exact ⟨nulFree, length⟩
    · intro ⟨nulFree, length⟩
      rw [CString.truncate_bytes.mpr nulFree]
      exact ⟨nulFree, length⟩
  | static name => exact denotes_static
  | pair a d ha hd =>
    simp only [put, except_bind_ok, except_pure_ok] at written
    obtain ⟨tail, htail, first, hfirst, _⟩ := written
    rw [Fits, ← ha hfirst, ← hd htail]
    simp only [built, except_bind_ok, except_pure_ok]
    constructor
    · intro ⟨o, ⟨cdr, hcdr, car, hcar, same⟩, denotes⟩
      subst same
      obtain ⟨front, back⟩ := denotes_cons.mp denotes
      exact ⟨⟨car, hcar, front⟩, cdr, hcdr, back⟩
    · intro ⟨⟨car, hcar, front⟩, cdr, hcdr, back⟩
      exact ⟨_, ⟨cdr, hcdr, car, hcar, rfl⟩, denotes_cons.mpr ⟨front, back⟩⟩
  | vec xs each =>
    simp only [put, except_bind_ok, except_pure_ok] at written
    obtain ⟨_, _, _, _, fields, hfields, _⟩ := written
    have vector : 0 ∉ stringToUtf8 "vector" := by decide
    rw [Fits, ← denotes_fields (fun x hx bs => each x hx) fields hfields]
    simp only [built, except_bind_ok, except_pure_ok]
    constructor
    · intro ⟨o, ⟨fields, hfields, same⟩, denotes⟩
      subst same
      exact ⟨fields, hfields, denotes.2⟩
    · intro ⟨fields, hfields, denotes⟩
      exact ⟨_, ⟨fields, hfields, rfl⟩, CString.truncate_bytes.mpr vector, denotes⟩
  | other =>
    rw [put] at written
    cases written

/-- Wherever the text of the datum stands, the loader builds an object that denotes it. -/
def ReadsBack (globals : Globals) (count : String → Nat) (d : Object) (bs : List UInt8) : Prop :=
  ∀ w fuel, bs.length ≤ fuel →
    ∃ o, faslReadDatum globals fuel (w.push bs) = .ok (o, w) ∧ Denotes globals count d o

theorem readsBack_iff {d : Object} {bs : List UInt8} (written : putObject d = .ok bs) :
    ReadsBack globals count d bs ↔ ∃ o, built globals d = .ok o ∧ Denotes globals count d o := by
  have read : ReadsDatum globals bs (built globals d) := (reads_put d).1 bs written
  constructor
  · intro back
    obtain ⟨o, result, denotes⟩ := back (.whole []) bs.length le_rfl
    rw [read bs.length le_rfl (.whole [])] at result
    cases object : built globals d with
    | error e =>
      rw [object] at result
      cases result
    | ok o' =>
      rw [object] at result
      cases result
      exact ⟨o, rfl, denotes⟩
  · intro ⟨o, result, denotes⟩ w fuel enough
    rw [read fuel enough w, result]
    exact ⟨o, rfl, denotes⟩

theorem faslReadDatum_putObject (globals : Globals) (count : String → Nat) {d : Object}
    {bs : List UInt8} (written : putObject d = .ok bs) :
    ReadsBack globals count d bs ↔ Fits globals count d := by
  rw [readsBack_iff written]
  exact denotes_built written

theorem faslReadDatum_nested : ReadsBack (fun _ => none) String.length
    (.pair (.num (-3)) (.pair (.str "ab") (.vec [.char 'c', .null])))
    [5, 7, 7, 118, 101, 99, 116, 111, 114, 0, 2, 1, 99, 0, 9, 2, 3, 97, 98, 0, 0, 253, 255, 255,
      255, 255, 255, 255, 255, 6] := by
  have written : putObject (.pair (.num (-3)) (.pair (.str "ab") (.vec [.char 'c', .null]))) =
      .ok [5, 7, 7, 118, 101, 99, 116, 111, 114, 0, 2, 1, 99, 0, 9, 2, 3, 97, 98, 0, 0, 253, 255,
        255, 255, 255, 255, 255, 255, 6] := by
    rfl
  apply (faslReadDatum_putObject _ _ written).mpr
  simp only [Fits, FitsAll]
  decide

/- An integer that fits its field and no tagged word: 2 ^ 60 comes back as -2 ^ 60. -/
theorem faslReadDatum_overflow : putObject (.num (2 ^ 60)) = .ok [0, 0, 0, 0, 0, 0, 0, 0, 16] ∧
    ¬ ReadsBack (fun _ => none) String.length (.num (2 ^ 60)) [0, 0, 0, 0, 0, 0, 0, 0, 16] := by
  have written : putObject (.num (2 ^ 60)) = .ok [0, 0, 0, 0, 0, 0, 0, 0, 16] := by rfl
  apply And.intro written
  rw [readsBack_iff written, denotes_built written, Fits]
  decide

end denotation

end LGears.Fasl
