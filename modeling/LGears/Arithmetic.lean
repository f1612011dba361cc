import LGears.Tagged
import LGears.Opcode
import LGears.Library.TwosComplement

/- Arithmetic of the virtual machine on fixnums. A fixnum keeps the low 61 bits of a long. -/
namespace LGears.Arithmetic
open Tagged Opcode TwosComplement

/-- ARITHMETIC_TARGET; an operation that has no result stops the process. -/
def arithmeticTarget (longOp : Word → Word → Option Word) (a b : Word) : Option Word :=
  (longOp (fixnum a) (fixnum b)).map makeFixnum

/-- COMPARE_TARGET -/
def compareTarget (test : Word → Word → Bool) (a b : Word) : Word :=
  cif (test (fixnum a) (fixnum b))

def longDiv (x y : Word) : Option Word := if y = 0 then none else some (x.sdiv y)

def longMod (x y : Word) : Option Word := if y = 0 then none else some (x.srem y)

/-- What the instruction pushes for the operands a and b, b from the top of the stack. -/
def binary (op : Op) (a b : Word) : Option Word :=
  match op with
  | .opEqPtr => some (cif (a == b))
  | .opEq => some (compareTarget (fun x y => x == y) a b)
  | .opGt => some (compareTarget (fun x y => y.slt x) a b)
  | .opLt => some (compareTarget (fun x y => x.slt y) a b)
  | .opMod => arithmeticTarget longMod a b
  | .opDiv => arithmeticTarget longDiv a b
  | .opMul => arithmeticTarget (fun x y => some (x * y)) a b
  | .opAdd => arithmeticTarget (fun x y => some (x + y)) a b
  | .opSub => arithmeticTarget (fun x y => some (x - y)) a b
  | .opBitAnd => arithmeticTarget (fun x y => some (x &&& y)) a b
  | .opBitIor => arithmeticTarget (fun x y => some (x ||| y)) a b
  | .opBitXor => arithmeticTarget (fun x y => some (x ^^^ y)) a b
  | _ => none

/-- The number a fixnum stands for. -/
def value (w : Word) : Int := (fixnum w).toInt

/-- The bits of a fixnum without its tag. -/
def payload (w : Word) : BitVec 61 := (fixnum w).setWidth 61

/-- The operations whose result keeps only low bits of the operands, at any width. -/
def wordOp {w : Nat} (op : Op) (x y : BitVec w) : Option (BitVec w) :=
  match op with
  | .opAdd => some (x + y)
  | .opSub => some (x - y)
  | .opMul => some (x * y)
  | .opBitAnd => some (x &&& y)
  | .opBitIor => some (x ||| y)
  | .opBitXor => some (x ^^^ y)
  | _ => none

/-- The same operations on integers, the bit operations on their two's complements. -/
def exactOp (op : Op) (m n : Int) : Option Int :=
  match op with
  | .opAdd => some (m + n)
  | .opSub => some (m - n)
  | .opMul => some (m * n)
  | .opBitAnd => some (Int.land m n)
  | .opBitIor => some (Int.lor m n)
  | .opBitXor => some (Int.xor m n)
  | _ => none

/-- A word with the tag of fixnums. -/
structure Fixnum where
  word : Word
  tagged : getTag word = tagFixnum

def Fixnum.value (a : Fixnum) : Int := Arithmetic.value a.word

theorem payload_makeFixnum (v : Word) : payload (makeFixnum v) = v.setWidth 61 := by
  rw [makeFixnum_eq]
  ext i inside
  have shifted : 3 + i < 64 := by omega
  simp [payload, fixnum, BitVec.getElem_sshiftRight, shifted, show i < 64 by omega]

theorem value_bounds (w : Word) : -2 ^ 60 ≤ value w ∧ value w < 2 ^ 60 := by
  have low := @BitVec.le_toInt 64 w
  have high := @BitVec.toInt_lt 64 w
  rw [value, fixnum, BitVec.toInt_sshiftRight, Int.shiftRight_eq_div_pow]
  omega

theorem value_eq (w : Word) : value w = (payload w).toInt := by
  have bounds := value_bounds w
  rw [payload, toInt_setWidth (by decide)]
  unfold value at *
  rw [Int.bmod_eq_of_le] <;> omega

theorem value_makeFixnum (v : Word) : value (makeFixnum v) = v.toInt.bmod (2 ^ 61) := by
  rw [value_eq, payload_makeFixnum, toInt_setWidth (by decide)]

theorem fixnum_word (a : Fixnum) : makeFixnum (fixnum a.word) = a.word := by
  rw [makeFixnum_eq]
  ext i inside
  by_cases tag : i < 3
  · have zero : (getTag a.word)[i] = (tagFixnum)[i] := by rw [a.tagged]
    have low : ∀ j : Fin 3, (7#64).getLsbD j = true := by decide
    have mask : (7#64)[i] = true := (BitVec.getLsbD_eq_getElem inside).symm.trans (low ⟨i, tag⟩)
    simpa [getTag, tagFixnum, tag, mask] using zero
  · have above : 3 + (i - 3) = i := by omega
    simp [fixnum, BitVec.getElem_sshiftRight, tag, above, inside]

theorem makeFixnum_setWidth (v : Word) :
    makeFixnum ((v.setWidth 61).setWidth 64) = makeFixnum v := by
  rw [makeFixnum_eq, makeFixnum_eq]
  ext i inside
  by_cases tag : i < 3
  · simp [tag]
  · simp [tag, show i - 3 < 61 by omega, BitVec.getLsbD_eq_getElem (show i - 3 < 64 by omega)]

theorem payload_inj {a b : Fixnum} (same : payload a.word = payload b.word) : a.word = b.word := by
  rw [← fixnum_word a, ← fixnum_word b, ← makeFixnum_setWidth,
    ← makeFixnum_setWidth (fixnum b.word)]
  unfold payload at same
  rw [same]

theorem wordOp_setWidth (op : Op) (x y : Word) :
    wordOp op (x.setWidth 61) (y.setWidth 61) = (wordOp op x y).map (BitVec.setWidth 61) := by
  cases op <;> simp [wordOp, BitVec.setWidth_add, BitVec.setWidth_mul, setWidth_sub]

theorem wordOp_ofInt (w : Nat) (op : Op) (m n : Int) :
    wordOp op (BitVec.ofInt w m) (BitVec.ofInt w n) = (exactOp op m n).map (BitVec.ofInt w) := by
  cases op <;>
    simp [wordOp, exactOp, BitVec.ofInt_add, BitVec.ofInt_mul, ofInt_sub, ofInt_land, ofInt_lor,
      ofInt_xor]

theorem binary_wordOp {op : Op} {a b v : Word}
    (computes : wordOp op (fixnum a) (fixnum b) = some v) :
    binary op a b = some (makeFixnum v) := by
  cases op <;> simp_all [wordOp, binary, arithmeticTarget]

theorem binary_payload {op : Op} {a b : Word} {p : BitVec 61}
    (computes : wordOp op (payload a) (payload b) = some p) :
    ∃ c : Fixnum, binary op a b = some c.word ∧ payload c.word = p := by
  unfold payload at computes
  rw [wordOp_setWidth, Option.map_eq_some_iff] at computes
  obtain ⟨v, long, rfl⟩ := computes
  exact ⟨⟨makeFixnum v, getTag_makeFixnum v⟩, binary_wordOp long, payload_makeFixnum v⟩

theorem binary_lt (a b : Word) : binary .opLt a b = some (cif (decide (value a < value b))) :=
  rfl

theorem binary_gt (a b : Word) : binary .opGt a b = some (cif (decide (value a > value b))) :=
  rfl

theorem binary_eq (a b : Word) : binary .opEq a b = some (cif (decide (value a = value b))) := by
  simp [binary, compareTarget, value, BitVec.toInt_inj, beq_eq_decide]

theorem cif_eq_true {b : Bool} : cif b = ctrue ↔ b = true := by
  cases b <;> decide

end LGears.Arithmetic
