import Mathlib.Algebra.Group.Int.Defs
import Mathlib.Algebra.Group.Nat.Defs
import Mathlib.Data.List.TakeWhile
import Mathlib.Tactic.Common

/- Objects of the virtual machine. An object is a word whose low three bits are a tag;
   what a pointer leads to is part of the object here. -/
namespace LGears.Tagged

abbrev Word := BitVec 64

/-- The tags of words that are no pointers. -/
def tagFixnum : Word := 0
def tagChar : Word := 3
def tagConst : Word := 5

def makeObj (o tag : Word) : Word := o <<< 3 ||| tag

def getTag (o : Word) : Word := o &&& 7

def makeFixnum (v : Word) : Word := makeObj v tagFixnum

/-- FIXNUM(o), an arithmetic shift. -/
def fixnum (o : Word) : Word := o.sshiftRight 3

def makeChar (v : BitVec 16) : Word := makeObj (v.setWidth 64) tagChar

/-- CHAR(o), a signed short. -/
def char (o : Word) : BitVec 16 := (o >>> 3).setWidth 16

/-- The procedure char->integer. -/
def charToInteger (o : Word) : Word := makeFixnum ((char o).signExtend 64)

def cnull : Word := makeObj 0 tagConst
def ctrue : Word := makeObj 1 tagConst
def cfalse : Word := makeObj 2 tagConst

def cif (b : Bool) : Word := if b then ctrue else cfalse

/-- A text of C: the bytes before its terminator. -/
structure CString where
  bytes : List UInt8
  nulFree : 0 ∉ bytes
  deriving DecidableEq

/-- The text that starts with the given bytes and ends before the first zero. -/
def CString.truncate (bs : List UInt8) : CString :=
  ⟨bs.takeWhile (· ≠ 0), fun h => by simpa using List.mem_takeWhile_imp h⟩

/-- The text at an address, if a terminator follows in memory. -/
def CString.at (mem : List UInt8) : Option CString :=
  if 0 ∈ mem then some (.truncate mem) else none

theorem CString.truncate_bytes {bs : List UInt8} : (truncate bs).bytes = bs ↔ 0 ∉ bs := by
  constructor
  · intro same
    rw [← same]
    exact (truncate bs).nulFree
  · intro nulFree
    apply List.takeWhile_eq_self_iff.mpr
    intro b member
    have nonzero : b ≠ 0 := fun zero => nulFree (by rwa [zero] at member)
    simpa using nonzero

theorem CString.truncate_self (str : CString) : truncate str.bytes = str := by
  have same : (truncate str.bytes).bytes = str.bytes := truncate_bytes.mpr str.nulFree
  cases str
  cases h : truncate _
  simp_all

theorem CString.at_terminated (bs rest : List UInt8) :
    CString.at (bs ++ 0 :: rest) = some (.truncate bs) := by
  have stops : (bs ++ 0 :: rest).takeWhile (· ≠ 0) = bs.takeWhile (· ≠ 0) := by
    induction bs with
    | nil => simp
    | cons b bs ih => simp only [List.cons_append, List.takeWhile_cons, ih]
  have terminated : 0 ∈ bs ++ 0 :: rest := by simp
  simp only [CString.at, terminated, if_true, truncate, stops]

/-- The part of a pair that says whether it is a list; _cons leaves it unset when the tail
    is a pair that is not known to be a list. -/
inductive ListMark where
  | list (length : Nat)
  | notList
  | unset
  deriving DecidableEq, Repr

inductive Obj where
  | imm (word : Word)
  | func (native : Nat)
  | symbol (name : CString)
  | string (str : CString) (size : Nat)
  | pair (car cdr : Obj) (mark : ListMark)
  | struct (typeName : Obj) (fields : List Obj)

/-- (_cons al car cdr); the length of a list is kept in 31 bits. -/
def Obj.cons (car cdr : Obj) : Obj :=
  match cdr with
  | .pair _ _ (.list length) => .pair car cdr (.list ((length + 1) % 2 ^ 31))
  | .pair .. => .pair car cdr .unset
  | .imm word => .pair car cdr (if word = cnull then .list 1 else .notList)
  | _ => .pair car cdr .notList

theorem Obj.cons_eq (car cdr : Obj) : ∃ mark, Obj.cons car cdr = .pair car cdr mark := by
  unfold Obj.cons
  split <;> exact ⟨_, rfl⟩

theorem makeFixnum_eq (v : Word) : makeFixnum v = v <<< 3 := by
  simp [makeFixnum, makeObj, tagFixnum]

theorem getTag_makeObj {t : Word} (tag : t &&& 7 = t) (v : Word) : getTag (makeObj v t) = t := by
  have room : v <<< 3 &&& 7 = 0#64 := by
    apply BitVec.eq_of_toNat_eq
    rw [BitVec.toNat_and, BitVec.toNat_shiftLeft, Nat.shiftLeft_eq,
      show (7 : Word).toNat = 2 ^ 3 - 1 from rfl, Nat.and_two_pow_sub_one_eq_mod]
    simp
  rw [getTag, makeObj, BitVec.and_or_distrib_right, room, tag, BitVec.zero_or]

theorem getTag_makeFixnum (v : Word) : getTag (makeFixnum v) = tagFixnum :=
  getTag_makeObj (by decide) v

theorem getTag_makeChar (v : BitVec 16) : getTag (makeChar v) = tagChar :=
  getTag_makeObj (by decide) _

theorem toInt_fixnum_makeFixnum (v : Word) :
    (fixnum (makeFixnum v)).toInt = (8 * (v.toNat : Int)).bmod (2 ^ 64) / 8 := by
  rw [makeFixnum_eq, fixnum, BitVec.toInt_sshiftRight, BitVec.toInt_shiftLeft,
    Int.shiftRight_eq_div_pow, Nat.shiftLeft_eq, Nat.mul_comm]
  rfl

theorem fixnum_makeFixnum (n : Int) :
    (fixnum (makeFixnum (BitVec.ofInt 64 n))).toInt = n ↔ -2 ^ 60 ≤ n ∧ n < 2 ^ 60 := by
  rw [toInt_fixnum_makeFixnum, BitVec.toNat_ofInt, Int.bmod_def]
  omega

theorem char_makeChar (v : BitVec 16) : char (makeChar v) = v := by
  ext i h
  have below : i < 64 := by omega
  have shifted : 3 + i < 64 := by omega
  have small : 3 < 2 ^ (3 + i) := by
    calc 3 < 2 ^ 3 := by decide
      _ ≤ 2 ^ (3 + i) := Nat.pow_le_pow_right (by decide) (by omega)
  have noTag : (3#64)[3 + i] = false := by
    rw [← BitVec.getLsbD_eq_getElem, BitVec.getLsbD_ofNat, Nat.testBit_lt_two_pow small,
      Bool.and_false]
  simp [char, makeChar, makeObj, tagChar, noTag, below, shifted, BitVec.getLsbD_eq_getElem h]

theorem charToInteger_makeChar {k : Nat} (bound : k < 2 ^ 16) :
    (fixnum (charToInteger (makeChar (BitVec.ofNat 16 k)))).toInt = k ↔ k < 2 ^ 15 := by
  have short : (BitVec.ofNat 16 k).toInt = if k < 2 ^ 15 then (k : Int) else k - 2 ^ 16 := by
    rw [BitVec.toInt_eq_toNat_bmod, BitVec.toNat_ofNat, Int.bmod_def]
    omega
  have fits : (fixnum (makeFixnum (BitVec.ofInt 64 (BitVec.ofNat 16 k).toInt))).toInt =
      (BitVec.ofNat 16 k).toInt := by
    rw [fixnum_makeFixnum, short]
    omega
  rw [charToInteger, char_makeChar, BitVec.signExtend, fits, short]
  omega

end LGears.Tagged
