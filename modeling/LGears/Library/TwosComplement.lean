import Mathlib.Data.BitVec
import Mathlib.Data.Int.Bitwise
import Mathlib.Tactic.Common

/- Integers as words of a fixed width. Taking an integer to its word commutes with the ring
   operations and with the bit operations on two's complements. -/
namespace TwosComplement

theorem getLsbD_ofInt (w i : Nat) (n : Int) :
    (BitVec.ofInt w n).getLsbD i = (decide (i < w) && n.testBit i) := by
  cases n with
  | ofNat n =>
    rw [Int.ofNat_eq_natCast, BitVec.ofInt_natCast, BitVec.getLsbD_ofNat]
    rfl
  | negSucc n =>
    simp only [BitVec.ofInt_negSucc_eq_not_ofNat, BitVec.getLsbD_not, BitVec.getLsbD_ofNat]
    by_cases inside : i < w <;> simp [inside, Int.testBit]

theorem getElem_ofInt {w i : Nat} (inside : i < w) (n : Int) :
    (BitVec.ofInt w n)[i] = n.testBit i := by
  rw [← BitVec.getLsbD_eq_getElem, getLsbD_ofInt]
  simp [inside]

theorem ofInt_land (w : Nat) (m n : Int) :
    BitVec.ofInt w (Int.land m n) = BitVec.ofInt w m &&& BitVec.ofInt w n := by
  ext i inside
  simp only [BitVec.getElem_and, getElem_ofInt, Int.testBit_land]

theorem ofInt_lor (w : Nat) (m n : Int) :
    BitVec.ofInt w (Int.lor m n) = BitVec.ofInt w m ||| BitVec.ofInt w n := by
  ext i inside
  simp only [BitVec.getElem_or, getElem_ofInt, Int.testBit_lor]

theorem ofInt_xor (w : Nat) (m n : Int) :
    BitVec.ofInt w (Int.xor m n) = BitVec.ofInt w m ^^^ BitVec.ofInt w n := by
  ext i inside
  simp only [BitVec.getElem_xor, getElem_ofInt, Int.testBit_lxor]

theorem ofInt_sub (w : Nat) (m n : Int) :
    BitVec.ofInt w (m - n) = BitVec.ofInt w m - BitVec.ofInt w n := by
  rw [Int.sub_eq_add_neg, BitVec.ofInt_add, BitVec.ofInt_neg, BitVec.sub_eq_add_neg]

theorem setWidth_sub {v w : Nat} (narrow : w ≤ v) (x y : BitVec v) :
    (x - y).setWidth w = x.setWidth w - y.setWidth w := by
  rw [BitVec.sub_eq_add_neg, BitVec.setWidth_add _ _ narrow, BitVec.setWidth_neg_of_le narrow,
    BitVec.sub_eq_add_neg]

theorem setWidth_ofInt {v w : Nat} (narrow : w ≤ v) (n : Int) :
    (BitVec.ofInt v n).setWidth w = BitVec.ofInt w n := by
  ext i inside
  rw [BitVec.getElem_setWidth, getLsbD_ofInt, getElem_ofInt inside]
  simp [show i < v by omega]

theorem toInt_setWidth {v w : Nat} (narrow : w ≤ v) (x : BitVec v) :
    (x.setWidth w).toInt = x.toInt.bmod (2 ^ w) := by
  calc (x.setWidth w).toInt = ((BitVec.ofInt v x.toInt).setWidth w).toInt := by
        rw [BitVec.ofInt_toInt]
    _ = x.toInt.bmod (2 ^ w) := by rw [setWidth_ofInt narrow, BitVec.toInt_ofInt]

end TwosComplement
