import Mathlib.Data.Int.Bitwise
import Mathlib.Tactic.Ring

/-!
# Integers in machine words

The operators of integers and those of `w`-bit words agree modulo `2 ^ w`.  The shift to
the right is the exception: it needs an integer that the word holds as a signed number.
-/

namespace Gemios

variable {w : Nat}

theorem getLsbD_ofInt (w : Nat) (x : Int) (i : Nat) :
    (BitVec.ofInt w x).getLsbD i = (decide (i < w) && x.testBit i) := by
  cases x with
  | ofNat n =>
    have hnat : BitVec.ofInt w (Int.ofNat n) = BitVec.ofNat w n := BitVec.ofInt_natCast w n
    rw [hnat, BitVec.getLsbD_ofNat]
    rfl
  | negSucc n =>
    rw [BitVec.ofInt_negSucc_eq_not_ofNat, BitVec.getLsbD_not, BitVec.getLsbD_ofNat]
    by_cases hi : i < w
    · simp [hi, Int.testBit]
    · simp [hi]

theorem ofInt_lor (x y : Int) :
    BitVec.ofInt w (Int.lor x y) = BitVec.ofInt w x ||| BitVec.ofInt w y := by
  apply BitVec.eq_of_getLsbD_eq
  intro i hi
  rw [BitVec.getLsbD_or, getLsbD_ofInt, getLsbD_ofInt, getLsbD_ofInt, Int.testBit_lor]
  simp [hi]

theorem ofInt_land (x y : Int) :
    BitVec.ofInt w (Int.land x y) = BitVec.ofInt w x &&& BitVec.ofInt w y := by
  apply BitVec.eq_of_getLsbD_eq
  intro i hi
  rw [BitVec.getLsbD_and, getLsbD_ofInt, getLsbD_ofInt, getLsbD_ofInt, Int.testBit_land]
  simp [hi]

theorem ofInt_sub (x y : Int) :
    BitVec.ofInt w (x - y) = BitVec.ofInt w x - BitVec.ofInt w y := by
  rw [Int.sub_eq_add_neg, BitVec.ofInt_add, BitVec.ofInt_neg, BitVec.sub_eq_add_neg]

theorem ofInt_not (x : Int) : BitVec.ofInt w (-x - 1) = ~~~BitVec.ofInt w x := by
  rw [ofInt_sub, BitVec.ofInt_neg, BitVec.neg_eq_not_add]
  exact BitVec.add_sub_cancel _ _

theorem ofInt_shiftLeft (x : Int) (n : Nat) :
    BitVec.ofInt w (x * 2 ^ n) = BitVec.ofInt w x <<< n := by
  rw [BitVec.ofInt_mul, BitVec.shiftLeft_eq_mul_twoPow]
  congr 1
  apply BitVec.eq_of_toNat_eq
  rw [BitVec.toNat_twoPow, BitVec.toNat_ofInt]
  norm_cast

def InInt32 (x : Int) : Prop := -2147483648 ≤ x ∧ x < 2147483648

instance (x : Int) : Decidable (InInt32 x) := inferInstanceAs (Decidable (_ ∧ _))

theorem toInt_ofInt32 {x : Int} (h : InInt32 x) : (BitVec.ofInt 32 x).toInt = x := by
  unfold InInt32 at h
  apply BitVec.toInt_ofInt_eq_self (by decide)
  · omega
  · omega

theorem ofInt_shiftRight {x : Int} (h : InInt32 x) (n : Nat) :
    BitVec.ofInt 32 (x / 2 ^ n) = (BitVec.ofInt 32 x).sshiftRight n := by
  rw [BitVec.sshiftRight_eq, toInt_ofInt32 h, Int.shiftRight_eq_div_pow]
  norm_cast

theorem not_div_two_pow (x : Int) (n : Nat) : -(x / 2 ^ n) - 1 = (-x - 1) / 2 ^ n := by
  have hpos : (0 : Int) < 2 ^ n := Int.pow_pos (by decide)
  generalize (2 : Int) ^ n = m at hpos
  have hdiv := Int.mul_ediv_add_emod x m
  have hlow := Int.emod_nonneg x (Int.ne_of_gt hpos)
  have hhigh := Int.emod_lt_of_pos x hpos
  have hmul : m * (-(x / m) - 1) = -(m * (x / m)) - m := by ring
  have hunique := (Int.ediv_emod_unique (a := -x - 1) (r := m - 1 - x % m)
    (q := -(x / m) - 1) hpos).mpr
  exact (hunique ⟨by rw [hmul]; omega, by omega, by omega⟩).1.symm

end Gemios
