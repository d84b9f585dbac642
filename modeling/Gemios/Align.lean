import Mathlib.Algebra.Group.Nat.Defs
import Gemios.Bytes

/-!
# Rounding up to a power of two

`ALIGN_UP(x, align)` on 32-bit words.
-/

namespace Gemios

/-- `ALIGN_UP`: `(x + align - 1) & ~(align - 1)` in 32 bits, for `align` from 1 on. -/
def alignUp (x align : Nat) : Nat := u32 (x + align - 1) &&& (4294967296 - align)

theorem land_two_pow_sub {y k : Nat} (hy : y < 4294967296) (hk : k ≤ 32) :
    y &&& (4294967296 - 2 ^ k) = y / 2 ^ k * 2 ^ k := by
  have hmask : 4294967296 - 2 ^ k = (2 ^ (32 - k) - 1) * 2 ^ k := by
    rw [Nat.sub_mul, ← Nat.pow_add, Nat.sub_add_cancel hk, Nat.one_mul]
  apply Nat.eq_of_testBit_eq
  intro i
  rw [hmask, Nat.testBit_and, Nat.testBit_mul_two_pow, Nat.testBit_mul_two_pow,
    Nat.testBit_two_pow_sub_one, Nat.testBit_div_two_pow]
  by_cases hi : k ≤ i
  · have hshift : i - k + k = i := Nat.sub_add_cancel hi
    by_cases hlt : i < 32
    · simp [hi, hshift, show i - k < 32 - k by omega]
    · have hpow : 2 ^ 32 ≤ 2 ^ i := Nat.pow_le_pow_right (by omega) (by omega)
      have hbit : y.testBit i = false := Nat.testBit_lt_two_pow (Nat.lt_of_lt_of_le hy hpow)
      simp [hbit, hshift]
  · simp [hi]

/-- **Rounding up** to a power of two, when it does not wrap. -/
theorem alignUp_eq {x k : Nat} (hk : k ≤ 32) (h : x + 2 ^ k - 1 < 4294967296) :
    alignUp x (2 ^ k) = (x + 2 ^ k - 1) / 2 ^ k * 2 ^ k := by
  rw [alignUp, u32_of_lt h, land_two_pow_sub h hk]

section

variable {x k : Nat} (hk : k ≤ 32) (h : x + 2 ^ k - 1 < 4294967296)

include hk h

theorem alignUp_dvd : 2 ^ k ∣ alignUp x (2 ^ k) := by
  rw [alignUp_eq hk h]
  exact Nat.dvd_mul_left _ _

theorem le_alignUp : x ≤ alignUp x (2 ^ k) := by
  have hpos : 0 < 2 ^ k := Nat.two_pow_pos k
  have hdiv := Nat.div_add_mod (x + 2 ^ k - 1) (2 ^ k)
  have hmod := Nat.mod_lt (x + 2 ^ k - 1) hpos
  rw [alignUp_eq hk h, Nat.mul_comm]
  omega

theorem alignUp_lt : alignUp x (2 ^ k) < x + 2 ^ k := by
  have hpos : 0 < 2 ^ k := Nat.two_pow_pos k
  have hdiv := Nat.div_mul_le_self (x + 2 ^ k - 1) (2 ^ k)
  rw [alignUp_eq hk h]
  omega

end

theorem alignUp_le_of_dvd {x k y : Nat} (hk : k ≤ 32) (h : x + 2 ^ k - 1 < 4294967296)
    (hxy : x ≤ y) (hdvd : 2 ^ k ∣ y) : alignUp x (2 ^ k) ≤ y := by
  have hlt := alignUp_lt hk h
  obtain ⟨m, hm⟩ := alignUp_dvd hk h
  obtain ⟨n, rfl⟩ := hdvd
  rw [hm] at hlt ⊢
  refine Nat.mul_le_mul_left _ (Nat.le_of_not_lt fun hmn => ?_)
  have hstep : 2 ^ k * (n + 1) ≤ 2 ^ k * m := Nat.mul_le_mul_left _ (by omega)
  rw [Nat.mul_succ] at hstep
  omega

end Gemios
