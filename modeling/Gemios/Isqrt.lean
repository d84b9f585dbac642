import Gemios.WavResample
import Mathlib.Data.Nat.Sqrt
import Mathlib.Tactic.Ring

/-!
# The integer square root

`isqrt_u64` of `src/src/usb/usb_audio.c` finds the root digit by digit: `bit` runs down the powers
of four, and `root` is the part of the root that is found, scaled by the digit that comes next.
A root that is known up to a power of two is what both loops keep.
-/

namespace Gemios

/-! ### Roots up to a bound -/

/-- The root of `n` is one of the `w` numbers from `r` on. -/
structure RootWithin (n w r : Nat) : Prop where
  le : r * r ≤ n
  lt : n < (r + w) * (r + w)

namespace RootWithin

variable {n r v : Nat}

theorem lower (h : RootWithin n (v + v) r) (hlt : n < (r + v) * (r + v)) : RootWithin n v r :=
  ⟨h.le, hlt⟩

theorem upper (h : RootWithin n (v + v) r) (hle : (r + v) * (r + v) ≤ n) :
    RootWithin n v (r + v) := by
  refine ⟨hle, ?_⟩
  rw [Nat.add_assoc]
  exact h.lt

theorem eq_sqrt (h : RootWithin n 1 r) : r = Nat.sqrt n := Nat.eq_sqrt.mpr ⟨h.le, h.lt⟩

end RootWithin

theorem square_add (r v : Nat) : (r + v) * (r + v) = r * r + (r * (v + v) + v * v) := by
  ring

namespace Isqrt

open Gemios.Wav (u64 u64_of_lt)

/-! ### The two loops -/

structure Locals where
  n : Nat
  root : Nat
  bit : Nat

def Locals.turn (s : Locals) : Locals :=
  if s.n ≥ u64 (s.root + s.bit) then
    ⟨s.n - u64 (s.root + s.bit), u64 ((s.root >>> 1) + s.bit), s.bit >>> 2⟩
  else ⟨s.n, s.root >>> 1, s.bit >>> 2⟩

theorem shiftRight_two_lt {bit : Nat} (h : bit ≠ 0) : bit >>> 2 < bit := by
  rw [Nat.shiftRight_eq_div_pow]
  omega

@[simp] theorem Locals.turn_bit (s : Locals) : s.turn.bit = s.bit >>> 2 := by
  unfold turn
  split <;> rfl

/-- `while (bit > n) bit >>= 2`. -/
def shrink (n bit : Nat) : Nat := if bit > n then shrink n (bit >>> 2) else bit
termination_by bit
decreasing_by exact shiftRight_two_lt (by omega)

/-- `while (bit != 0)`. -/
def Locals.run (s : Locals) : Locals := if s.bit ≠ 0 then s.turn.run else s
termination_by s.bit
decreasing_by
  rw [Locals.turn_bit]
  exact shiftRight_two_lt ‹_›

def start (n : Nat) : Locals := ⟨n, 0, shrink n (1 <<< 62)⟩

def isqrtU64 (n : Nat) : Nat := u32 (start n).run.root

/-- The locals at the beginning of every turn of the second loop. -/
def Locals.turns (s : Locals) : List Locals := if s.bit ≠ 0 then s :: s.turn.turns else []
termination_by s.bit
decreasing_by
  rw [Locals.turn_bit]
  exact shiftRight_two_lt ‹_›

/-- The sums of a turn are below `2 ^ 64`. -/
structure Locals.NoOverflow (s : Locals) : Prop where
  compared : s.root + s.bit < 18446744073709551616
  next : s.root + s.bit ≤ s.n → (s.root >>> 1) + s.bit < 18446744073709551616

/-! ### The invariant -/

/-- The part `r` of the root is found, and the digit of the weight `2 ^ j / 2` comes next. -/
structure Found (total j r : Nat) (s : Locals) : Prop where
  within : RootWithin total (2 ^ j) r
  root : s.root = r * 2 ^ j
  bit : s.bit = 2 ^ j * 2 ^ j / 4
  left : s.n + r * r = total
  small : r + 2 ^ j ≤ 4294967296

theorem pow_half (j : Nat) : 2 ^ (j + 1) = 2 ^ j + 2 ^ j := by
  rw [pow_succ, Nat.mul_two]

theorem square_quarter (v : Nat) : (v + v) * (v + v) / 4 = v * v := by
  have h : (v + v) * (v + v) = v * v * 4 := by ring
  rw [h]
  exact Nat.mul_div_cancel _ (by decide)

theorem mul_half (r v : Nat) : (r * (v + v)) >>> 1 = r * v := by
  have h : r * (v + v) = r * v * 2 := by ring
  rw [h, Nat.shiftRight_eq_div_pow, pow_one]
  exact Nat.mul_div_cancel _ (by decide)

namespace Found

variable {total j r : Nat} {s : Locals}

theorem bit_zero (h : Found total 0 r s) : s.bit = 0 := by
  rw [h.bit]
  rfl

theorem bit_succ (h : Found total (j + 1) r s) : s.bit = 2 ^ j * 2 ^ j := by
  rw [h.bit, pow_half, square_quarter]

theorem bit_ne_zero (h : Found total (j + 1) r s) : s.bit ≠ 0 := by
  rw [h.bit_succ]
  exact Nat.mul_ne_zero (pow_ne_zero j (by decide)) (pow_ne_zero j (by decide))

theorem root_succ (h : Found total (j + 1) r s) : s.root = r * (2 ^ j + 2 ^ j) := by
  rw [h.root, pow_half]

theorem sum_eq (h : Found total (j + 1) r s) :
    r * r + (s.root + s.bit) = (r + 2 ^ j) * (r + 2 ^ j) := by
  rw [h.root_succ, h.bit_succ, square_add]

theorem candidate_lt (h : Found total (j + 1) r s) : r + 2 ^ j < 4294967296 := by
  have hsmall := h.small
  have hpos : 0 < 2 ^ j := pow_pos (by decide) j
  rw [pow_half] at hsmall
  omega

theorem candidate_sq_lt (h : Found total (j + 1) r s) :
    (r + 2 ^ j) * (r + 2 ^ j) < 18446744073709551616 :=
  Nat.mul_self_lt_mul_self h.candidate_lt

theorem next_eq (h : Found total (j + 1) r s) : (s.root >>> 1) + s.bit = (r + 2 ^ j) * 2 ^ j := by
  rw [h.root_succ, h.bit_succ, mul_half, Nat.add_mul]

theorem noOverflow (h : Found total (j + 1) r s) : s.NoOverflow := by
  have hsum := h.sum_eq
  have hlt := h.candidate_sq_lt
  refine ⟨by omega, fun _ => ?_⟩
  rw [h.next_eq]
  exact Nat.lt_of_le_of_lt (Nat.mul_le_mul_left _ (Nat.le_add_left _ _)) hlt

theorem halves (h : Found total (j + 1) r s) :
    RootWithin total (2 ^ j + 2 ^ j) r ∧ r + (2 ^ j + 2 ^ j) ≤ 4294967296 := by
  rw [← pow_half]
  exact ⟨h.within, h.small⟩

theorem turn_bit (h : Found total (j + 1) r s) : s.turn.bit = 2 ^ j * 2 ^ j / 4 := by
  rw [Locals.turn_bit, h.bit_succ, Nat.shiftRight_eq_div_pow]

theorem turn_one (h : Found total (j + 1) r s) (hle : s.root + s.bit ≤ s.n) :
    Found total j (r + 2 ^ j) s.turn := by
  have hsum := h.sum_eq
  have hleft := h.left
  obtain ⟨hwithin, hsmall⟩ := h.halves
  obtain ⟨hcompared, hnext⟩ := h.noOverflow
  have hturn : s.turn = ⟨s.n - (s.root + s.bit), (s.root >>> 1) + s.bit, s.bit >>> 2⟩ := by
    rw [Locals.turn, u64_of_lt hcompared, u64_of_lt (hnext hle), if_pos hle]
  refine ⟨hwithin.upper (by omega), ?_, h.turn_bit, ?_, ?_⟩
  · rw [hturn]
    exact h.next_eq
  · rw [hturn]
    dsimp only
    omega
  · rw [Nat.add_assoc]
    exact hsmall

theorem turn_zero (h : Found total (j + 1) r s) (hlt : s.n < s.root + s.bit) :
    Found total j r s.turn := by
  have hsum := h.sum_eq
  have hleft := h.left
  obtain ⟨hwithin, hsmall⟩ := h.halves
  have hturn : s.turn = ⟨s.n, s.root >>> 1, s.bit >>> 2⟩ := by
    rw [Locals.turn, u64_of_lt h.noOverflow.compared, if_neg (Nat.not_le.mpr hlt)]
  refine ⟨hwithin.lower (by omega), ?_, h.turn_bit, ?_, h.candidate_lt.le⟩
  · rw [hturn, ← mul_half, ← h.root_succ]
  · rw [hturn]
    exact hleft

theorem turn (h : Found total (j + 1) r s) : ∃ r', Found total j r' s.turn := by
  by_cases hle : s.root + s.bit ≤ s.n
  · exact ⟨r + 2 ^ j, h.turn_one hle⟩
  · exact ⟨r, h.turn_zero (Nat.lt_of_not_le hle)⟩

theorem by_turns {P : Nat → Locals → Prop} (hend : ∀ r s, Found total 0 r s → P 0 s)
    (hturn : ∀ j r s, Found total (j + 1) r s → P j s.turn → P (j + 1) s)
    (h : Found total j r s) : P j s := by
  induction j generalizing r s with
  | zero => exact hend r s h
  | succ j ih =>
    obtain ⟨r', hnext⟩ := h.turn
    exact hturn j r s h (ih hnext)

theorem run_end (h : Found total 0 r s) : s.run = s := by
  rw [Locals.run, if_neg (not_not_intro h.bit_zero)]

theorem turns_end (h : Found total 0 r s) : s.turns = [] := by
  rw [Locals.turns, if_neg (not_not_intro h.bit_zero)]

theorem run_turn (h : Found total (j + 1) r s) : s.run = s.turn.run := by
  rw [Locals.run, if_pos h.bit_ne_zero]

theorem turns_turn (h : Found total (j + 1) r s) : s.turns = s :: s.turn.turns := by
  rw [Locals.turns, if_pos h.bit_ne_zero]

theorem run (h : Found total j r s) : s.run.root = Nat.sqrt total := by
  refine by_turns (P := fun _ s => s.run.root = Nat.sqrt total) ?_ ?_ h
  · intro r s h
    rw [h.run_end, h.root, pow_zero, Nat.mul_one]
    exact h.within.eq_sqrt
  · intro j r s h ih
    rw [h.run_turn]
    exact ih

theorem length_turns (h : Found total j r s) : s.turns.length = j := by
  refine by_turns (P := fun j s => s.turns.length = j) ?_ ?_ h
  · intro r s h
    rw [h.turns_end]
    rfl
  · intro j r s h ih
    rw [h.turns_turn, List.length_cons, ih]

theorem turns_noOverflow (h : Found total j r s) : ∀ t ∈ s.turns, t.NoOverflow := by
  refine by_turns (P := fun _ s => ∀ t ∈ s.turns, t.NoOverflow) ?_ ?_ h
  · intro r s h t ht
    rw [h.turns_end] at ht
    cases ht
  · intro j r s h ih t ht
    rw [h.turns_turn] at ht
    cases ht with
    | head => exact h.noOverflow
    | tail _ ht => exact ih t ht

theorem shrink {n bit : Nat} (h : Found n j 0 ⟨n, 0, bit⟩) :
    ∃ i ≤ j, Found n i 0 ⟨n, 0, Isqrt.shrink n bit⟩ := by
  induction j generalizing bit with
  | zero =>
    have hzero : bit = 0 := h.bit_zero
    rw [Isqrt.shrink, if_neg (by omega)]
    exact ⟨0, le_rfl, h⟩
  | succ j ih =>
    rw [Isqrt.shrink]
    by_cases hgt : bit > n
    · have hlt : n < 0 + bit := by omega
      have hturn : (⟨n, 0, bit⟩ : Locals).turn = ⟨n, 0, bit >>> 2⟩ := by
        rw [Locals.turn, u64_of_lt h.noOverflow.compared, if_neg (Nat.not_le.mpr hlt),
          Nat.zero_shiftRight]
      have hnext := h.turn_zero hlt
      rw [hturn] at hnext
      rw [if_pos hgt]
      obtain ⟨i, hi, hfound⟩ := ih hnext
      exact ⟨i, Nat.le_succ_of_le hi, hfound⟩
    · rw [if_neg hgt]
      exact ⟨j + 1, le_rfl, h⟩

end Found

theorem found_begin {n : Nat} (hn : n < 18446744073709551616) :
    Found n 32 0 ⟨n, 0, 1 <<< 62⟩ := by
  refine ⟨⟨Nat.zero_le n, ?_⟩, rfl, rfl, rfl, by decide⟩
  rw [Nat.zero_add]
  exact hn

theorem found_start {n : Nat} (hn : n < 18446744073709551616) :
    ∃ j ≤ 32, Found n j 0 (start n) :=
  (found_begin hn).shrink

theorem sqrt_lt {n : Nat} (hn : n < 18446744073709551616) : Nat.sqrt n < 4294967296 :=
  Nat.sqrt_lt.mpr hn

theorem isqrtU64_eq_sqrt {n : Nat} (hn : n < 18446744073709551616) : isqrtU64 n = Nat.sqrt n := by
  obtain ⟨j, -, hstart⟩ := found_start hn
  rw [isqrtU64, hstart.run, u32_of_lt (sqrt_lt hn)]

/-- The result of `isqrt_u64` is the root, it is found within 32 turns, the conversion to
    `uint32_t` does not cut it, and no sum of a turn wraps. -/
structure Correct (n : Nat) : Prop where
  turns : (start n).turns.length ≤ 32
  le : isqrtU64 n * isqrtU64 n ≤ n
  lt : n < (isqrtU64 n + 1) * (isqrtU64 n + 1)
  uncut : (start n).run.root < 4294967296
  noOverflow : ∀ s ∈ (start n).turns, s.NoOverflow

/-- **`isqrt_u64` is the integer square root.** -/
theorem isqrtU64_correct {n : Nat} (hn : n < 18446744073709551616) : Correct n := by
  obtain ⟨j, hj, hstart⟩ := found_start hn
  have heq := isqrtU64_eq_sqrt hn
  refine ⟨hstart.length_turns.trans_le hj, ?_, ?_, ?_, hstart.turns_noOverflow⟩
  · rw [heq]
    exact Nat.sqrt_le n
  · rw [heq]
    exact Nat.lt_succ_sqrt n
  · rw [hstart.run]
    exact sqrt_lt hn

theorem isqrtU64_correct_max : Correct 18446744073709551615 := isqrtU64_correct (by decide)

end Isqrt

end Gemios
