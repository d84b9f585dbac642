import Gemios.Wav
import Mathlib.Tactic.Linarith

/-!
# Resampling is linear interpolation

The positions of the resampling loop fit into their words, and an interpolated sample is between the
two samples around its position.
-/

namespace Gemios.Wav

/-! ### Words -/

def In32 (x : Int) : Prop := -2147483648 ≤ x ∧ x < 2147483648

def In16 (x : Int) : Prop := -32768 ≤ x ∧ x ≤ 32767

theorem u64_of_lt {n : Nat} (h : n < 18446744073709551616) : u64 n = n := Nat.mod_eq_of_lt h

theorem s32_of_in32 {x : Int} (h : In32 x) : s32 x = x := by
  obtain ⟨hlo, hhi⟩ := h
  refine Int.bmod_eq_of_le (by omega) (by omega)

theorem s32_in32 (x : Int) : In32 (s32 x) := by
  have hlo := Int.le_bmod (x := x) (m := 4294967296) (by decide)
  have hhi := Int.bmod_lt (x := x) (m := 4294967296) (by decide)
  unfold In32 s32
  omega

theorem s16_in16 (x : Int) : In16 (s16 x) := by
  have hlo := Int.le_bmod (x := x) (m := 65536) (by decide)
  have hhi := Int.bmod_lt (x := x) (m := 65536) (by decide)
  unfold In16 s16
  omega

theorem shiftRight_sixteen (x : Int) : x >>> (16 : Nat) = x / 65536 := Int.shiftRight_eq_div_pow x 16

theorem sampleAt_in16 (mem : Buf) (p bits : Nat) : In16 (sampleAt mem p bits) := by
  unfold sampleAt
  split
  · have hbyte := (mem p).toNat_lt
    unfold In16
    omega
  · split
    · exact s16_in16 _
    · rw [shiftRight_sixteen]
      obtain ⟨hlo, hhi⟩ := s32_in32
        ((mem p).toNat <<< 8 ||| (mem (p + 1)).toNat <<< 16 ||| (mem (p + 2)).toNat <<< 24 : Nat)
      unfold In16
      omega

theorem clamp_of_in16 {x : Int} (h : In16 x) : clamp x = x := by
  obtain ⟨hlo, hhi⟩ := h
  unfold clamp
  rw [if_neg (by omega), if_neg (by omega)]

/-! ### One interpolation -/

/-- The terms of the interpolation fit into 32 bits. -/
structure NoOverflow (s0 s1 : Int) (frac : Nat) : Prop where
  left : In32 (s0 * (65536 - frac))
  right : In32 (s1 * frac)
  sum : In32 (s0 * (65536 - frac) + s1 * frac)

section

variable {s0 s1 : Int} (h0 : In16 s0) (h1 : In16 s1) {frac : Nat} (hfrac : frac < 65536)
include h0 h1 hfrac

theorem noOverflow : NoOverflow s0 s1 frac := by
  obtain ⟨hlo0, hhi0⟩ := h0
  obtain ⟨hlo1, hhi1⟩ := h1
  have hrest : (0 : Int) ≤ 65536 - frac := by omega
  have hpos : (0 : Int) ≤ frac := Int.natCast_nonneg frac
  have hleft := Int.mul_le_mul_of_nonneg_right hlo0 hrest
  have hleft' := Int.mul_le_mul_of_nonneg_right hhi0 hrest
  have hright := Int.mul_le_mul_of_nonneg_right hlo1 hpos
  have hright' := Int.mul_le_mul_of_nonneg_right hhi1 hpos
  refine ⟨⟨?_, ?_⟩, ⟨?_, ?_⟩, ⟨?_, ?_⟩⟩ <;> linarith

theorem interpolate_eq : interpolate s0 s1 frac = (s0 * (65536 - frac) + s1 * frac) / 65536 := by
  obtain ⟨hleft, hright, hsum⟩ := noOverflow h0 h1 hfrac
  have hrest : In32 (65536 - frac) := ⟨by omega, by omega⟩
  have hfrac' : In32 frac := ⟨by omega, by omega⟩
  rw [interpolate, s32_of_in32 hrest, s32_of_in32 hfrac', s32_of_in32 hleft, s32_of_in32 hright,
    s32_of_in32 hsum, shiftRight_sixteen]

theorem interpolate_between :
    min s0 s1 ≤ interpolate s0 s1 frac ∧ interpolate s0 s1 frac ≤ max s0 s1 := by
  have hrest : (0 : Int) ≤ 65536 - frac := by omega
  have hpos : (0 : Int) ≤ frac := Int.natCast_nonneg frac
  rw [interpolate_eq h0 h1 hfrac]
  constructor
  · have hleft := Int.mul_le_mul_of_nonneg_right (Int.min_le_left s0 s1) hrest
    have hright := Int.mul_le_mul_of_nonneg_right (Int.min_le_right s0 s1) hpos
    rw [Int.le_ediv_iff_mul_le (by decide)]
    linarith
  · have hleft := Int.mul_le_mul_of_nonneg_right (Int.le_max_left s0 s1) hrest
    have hright := Int.mul_le_mul_of_nonneg_right (Int.le_max_right s0 s1) hpos
    refine Int.lt_add_one_iff.mp ((Int.ediv_lt_iff_lt_mul (by decide)).mpr ?_)
    linarith

theorem interpolate_in16 : In16 (interpolate s0 s1 frac) := by
  obtain ⟨hlo, hhi⟩ := interpolate_between h0 h1 hfrac
  unfold In16 at *
  omega

end

/-! ### The positions -/

/-- The output frame `i` of a resampling of `numIn` frames. -/
structure Interpolated (numIn rate i : Nat) : Prop where
  position : i * rate * 65536 < 18446744073709551616
  idx0_eq : idx0 i rate = i * rate / 48000
  idx0_lt : idx0 i rate < numIn
  idx1_lt : idx1 numIn i rate < numIn
  noOverflow : ∀ s0 s1, In16 s0 → In16 s1 → NoOverflow s0 s1 (frac i rate)
  linear : ∀ s0 s1, In16 s0 → In16 s1 → interpolate s0 s1 (frac i rate) =
    (s0 * (65536 - frac i rate) + s1 * frac i rate) / 65536
  between : ∀ s0 s1, In16 s0 → In16 s1 → min s0 s1 ≤ interpolate s0 s1 (frac i rate) ∧
    interpolate s0 s1 (frac i rate) ≤ max s0 s1
  unclamped : ∀ s0 s1, In16 s0 → In16 s1 →
    clamp (interpolate s0 s1 (frac i rate)) = interpolate s0 s1 (frac i rate)
  identity : rate = 48000 → ∀ (mem : Buf) (pcm : Nat) (f : Format), f.sampleRate = rate →
    outFrame mem pcm f numIn i = frameAt mem pcm f i

theorem numOutFrames_eq {numIn rate : Nat} (hin : numIn < 4294967296) (hrate : rate < 4294967296) :
    numOutFrames numIn rate = u32 ((numIn * 48000 + rate / 2) / rate) := by
  have hsum : numIn * 48000 + rate / 2 < 18446744073709551616 := by omega
  have hprod : numIn * 48000 < 18446744073709551616 := Nat.lt_of_le_of_lt (Nat.le_add_right _ _) hsum
  unfold numOutFrames
  split
  · rename_i h48
    have hdiv : (numIn * 48000 + 24000) / 48000 = numIn := by
      rw [Nat.add_comm, Nat.add_mul_div_right _ _ (by decide)]
      exact Nat.zero_add numIn
    rw [h48, show 48000 / 2 = 24000 from rfl, hdiv, u32_of_lt hin]
  · rw [u64_of_lt hprod, u64_of_lt hsum]

theorem position_lt {numIn rate i : Nat} (hrate : 0 < rate)
    (hi : i < (numIn * 48000 + rate / 2) / rate) : i * rate < numIn * 48000 := by
  have hle : (i + 1) * rate ≤ numIn * 48000 + rate / 2 :=
    (Nat.le_div_iff_mul_le hrate).mp (Nat.succ_le_of_lt hi)
  rw [Nat.succ_mul] at hle
  omega

theorem srcPosFp_eq {numIn rate i : Nat} (hin : numIn < 4294967296)
    (hpos : i * rate < numIn * 48000) :
    i * rate * 65536 < 18446744073709551616 ∧ srcPosFp i rate = i * rate * 65536 / 48000 := by
  have hfit : i * rate * 65536 < 18446744073709551616 := by omega
  refine ⟨hfit, ?_⟩
  rw [srcPosFp, u64_of_lt (Nat.lt_of_le_of_lt (Nat.le_mul_of_pos_right _ (by decide)) hfit),
    u64_of_lt hfit]

theorem idx0_eq {numIn rate i : Nat} (hin : numIn < 4294967296) (hpos : i * rate < numIn * 48000) :
    idx0 i rate = i * rate / 48000 := by
  have hdiv : i * rate * 65536 / 48000 / 65536 = i * rate / 48000 := by
    rw [Nat.div_div_eq_div_mul, Nat.mul_div_mul_right _ _ (by decide)]
  rw [idx0, (srcPosFp_eq hin hpos).2, hdiv, u32_of_lt (by omega)]

theorem frac_lt (i rate : Nat) : frac i rate < 65536 := Nat.mod_lt _ (by decide)

/-- **Resampling is exact linear interpolation.** -/
theorem resampling_exact {numIn rate : Nat} (hin : numIn < 4294967296) (hrate : 0 < rate)
    (hrate' : rate < 4294967296) :
    numOutFrames numIn rate = u32 ((numIn * 48000 + rate / 2) / rate) ∧
      ∀ i < (numIn * 48000 + rate / 2) / rate, Interpolated numIn rate i := by
  refine ⟨numOutFrames_eq hin hrate', fun i hi => ?_⟩
  have hpos := position_lt hrate hi
  have hidx := idx0_eq hin hpos
  have hidx_lt : idx0 i rate < numIn := by
    rw [hidx]
    omega
  have hfrac := frac_lt i rate
  refine
    { position := (srcPosFp_eq hin hpos).1
      idx0_eq := hidx
      idx0_lt := hidx_lt
      idx1_lt := ?_
      noOverflow := fun s0 s1 h0 h1 => noOverflow h0 h1 hfrac
      linear := fun s0 s1 h0 h1 => interpolate_eq h0 h1 hfrac
      between := fun s0 s1 h0 h1 => interpolate_between h0 h1 hfrac
      unclamped := fun s0 s1 h0 h1 => clamp_of_in16 (interpolate_in16 h0 h1 hfrac)
      identity := ?_ }
  · unfold idx1
    split
    · assumption
    · exact hidx_lt
  · rintro rfl mem pcm f hf
    have hzero : frac i 48000 = 0 := by
      rw [frac, (srcPosFp_eq hin hpos).2]
      omega
    have hidx' : idx0 i 48000 = i := by
      rw [hidx]
      omega
    have hsample : ∀ {s0 s1 : Int}, In16 s0 → In16 s1 → clamp (interpolate s0 s1 0) = s0 := by
      intro s0 s1 h0 h1
      have hfit : In16 ((s0 * (65536 - (0 : Nat)) + s1 * (0 : Nat)) / 65536) := by
        unfold In16 at *
        omega
      rw [interpolate_eq h0 h1 (by decide), clamp_of_in16 hfit]
      omega
    have hpair : ∀ j, In16 (frameAt mem pcm f j).1 ∧ In16 (frameAt mem pcm f j).2 := by
      intro j
      refine ⟨sampleAt_in16 _ _ _, ?_⟩
      unfold frameAt
      dsimp only
      split
      · exact sampleAt_in16 _ _ _
      · exact sampleAt_in16 _ _ _
    unfold outFrame
    dsimp only
    rw [hf, hzero, hidx', hsample (hpair _).1 (hpair _).1, hsample (hpair _).2 (hpair _).2]

/-- Ten milliseconds of a CD. -/
theorem resampling_exact_cd :
    numOutFrames 441 44100 = u32 ((441 * 48000 + 44100 / 2) / 44100) ∧
      ∀ i < (441 * 48000 + 44100 / 2) / 44100, Interpolated 441 44100 i :=
  resampling_exact (by decide) (by decide) (by decide)

end Gemios.Wav
