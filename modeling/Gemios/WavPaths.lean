import Gemios.WavResample
import Mathlib.Data.List.Basic

/-!
# The direct paths

At 48000 Hz the resampling loop copies its frames.  The direct path for one channel passes what the
loop would, the one for two channels passes the bytes behind the last whole frame as well.
-/

namespace Gemios.Wav

/-! ### Bytes of samples -/

theorem int16Bytes_le16 (mem : Buf) (p : Nat) :
    int16Bytes (s16 (le16 mem p)) = [mem p, mem (p + 1)] := by
  have hlt := le16_lt mem p
  have h0 := (mem p).toNat_lt
  have h1 := (mem (p + 1)).toNat_lt
  have hword : (s16 (le16 mem p) % 65536).toNat = le16 mem p := by
    have hmod : s16 (le16 mem p) % 65536 = (le16 mem p : Int) % 65536 := Int.bmod_emod
    omega
  have hlow : UInt8.ofNat (le16 mem p) = mem p := by
    apply UInt8.toNat_inj.mp
    rw [UInt8.toNat_ofNat', le16]
    omega
  have hhigh : UInt8.ofNat (le16 mem p / 256) = mem (p + 1) := by
    apply UInt8.toNat_inj.mp
    rw [UInt8.toNat_ofNat', le16]
    omega
  rw [int16Bytes, hword, hlow, hhigh]

theorem flatMap_fours (f : Nat → UInt8) (n : Nat) :
    ((List.range n).flatMap fun i => [f (i * 4), f (i * 4 + 1), f (i * 4 + 2), f (i * 4 + 3)]) =
      (List.range (n * 4)).map f := by
  induction n with
  | zero => rfl
  | succ n ih =>
    rw [List.range_succ, List.flatMap_append, ih, Nat.succ_mul]
    simp [List.range_succ]

theorem length_flatMap_frameBytes (g : Nat → Int × Int) (n : Nat) :
    ((List.range n).flatMap fun i => frameBytes (g i)).length = n * 2 * 2 := by
  induction n with
  | zero => rfl
  | succ n ih =>
    rw [List.range_succ, List.flatMap_append, List.length_append, ih]
    simp only [List.flatMap_cons, List.flatMap_nil, frameBytes, int16Bytes, List.length_append,
      List.length_cons, List.length_nil]
    omega

/-! ### Both paths -/

theorem sampleAt_two (mem : Buf) (p : Nat) : sampleAt mem p 16 = s16 (le16 mem p) := by
  rw [sampleAt, if_neg (by decide), if_pos rfl]

theorem frameSz_direct {channels : Nat} (hchannels : channels = 1 ∨ channels = 2) :
    (direct channels).frameSz = channels * 2 := by
  rcases hchannels with rfl | rfl <;> decide

theorem frameAt_mono (mem : Buf) (pcm i : Nat) : frameAt mem pcm (direct 1) i =
    (s16 (le16 mem (pcm + 2 * i)), s16 (le16 mem (pcm + 2 * i))) := by
  simp only [frameAt, frameSz_direct (.inl rfl), Nat.one_mul, Nat.mul_comm i 2]
  simp [direct, sampleAt_two]

theorem frameAt_stereo (mem : Buf) (pcm i : Nat) : frameAt mem pcm (direct 2) i =
    (s16 (le16 mem (pcm + i * 4)), s16 (le16 mem (pcm + i * 4 + 2))) := by
  simp only [frameAt, frameSz_direct (.inr rfl)]
  simp [direct, sampleAt_two]

theorem rate_direct (channels : Nat) : (direct channels).sampleRate = 48000 := rfl

@[simp] theorem numOutFrames_direct (numIn channels : Nat) :
    numOutFrames numIn (direct channels).sampleRate = numIn := by
  rw [rate_direct, numOutFrames, if_pos rfl]

theorem outFrame_direct (mem : Buf) (pcm channels : Nat) {numIn i : Nat} (hin : numIn < 4294967296)
    (hi : i < numIn) : outFrame mem pcm (direct channels) numIn i = frameAt mem pcm (direct channels) i := by
  have hpos : i < (numIn * 48000 + 48000 / 2) / 48000 := by omega
  exact ((resampling_exact hin (by decide) (by decide)).2 i hpos).identity rfl mem pcm _ rfl

theorem generalBytes_direct (mem : Buf) (pcm channels : Nat) {pcmLen : Nat} (hlen : pcmLen < 4294967296) :
    generalBytes mem pcm pcmLen (direct channels) =
      ((List.range (pcmLen / (direct channels).frameSz)).flatMap fun i =>
        frameBytes (frameAt mem pcm (direct channels) i)).take
          (u32 (pcmLen / (direct channels).frameSz * 2 * 2)) := by
  have hin : pcmLen / (direct channels).frameSz < 4294967296 :=
    Nat.lt_of_le_of_lt (Nat.div_le_self _ _) hlen
  have hframes : ((List.range (pcmLen / (direct channels).frameSz)).flatMap fun i =>
        frameBytes (outFrame mem pcm (direct channels) (pcmLen / (direct channels).frameSz) i)) =
      (List.range (pcmLen / (direct channels).frameSz)).flatMap fun i =>
        frameBytes (frameAt mem pcm (direct channels) i) :=
    List.flatMap_congr fun i hi => by
      rw [outFrame_direct mem pcm channels hin (List.mem_range.mp hi)]
  simp only [generalBytes, numOutFrames_direct, hframes]

theorem monoBytes_eq (mem : Buf) (pcm : Nat) {pcmLen : Nat} (hlen : pcmLen < 4294967296) :
    monoBytes mem pcm pcmLen = generalBytes mem pcm pcmLen (direct 1) := by
  simp only [generalBytes_direct mem pcm 1 hlen, frameSz_direct (.inl rfl), Nat.one_mul, monoBytes,
    frameAt_mono]

theorem generalBytes_stereo (mem : Buf) (pcm : Nat) {pcmLen : Nat} (hlen : pcmLen < 4294967296) :
    generalBytes mem pcm pcmLen (direct 2) =
      (List.range (pcmLen / 4 * 4)).map fun i => mem (pcm + i) := by
  have hbytes : ∀ i, frameBytes (frameAt mem pcm (direct 2) i) =
      [mem (pcm + i * 4), mem (pcm + (i * 4 + 1)), mem (pcm + (i * 4 + 2)), mem (pcm + (i * 4 + 3))] := by
    intro i
    rw [frameAt_stereo, frameBytes, int16Bytes_le16, int16Bytes_le16]
    rfl
  have hle : pcmLen / 4 * 2 * 2 ≤ pcmLen := by
    rw [Nat.mul_assoc]
    exact Nat.div_mul_le_self pcmLen 4
  have hfit : u32 (pcmLen / 4 * 2 * 2) = pcmLen / 4 * 2 * 2 := u32_of_lt (Nat.lt_of_le_of_lt hle hlen)
  simp only [generalBytes_direct mem pcm 2 hlen, frameSz_direct (.inr rfl), Nat.reduceMul, hfit]
  rw [← length_flatMap_frameBytes, List.take_length]
  simp only [hbytes]
  exact flatMap_fours (fun i => mem (pcm + i)) (pcmLen / 4)

/-- **The direct paths.**  They pass what the resampling loop would exactly if there is one channel,
    or no byte behind the last whole frame. -/
theorem direct_agrees_iff (mem : Buf) (pcm : Nat) {pcmLen channels : Nat} (hlen : pcmLen < 4294967296)
    (hchannels : channels = 1 ∨ channels = 2) :
    directBytes mem pcm pcmLen channels = generalBytes mem pcm pcmLen (direct channels) ↔
      channels = 1 ∨ pcmLen % 4 = 0 := by
  rcases hchannels with rfl | rfl
  · exact iff_of_true (monoBytes_eq mem pcm hlen) (.inl rfl)
  · rw [generalBytes_stereo mem pcm hlen]
    constructor
    · intro heq
      have hcount := congrArg List.length heq
      rw [directBytes, if_pos rfl, stereoBytes, List.length_map, List.length_map, List.length_range,
        List.length_range] at hcount
      omega
    · rintro (hone | hwhole)
      · cases hone
      · rw [directBytes, if_pos rfl, stereoBytes, show pcmLen / 4 * 4 = pcmLen by omega]

theorem direct_agrees_iff_frame :
    directBytes (fun i => UInt8.ofNat i) 44 4 2 = generalBytes (fun i => UInt8.ofNat i) 44 4 (direct 2) ↔
      (2 = 1 ∨ 4 % 4 = 0) :=
  direct_agrees_iff (fun i => UInt8.ofNat i) 44 (by decide) (.inr rfl)

/-- One frame and a byte: the direct path passes five bytes, the other four. -/
theorem direct_passes_rest : directBytes (fun i => UInt8.ofNat i) 44 5 2 ≠
    generalBytes (fun i => UInt8.ofNat i) 44 5 (direct 2) := by
  intro heq
  have hcount := congrArg List.length heq
  exact absurd hcount (by decide +kernel)

end Gemios.Wav
