import Gemios.Bytes
import Mathlib.Data.Int.Init

/-!
# Playing a WAV file

`usb_audio_play_wav` of `src/src/usb/usb_audio.c`: the search for the format and the data chunk, the
signal analysis as far as it reads and divides, the two direct paths, and the path that resamples to
48000 Hz.  Sizes are unsigned words of 32 bits, samples are signed ones.
-/

namespace Gemios.Wav

/-- `uint64_t` arithmetic. -/
def u64 (n : Nat) : Nat := n % 18446744073709551616

/-- `int32_t` arithmetic. -/
def s32 (x : Int) : Int := x.bmod 4294967296

/-- Conversion to `int16_t`. -/
def s16 (x : Int) : Int := x.bmod 65536

/-! ### Samples -/

/-- A sample of 8, 16 or 24 bits, brought to 16. -/
def sampleAt (mem : Buf) (p bits : Nat) : Int :=
  if bits = 8 then ((mem p).toNat - 128) * 256
  else if bits = 16 then s16 (le16 mem p)
  else
    s32 ((mem p).toNat <<< 8 ||| (mem (p + 1)).toNat <<< 16 ||| (mem (p + 2)).toNat <<< 24 : Nat) >>> (16 : Nat)

structure Format where
  audioFormat : Nat
  channels : Nat
  sampleRate : Nat
  bitsPerSample : Nat
deriving DecidableEq, Repr

def Format.frameSz (f : Format) : Nat := u32 (f.channels * (f.bitsPerSample / 8))

/-- The left and the right sample of a frame. -/
def frameAt (mem : Buf) (pcm : Nat) (f : Format) (idx : Nat) : Int × Int :=
  let p := pcm + idx * f.frameSz
  let l := sampleAt mem p f.bitsPerSample
  (l, if f.channels ≥ 2 then sampleAt mem (p + f.bitsPerSample / 8) f.bitsPerSample else l)

/-! ### Resampling -/

def numOutFrames (numIn rate : Nat) : Nat :=
  if rate = 48000 then numIn else u32 (u64 (u64 (numIn * 48000) + rate / 2) / rate)

def srcPosFp (i rate : Nat) : Nat := u64 (u64 (i * rate) * 65536) / 48000

def idx0 (i rate : Nat) : Nat := u32 (srcPosFp i rate / 65536)

def idx1 (numIn i rate : Nat) : Nat :=
  if u32 (idx0 i rate + 1) < numIn then u32 (idx0 i rate + 1) else idx0 i rate

def frac (i rate : Nat) : Nat := srcPosFp i rate % 65536

def interpolate (s0 s1 : Int) (frac : Nat) : Int :=
  s32 (s32 (s0 * s32 (65536 - frac)) + s32 (s1 * s32 frac)) >>> (16 : Nat)

def clamp (x : Int) : Int := if x > 32767 then 32767 else if x < -32768 then -32768 else x

/-- The output frame `i`. -/
def outFrame (mem : Buf) (pcm : Nat) (f : Format) (numIn i : Nat) : Int × Int :=
  let f0 := frameAt mem pcm f (idx0 i f.sampleRate)
  let f1 := frameAt mem pcm f (idx1 numIn i f.sampleRate)
  let frac := frac i f.sampleRate
  (clamp (interpolate f0.1 f1.1 frac), clamp (interpolate f0.2 f1.2 frac))

/-! ### What is passed to `usb_audio_play_pcm` -/

def int16Bytes (x : Int) : List UInt8 :=
  [UInt8.ofNat (x % 65536).toNat, UInt8.ofNat ((x % 65536).toNat / 256)]

def frameBytes (fr : Int × Int) : List UInt8 := int16Bytes fr.1 ++ int16Bytes fr.2

/-- 48000 Hz, two channels of 16 bits: the data as they are. -/
def stereoBytes (mem : Buf) (pcm pcmLen : Nat) : List UInt8 :=
  (List.range pcmLen).map fun i => mem (pcm + i)

/-- 48000 Hz, one channel of 16 bits: every sample twice. -/
def monoBytes (mem : Buf) (pcm pcmLen : Nat) : List UInt8 :=
  let numFrames := pcmLen / 2
  let outBytes := u32 (numFrames * 2 * 2)
  ((List.range numFrames).flatMap fun i =>
    let s := s16 (le16 mem (pcm + 2 * i))
    frameBytes (s, s)).take outBytes

/-- Any format: the output of the resampling loop. -/
def generalBytes (mem : Buf) (pcm pcmLen : Nat) (f : Format) : List UInt8 :=
  let numIn := pcmLen / f.frameSz
  let numOut := numOutFrames numIn f.sampleRate
  let outBytes := u32 (numOut * 2 * 2)
  ((List.range numOut).flatMap fun i => frameBytes (outFrame mem pcm f numIn i)).take outBytes

def direct (channels : Nat) : Format := ⟨1, channels, 48000, 16⟩

def directBytes (mem : Buf) (pcm pcmLen channels : Nat) : List UInt8 :=
  if channels = 2 then stereoBytes mem pcm pcmLen else monoBytes mem pcm pcmLen

end Gemios.Wav
