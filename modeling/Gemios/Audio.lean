import Mathlib.Logic.Function.Basic
import Mathlib.Algebra.Group.Nat.Defs

/-!
# The audio stream

`src/src/usb/usb_audio.c`: the three period buffers of a playback stream, how they are filled and
how they are sent to the controller in frames of one millisecond.
-/

namespace Gemios.Audio

open Function

def AUDIO_NUM_PERIODS : Nat := 3
def AUDIO_PERIOD_MS : Nat := 40
def AUDIO_PERIOD_MAX_BYTES : Nat := AUDIO_PERIOD_MS * 192
def ISOCH_FRAME_MAX : Nat := 256

/-- What `xhci_isoch_transfer` is called with. -/
structure Frame where
  data : List UInt8
  sia : Bool
  ioc : Bool

/-- What the stream uses of `usb_audio_device_t` and of its `audio_triple_buffer_t`, with
    `g_isoch_head`.  `frames` is not in the source: the frames that the controller was given. -/
structure Device where
  sampleRate : Nat
  channels : Nat
  bitsPerSample : Nat
  buffer : Nat → Nat → UInt8
  periodBytes : Nat → Nat
  periodPlayPos : Nat → Nat
  writePeriod : Nat
  playPeriod : Nat
  writeOffset : Nat
  queuedPeriods : Nat
  active : Bool
  stopping : Bool
  isochHead : Nat
  frames : List Frame

namespace Device

/-- `bytes_per_ms`, in 32 bits, of `usb_audio_pump` and `usb_audio_stream_drain`. -/
def bytesPerMs (s : Device) : Nat :=
  let bytes := s.sampleRate * s.channels * (s.bitsPerSample / 8) % 2 ^ 32 / 1000
  if bytes = 0 ∨ bytes > ISOCH_FRAME_MAX then 192 else bytes

def isochTransfer (s : Device) (data : List UInt8) (sia ioc : Bool) : Device :=
  { s with
    frames := s.frames ++ [⟨data, sia, ioc⟩]
    isochHead := (s.isochHead + 1) % 2 ^ 32 }

def sendFrame (s : Device) (bytesPerMs : Nat) : Device :=
  let p := s.playPeriod
  let avail := s.periodBytes p - s.periodPlayPos p
  let chunk := min avail bytesPerMs
  let data := (List.range bytesPerMs).map fun k =>
    if k < chunk then s.buffer p (s.periodPlayPos p + k) else 0
  let s' := { s with periodPlayPos := update s.periodPlayPos p (s.periodPlayPos p + chunk) }
  let s' :=
    if s'.periodPlayPos p ≥ s'.periodBytes p then
      { s' with
        periodPlayPos := update s'.periodPlayPos p 0
        periodBytes := update s'.periodBytes p 0
        playPeriod := (p + 1) % AUDIO_NUM_PERIODS
        queuedPeriods := s'.queuedPeriods - 1 }
    else s'
  s'.isochTransfer data (s.isochHead == 0) (s.isochHead % 16 == 0)

def sendSilence (s : Device) (bytesPerMs : Nat) (sia ioc : Bool) : Device :=
  s.isochTransfer (List.replicate bytesPerMs 0) sia ioc

/-- The loop of `usb_audio_pump`; at most `n` turns. -/
def pumpLoop (bytesPerMs target : Nat) : Nat → Device → Device
  | 0, s => s
  | n + 1, s =>
    if s.isochHead < target ∧ (s.queuedPeriods > 0 ∨ s.stopping = true) then
      if s.queuedPeriods > 0 then pumpLoop bytesPerMs target n (s.sendFrame bytesPerMs)
      else if s.stopping = true then s
      else s.sendSilence bytesPerMs (s.isochHead == 0) (s.isochHead % 16 == 0)
    else s

/-- `usb_audio_pump`, so many ticks after the start of the stream.  Every turn of the loop sends a
    frame, up to the target. -/
def pump (s : Device) (elapsedMs : Nat) : Device :=
  if !s.active then s
  else
    let targetFrames := (elapsedMs + 128) % 2 ^ 32
    pumpLoop s.bytesPerMs targetFrames (targetFrames - s.isochHead) s

/-- `usb_audio_stream_start`; `accepted` says whether the device takes the sample rate. -/
def streamStart (s : Device) (sampleRate channels bits : Nat) (accepted : Bool) : Device :=
  { sampleRate :=
      if sampleRate ≠ s.sampleRate ∧ sampleRate > 0 ∧ accepted = true then sampleRate
      else s.sampleRate
    channels := if channels > 0 then channels else s.channels
    bitsPerSample := if bits > 0 then bits else s.bitsPerSample
    buffer := fun _ _ => 0
    periodBytes := fun _ => 0
    periodPlayPos := fun _ => 0
    writePeriod := 0, playPeriod := 0, writeOffset := 0, queuedPeriods := 0
    active := true, stopping := false
    isochHead := 0
    frames := [] }

/-- The period that is written goes to the queue. -/
def commit (s : Device) : Device :=
  { s with
    periodBytes := update s.periodBytes s.writePeriod s.writeOffset
    periodPlayPos := update s.periodPlayPos s.writePeriod 0
    writePeriod := (s.writePeriod + 1) % AUDIO_NUM_PERIODS
    writeOffset := 0
    queuedPeriods := s.queuedPeriods + 1 }

/-- How much of a call goes into the period that is written. -/
def room (s : Device) (src : List UInt8) : Nat :=
  min src.length (AUDIO_PERIOD_MAX_BYTES - s.writeOffset)

/-- The loop of `usb_audio_stream_write`, from `w_idx` to before the pump. -/
def fill (s : Device) (src : List UInt8) : Device :=
  let toCopy := s.room src
  let s := { s with
    buffer := fun p k =>
      if p = s.writePeriod ∧ s.writeOffset ≤ k ∧ k < s.writeOffset + toCopy then
        src.getD (k - s.writeOffset) 0
      else s.buffer p k
    writeOffset := s.writeOffset + toCopy }
  if s.writeOffset ≥ AUDIO_PERIOD_MAX_BYTES then s.commit else s

def streamFlush (s : Device) : Device := if s.writeOffset > 0 then s.commit else s

/-- The frames at the end of `usb_audio_stream_drain`. -/
def terminate (s : Device) : Device :=
  let s := (List.range 8).foldl (fun s z => s.sendSilence s.bytesPerMs false (z == 7)) s
  { s with active := false }

end Device

/-! ### Calls -/

/-- Where the caller is: in a write with the rest of its bytes, in the drain, or behind it. -/
inductive Phase where
  | write (src : List UInt8)
  | drain
  | done

/-- A stream that is played: the writes that are still to come, and then the drain. -/
structure Play where
  dev : Device
  phase : Phase
  calls : List (List UInt8)

namespace Play

/-- One turn of a loop of the calls, with the ticks since the start of the stream when it pumps.  A
    write waits while all periods are queued; without a timeout it waits as long as it takes. -/
def step (r : Play) (elapsedMs : Nat) : Play :=
  match r.phase with
  | .write [] =>
    match r.calls with
    | [] => { r with dev := r.dev.streamFlush, phase := .drain }
    | src :: calls => { r with phase := .write src, calls := calls }
  | .write (b :: src) =>
    if r.dev.queuedPeriods ≥ AUDIO_NUM_PERIODS then { r with dev := r.dev.pump elapsedMs }
    else
      { r with
        dev := (r.dev.fill (b :: src)).pump elapsedMs
        phase := .write ((b :: src).drop (r.dev.room (b :: src))) }
  | .drain =>
    if r.dev.queuedPeriods > 0 then { r with dev := r.dev.pump elapsedMs }
    else { r with dev := r.dev.terminate, phase := .done }
  | .done => r

def run (r : Play) (clock : List Nat) : Play := clock.foldl step r

def start (dev : Device) (calls : List (List UInt8)) : Play := ⟨dev, .write [], calls⟩

def sent (r : Play) : List UInt8 := (r.dev.frames.map Frame.data).flatten

/-- All that was written, in order, and zeros behind. -/
def InOrder (r : Play) (calls : List (List UInt8)) : Prop :=
  ∃ k, r.sent = calls.flatten ++ List.replicate k 0

/-- The next step writes into a period that is still to be played. -/
def Overwrites (r : Play) : Prop :=
  ∃ b src, r.phase = .write (b :: src) ∧ r.dev.queuedPeriods < AUDIO_NUM_PERIODS ∧
    ∃ j < r.dev.queuedPeriods, (r.dev.playPeriod + j) % AUDIO_NUM_PERIODS = r.dev.writePeriod

end Play

end Gemios.Audio
