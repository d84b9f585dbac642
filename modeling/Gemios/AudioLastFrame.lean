import Gemios.Audio
import Gemios.Bytes
import Gemios.XhciQueued
import Gemios.XhciRecover
import Gemios.XhciRing
import Mathlib.Logic.Function.Iterate

/-!
# The last frame of a recording

`usb_audio_record_pcm` of `src/src/usb/usb_audio.c` on the ring of the capture endpoint: TRBs are
queued ahead, one for a millisecond, each with the DMA buffer of its place in the ring, and the
buffers up to the dequeue index are collected.  That index, which `xhci_poll` sets, is the place of
the last completed TRB and not the one behind it.

The dequeue index is the place of the last completed TRB, and frames are collected up to it.  So the
frame that has completed last is never collected, and no recording is whole.
-/

namespace Gemios.Audio

open Gemios.Xhci
open Function

def ISOCH_IN_DMA_BUFFERS : Nat := 4096

def TRB_TYPE_ISOCH : Nat := 5
def TRB_SIA : BitVec 32 := 0x80000000

/-- What is in a DMA buffer: what was there before the recording (or comes late from an earlier
    one), zeros, or what a TRB of this recording has captured. -/
inductive Content where
  | earlier
  | zeros
  | frame (k : Nat)
deriving DecidableEq, Repr

/-- A TRB that is not reported complete: its address, its buffer, and what is captured there. -/
structure Capture where
  addr : BitVec 32
  buf : Nat
  content : Content

/-- `usb_audio_record_pcm` at work, with the TRBs in flight.  `out` is what is copied to `pcm_data`, a
    frame of `bytes_per_ms` bytes each. -/
structure Recorder where
  ring : Xhci.Ring
  pool : Nat → Content
  pending : List Capture
  queued : Nat
  collected : Nat
  readIdx : Nat
  out : List Content

/-- What a recording is asked for, the format of the capture stream, and the address of the DMA
    buffers. -/
structure Request where
  durationMs : Nat
  maxBytes : Nat
  inSampleRate : Nat
  inChannels : Nat
  inBitsPerSample : Nat
  poolAddr : BitVec 32

namespace Request

def duration (r : Request) : Nat :=
  if r.durationMs = 0 then 1000 else if r.durationMs > 60000 then 60000 else r.durationMs

def bytesPerMs (r : Request) : Nat :=
  let bytes := u32 (r.inSampleRate * r.inChannels * (r.inBitsPerSample / 8)) / 1000
  if bytes = 0 ∨ bytes > ISOCH_FRAME_MAX then 96 else bytes

/-- `target_frames`. -/
def target (r : Request) : Nat :=
  if u32 (r.duration * r.bytesPerMs) > r.maxBytes then r.maxBytes / r.bytesPerMs else r.duration

end Request

namespace Recorder

variable (r : Request)

/-- A TRB is queued with the buffer of its place, and the buffer is cleared. -/
def queue (s : Recorder) : Recorder :=
  let buf := if s.ring.enqueueIdx ≥ ISOCH_IN_DMA_BUFFERS - 1 then 0 else s.ring.enqueueIdx
  let trb : Trb := ⟨r.poolAddr + BitVec.ofNat 32 (buf * ISOCH_FRAME_MAX), 0, BitVec.ofNat 32 r.bytesPerMs,
    trbSetType TRB_TYPE_ISOCH ||| TRB_SIA ||| TRB_IOC⟩
  { s with
    pool := update s.pool buf .zeros
    ring := xhciRingEnqueueTrb s.ring trb
    pending := s.pending ++ [⟨(passLink s.ring).addr (passLink s.ring).enqueueIdx, buf, .frame s.queued⟩]
    queued := s.queued + 1 }

/-- The device fills the buffer of the first TRB in flight, and `xhci_poll` gets its event. -/
def complete (s : Recorder) : Recorder :=
  match s.pending with
  | [] => s
  | td :: rest =>
    { s with
      pool := update s.pool td.buf td.content
      ring := s.ring.noteCompletion ⟨td.addr, 0, 0, 0⟩
      pending := rest }

/-- `xhci_poll`, with `n` completions to report. -/
def poll (n : Nat) (s : Recorder) : Recorder := complete^[n] s

/-- The loop that keeps 512 frames queued ahead; at most `turns` turns. -/
def refill : Nat → Recorder → Recorder
  | 0, s => s
  | turns + 1, s =>
    if s.queued < r.target ∧ u32 (s.queued + 4294967296 - s.collected) < 512 then refill turns (s.queue r)
    else s

def take (s : Recorder) : Recorder :=
  { s with
    out := if s.out.length * r.bytesPerMs + r.bytesPerMs ≤ r.maxBytes then s.out ++ [s.pool s.readIdx] else s.out
    collected := s.collected + 1
    readIdx := if s.readIdx + 1 ≥ s.ring.size - 1 then 0 else s.readIdx + 1 }

/-- The loop that collects up to the dequeue index; at most `turns` turns. -/
def collect : Nat → Recorder → Recorder
  | 0, s => s
  | turns + 1, s =>
    if s.readIdx ≠ s.ring.dequeueIdx ∧ s.collected < r.target then collect turns (s.take r) else s

/-- What happens until the next turn of the capture loop: the time that is over, and how many
    completions there are to report. -/
structure Turn where
  elapsed : Nat
  completions : Nat

def capture : List Turn → Recorder → Recorder
  | [], s => s
  | t :: ts, s =>
    if s.collected < r.target then
      if t.elapsed > r.duration + 3000 then s
      else
        let s := (s.poll t.completions).refill r r.target
        capture ts (s.collect r r.target)
    else s

/-- The loop behind it that drains the pipeline. -/
def drain : List Nat → Recorder → Recorder
  | [], s => s
  | n :: ns, s =>
    if s.collected < s.queued ∧ s.collected < r.target then drain ns ((s.poll n).collect r r.target) else s

/-- Where a recording starts: the ring as it is, with what is in flight from earlier ones. -/
def start (ring : Xhci.Ring) (old : List (BitVec 32 × Nat)) : Recorder :=
  { ring := ring
    pool := fun _ => .earlier
    pending := old.map fun td => ⟨td.1, td.2, .earlier⟩
    queued := 0
    collected := 0
    readIdx := ring.enqueueIdx
    out := [] }

/-- `usb_audio_record_pcm`, from where it has found the ring and checked its arguments. -/
def record (ring : Xhci.Ring) (old : List (BitVec 32 × Nat)) (turns : List Turn) (drains : List Nat) : Recorder :=
  if r.target = 0 then start ring old
  else
    let s := (queue r)^[min 256 r.target] (start ring old)
    (s.capture r turns).drain r (drains.take 300)

/-- What was copied are the frames of the recording, in order, each of them once. -/
def Exact (s : Recorder) : Prop := s.out = (List.range r.target).map .frame

end Recorder

/-- A ring of the driver, at any position: the size of all rings, in memory that does not wrap. -/
structure Unwrapped (ring : Xhci.Ring) : Prop where
  size : ring.size = XHCI_RING_SIZE
  physAddr : ring.physAddr ≠ 0
  fits : ring.physAddr.toNat + XHCI_RING_SIZE * 16 < 4294967296

namespace Recorder

variable {r : Request} {s : Recorder}

/-! ### What each step does to the ring -/

theorem queue_buf (h : Unwrapped s.ring) :
    (if s.ring.enqueueIdx ≥ ISOCH_IN_DMA_BUFFERS - 1 then 0 else s.ring.enqueueIdx) =
        (passLink s.ring).enqueueIdx ∧ (passLink s.ring).enqueueIdx < 4095 := by
  have hsize : s.ring.size - 1 = ISOCH_IN_DMA_BUFFERS - 1 := by rw [h.size]; rfl
  unfold passLink
  rw [hsize]
  split
  · exact ⟨rfl, show 0 < 4095 by decide⟩
  · rename_i hlt
    exact ⟨rfl, Nat.lt_of_not_le hlt⟩

theorem queue_unwrapped (h : Unwrapped s.ring) : Unwrapped (s.queue r).ring where
  size := (passLink_passes.size s.ring).trans h.size
  physAddr := fun heq => h.physAddr ((passLink_physAddr s.ring).symm.trans heq)
  fits := (passLink_physAddr s.ring).symm ▸ h.fits

theorem queue_ring_addr (idx : Nat) : (s.queue r).ring.addr idx = s.ring.addr idx :=
  congrArg (· + BitVec.ofNat 32 (idx * 16)) (passLink_physAddr s.ring)

theorem noteCompletion_eq (ring : Xhci.Ring) (evt : Trb) :
    ring.noteCompletion evt = { ring with dequeueIdx := (ring.noteCompletion evt).dequeueIdx } := by
  unfold Xhci.Ring.noteCompletion
  split <;> rfl

theorem noteCompletion_unwrapped {ring : Xhci.Ring} (h : Unwrapped ring) (evt : Trb) : Unwrapped (ring.noteCompletion evt) := by
  rw [noteCompletion_eq]
  exact ⟨h.size, h.physAddr, h.fits⟩

theorem noteCompletion_addr (ring : Xhci.Ring) (evt : Trb) (idx : Nat) :
    (ring.noteCompletion evt).addr idx = ring.addr idx := by
  rw [noteCompletion_eq]
  rfl

theorem noteCompletion_dequeueIdx {ring : Xhci.Ring} (h : Unwrapped ring) {idx : Nat} (hidx : idx < 4095) :
    (ring.noteCompletion ⟨ring.addr idx, 0, 0, 0⟩).dequeueIdx = idx := by
  obtain ⟨hin, hindex⟩ := Queue.contains_addr h.physAddr (h.size ▸ h.fits)
    (show idx < ring.size by rw [h.size]; exact Nat.lt_succ_of_lt hidx)
  rw [Xhci.Ring.noteCompletion, if_pos hin, hindex]

/-! ### What a recording keeps -/

/-- Each step keeps it, where the loops take the step. -/
structure Kept (r : Request) (P : Recorder → Prop) : Prop where
  queue : ∀ s, P s → s.queued < r.target → u32 (s.queued + 4294967296 - s.collected) < 512 → P (s.queue r)
  complete : ∀ s, P s → P s.complete
  take : ∀ s, P s → s.readIdx ≠ s.ring.dequeueIdx → s.collected < r.target → P (s.take r)

namespace Kept

variable {P : Recorder → Prop} (hP : Kept r P)
include hP

theorem poll (h : P s) (n : Nat) : P (s.poll n) := by
  induction n generalizing s with
  | zero => exact h
  | succ n ih => exact ih (hP.complete s h)

theorem prebuffer (h : P s) (hzero : s.collected = 0) (n : Nat) (hn : s.queued + n ≤ min 256 r.target) :
    P ((Recorder.queue r)^[n] s) := by
  induction n generalizing s with
  | zero => exact h
  | succ n ih =>
    have hahead : u32 (s.queued + 4294967296 - s.collected) < 512 := by
      unfold u32
      omega
    refine ih (hP.queue s h (by omega) hahead) hzero ?_
    show s.queued + 1 + n ≤ min 256 r.target
    omega

theorem refill (h : P s) (turns : Nat) : P (s.refill r turns) := by
  induction turns generalizing s with
  | zero => exact h
  | succ turns ih =>
    rw [Recorder.refill]
    split
    · rename_i hroom
      exact ih (hP.queue s h hroom.1 hroom.2)
    · exact h

theorem collect (h : P s) (turns : Nat) : P (s.collect r turns) := by
  induction turns generalizing s with
  | zero => exact h
  | succ turns ih =>
    rw [Recorder.collect]
    split
    · rename_i hmore
      exact ih (hP.take s h hmore.1 hmore.2)
    · exact h

theorem capture (h : P s) (turns : List Turn) : P (s.capture r turns) := by
  induction turns generalizing s with
  | nil => exact h
  | cons t ts ih =>
    rw [Recorder.capture]
    split
    · split
      · exact h
      · exact ih (hP.collect (hP.refill (hP.poll h _) _) _)
    · exact h

theorem drain (h : P s) (drains : List Nat) : P (s.drain r drains) := by
  induction drains generalizing s with
  | nil => exact h
  | cons n ns ih =>
    rw [Recorder.drain]
    split
    · exact ih (hP.collect (hP.poll h n) _)
    · exact h

theorem record {ring : Xhci.Ring} {old : List (BitVec 32 × Nat)} (h : P (start ring old)) (turns : List Turn)
    (drains : List Nat) : P (record r ring old turns drains) := by
  unfold Recorder.record
  split
  · exact h
  · have hfilled := hP.prebuffer h rfl (min 256 r.target) (Nat.le_of_eq (Nat.zero_add _))
    exact hP.drain (hP.capture hfilled turns) _

end Kept

/-! ### The last frame -/

/-- The last frame is the last TRB to complete, after which the dequeue index stays on it; and it has
    not been collected. -/
structure LastLeft (r : Request) (s : Recorder) : Prop where
  unwrapped : Unwrapped s.ring
  queued_le : s.queued ≤ r.target
  own : ∀ td ∈ s.pending, ∀ k, td.content = .frame k →
    k < s.queued ∧ td.buf < 4095 ∧ td.addr = s.ring.addr td.buf
  last : ∀ td ∈ s.pending.dropLast, td.content ≠ .frame (r.target - 1)
  pool : ∀ b k, s.pool b = .frame k → k < s.queued
  done : ∀ b, s.pool b = .frame (r.target - 1) → s.pending = [] ∧ s.ring.dequeueIdx = b
  out : .frame (r.target - 1) ∉ s.out

namespace LastLeft

theorem queue (h : LastLeft r s) (hroom : s.queued < r.target) : LastLeft r (s.queue r) := by
  have hpool : ∀ b k, (s.queue r).pool b = .frame k → k < s.queued := by
    intro b k hb
    simp only [Recorder.queue, (queue_buf h.unwrapped).1, update_apply] at hb
    split at hb
    · cases hb
    · exact h.pool b k hb
  obtain ⟨hbuf, hlt⟩ := queue_buf h.unwrapped
  refine
    { unwrapped := queue_unwrapped h.unwrapped
      queued_le := hroom
      own := ?_
      last := ?_
      pool := fun b k hb => Nat.lt_succ_of_lt (hpool b k hb)
      done := fun b hb => ?_
      out := h.out }
  · intro td htd k hk
    rcases List.mem_append.mp htd with hold | hnew
    · obtain ⟨hk', hbuf', haddr⟩ := h.own td hold k hk
      exact ⟨Nat.lt_succ_of_lt hk', hbuf', haddr.trans (queue_ring_addr _).symm⟩
    · rw [List.mem_singleton] at hnew
      subst hnew
      cases hk
      dsimp only
      rw [hbuf]
      exact ⟨Nat.lt_succ_self _, hlt, rfl⟩
  · intro td htd
    simp only [Recorder.queue, List.dropLast_concat] at htd
    intro hk
    have := (h.own td htd _ hk).1
    omega
  · have := hpool b _ hb
    omega

theorem complete (h : LastLeft r s) : LastLeft r s.complete := by
  unfold Recorder.complete
  split
  · exact h
  · rename_i td rest hpending
    have hmem : td ∈ s.pending := hpending ▸ List.mem_cons_self
    refine
      { unwrapped := noteCompletion_unwrapped h.unwrapped _
        queued_le := h.queued_le
        own := ?_
        last := ?_
        pool := ?_
        done := ?_
        out := h.out }
    · intro td' htd' k hk
      rw [noteCompletion_addr]
      exact h.own td' (hpending ▸ List.mem_cons_of_mem td htd') k hk
    · intro td' htd'
      cases rest with
      | nil => cases htd'
      | cons td2 rest =>
        refine h.last td' ?_
        rw [hpending]
        exact List.mem_cons_of_mem td htd'
    · intro b k hb
      simp only [update_apply] at hb
      split at hb
      · exact (h.own td hmem k hb).1
      · exact h.pool b k hb
    · intro b hb
      simp only [update_apply] at hb
      split at hb
      · rename_i hbuf
        obtain ⟨-, hlt, haddr⟩ := h.own td hmem _ hb
        -- Behind the last frame nothing is in flight.
        have hrest : rest = [] := by
          cases rest with
          | nil => rfl
          | cons td2 rest =>
            refine absurd hb (h.last td ?_)
            rw [hpending]
            exact List.mem_cons_self
        dsimp only
        rw [haddr, noteCompletion_dequeueIdx h.unwrapped hlt, hbuf]
        exact ⟨hrest, rfl⟩
      · have hnil := (h.done b hb).1
        rw [hpending] at hnil
        cases hnil

theorem take (h : LastLeft r s) (hne : s.readIdx ≠ s.ring.dequeueIdx) : LastLeft r (s.take r) where
  unwrapped := h.unwrapped
  queued_le := h.queued_le
  own := h.own
  last := h.last
  pool := h.pool
  done := h.done
  out := by
    simp only [Recorder.take]
    split
    · intro hmem
      rcases List.mem_append.mp hmem with hold | hnew
      · exact h.out hold
      · exact hne (h.done s.readIdx (List.mem_singleton.mp hnew).symm).2.symm
    · exact h.out

theorem kept : Kept r (LastLeft r) where
  queue := fun _ h hroom _ => h.queue hroom
  complete := fun _ h => h.complete
  take := fun _ h hne _ => h.take hne

theorem start {ring : Xhci.Ring} (hring : Unwrapped ring) (old : List (BitVec 32 × Nat)) :
    LastLeft r (start ring old) where
  unwrapped := hring
  queued_le := Nat.zero_le _
  own := by
    intro td htd k hk
    obtain ⟨td', -, rfl⟩ := List.mem_map.mp htd
    cases hk
  last := by
    intro td htd hk
    obtain ⟨td', -, rfl⟩ := List.mem_map.mp (List.dropLast_subset _ htd)
    cases hk
  pool := fun _ _ hb => by cases hb
  done := fun _ hb => by cases hb
  out := List.not_mem_nil

end LastLeft

/-- **No recording is whole.**  At every position of the ring, with every timing of the completions,
    exactly the frames of the recording are returned only if there are none. -/
theorem record_exact_iff {ring : Xhci.Ring} (hring : Unwrapped ring) (old : List (BitVec 32 × Nat))
    (turns : List Turn) (drains : List Nat) :
    (record r ring old turns drains).Exact r ↔ r.target = 0 := by
  constructor
  · intro hexact
    by_contra hpos
    have hlast : Content.frame (r.target - 1) ∈ (List.range r.target).map Content.frame :=
      List.mem_map.mpr ⟨r.target - 1, List.mem_range.mpr (by omega), rfl⟩
    rw [← hexact] at hlast
    exact (LastLeft.kept.record (LastLeft.start hring old) turns drains).out hlast
  · intro hzero
    rw [Exact, record, if_pos hzero, hzero]
    rfl

/-- One millisecond, in a buffer of 960 bytes, at 48000 Hz with one channel of 16 bits. -/
def shortRequest (durationMs : Nat) : Request := ⟨durationMs, 960, 48000, 1, 16, 0x40000⟩

theorem unwrapped_new : Unwrapped (newRing rawRing XHCI_RING_SIZE) where
  size := rfl
  physAddr := by decide
  fits := by decide

theorem record_exact_iff_new :
    (record (shortRequest 2) (newRing rawRing XHCI_RING_SIZE) [] [⟨0, 2⟩] []).Exact (shortRequest 2) ↔
      (shortRequest 2).target = 0 :=
  record_exact_iff unwrapped_new [] [⟨0, 2⟩] []

/-- On a new ring the one frame completes and is not collected.  Where the next recording starts, the
    dequeue index is one behind, and two frames are collected before any is captured. -/
theorem record_inexact :
    let first := record (shortRequest 1) (newRing rawRing XHCI_RING_SIZE) [] [⟨0, 1⟩, ⟨4001, 0⟩] [0]
    first.pending.length = 0 ∧ first.out = [] ∧ ¬first.Exact (shortRequest 1) ∧
      (record (shortRequest 2) first.ring [] [⟨0, 0⟩] []).out = [.zeros, .zeros] := by
  unfold Exact
  decide +kernel

/-! ### A new ring -/

theorem target_fits (r : Request) : r.target * r.bytesPerMs ≤ r.maxBytes := by
  have hbytes : r.bytesPerMs ≤ 256 := by
    unfold Request.bytesPerMs ISOCH_FRAME_MAX
    dsimp only
    split <;> omega
  have hduration : r.duration ≤ 60000 := by
    unfold Request.duration
    split
    · decide
    · split <;> omega
  have hmul : r.duration * r.bytesPerMs ≤ 60000 * 256 := Nat.mul_le_mul hduration hbytes
  unfold Request.target
  rw [u32_of_lt (Nat.lt_of_le_of_lt hmul (by decide))]
  split
  · exact Nat.div_mul_le_self _ _
  · omega

/-- On a ring that was new, after `c` completions: the frames that were collected are the first ones,
    and at least one that has completed was not. -/
structure Steady (r : Request) (c : Nat) (s : Recorder) : Prop where
  unwrapped : Unwrapped s.ring
  queued : s.queued = c + s.pending.length
  queued_le : s.queued ≤ r.target
  enqueue : (passLink s.ring).enqueueIdx = s.queued % 4095
  dequeue : s.ring.dequeueIdx = (c - 1) % 4095
  pending : ∀ (j : Nat) (td : Capture), s.pending[j]? = some td →
    td = ⟨s.ring.addr ((c + j) % 4095), (c + j) % 4095, .frame (c + j)⟩
  pool : ∀ k, s.collected ≤ k → k < c → s.pool (k % 4095) = .frame k
  read : s.readIdx = s.collected % 4095
  behind : s.collected ≤ c - 1
  ahead : s.queued ≤ s.collected + 512
  out : s.out = (List.range s.collected).map .frame

namespace Steady

variable {c : Nat}

theorem queue (h : Steady r c s) (hroom : s.queued < r.target) (hahead : s.queued < s.collected + 512) :
    Steady r c (s.queue r) := by
  have hqueued := h.queued
  have hidx := h.enqueue
  have hbuf := (queue_buf h.unwrapped).1
  refine
    { unwrapped := queue_unwrapped h.unwrapped
      queued := ?_
      queued_le := hroom
      enqueue := ?_
      dequeue := (passLink_dequeueIdx s.ring).trans h.dequeue
      pending := ?_
      pool := ?_
      read := h.read
      behind := h.behind
      ahead := hahead
      out := h.out }
  · simp only [Recorder.queue, List.length_append, List.length_singleton, hqueued]
    omega
  · have hnew : (s.queue r).ring.enqueueIdx = s.queued % 4095 + 1 := congrArg (· + 1) hidx
    have hsize : (s.queue r).ring.size - 1 = 4095 := by rw [(queue_unwrapped h.unwrapped).size]; rfl
    show (passLink (s.queue r).ring).enqueueIdx = (s.queued + 1) % 4095
    unfold passLink
    rw [hsize, hnew]
    split
    · dsimp only
      omega
    · rw [hnew]
      omega
  · intro j td hj
    rw [queue_ring_addr]
    simp only [Recorder.queue, List.getElem?_append] at hj
    split at hj
    · exact h.pending j td hj
    · obtain ⟨hlt, htd⟩ := List.getElem?_eq_some_iff.mp hj
      simp only [List.length_singleton] at hlt
      simp only [List.getElem_singleton] at htd
      have hj' : s.queued = c + j := by omega
      rw [← htd, hbuf, ← hj', hidx, Xhci.Ring.addr, passLink_physAddr]
      rfl
  · intro k hk hkc
    simp only [Recorder.queue, hbuf, hidx]
    rw [update_of_ne (by dsimp only [Recorder.queue] at hk; omega)]
    exact h.pool k hk hkc

theorem complete (h : Steady r c s) : ∃ c', Steady r c' s.complete := by
  unfold Recorder.complete
  split
  · exact ⟨c, h⟩
  · rename_i td rest hpending
    have hqueued := h.queued
    rw [hpending, List.length_cons] at hqueued
    have hahead := h.ahead
    have htd := h.pending 0 td (by rw [hpending]; rfl)
    rw [Nat.add_zero] at htd
    refine ⟨c + 1,
      { unwrapped := noteCompletion_unwrapped h.unwrapped _
        queued := by dsimp only; omega
        queued_le := h.queued_le
        enqueue := ?_
        dequeue := ?_
        pending := ?_
        pool := ?_
        read := h.read
        behind := h.behind.trans (Nat.sub_le_sub_right (Nat.le_succ c) 1)
        ahead := hahead
        out := h.out }⟩
    · rw [← h.enqueue, noteCompletion_eq]
      unfold passLink
      dsimp only
      split <;> rfl
    · dsimp only
      rw [htd, noteCompletion_dequeueIdx h.unwrapped (Nat.mod_lt c (by decide)), Nat.add_sub_cancel]
    · intro j td' hj
      dsimp only
      rw [noteCompletion_addr, Nat.add_assoc, Nat.add_comm 1 j]
      exact h.pending (j + 1) td' (by rw [hpending]; exact hj)
    · intro k hk hkc
      dsimp only at hk ⊢
      rw [htd]
      rcases Nat.lt_or_eq_of_le (Nat.le_of_lt_succ hkc) with hlt | rfl
      · rw [update_of_ne (by dsimp only; omega)]
        exact h.pool k hk hlt
      · exact update_self ..

theorem take (h : Steady r c s) (hne : s.readIdx ≠ s.ring.dequeueIdx) (hmore : s.collected < r.target) :
    Steady r c (s.take r) := by
  have hbehind := h.behind
  have hahead := h.ahead
  have hlt : s.collected < c - 1 := by
    rcases Nat.lt_or_eq_of_le hbehind with hlt | heq
    · exact hlt
    · rw [h.read, h.dequeue, heq] at hne
      exact absurd rfl hne
  have hsize : s.ring.size - 1 = 4095 := by rw [h.unwrapped.size]; rfl
  have hfits : s.out.length * r.bytesPerMs + r.bytesPerMs ≤ r.maxBytes := by
    rw [h.out, List.length_map, List.length_range, ← Nat.add_one_mul]
    exact (Nat.mul_le_mul_right _ hmore).trans (target_fits r)
  exact
    { unwrapped := h.unwrapped
      queued := h.queued
      queued_le := h.queued_le
      enqueue := h.enqueue
      dequeue := h.dequeue
      pending := h.pending
      pool := fun k hk => h.pool k (Nat.le_of_succ_le hk)
      read := by
        simp only [Recorder.take, hsize, h.read]
        split <;> omega
      behind := hlt
      ahead := by
        show s.queued ≤ s.collected + 1 + 512
        omega
      out := by
        simp only [Recorder.take]
        rw [if_pos hfits, h.read, h.pool _ (Nat.le_refl _) (by omega), h.out, List.range_succ,
          List.map_append]
        rfl }

theorem kept : Kept r (fun s => ∃ c, Steady r c s) where
  queue := by
    rintro s ⟨c, h⟩ hroom hroom'
    have hqueued := h.queued
    have hbehind := h.behind
    have hahead := h.ahead
    have hdiff : u32 (s.queued + 4294967296 - s.collected) = s.queued - s.collected := by
      unfold u32
      omega
    rw [hdiff] at hroom'
    exact ⟨c, h.queue hroom (by omega)⟩
  complete := by
    rintro s ⟨c, h⟩
    exact h.complete
  take := by
    rintro s ⟨c, h⟩ hne hmore
    exact ⟨c, h.take hne hmore⟩

theorem start {ring : Xhci.Ring} (hring : Unwrapped ring) (henqueue : ring.enqueueIdx = 0)
    (hdequeue : ring.dequeueIdx = 0) : Steady r 0 (start ring []) where
  unwrapped := hring
  queued := rfl
  queued_le := Nat.zero_le _
  enqueue := by
    show (passLink ring).enqueueIdx = 0
    unfold passLink
    split
    · rfl
    · exact henqueue
  dequeue := hdequeue
  pending := by
    intro j td hj
    cases hj
  pool := by
    intro k _ hk
    cases hk
  read := henqueue
  behind := Nat.le_refl _
  ahead := Nat.zero_le _
  out := rfl

end Steady

/-- On a new ring the frames of the recording are returned in order, each of them once, up to one that
    is not the last: across any number of laps of the ring. -/
theorem record_new_ring {ring : Xhci.Ring} (hring : Unwrapped ring) (henqueue : ring.enqueueIdx = 0)
    (hdequeue : ring.dequeueIdx = 0) (turns : List Turn) (drains : List Nat) :
    ∃ m ≤ r.target - 1, (record r ring [] turns drains).out = (List.range m).map .frame := by
  have hstart : Steady r 0 (start ring []) := Steady.start hring henqueue hdequeue
  obtain ⟨c, hend⟩ := Steady.kept.record ⟨0, hstart⟩ turns drains
  have hqueued := hend.queued
  have hle := hend.queued_le
  have hbehind := hend.behind
  exact ⟨_, by omega, hend.out⟩

end Recorder

end Gemios.Audio
