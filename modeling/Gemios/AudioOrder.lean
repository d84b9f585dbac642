import Gemios.AudioStream

/-!
# When a stream comes in order

The periods that are sent are the written bytes cut at the size of a period, each in frames of its
own.  So the stream is what was written if a period is a number of whole frames; otherwise there
are zeros behind each period.
-/

namespace Gemios.Audio

open Gemios.Frames

/-! ### The calls, phase by phase -/

/-- Within the writes: `todo` are the bytes still to come. -/
structure Writing (total : List UInt8) (b : Nat) (s : Device) (v : View) (todo : List UInt8) :
    Prop where
  shows : Shows s v
  rate : s.bytesPerMs = b
  short : v.cur.length < AUDIO_PERIOD_MAX_BYTES
  full : ∀ p ∈ v.periods, p.length = AUDIO_PERIOD_MAX_BYTES
  total : v.written ++ todo = total

structure Draining (total : List UInt8) (b : Nat) (s : Device) (v : View) : Prop where
  shows : Shows s v
  rate : s.bytesPerMs = b
  cur : v.cur = []
  cut : Cut AUDIO_PERIOD_MAX_BYTES v.periods
  total : v.periods.flatten = total

structure Done (total : List UInt8) (b : Nat) (s : Device) (v : View) : Prop where
  queued : s.queuedPeriods = 0
  cut : Cut AUDIO_PERIOD_MAX_BYTES v.periods
  total : v.periods.flatten = total
  sent : (s.frames.map Frame.data).flatten = framed 0 b v.periods ++ List.replicate (8 * b) 0

def Keeps (total : List UInt8) (b : Nat) (r : Play) (v : View) : Prop :=
  match r.phase with
  | .write src => Writing total b r.dev v (src ++ r.calls.flatten)
  | .drain => Draining total b r.dev v
  | .done => Done total b r.dev v

/-- How far the calls are from their end: a byte is to be written, and then to be sent. -/
def work (r : Play) (v : View) : Nat :=
  match r.phase with
  | .write src =>
    2 * (src ++ r.calls.flatten).length + r.calls.length + (v.left + v.cur.length) + 2
  | .drain => v.left + 1
  | .done => 0

/-- The last frame that can come, if every frame has only one byte. -/
def lastFrame (r : Play) (v : View) : Nat :=
  match r.phase with
  | .write src => r.dev.isochHead + (src ++ r.calls.flatten).length + (v.left + v.cur.length)
  | .drain => r.dev.isochHead + v.left
  | .done => 0

namespace Writing

variable {total todo : List UInt8} {b : Nat} {s : Device} {v : View}

theorem pumped (h : Writing total b s v todo) {s' : Device} {v' : View} (hp : Pumped s v s' v') :
    Writing total b s' v' todo where
  shows := hp.shows
  rate := hp.rate.trans h.rate
  short := by rw [hp.cur]; exact h.short
  full := by rw [hp.periods]; exact h.full
  total := by
    have htotal := h.total
    unfold View.written at *
    rwa [hp.periods, hp.cur]

theorem fill (h : Writing total b s v todo) (hroom : v.queue.length < AUDIO_NUM_PERIODS)
    {src rest : List UInt8} (htodo : todo = src ++ rest) :
    ∃ v', Writing total b (s.fill src) v' (src.drop (s.room src) ++ rest) ∧
      v'.left + v'.cur.length ≤ v.left + v.cur.length + s.room src := by
  obtain ⟨v', hshows, hshort, hwritten, hleft, hperiods⟩ := h.shows.fill h.short hroom src
  refine ⟨v', ⟨hshows, ?_, hshort, fun p hp => ?_, ?_⟩, hleft⟩
  · rw [(Shows.fill_rest s src).1, h.rate]
  · rcases hperiods p hp with hold | hnew
    · exact h.full p hold
    · exact hnew
  · rw [hwritten, ← h.total, htodo, List.append_assoc, ← List.append_assoc (src.take _),
      List.take_append_drop]

theorem flush (h : Writing total b s v []) :
    ∃ v', Draining total b s.streamFlush v' ∧ v'.left ≤ v.left + v.cur.length := by
  obtain ⟨v', hshows, hcur, hwritten, hleft, hperiods⟩ := h.shows.streamFlush
  have hrate : s.streamFlush.bytesPerMs = s.bytesPerMs := by
    unfold Device.streamFlush
    split <;> rfl
  have htotal := h.total
  refine ⟨v', ⟨hshows, hrate.trans h.rate, hcur, ?_, ?_⟩, hleft⟩
  · rw [hperiods]
    by_cases hnil : v.cur = []
    · rw [if_pos hnil, List.append_nil]
      exact ⟨fun p hp => h.full p ((List.dropLast_sublist _).subset hp), fun p hp => Nat.le_of_eq (h.full p hp)⟩
    · rw [if_neg hnil]
      refine ⟨fun p hp => ?_, fun p hp => ?_⟩
      · rw [List.dropLast_concat] at hp
        exact h.full p hp
      · rcases List.mem_append.mp hp with hp | hp
        · exact Nat.le_of_eq (h.full p hp)
        · rw [List.mem_singleton.mp hp]
          exact Nat.le_of_lt h.short
  · rw [List.append_nil, ← hwritten, View.written, hcur, List.append_nil] at htotal
    exact htotal

end Writing

namespace Draining

variable {total : List UInt8} {b : Nat} {s : Device} {v : View}

theorem pumped (h : Draining total b s v) {s' : Device} {v' : View} (hp : Pumped s v s' v') :
    Draining total b s' v' where
  shows := hp.shows
  rate := hp.rate.trans h.rate
  cur := hp.cur.trans h.cur
  cut := by rw [hp.periods]; exact h.cut
  total := by rw [hp.periods]; exact h.total

theorem terminate (h : Draining total b s v) (hempty : v.queue = []) :
    Done total b s.terminate v where
  queued := by
    rw [(terminate_frames s).1, h.shows.queued, hempty, List.length_nil]
  cut := h.cut
  total := h.total
  sent := by
    rw [(terminate_frames s).2, h.shows.sent, h.rate, View.sent, View.periods, hempty,
      List.append_nil]
    simp

end Draining

/-! ### One step -/

theorem queue_nil {s : Device} {v : View} (h : Shows s v) (hnone : ¬ s.queuedPeriods > 0) :
    v.queue = [] := by
  rw [h.queued] at hnone
  exact List.length_eq_zero_iff.mp (Nat.le_zero.mp (Nat.le_of_not_lt hnone))

/-- A clock that is ahead of every frame: the pump always sends. -/
def FAR : Nat := 2 ^ 32 - 129

theorem Shows.left_pos {s : Device} {v : View} (h : Shows s v) (hqueue : v.queue ≠ []) :
    0 < v.left := by
  obtain ⟨d, q, hq⟩ := List.exists_cons_of_ne_nil hqueue
  have hpos := h.pos_lt hq
  unfold View.left
  rw [hq, List.flatten_cons, List.length_append]
  omega

theorem Shows.pump_far {s : Device} {v : View} (h : Shows s v) (elapsedMs : Nat) :
    ∃ v', Pumped s v (s.pump elapsedMs) v' ∧
      (v.queue ≠ [] → elapsedMs = FAR → s.isochHead < 2 ^ 32 - 1 → v'.left < v.left) := by
  by_cases htime : v.queue ≠ [] ∧ s.isochHead < (elapsedMs + 128) % 2 ^ 32
  · obtain ⟨v', hpump, hlt⟩ := h.pump_lt htime.1 htime.2
    exact ⟨v', hpump, fun _ _ _ => hlt⟩
  · obtain ⟨v', hpump⟩ := h.pump elapsedMs
    refine ⟨v', hpump, fun hqueue hfar hhead => absurd ⟨hqueue, ?_⟩ htime⟩
    rw [hfar]
    exact hhead

def Leads (total : List UInt8) (b : Nat) (r : Play) (v : View) (elapsedMs : Nat) (r' : Play) : Prop :=
  ∃ v', Keeps total b r' v' ∧ lastFrame r' v' ≤ lastFrame r v ∧
    (elapsedMs = FAR → lastFrame r v < 2 ^ 32 → work r' v' < work r v)

section Step

variable {total : List UInt8} {b : Nat} {s : Device} {calls : List (List UInt8)} {v : View}

theorem step_next (h : Keeps total b ⟨s, .write [], calls⟩ v) (elapsedMs : Nat) :
    Leads total b ⟨s, .write [], calls⟩ v elapsedMs (Play.step ⟨s, .write [], calls⟩ elapsedMs) := by
  have hw : Writing total b s v calls.flatten := h
  cases calls with
  | nil =>
    obtain ⟨v', hdrain, hleft⟩ := hw.flush
    have hhead : s.streamFlush.isochHead = s.isochHead := by
      unfold Device.streamFlush
      split <;> rfl
    refine ⟨v', hdrain, ?_, fun _ _ => ?_⟩
    · show s.streamFlush.isochHead + v'.left ≤ s.isochHead + 0 + (v.left + v.cur.length)
      omega
    · show v'.left + 1 < 2 * 0 + 0 + (v.left + v.cur.length) + 2
      omega
  | cons src calls =>
    refine ⟨v, hw, Nat.le_refl _, fun _ _ => ?_⟩
    show 2 * (src ++ calls.flatten).length + calls.length + (v.left + v.cur.length) + 2 <
      2 * (src ++ calls.flatten).length + (calls.length + 1) + (v.left + v.cur.length) + 2
    omega

theorem step_wait {x : UInt8} {src : List UInt8} (h : Keeps total b ⟨s, .write (x :: src), calls⟩ v)
    (elapsedMs : Nat) (hfull : s.queuedPeriods ≥ AUDIO_NUM_PERIODS) :
    Leads total b ⟨s, .write (x :: src), calls⟩ v elapsedMs
      ⟨s.pump elapsedMs, .write (x :: src), calls⟩ := by
  have hw : Writing total b s v (x :: src ++ calls.flatten) := h
  have hqueue : v.queue ≠ [] := by
    intro hnil
    rw [hw.shows.queued, hnil] at hfull
    exact absurd hfull (by decide)
  obtain ⟨v', hpump, hless⟩ := hw.shows.pump_far elapsedMs
  have hwork := hpump.work
  have hcur : v'.cur.length = v.cur.length := by rw [hpump.cur]
  have hlen : (x :: src ++ calls.flatten).length = (src ++ calls.flatten).length + 1 := rfl
  refine ⟨v', hw.pumped hpump, ?_, fun hfar hlast => ?_⟩
  · show (s.pump elapsedMs).isochHead + (x :: src ++ calls.flatten).length + (v'.left + v'.cur.length)
      ≤ s.isochHead + (x :: src ++ calls.flatten).length + (v.left + v.cur.length)
    omega
  · have hhead : s.isochHead + (x :: src ++ calls.flatten).length + (v.left + v.cur.length) < 2 ^ 32 :=
      hlast
    have hlt := hless hqueue hfar (by omega)
    show 2 * (x :: src ++ calls.flatten).length + calls.length + (v'.left + v'.cur.length) + 2 <
      2 * (x :: src ++ calls.flatten).length + calls.length + (v.left + v.cur.length) + 2
    omega

theorem step_fill {x : UInt8} {src : List UInt8} (h : Keeps total b ⟨s, .write (x :: src), calls⟩ v)
    (elapsedMs : Nat) (hroom : ¬ s.queuedPeriods ≥ AUDIO_NUM_PERIODS) :
    Leads total b ⟨s, .write (x :: src), calls⟩ v elapsedMs
      ⟨(s.fill (x :: src)).pump elapsedMs, .write ((x :: src).drop (s.room (x :: src))), calls⟩ := by
  have hw : Writing total b s v (x :: src ++ calls.flatten) := h
  rw [hw.shows.queued] at hroom
  obtain ⟨v₁, hfill, hleft⟩ := hw.fill (Nat.lt_of_not_le hroom) rfl
  obtain ⟨v', hpump⟩ := hfill.shows.pump elapsedMs
  have hpos := hw.shows.room_pos hw.short (List.cons_ne_nil x src)
  have hle : s.room (x :: src) ≤ (x :: src).length := Nat.min_le_left _ _
  have hwork := hpump.work
  have hless := hpump.left
  have hcur : v'.cur.length = v₁.cur.length := by rw [hpump.cur]
  have hhead := (Shows.fill_rest s (x :: src)).2
  have hrest : ((x :: src).drop (s.room (x :: src)) ++ calls.flatten).length +
      s.room (x :: src) = (x :: src ++ calls.flatten).length := by
    rw [List.length_append, List.length_append, List.length_drop]
    omega
  refine ⟨v', hfill.pumped hpump, ?_, fun _ _ => ?_⟩
  · show ((s.fill (x :: src)).pump elapsedMs).isochHead +
        ((x :: src).drop (s.room (x :: src)) ++ calls.flatten).length + (v'.left + v'.cur.length) ≤
      s.isochHead + (x :: src ++ calls.flatten).length + (v.left + v.cur.length)
    omega
  · show 2 * ((x :: src).drop (s.room (x :: src)) ++ calls.flatten).length + calls.length +
        (v'.left + v'.cur.length) + 2 <
      2 * (x :: src ++ calls.flatten).length + calls.length + (v.left + v.cur.length) + 2
    omega

theorem step_drain (h : Keeps total b ⟨s, .drain, calls⟩ v) (elapsedMs : Nat) :
    Leads total b ⟨s, .drain, calls⟩ v elapsedMs (Play.step ⟨s, .drain, calls⟩ elapsedMs) := by
  have hd : Draining total b s v := h
  unfold Play.step
  dsimp only
  split
  · rename_i hqueued
    have hqueue : v.queue ≠ [] := by
      intro hnil
      rw [hd.shows.queued, hnil] at hqueued
      exact absurd hqueued (by decide)
    obtain ⟨v', hpump, hless⟩ := hd.shows.pump_far elapsedMs
    refine ⟨v', hd.pumped hpump, hpump.work, fun hfar hlast => ?_⟩
    have hlast' : s.isochHead + v.left < 2 ^ 32 := hlast
    have hpos := hd.shows.left_pos hqueue
    have hlt := hless hqueue hfar (by omega)
    show v'.left + 1 < v.left + 1
    omega
  · rename_i hnone
    refine ⟨v, hd.terminate (queue_nil hd.shows hnone), Nat.zero_le _, fun _ _ => ?_⟩
    exact Nat.succ_pos _

end Step

theorem step_keeps {total : List UInt8} {b : Nat} {r : Play} {v : View} (h : Keeps total b r v)
    (hphase : r.phase ≠ .done) (elapsedMs : Nat) :
    Leads total b r v elapsedMs (r.step elapsedMs) := by
  obtain ⟨s, phase, calls⟩ := r
  cases phase with
  | write src =>
    cases src with
    | nil => exact step_next h elapsedMs
    | cons x src =>
      unfold Play.step
      dsimp only
      split
      · rename_i hfull
        exact step_wait h elapsedMs hfull
      · rename_i hroom
        exact step_fill h elapsedMs hroom
  | drain => exact step_drain h elapsedMs
  | done => exact absurd rfl hphase

/-! ### Runs -/

theorem step_done {r : Play} (h : r.phase = .done) (elapsedMs : Nat) : r.step elapsedMs = r := by
  unfold Play.step
  rw [h]

theorem run_keeps {total : List UInt8} {b : Nat} {r : Play} {v : View} (h : Keeps total b r v)
    (clock : List Nat) : ∃ v', Keeps total b (r.run clock) v' := by
  induction clock generalizing r v with
  | nil => exact ⟨v, h⟩
  | cons elapsedMs clock ih =>
    by_cases hphase : r.phase = .done
    · have hrun : r.run (elapsedMs :: clock) = r.run clock := by
        rw [Play.run, List.foldl_cons, step_done hphase]
        rfl
      rw [hrun]
      exact ih h
    · obtain ⟨v', hnext, -⟩ := step_keeps h hphase elapsedMs
      exact ih hnext

theorem run_ends {total : List UInt8} {b : Nat} {r : Play} {v : View} (h : Keeps total b r v)
    (hlast : lastFrame r v < 2 ^ 32) : ∃ clock, (r.run clock).phase = .done := by
  induction hwork : work r v using Nat.strong_induction_on generalizing r v with
  | _ n ih =>
    by_cases hphase : r.phase = .done
    · exact ⟨[], hphase⟩
    · obtain ⟨v', hnext, hless, hprogress⟩ := step_keeps h hphase FAR
      obtain ⟨clock, hclock⟩ := ih _ (hwork ▸ hprogress rfl hlast) hnext
        (Nat.lt_of_le_of_lt hless hlast) rfl
      exact ⟨FAR :: clock, hclock⟩

theorem start_keeps (dev : Device) (sampleRate channels bits : Nat) (accepted : Bool)
    (calls : List (List UInt8)) :
    Keeps calls.flatten (dev.streamStart sampleRate channels bits accepted).bytesPerMs
      (Play.start (dev.streamStart sampleRate channels bits accepted) calls) ⟨[], [], 0, []⟩ where
  shows := ⟨fun _ _ hx => absurd hx (by simp), Nat.succ_pos 2, rfl, Nat.zero_le _, rfl, rfl,
    fun _ hk => absurd hk (Nat.not_lt_zero _), fun h => absurd rfl h, fun _ hd => absurd hd (by simp),
    Nat.dvd_zero _, .inl rfl, rfl, rfl, rfl⟩
  rate := rfl
  short := Nat.succ_pos 7679
  full := fun _ hp => absurd hp (by simp [View.periods])
  total := rfl

/-! ### The stream -/

/-- No more periods are queued than there are buffers, and none that is queued is written to. -/
def Play.Safe (r : Play) : Prop := r.dev.queuedPeriods ≤ AUDIO_NUM_PERIODS ∧ ¬ r.Overwrites

theorem Keeps.safe {total : List UInt8} {b : Nat} {r : Play} {v : View} (h : Keeps total b r v) :
    r.Safe := by
  obtain ⟨s, phase, calls⟩ := r
  cases phase with
  | write src =>
    have hshows : Shows s v := h.shows
    refine ⟨by rw [show s.queuedPeriods = _ from hshows.queued]; exact hshows.le, ?_⟩
    rintro ⟨x, rest, -, hroom, j, hj, hslot⟩
    have hqueued : s.queuedPeriods = v.queue.length := hshows.queued
    replace hroom : s.queuedPeriods < AUDIO_NUM_PERIODS := hroom
    replace hj : j < s.queuedPeriods := hj
    refine slot_ne (p := s.playPeriod) (i := j) (j := v.queue.length) (by omega) (by omega) (by omega) ?_
    exact hslot.trans hshows.write
  | drain =>
    have hshows : Shows s v := h.shows
    refine ⟨by rw [show s.queuedPeriods = _ from hshows.queued]; exact hshows.le, ?_⟩
    rintro ⟨x, rest, hphase, -⟩
    exact absurd hphase (by simp)
  | done =>
    have hdone : Done total b s v := h
    refine ⟨by rw [show s.queuedPeriods = _ from hdone.queued]; exact Nat.zero_le _, ?_⟩
    rintro ⟨x, rest, hphase, -⟩
    exact absurd hphase (by simp)

theorem Done.inOrder_iff {b : Nat} {r : Play} {v : View} {calls : List (List UInt8)}
    (h : Done calls.flatten b r.dev v) (hb : 0 < b) :
    r.InOrder calls ↔
      b ∣ AUDIO_PERIOD_MAX_BYTES ∨ ∀ x ∈ calls.flatten.drop AUDIO_PERIOD_MAX_BYTES, x = 0 := by
  unfold Play.InOrder Play.sent
  rw [h.sent, ← h.total]
  exact framed_eq_iff hb h.cut _

theorem Keeps.done {total : List UInt8} {b : Nat} {r : Play} {v : View} (h : Keeps total b r v)
    (hphase : r.phase = .done) : Done total b r.dev v := by
  unfold Keeps at h
  rw [hphase] at h
  exact h

/-- Every stream that is started, written and drained, at every time of the pump calls: the buffers
    are safe all the time, and in the end the frames are the written bytes and zeros behind
    exactly if a period is a number of whole frames, or all bytes behind the first period are zero. -/
theorem stream_in_order_iff (dev : Device) (sampleRate channels bits : Nat) (accepted : Bool)
    (calls : List (List UInt8)) (clock : List Nat) :
    let s := dev.streamStart sampleRate channels bits accepted
    let r := (Play.start s calls).run clock
    r.Safe ∧ (r.phase = .done → (r.InOrder calls ↔
      s.bytesPerMs ∣ AUDIO_PERIOD_MAX_BYTES ∨
        ∀ x ∈ calls.flatten.drop AUDIO_PERIOD_MAX_BYTES, x = 0)) := by
  intro s r
  obtain ⟨v, h⟩ := run_keeps (start_keeps dev sampleRate channels bits accepted calls) clock
  exact ⟨h.safe, fun hdone => (h.done hdone).inOrder_iff (bytesPerMs_pos s)⟩

/-- A device before the stream, with 48000 Hz, two channels and 16 bits. -/
def idle : Device :=
  { sampleRate := 48000, channels := 2, bitsPerSample := 16
    buffer := fun _ _ => 0, periodBytes := fun _ => 0, periodPlayPos := fun _ => 0
    writePeriod := 0, playPeriod := 0, writeOffset := 0, queuedPeriods := 0
    active := false, stopping := false, isochHead := 0, frames := [] }

/-- Three bytes in one frame, of which the pump sends no more. -/
theorem stream_in_order_iff_short :
    let clock := [0, FAR + 2, 0, FAR + 2, 0]
    ((Play.start (idle.streamStart 44100 2 16 true) [[1, 2, 3]]).run clock).InOrder [[1, 2, 3]] :=
  ((stream_in_order_iff idle 44100 2 16 true [[1, 2, 3]] [0, FAR + 2, 0, FAR + 2, 0]).2 rfl).mpr
    (.inr fun x hx => absurd hx (by
      rw [List.drop_eq_nil_of_le (by decide)]
      exact List.not_mem_nil))

/-- At 44100 Hz a frame has 176 bytes, and a period 43 frames and 112 bytes. -/
theorem stream_has_gap :
    ¬ ∀ (dev : Device) (sampleRate channels bits : Nat) (calls : List (List UInt8))
      (clock : List Nat),
      let s := dev.streamStart sampleRate channels bits true
      let r := (Play.start s calls).run clock
      1 ≤ sampleRate * channels * (bits / 8) / 1000 →
        sampleRate * channels * (bits / 8) / 1000 ≤ 256 → r.phase = .done → r.InOrder calls := by
  intro h
  obtain ⟨n, hn⟩ : ∃ n, n = AUDIO_PERIOD_MAX_BYTES + 1 := ⟨_, rfl⟩
  have hbytes : [List.replicate n (1 : UInt8)].flatten = List.replicate n 1 := by
    rw [List.flatten_cons, List.flatten_nil, List.append_nil]
  have hstart := start_keeps idle 44100 2 16 true [List.replicate n 1]
  have hlast : lastFrame (Play.start (idle.streamStart 44100 2 16 true) [List.replicate n 1])
      ⟨[], [], 0, []⟩ < 2 ^ 32 := by
    show 0 + ([List.replicate n (1 : UInt8)].flatten).length + 0 < 2 ^ 32
    rw [hbytes, List.length_replicate, hn]
    decide
  obtain ⟨clock, hdone⟩ := run_ends hstart hlast
  have horder := h idle 44100 2 16 [List.replicate n 1] clock (by decide) (by decide) hdone
  obtain ⟨v, hkeeps⟩ := run_keeps hstart clock
  rcases ((hkeeps.done hdone).inOrder_iff (bytesPerMs_pos _)).mp horder with hdvd | hzero
  · exact absurd hdvd (by decide)
  · have hone := hzero 1 (by
      rw [hbytes, List.drop_replicate, hn, Nat.add_sub_cancel_left]
      exact List.mem_singleton.mpr rfl)
    exact absurd hone (by decide)

end Gemios.Audio
