import Gemios.Audio
import Gemios.Frames
import Mathlib.Data.List.GetD

/-!
# What the period buffers hold

The three buffers are a queue of periods, of which the first one is played and behind which the
next one is written.  What each operation does to this queue, and what was sent by then.
-/

namespace Gemios.Audio

open Gemios.Frames
open Function

/-- The stream as a queue: the periods that were played, those that are queued with the place in
    the first one, and the bytes of the one that is written. -/
structure View where
  played : List (List UInt8)
  queue : List (List UInt8)
  pos : Nat
  cur : List UInt8

namespace View

def periods (v : View) : List (List UInt8) := v.played ++ v.queue

def written (v : View) : List UInt8 := v.periods.flatten ++ v.cur

def sent (v : View) (bytesPerMs : Nat) : List UInt8 :=
  framed 0 bytesPerMs v.played ++ (v.queue.headD []).take v.pos

def send (v : View) (bytesPerMs : Nat) : View :=
  match v.queue with
  | [] => v
  | d :: q =>
    if v.pos + bytesPerMs ≥ d.length then { v with played := v.played ++ [d], queue := q, pos := 0 }
    else { v with pos := v.pos + bytesPerMs }

/-- How many of the queued bytes are still to be sent. -/
def left (v : View) : Nat := v.queue.flatten.length - v.pos

def commit (v : View) : View := { v with queue := v.queue ++ [v.cur], cur := [] }

end View

/-- A buffer holds a period that was played up to a place. -/
structure SlotHolds (s : Device) (i : Nat) (d : List UInt8) (pos : Nat) : Prop where
  bytes : ∀ k (h : k < d.length), s.buffer i k = d[k]
  length : s.periodBytes i = d.length
  pos : s.periodPlayPos i = pos

structure Shows (s : Device) (v : View) : Prop where
  slot : ∀ j d, v.queue[j]? = some d →
    SlotHolds s ((s.playPeriod + j) % AUDIO_NUM_PERIODS) d (if j = 0 then v.pos else 0)
  play : s.playPeriod < AUDIO_NUM_PERIODS
  queued : s.queuedPeriods = v.queue.length
  le : v.queue.length ≤ AUDIO_NUM_PERIODS
  write : s.writePeriod = (s.playPeriod + v.queue.length) % AUDIO_NUM_PERIODS
  offset : s.writeOffset = v.cur.length
  cur : ∀ k (h : k < v.cur.length), s.buffer s.writePeriod k = v.cur[k]
  room : v.cur ≠ [] → v.queue.length < AUDIO_NUM_PERIODS
  nonempty : ∀ d ∈ v.queue, 0 < d.length
  frames : s.bytesPerMs ∣ v.pos
  pos : v.pos = 0 ∨ ∃ d q, v.queue = d :: q ∧ v.pos < d.length
  sent : (s.frames.map Frame.data).flatten = v.sent s.bytesPerMs
  active : s.active = true
  goesOn : s.stopping = false

theorem bytesPerMs_pos (s : Device) : 0 < s.bytesPerMs := by
  unfold Device.bytesPerMs
  dsimp only
  split
  · decide
  · rename_i h
    exact Nat.pos_of_ne_zero fun hzero => h (.inl hzero)

/-! ### Frames -/

theorem frame_data {f : Nat → UInt8} {l : List UInt8} (hf : ∀ k (h : k < l.length), f k = l[k])
    (n : Nat) :
    ((List.range n).map fun k => if k < min l.length n then f k else 0) =
      l.take n ++ List.replicate (n - l.length) 0 := by
  refine List.ext_getElem (by simp; omega) fun k hk hk' => ?_
  simp only [List.length_map, List.length_range] at hk
  rw [List.getElem_map, List.getElem_range]
  by_cases hlt : k < l.length
  · rw [if_pos (by omega), hf k hlt, List.getElem_append_left (by simp; omega), List.getElem_take]
  · rw [if_neg (by omega), List.getElem_append_right (by simp; omega), List.getElem_replicate]

theorem pad_last {d : List UInt8} {pos b : Nat} (hb : b ∣ pos) (hpos : pos < d.length)
    (hlast : pos + b ≥ d.length) :
    d.take pos ++ (d.drop pos ++ List.replicate (b - (d.length - pos)) 0) = pad 0 b d := by
  obtain ⟨m, rfl⟩ := hb
  unfold pad
  rw [← List.append_assoc, List.take_append_drop]
  congr 2
  obtain ⟨r, hr⟩ := Nat.exists_eq_add_of_lt hpos
  rw [hr]
  by_cases hfull : r + 1 = b
  · rw [Nat.add_assoc, hfull, Nat.mul_add_mod, Nat.mod_self, Nat.sub_zero, Nat.mod_self]
    omega
  · rw [Nat.add_assoc, Nat.mul_add_mod, Nat.mod_eq_of_lt (by omega : r + 1 < b),
      Nat.mod_eq_of_lt (by omega : b - (r + 1) < b)]
    omega

theorem sendFrame_bytesPerMs (s : Device) (b : Nat) : (s.sendFrame b).bytesPerMs = s.bytesPerMs := by
  unfold Device.sendFrame
  dsimp only
  split <;> rfl

namespace SlotHolds

variable {s : Device} {d : List UInt8} {pos b : Nat}

theorem sendFrame (h : SlotHolds s s.playPeriod d pos) (b : Nat) :
    s.sendFrame b =
      (if pos + min (d.length - pos) b ≥ d.length then
        { s with
          periodPlayPos := update
            (update s.periodPlayPos s.playPeriod (pos + min (d.length - pos) b)) s.playPeriod 0
          periodBytes := update s.periodBytes s.playPeriod 0
          playPeriod := (s.playPeriod + 1) % AUDIO_NUM_PERIODS
          queuedPeriods := s.queuedPeriods - 1 }
      else
        { s with
          periodPlayPos :=
            update s.periodPlayPos s.playPeriod (pos + min (d.length - pos) b) }).isochTransfer
        ((d.drop pos).take b ++ List.replicate (b - (d.length - pos)) 0)
        (s.isochHead == 0) (s.isochHead % 16 == 0) := by
  have hdata : ∀ k (hk : k < (d.drop pos).length), s.buffer s.playPeriod (pos + k) = (d.drop pos)[k] := by
    intro k hk
    rw [List.length_drop] at hk
    rw [List.getElem_drop, h.bytes (pos + k) (by omega)]
  have hframe := frame_data hdata b
  rw [List.length_drop] at hframe
  unfold Device.sendFrame
  dsimp only
  rw [h.length, h.pos, hframe]
  simp only [update_self]

theorem congr {s' : Device} {i : Nat} (h : SlotHolds s i d pos) (hbuf : s'.buffer i = s.buffer i)
    (hbytes : s'.periodBytes i = s.periodBytes i) (hpos : s'.periodPlayPos i = s.periodPlayPos i) :
    SlotHolds s' i d pos where
  bytes := fun k hk => by rw [hbuf, h.bytes k hk]
  length := hbytes.trans h.length
  pos := hpos.trans h.pos

end SlotHolds

theorem slot_ne {p i j : Nat} (hi : i < AUDIO_NUM_PERIODS) (hj : j < AUDIO_NUM_PERIODS) (hne : i ≠ j) :
    (p + i) % AUDIO_NUM_PERIODS ≠ (p + j) % AUDIO_NUM_PERIODS := by
  unfold AUDIO_NUM_PERIODS at *
  omega

theorem slot_next (p j : Nat) :
    ((p + 1) % AUDIO_NUM_PERIODS + j) % AUDIO_NUM_PERIODS = (p + (j + 1)) % AUDIO_NUM_PERIODS := by
  unfold AUDIO_NUM_PERIODS
  omega

theorem slot_zero {p : Nat} (hp : p < AUDIO_NUM_PERIODS) : (p + 0) % AUDIO_NUM_PERIODS = p :=
  Nat.mod_eq_of_lt hp

theorem lt_of_getElem? {l : List (List UInt8)} {j : Nat} {d : List UInt8} (h : l[j]? = some d) :
    j < l.length := (List.getElem?_eq_some_iff.mp h).1

namespace Shows

variable {s : Device} {v : View}

theorem head (h : Shows s v) {d : List UInt8} {q : List (List UInt8)} (hq : v.queue = d :: q) :
    SlotHolds s s.playPeriod d v.pos := by
  have hslot := h.slot 0 d (by rw [hq]; rfl)
  rwa [slot_zero h.play, if_pos rfl] at hslot

theorem pos_lt (h : Shows s v) {d : List UInt8} {q : List (List UInt8)} (hq : v.queue = d :: q) :
    v.pos < d.length := by
  rcases h.pos with hzero | ⟨d', q', hq', hlt⟩
  · rw [hzero]
    exact h.nonempty d (by rw [hq]; exact List.mem_cons_self)
  · rw [hq] at hq'
    rw [(List.cons.inj hq').1]
    exact hlt

theorem send_last (h : Shows s v) {d : List UInt8} {q : List (List UInt8)} (hq : v.queue = d :: q)
    (hlast : v.pos + s.bytesPerMs ≥ d.length) :
    Shows (s.sendFrame s.bytesPerMs) { v with played := v.played ++ [d], queue := q, pos := 0 } := by
  have hpos := h.pos_lt hq
  have hlen : v.queue.length = q.length + 1 := by rw [hq, List.length_cons]
  have hle := h.le
  have hsend := (h.head hq).sendFrame s.bytesPerMs
  rw [if_pos (by omega)] at hsend
  have hmore : ((d.drop v.pos).take s.bytesPerMs) = d.drop v.pos :=
    List.take_of_length_le (by rw [List.length_drop]; omega)
  rw [hmore] at hsend
  rw [hsend]
  refine ⟨fun j x hx => ?_, Nat.mod_lt _ (by decide), ?_, by show q.length ≤ _; omega, ?_, h.offset,
    h.cur, fun hne => ?_, fun x hx => h.nonempty x (by rw [hq]; exact List.mem_cons_of_mem d hx),
    Nat.dvd_zero _, .inl rfl, ?_, h.active, h.goesOn⟩
  · have hj : j < q.length := lt_of_getElem? hx
    have hslot := h.slot (j + 1) x (by rw [hq]; exact hx)
    have hne : (s.playPeriod + (j + 1)) % AUDIO_NUM_PERIODS ≠ s.playPeriod := by
      have hne := slot_ne (p := s.playPeriod) (i := j + 1) (j := 0) (by omega) (by decide) (by omega)
      rwa [slot_zero h.play] at hne
    show SlotHolds _ (((s.playPeriod + 1) % AUDIO_NUM_PERIODS + j) % AUDIO_NUM_PERIODS) x _
    rw [slot_next]
    rw [if_neg (Nat.succ_ne_zero j)] at hslot
    have hzero : (if j = 0 then 0 else 0) = 0 := by split <;> rfl
    rw [hzero]
    refine hslot.congr rfl ?_ ?_
    · exact update_of_ne hne _ _
    · exact (update_of_ne hne _ _).trans (update_of_ne hne _ _)
  · show s.queuedPeriods - 1 = q.length
    rw [h.queued, hlen, Nat.add_sub_cancel]
  · show s.writePeriod = ((s.playPeriod + 1) % AUDIO_NUM_PERIODS + q.length) % AUDIO_NUM_PERIODS
    rw [slot_next, h.write, hlen]
  · have hroom := h.room hne
    show q.length < _
    omega
  · show ((s.frames ++ [_]).map Frame.data).flatten = framed 0 s.bytesPerMs (v.played ++ [d]) ++ _
    rw [List.map_append, List.flatten_append, h.sent, View.sent, hq, framed_append, framed_cons,
      framed_nil, List.append_nil, List.take_zero, List.append_nil,
      ← pad_last h.frames hpos hlast, List.append_assoc]
    simp

theorem send_more (h : Shows s v) {d : List UInt8} {q : List (List UInt8)} (hq : v.queue = d :: q)
    (hmore : ¬ v.pos + s.bytesPerMs ≥ d.length) :
    Shows (s.sendFrame s.bytesPerMs) { v with pos := v.pos + s.bytesPerMs } := by
  have hsend := (h.head hq).sendFrame s.bytesPerMs
  have hmin : min (d.length - v.pos) s.bytesPerMs = s.bytesPerMs := Nat.min_eq_right (by omega)
  rw [hmin, if_neg hmore, show s.bytesPerMs - (d.length - v.pos) = 0 by omega, List.replicate_zero,
    List.append_nil] at hsend
  rw [hsend]
  refine ⟨fun j x hx => ?_, h.play, h.queued, h.le, h.write, h.offset, h.cur, h.room, h.nonempty,
    ?_, .inr ⟨d, q, hq, Nat.lt_of_not_le hmore⟩, ?_, h.active, h.goesOn⟩
  · have hj : j < v.queue.length := lt_of_getElem? hx
    have hle := h.le
    have hslot := h.slot j x hx
    by_cases hzero : j = 0
    · subst hzero
      rw [hq] at hx
      obtain rfl : d = x := Option.some.inj hx
      show SlotHolds _ ((s.playPeriod + 0) % AUDIO_NUM_PERIODS) d (v.pos + s.bytesPerMs)
      rw [slot_zero h.play]
      exact ⟨(h.head hq).bytes, (h.head hq).length, update_self _ _ _⟩
    · rw [if_neg hzero] at hslot ⊢
      have hne : (s.playPeriod + j) % AUDIO_NUM_PERIODS ≠ s.playPeriod := by
        have hne := slot_ne (p := s.playPeriod) (i := j) (j := 0) (by omega) (by decide) hzero
        rwa [slot_zero h.play] at hne
      exact hslot.congr rfl rfl (update_of_ne hne _ _)
  · exact (Nat.dvd_add_right h.frames).mpr (Nat.dvd_refl _)
  · show ((s.frames ++ [_]).map Frame.data).flatten = framed 0 s.bytesPerMs v.played ++
      (v.queue.headD []).take (v.pos + s.bytesPerMs)
    rw [List.map_append, List.flatten_append, h.sent, View.sent, hq, List.take_add]
    simp

theorem send (h : Shows s v) {d : List UInt8} {q : List (List UInt8)} (hq : v.queue = d :: q) :
    Shows (s.sendFrame s.bytesPerMs) (v.send s.bytesPerMs) := by
  rw [View.send, hq]
  dsimp only
  split
  · rename_i hlast
    exact h.send_last hq hlast
  · rename_i hmore
    rw [← hq]
    exact h.send_more hq hmore

theorem copy (h : Shows s v) {src : List UInt8} {n : Nat} (hn : n ≤ src.length)
    (hroom : v.queue.length < AUDIO_NUM_PERIODS) :
    Shows
      { s with
        buffer := fun p k =>
          if p = s.writePeriod ∧ s.writeOffset ≤ k ∧ k < s.writeOffset + n then
            src.getD (k - s.writeOffset) 0
          else s.buffer p k
        writeOffset := s.writeOffset + n }
      { v with cur := v.cur ++ src.take n } := by
  refine ⟨fun j x hx => ?_, h.play, h.queued, h.le, h.write, ?_, fun k hk => ?_, fun _ => hroom,
    h.nonempty, h.frames, h.pos, h.sent, h.active, h.goesOn⟩
  · have hj : j < v.queue.length := lt_of_getElem? hx
    have hne : (s.playPeriod + j) % AUDIO_NUM_PERIODS ≠ s.writePeriod := by
      rw [h.write]
      exact slot_ne (by omega) hroom (by omega)
    refine (h.slot j x hx).congr ?_ rfl rfl
    funext k
    exact if_neg fun hp => hne hp.1
  · show s.writeOffset + n = (v.cur ++ src.take n).length
    rw [h.offset, List.length_append, List.length_take_of_le hn]
  · show (if _ then _ else _) = (v.cur ++ src.take n)[k]
    have hoffset := h.offset
    rw [List.length_append, List.length_take_of_le hn] at hk
    by_cases hold : k < v.cur.length
    · rw [if_neg (by omega), h.cur k hold, List.getElem_append_left hold]
    · rw [if_pos ⟨rfl, by omega, by omega⟩, List.getElem_append_right (by omega),
        List.getElem_take, h.offset, List.getD_eq_getElem _ _ (by omega)]

theorem commit (h : Shows s v) (hne : v.cur ≠ []) : Shows s.commit v.commit := by
  have hroom := h.room hne
  have hlen : v.commit.queue.length = v.queue.length + 1 := by
    rw [View.commit, List.length_append, List.length_singleton]
  have hpos : v.queue = [] → v.pos = 0 := by
    intro hnil
    rcases h.pos with hzero | ⟨d, q, hq, -⟩
    · exact hzero
    · rw [hnil] at hq
      exact absurd hq (List.cons_ne_nil d q).symm
  refine ⟨fun j x hx => ?_, h.play, ?_, ?_, ?_, rfl, fun k hk => absurd hk (Nat.not_lt_zero k),
    fun h => absurd rfl h, fun d hd => ?_, h.frames, ?_, ?_, h.active, h.goesOn⟩
  · by_cases hj : j < v.queue.length
    · have hold : v.queue[j]? = some x := by
        rw [← hx]
        exact (List.getElem?_append_left hj).symm
      have hslot : (s.playPeriod + j) % AUDIO_NUM_PERIODS ≠ s.writePeriod := by
        rw [h.write]
        exact slot_ne (by omega) hroom (by omega)
      exact (h.slot j x hold).congr rfl (update_of_ne hslot _ _)
        (update_of_ne hslot _ _)
    · -- the new one
      have hend : j = v.queue.length := by
        have hlt := lt_of_getElem? hx
        omega
      subst hend
      obtain rfl : v.cur = x := by
        have hnew : (v.queue ++ [v.cur])[v.queue.length]? = some v.cur := by simp
        exact Option.some.inj (hnew.symm.trans hx)
      have hslot : (s.playPeriod + v.queue.length) % AUDIO_NUM_PERIODS = s.writePeriod := h.write.symm
      have hzero : (if v.queue.length = 0 then v.commit.pos else 0) = 0 := by
        split
        · rename_i hnil
          exact hpos (List.length_eq_zero_iff.mp hnil)
        · rfl
      rw [hzero]
      show SlotHolds s.commit ((s.playPeriod + v.queue.length) % AUDIO_NUM_PERIODS) v.cur 0
      rw [hslot]
      exact ⟨h.cur, (update_self _ _ _).trans h.offset, update_self _ _ _⟩
  · show s.queuedPeriods + 1 = _
    rw [hlen, h.queued]
  · omega
  · show (s.writePeriod + 1) % AUDIO_NUM_PERIODS = (s.playPeriod + _) % AUDIO_NUM_PERIODS
    rw [hlen, h.write, Nat.mod_add_mod, Nat.add_assoc]
  · rcases List.mem_append.mp hd with hd | hd
    · exact h.nonempty d hd
    · rw [List.mem_singleton.mp hd]
      exact List.length_pos_iff.mpr hne
  · rcases h.pos with hzero | ⟨d, q, hq, hlt⟩
    · exact .inl hzero
    · exact .inr ⟨d, q ++ [v.cur], by rw [View.commit, hq]; rfl, hlt⟩
  · show (s.frames.map Frame.data).flatten = framed 0 s.bytesPerMs v.played ++
      ((v.queue ++ [v.cur]).headD []).take v.pos
    rw [h.sent, View.sent]
    by_cases hnil : v.queue = []
    · rw [hnil, hpos hnil]
      rfl
    · obtain ⟨d, q, hq⟩ := List.exists_cons_of_ne_nil hnil
      rw [hq]
      rfl

end Shows

/-! ### The pump -/

/-- Frames were sent: of every period as before, and of each frame at least one byte. -/
structure Pumped (s : Device) (v : View) (s' : Device) (v' : View) : Prop where
  shows : Shows s' v'
  periods : v'.periods = v.periods
  cur : v'.cur = v.cur
  rate : s'.bytesPerMs = s.bytesPerMs
  left : v'.left ≤ v.left
  work : s'.isochHead + v'.left ≤ s.isochHead + v.left

namespace Pumped

variable {s s' s'' : Device} {v v' v'' : View}

theorem refl (h : Shows s v) : Pumped s v s v :=
  ⟨h, rfl, rfl, rfl, Nat.le_refl _, Nat.le_refl _⟩

theorem trans (h : Pumped s v s' v') (h' : Pumped s' v' s'' v'') : Pumped s v s'' v'' where
  shows := h'.shows
  periods := h'.periods.trans h.periods
  cur := h'.cur.trans h.cur
  rate := h'.rate.trans h.rate
  left := Nat.le_trans h'.left h.left
  work := Nat.le_trans h'.work h.work

end Pumped

theorem send_left {v : View} {d : List UInt8} {q : List (List UInt8)} {b : Nat} (hb : 0 < b)
    (hq : v.queue = d :: q) (hpos : v.pos < d.length) : (v.send b).left < v.left := by
  unfold View.send View.left
  rw [hq]
  dsimp only
  rw [List.flatten_cons, List.length_append]
  split
  · show q.flatten.length - 0 < _
    omega
  · show (d :: q).flatten.length - (v.pos + b) < _
    rw [List.flatten_cons, List.length_append]
    omega

theorem send_periods (v : View) (b : Nat) : (v.send b).periods = v.periods ∧ (v.send b).cur = v.cur := by
  unfold View.send
  split
  · exact ⟨rfl, rfl⟩
  · rename_i d q hq
    split
    · unfold View.periods
      rw [hq, List.append_assoc]
      exact ⟨rfl, rfl⟩
    · exact ⟨rfl, rfl⟩

theorem sendFrame_isochHead (s : Device) (b : Nat) :
    (s.sendFrame b).isochHead = (s.isochHead + 1) % 2 ^ 32 := by
  unfold Device.sendFrame
  dsimp only
  split <;> rfl

namespace Shows

variable {s : Device} {v : View}

theorem pumped_send (h : Shows s v) {d : List UInt8} {q : List (List UInt8)} (hq : v.queue = d :: q) :
    Pumped s v (s.sendFrame s.bytesPerMs) (v.send s.bytesPerMs) := by
  have hleft := send_left (bytesPerMs_pos s) hq (h.pos_lt hq)
  have hhead := Nat.mod_le (s.isochHead + 1) (2 ^ 32)
  refine ⟨h.send hq, (send_periods v _).1, (send_periods v _).2, sendFrame_bytesPerMs s _,
    Nat.le_of_lt hleft, ?_⟩
  rw [sendFrame_isochHead]
  omega

theorem pumpLoop (h : Shows s v) (target n : Nat) :
    ∃ v', Pumped s v (Device.pumpLoop s.bytesPerMs target n s) v' := by
  induction n generalizing s v with
  | zero => exact ⟨v, .refl h⟩
  | succ n ih =>
    unfold Device.pumpLoop
    split
    · split
      · rename_i hqueued
        rw [h.queued] at hqueued
        obtain ⟨d, q, hq⟩ := List.exists_cons_of_length_pos hqueued
        have hsend := h.pumped_send hq
        obtain ⟨v', hpump⟩ := ih hsend.shows
        rw [hsend.rate] at hpump
        exact ⟨v', hsend.trans hpump⟩
      · -- nothing is queued, and the stream is not stopped
        rename_i hguard hnone
        have hstop := hguard.2.resolve_left hnone
        exact absurd (h.goesOn.symm.trans hstop) Bool.false_ne_true
    · exact ⟨v, .refl h⟩

theorem pump (h : Shows s v) (elapsedMs : Nat) : ∃ v', Pumped s v (s.pump elapsedMs) v' := by
  unfold Device.pump
  rw [h.active]
  exact h.pumpLoop _ _

theorem pump_lt (h : Shows s v) {elapsedMs : Nat} (hqueue : v.queue ≠ [])
    (htime : s.isochHead < (elapsedMs + 128) % 2 ^ 32) :
    ∃ v', Pumped s v (s.pump elapsedMs) v' ∧ v'.left < v.left := by
  obtain ⟨d, q, hq⟩ := List.exists_cons_of_ne_nil hqueue
  have hqueued : s.queuedPeriods > 0 := by
    rw [h.queued, hq]
    exact Nat.succ_pos _
  have hsend := h.pumped_send hq
  have hleft := send_left (bytesPerMs_pos s) hq (h.pos_lt hq)
  obtain ⟨n, hn⟩ : ∃ n, (elapsedMs + 128) % 2 ^ 32 - s.isochHead = n + 1 :=
    ⟨(elapsedMs + 128) % 2 ^ 32 - s.isochHead - 1, by omega⟩
  have hpump : s.pump elapsedMs =
      Device.pumpLoop s.bytesPerMs ((elapsedMs + 128) % 2 ^ 32) (n + 1) s := by
    rw [← hn, Device.pump, h.active]
    rfl
  rw [hpump, Device.pumpLoop, if_pos ⟨htime, .inl hqueued⟩, if_pos hqueued]
  obtain ⟨v', hpump⟩ := hsend.shows.pumpLoop ((elapsedMs + 128) % 2 ^ 32) n
  rw [hsend.rate] at hpump
  exact ⟨v', hsend.trans hpump, Nat.lt_of_le_of_lt hpump.left hleft⟩

/-! ### Writing -/

theorem fill (h : Shows s v) (hcur : v.cur.length < AUDIO_PERIOD_MAX_BYTES)
    (hroom : v.queue.length < AUDIO_NUM_PERIODS) (src : List UInt8) :
    ∃ v', Shows (s.fill src) v' ∧ v'.cur.length < AUDIO_PERIOD_MAX_BYTES ∧
      v'.written = v.written ++ src.take (s.room src) ∧
      v'.left + v'.cur.length ≤ v.left + v.cur.length + s.room src ∧
      (∀ p ∈ v'.periods, p ∈ v.periods ∨ p.length = AUDIO_PERIOD_MAX_BYTES) := by
  have hle : s.room src ≤ src.length := Nat.min_le_left _ _
  have hmax : s.room src ≤ AUDIO_PERIOD_MAX_BYTES - s.writeOffset := Nat.min_le_right _ _
  have hoffset := h.offset
  have hcopy := h.copy hle hroom
  have hlen : (v.cur ++ src.take (s.room src)).length = v.cur.length + s.room src := by
    rw [List.length_append, List.length_take_of_le hle]
  unfold Device.fill
  dsimp only
  split
  · rename_i hfull
    have hne : v.cur ++ src.take (s.room src) ≠ [] := by
      refine List.ne_nil_of_length_pos ?_
      unfold AUDIO_PERIOD_MAX_BYTES AUDIO_PERIOD_MS at *
      omega
    have hempty : ([] : List UInt8).length < AUDIO_PERIOD_MAX_BYTES := by decide
    refine ⟨_, hcopy.commit hne, hempty, ?_, ?_, fun p hp => ?_⟩
    · unfold View.written View.periods View.commit
      simp
    · unfold View.left View.commit
      simp only [List.flatten_append, List.length_append, List.flatten_cons, List.flatten_nil,
        List.append_nil, List.length_nil, List.length_take_of_le hle]
      omega
    · unfold View.periods View.commit at hp
      rw [← List.append_assoc] at hp
      rcases List.mem_append.mp hp with hp | hp
      · exact .inl hp
      · right
        rw [List.mem_singleton.mp hp, hlen]
        omega
  · rename_i hfree
    refine ⟨_, hcopy, by rw [hlen]; omega, ?_, ?_, fun p hp => .inl hp⟩
    · unfold View.written View.periods
      rw [List.append_assoc]
    · show v.left + (v.cur ++ src.take (s.room src)).length ≤ _
      omega

theorem room_pos (h : Shows s v) (hcur : v.cur.length < AUDIO_PERIOD_MAX_BYTES) {src : List UInt8}
    (hne : src ≠ []) : 0 < s.room src := by
  have hpos := List.length_pos_iff.mpr hne
  unfold Device.room
  rw [h.offset]
  omega

theorem fill_rest (s : Device) (src : List UInt8) :
    (s.fill src).bytesPerMs = s.bytesPerMs ∧ (s.fill src).isochHead = s.isochHead := by
  unfold Device.fill
  dsimp only
  split <;> exact ⟨rfl, rfl⟩

theorem streamFlush (h : Shows s v) :
    ∃ v', Shows s.streamFlush v' ∧ v'.cur = [] ∧ v'.written = v.written ∧
      v'.left ≤ v.left + v.cur.length ∧
      v'.periods = v.periods ++ if v.cur = [] then [] else [v.cur] := by
  unfold Device.streamFlush
  rw [h.offset]
  by_cases hnil : v.cur = []
  · rw [hnil, if_neg (by decide), if_pos rfl, List.append_nil]
    exact ⟨v, h, hnil, rfl, Nat.le_add_right _ _, rfl⟩
  · rw [if_pos (List.length_pos_iff.mpr hnil), if_neg hnil]
    refine ⟨_, h.commit hnil, rfl, ?_, ?_, ?_⟩
    · unfold View.written View.periods View.commit
      simp
    · unfold View.left View.commit
      simp only [List.flatten_append, List.length_append, List.flatten_cons, List.flatten_nil,
        List.append_nil]
      omega
    · unfold View.periods View.commit
      rw [List.append_assoc]

end Shows

theorem silences (zs : List Nat) (s : Device) :
    let s' := zs.foldl (fun s z => s.sendSilence s.bytesPerMs false (z == 7)) s
    s'.bytesPerMs = s.bytesPerMs ∧ s'.queuedPeriods = s.queuedPeriods ∧
      (s'.frames.map Frame.data).flatten =
        (s.frames.map Frame.data).flatten ++ List.replicate (zs.length * s.bytesPerMs) 0 := by
  induction zs generalizing s with
  | nil => exact ⟨rfl, rfl, by simp⟩
  | cons z zs ih =>
    obtain ⟨hrate, hqueued, hframes⟩ := ih (s.sendSilence s.bytesPerMs false (z == 7))
    refine ⟨hrate, hqueued, hframes.trans ?_⟩
    show ((s.frames ++ [_]).map Frame.data).flatten ++ List.replicate (zs.length * s.bytesPerMs) 0 = _
    rw [List.map_append, List.flatten_append, List.append_assoc, List.length_cons, Nat.add_mul,
      Nat.one_mul, Nat.add_comm (zs.length * _), List.replicate_add]
    simp

theorem terminate_frames (s : Device) :
    s.terminate.queuedPeriods = s.queuedPeriods ∧
      (s.terminate.frames.map Frame.data).flatten =
        (s.frames.map Frame.data).flatten ++ List.replicate (8 * s.bytesPerMs) 0 := by
  obtain ⟨-, hqueued, hframes⟩ := silences (List.range 8) s
  rw [List.length_range] at hframes
  simp only [Device.terminate]
  exact ⟨hqueued, hframes⟩

end Gemios.Audio
