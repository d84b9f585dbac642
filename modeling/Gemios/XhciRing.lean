import Gemios.Xhci

/-!
# The producer ring protocol

A ring of the driver and the controller that consumes it are a ring with cycle bits.  So the
TRBs that the controller executes are the ones that were put on the ring, in order.
-/

namespace Gemios.Xhci

open Function

/-! ### Rings as rings with cycle bits -/

/-- The data slots, without and with their cycle bits, and the Link TRB behind them. -/
def Ring.toCycleRing (ring : Ring) : CycleRing Trb where
  slots := ring.size - 1
  mem i := if i < ring.size - 1 then ((ring.trbs i).body, (ring.trbs i).cycleBit) else (zeroTrb, false)
  link := (ring.trbs (ring.size - 1)).cycleBit
  enq := ring.enqueueIdx
  cycle := ring.cycle

/-- The producer is on the ring, and the Link TRB leads back to the start and toggles. -/
structure Ring.Ok (ring : Ring) : Prop where
  enqueue : ring.enqueueIdx ≤ ring.size - 1
  pointer : (ring.trbs (ring.size - 1)).parameterLo = ring.physAddr
  toggle : (ring.trbs (ring.size - 1)).control &&& TRB_TC ≠ 0

theorem mem_updateLink (ring : Ring) (trb : Trb) (i : Nat) (hi : i < ring.size - 1) :
    update ring.trbs (ring.size - 1) trb i = ring.trbs i :=
  update_of_ne (Nat.ne_of_lt hi) _ _

/-- A Link TRB with this control word is passed. -/
def Ring.passed (ring : Ring) (link : Trb) : Ring :=
  { ring with
    trbs := update ring.trbs (ring.size - 1) link
    enqueueIdx := 0
    cycle := !ring.cycle }

theorem Ring.passed_toCycleRing {ring : Ring} (hfull : ring.enqueueIdx = ring.size - 1) {link : Trb}
    (hbit : link.cycleBit = ring.cycle) : (ring.passed link).toCycleRing = ring.toCycleRing.wrap := by
  have hwrap : ring.toCycleRing.wrap =
      { ring.toCycleRing with link := ring.cycle, enq := 0, cycle := !ring.cycle } := if_pos hfull
  rw [hwrap]
  refine CycleRing.ext rfl ?_ ?_ rfl rfl
  · funext i
    by_cases hi : i < ring.size - 1
    · refine (if_pos hi).trans (Eq.trans ?_ (if_pos hi).symm)
      simp only [Ring.passed, mem_updateLink ring link i hi]
    · exact (if_neg hi).trans (if_neg hi).symm
  · simp only [Ring.toCycleRing, Ring.passed, update_self, hbit]

/-- Both functions that put a TRB on a ring pass the Link TRB in the same way. -/
structure Passes (pass : Ring → Ring) : Prop where
  wrap : ∀ ring : Ring, ring.Ok → (pass ring).toCycleRing = ring.toCycleRing.wrap
  ok : ∀ ring : Ring, ring.Ok → (pass ring).Ok
  room : ∀ ring : Ring, 1 < ring.size → ring.Ok → (pass ring).enqueueIdx < ring.size - 1
  size : ∀ ring : Ring, (pass ring).size = ring.size

theorem Passes.of_link {link : Ring → Trb}
    (hlink : ∀ ring : Ring, ring.Ok → (link ring).cycleBit = ring.cycle ∧
      (link ring).parameterLo = ring.physAddr ∧ (link ring).control &&& TRB_TC ≠ 0) :
    Passes fun ring => if ring.enqueueIdx ≥ ring.size - 1 then ring.passed (link ring) else ring := by
  refine ⟨fun ring hok => ?_, fun ring hok => ?_, fun ring hsize hok => ?_, fun ring => ?_⟩
  · obtain ⟨hbit, -, -⟩ := hlink ring hok
    split
    · exact Ring.passed_toCycleRing (Nat.le_antisymm hok.enqueue ‹_›) hbit
    · rename_i hroom
      exact (if_neg (show ¬ring.enqueueIdx = ring.size - 1 by omega)).symm
  · obtain ⟨-, hptr, htc⟩ := hlink ring hok
    split
    · refine ⟨Nat.zero_le _, ?_, ?_⟩
      · simp only [Ring.passed, update_self, hptr]
      · simpa only [Ring.passed, update_self] using htc
    · exact hok
  · split
    · exact show 0 < ring.size - 1 by omega
    · rename_i hroom
      omega
  · split <;> rfl

theorem passLink_passes : Passes passLink :=
  Passes.of_link fun ring _ => ⟨linkControl_getLsbD ring.cycle, rfl, linkControl_tc ring.cycle⟩

theorem submitPassLink_passes : Passes submitPassLink :=
  Passes.of_link fun ring hok =>
    ⟨linkControl_getLsbD ring.cycle, hok.pointer, linkControl_tc ring.cycle⟩

theorem store_toCycleRing {ring : Ring} (hok : ring.Ok) (hroom : ring.enqueueIdx < ring.size - 1)
    {trb : Trb} (hbit : trb.cycleBit = ring.cycle) :
    (ring.store trb).toCycleRing = ring.toCycleRing.put trb.body ∧ (ring.store trb).Ok := by
  have hlink : update ring.trbs ring.enqueueIdx trb (ring.size - 1) =
      ring.trbs (ring.size - 1) := update_of_ne (Nat.ne_of_gt hroom) _ _
  constructor
  · refine CycleRing.ext rfl ?_ ?_ rfl rfl
    · funext i
      simp only [Ring.toCycleRing, Ring.store, CycleRing.put_mem]
      by_cases hi : i = ring.enqueueIdx
      · subst hi
        simp [hroom, hbit]
      · simp [hi]
    · simp only [Ring.toCycleRing, Ring.store, CycleRing.put_link, hlink]
  · refine ⟨hroom, ?_, ?_⟩
    · simp only [Ring.store, hlink, hok.pointer]
    · simp only [Ring.store, hlink]
      exact hok.toggle

theorem enqueue_toCycleRing {ring : Ring} (hsize : 1 < ring.size) (hok : ring.Ok) (trb : Trb) :
    (xhciRingEnqueueTrb ring trb).toCycleRing = ring.toCycleRing.wrap.put trb.body ∧
      (xhciRingEnqueueTrb ring trb).Ok := by
  have hpass := passLink_passes
  have hroom := hpass.room ring hsize hok
  rw [← hpass.size ring] at hroom
  have hstored : xhciRingEnqueueTrb ring trb = (passLink ring).store
      { trb with
        control := (trb.control &&& ~~~TRB_CYCLE) ||| cycleFlag (passLink ring).cycle } := by
    cases hcycle : (passLink ring).cycle <;> simp [xhciRingEnqueueTrb, cycleFlag, hcycle]
  obtain ⟨hbody, hbit⟩ := stored_trb trb rfl (passLink ring).cycle
  obtain ⟨hring, hok'⟩ := store_toCycleRing (hpass.ok ring hok) hroom hbit
  rw [hstored]
  rw [hbody, hpass.wrap ring hok] at hring
  exact ⟨hring, hok'⟩

theorem submit_toCycleRing {ring : Ring} (hsize : 1 < ring.size) (hok : ring.Ok) (cmd : Cmd) :
    (xhciSubmitCmd ring cmd.trb).toCycleRing = ring.toCycleRing.wrap.put cmd.trb.body ∧
      (xhciSubmitCmd ring cmd.trb).Ok := by
  have hpass := submitPassLink_passes
  have hroom := hpass.room ring hsize hok
  rw [← hpass.size ring] at hroom
  -- the cycle bit of a command is clear
  obtain ⟨hbody, hbit⟩ := stored_trb cmd.trb (clear_of_clear cmd.trb_clear).symm (submitPassLink ring).cycle
  obtain ⟨hring, hok'⟩ := store_toCycleRing (hpass.ok ring hok) hroom hbit
  rw [hbody, hpass.wrap ring hok] at hring
  exact ⟨hring, hok'⟩

theorem consume_eq_look {ring : Ring} (hok : ring.Ok) {c : Reader} (hc : c.idx ≤ ring.size - 1) :
    (ring.consume c).1.map Trb.body = (ring.toCycleRing.look c).1 ∧
      (ring.consume c).2 = (ring.toCycleRing.look c).2 ∧ (ring.consume c).2.idx ≤ ring.size - 1 := by
  unfold Ring.consume
  by_cases hidx : c.idx = ring.size - 1
  · have hzero : ring.indexOf ring.physAddr = 0 := by simp [Ring.indexOf]
    have hlinkBit : ring.toCycleRing.link = (ring.trbs (ring.size - 1)).cycleBit := rfl
    by_cases hbit : (ring.trbs (ring.size - 1)).cycleBit = c.cycle
    · rw [CycleRing.look_pass hidx (hlinkBit.trans hbit)]
      simp only [hidx, hbit, if_true, hok.pointer, hzero, if_pos hok.toggle, Option.map_none,
        Nat.zero_le, and_self]
    · rw [CycleRing.look_link_wait hidx (by rwa [hlinkBit])]
      simp [hidx, hbit]
  · have hlt : c.idx < ring.size - 1 := Nat.lt_of_le_of_ne hc hidx
    have hmem : ring.toCycleRing.mem c.idx = ((ring.trbs c.idx).body, (ring.trbs c.idx).cycleBit) :=
      if_pos hlt
    by_cases hbit : (ring.trbs c.idx).cycleBit = c.cycle
    · rw [CycleRing.look_take hidx (by rw [hmem, hbit]), hmem]
      simp only [hbit, if_true, hidx, if_false, Option.map_some, true_and]
      exact hlt
    · rw [CycleRing.look_wait hidx (by rwa [hmem])]
      simp [hbit, hc]

/-! ### Runs -/

/-- What the driver and the controller do with a ring. -/
inductive Event where
  | link
  | enqueue (trb : Trb)
  | submit (cmd : Cmd)
  | consume

/-- A ring and the controller's place in it, with the TRBs that were put on it and those that
    were executed. -/
structure Bus where
  ring : Ring
  consumer : Reader
  enqueued : List Trb
  executed : List Trb

/-- `link` is the first half of an enqueue, after which the controller may go on. -/
def Bus.step (s : Bus) : Event → Bus
  | .link => { s with ring := passLink s.ring }
  | .enqueue trb =>
    { s with ring := xhciRingEnqueueTrb s.ring trb, enqueued := s.enqueued ++ [trb] }
  | .submit cmd =>
    { s with ring := xhciSubmitCmd s.ring cmd.trb, enqueued := s.enqueued ++ [cmd.trb] }
  | .consume =>
    { s with
      consumer := (s.ring.consume s.consumer).2
      executed := s.executed ++ (s.ring.consume s.consumer).1.toList }

def Bus.run (s : Bus) (evs : List Event) : Bus := evs.foldl Bus.step s

/-- At most size - 2 TRBs are outstanding, all the time. -/
def Bus.Bounded : Bus → List Event → Prop
  | _, [] => True
  | s, ev :: evs =>
    (s.step ev).enqueued.length ≤ (s.step ev).executed.length + (s.ring.size - 2) ∧
      Bus.Bounded (s.step ev) evs

/-- A new ring, and a controller at its start with cycle state 1. -/
def Bus.start (ring : Ring) : Bus := ⟨ring, ⟨0, true⟩, [], []⟩

/-- The TRB that the controller executes next, if it is given time; one step may be for the
    Link TRB. -/
def Bus.nextTrb (s : Bus) : Option Trb :=
  (s.ring.consume s.consumer).1.or (s.ring.consume (s.ring.consume s.consumer).2).1

/-- What was executed is what was put on the ring, in order, each once; what is executed next is
    the first TRB that is outstanding, and nothing if there is none. -/
structure Bus.InOrder (s : Bus) : Prop where
  executed : s.executed.map Trb.body = (s.enqueued.map Trb.body).take s.executed.length
  next : s.nextTrb.map Trb.body = (s.enqueued.map Trb.body)[s.executed.length]?

/-- The state as a channel of TRBs without their cycle bits. -/
def Bus.channel (s : Bus) : Channel Trb :=
  ⟨s.ring.toCycleRing, s.consumer, s.enqueued.map Trb.body, s.executed.map Trb.body⟩

def Event.ringEvent : Event → RingEvent Trb
  | .link => .wrap
  | .enqueue trb => .put trb.body
  | .submit cmd => .put cmd.trb.body
  | .consume => .look

structure Bus.Ok (s : Bus) : Prop where
  size : 1 < s.ring.size
  ring : s.ring.Ok
  consumer : s.consumer.idx ≤ s.ring.size - 1

theorem Bus.Ok.step {s : Bus} (h : s.Ok) (ev : Event) :
    (s.step ev).channel = s.channel.step ev.ringEvent ∧ (s.step ev).Ok := by
  obtain ⟨hsize, hring, hc⟩ := h
  cases ev with
  | link =>
    have hpass := passLink_passes
    refine ⟨?_, ?_, hpass.ok _ hring, ?_⟩
    · simp only [Bus.channel, Bus.step, Event.ringEvent, Channel.step, hpass.wrap _ hring]
    · simpa only [Bus.step, hpass.size] using hsize
    · simpa only [Bus.step, hpass.size] using hc
  | enqueue trb =>
    obtain ⟨heq, hok⟩ := enqueue_toCycleRing hsize hring trb
    have hs : (xhciRingEnqueueTrb s.ring trb).size = s.ring.size := passLink_passes.size s.ring
    refine ⟨?_, ?_, hok, ?_⟩
    · simp [Bus.channel, Bus.step, Event.ringEvent, Channel.step, heq]
    · simpa only [Bus.step, hs] using hsize
    · simpa only [Bus.step, hs] using hc
  | submit cmd =>
    obtain ⟨heq, hok⟩ := submit_toCycleRing hsize hring cmd
    have hs : (xhciSubmitCmd s.ring cmd.trb).size = s.ring.size := submitPassLink_passes.size s.ring
    refine ⟨?_, ?_, hok, ?_⟩
    · simp [Bus.channel, Bus.step, Event.ringEvent, Channel.step, heq]
    · simpa only [Bus.step, hs] using hsize
    · simpa only [Bus.step, hs] using hc
  | consume =>
    obtain ⟨htrb, hreader, hle⟩ := consume_eq_look hring hc
    refine ⟨?_, hsize, hring, hle⟩
    simp only [Bus.channel, Bus.step, Event.ringEvent, Channel.step, List.map_append, ← htrb, hreader]
    cases (s.ring.consume s.consumer).1 <;> rfl

theorem Bus.Ok.run {s : Bus} (h : s.Ok) (evs : List Event) :
    (s.run evs).channel = s.channel.run (evs.map Event.ringEvent) ∧ (s.run evs).Ok := by
  induction evs generalizing s with
  | nil => exact ⟨rfl, h⟩
  | cons ev evs ih =>
    obtain ⟨hstep, hok⟩ := h.step ev
    obtain ⟨hrun, hok'⟩ := ih hok
    exact ⟨hrun.trans (by rw [hstep]; rfl), hok'⟩

theorem Bus.Ok.bounded_iff {s : Bus} (h : s.Ok) (evs : List Event) :
    s.Bounded evs ↔ s.channel.Bounded (evs.map Event.ringEvent) := by
  induction evs generalizing s with
  | nil => exact Iff.rfl
  | cons ev evs ih =>
    obtain ⟨hstep, hok⟩ := h.step ev
    simp only [Bus.Bounded, List.map_cons, Channel.Bounded, ← hstep]
    refine and_congr ?_ (ih hok)
    have hsize := h.size
    have hslots : s.channel.ring.slots = s.ring.size - 1 := rfl
    simp only [Bus.channel, List.length_map] at hslots ⊢
    rw [hslots]
    omega

theorem Bus.Ok.nextTrb {s : Bus} (h : s.Ok) :
    s.nextTrb.map Trb.body = s.channel.ring.next s.channel.reader := by
  obtain ⟨h1, hr, hle⟩ := consume_eq_look h.ring h.consumer
  obtain ⟨h2, -, -⟩ := consume_eq_look h.ring hle
  simp only [Bus.nextTrb, CycleRing.next, Bus.channel, ← h1, ← hr, ← h2, Option.map_or]

theorem Bus.Ok.inOrder_iff {s : Bus} (h : s.Ok) : s.InOrder ↔ s.channel.InOrder := by
  constructor
  · intro hin
    refine ⟨?_, ?_⟩
    · rw [List.prefix_iff_eq_take]
      simpa [Bus.channel] using hin.executed
    · rw [← h.nextTrb, hin.next]
      simp [Bus.channel]
  · intro hin
    refine ⟨?_, ?_⟩
    · have := List.prefix_iff_eq_take.mp hin.taken
      simpa [Bus.channel] using this
    · rw [h.nextTrb, hin.next]
      simp [Bus.channel]

def newRing (ring : Ring) (size : Nat) : Ring := ringSetupLinkTrb (ringInit ring size)

theorem newRing_inLap (ring : Ring) {size : Nat} (hsize : 2 ≤ size) :
    (newRing ring size).Ok ∧ (newRing ring size).toCycleRing.InLap 0 := by
  have hlink : (newRing ring size).trbs (size - 1) = ⟨ring.physAddr, 0, 0, linkControl true⟩ :=
    update_self ..
  refine ⟨⟨Nat.zero_le _, ?_, ?_⟩, ⟨?_, Nat.zero_le _, rfl, fun i hi => ?_, ?_⟩⟩
  · exact congrArg Trb.parameterLo hlink
  · have := congrArg Trb.control hlink
    rw [show (newRing ring size).size = size from rfl, this]
    exact linkControl_tc true
  · exact show 0 < size - 1 by omega
  · have hi' : i < size - 1 := hi
    have hzero : (newRing ring size).trbs i = zeroTrb := by
      refine (update_of_ne (Nat.ne_of_lt hi') _ _).trans ?_
      exact if_pos (by omega)
    have hmem : (newRing ring size).toCycleRing.mem i = (zeroTrb.body, zeroTrb.cycleBit) := by
      refine (if_pos hi').trans ?_
      rw [hzero]
    rw [hmem]
    rfl
  · exact (congrArg Trb.cycleBit hlink).trans (linkControl_getLsbD true)

theorem newRing_busOk (ring : Ring) {size : Nat} (hsize : 2 ≤ size) :
    (Bus.start (newRing ring size)).Ok :=
  ⟨show 1 < size by omega, (newRing_inLap ring hsize).1, Nat.zero_le _⟩

/-- **The producer ring protocol.**  In every interleaving with at most size - 2 TRBs outstanding,
    the controller executes what the driver puts on the ring, in order. -/
theorem ring_in_order (ring : Ring) {size : Nat} (hsize : 3 ≤ size) {evs : List Event}
    (hb : (Bus.start (newRing ring size)).Bounded evs) :
    ((Bus.start (newRing ring size)).run evs).InOrder := by
  have hok := newRing_busOk ring (Nat.le_of_succ_le hsize)
  have hstart : (Bus.start (newRing ring size)).channel.Ok :=
    ⟨[], rfl, .of_inLap (newRing_inLap ring (Nat.le_of_succ_le hsize)).2⟩
  obtain ⟨hrun, hok'⟩ := hok.run evs
  rw [hok'.inOrder_iff, hrun]
  exact hstart.faithful _ ((hok.bounded_iff evs).mp hb)

/-- A ring of three TRBs at an address, not yet set up. -/
def rawRing : Ring := ⟨fun _ => zeroTrb, 0x10000, 0, 0, 0, false⟩

def threeCommands : List Event :=
  [.submit .enableSlot, .consume, .submit (.disableSlot 1), .consume, .consume, .link,
    .submit (.disableSlot 2), .consume]

theorem ring_in_order_three :
    ((Bus.start (newRing rawRing 3)).run threeCommands).InOrder :=
  ring_in_order rawRing (by decide) (by
    simp only [threeCommands, Bus.Bounded]
    decide)

end Gemios.Xhci
