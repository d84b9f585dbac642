import Gemios.XhciRing
import Gemios.XhciTransfer

/-!
# Endpoint recovery

After an error the driver resets an endpoint and tells the controller where to go on.  The place
is the dequeue index of the ring.  In whatever state a ring is, the controller then goes on with
what the driver enqueues next exactly if the dequeue index is the enqueue index: the error branch
of a control transfer makes them equal, but `xhci_clear_endpoint_stall` takes the index that the
last polled event has left.
-/

namespace Gemios.Xhci

/-! ### The place that the controller is told -/

theorem setPtr_decode {ptr : BitVec 32} (halign : ptr.toNat % 16 = 0) (dcs : Bool) :
    (ptr ||| cycleFlag dcs) &&& ~~~0xF = ptr ∧ (ptr ||| cycleFlag dcs).getLsbD 0 = dcs := by
  constructor
  · apply pointer_or_flags halign
    intro i hi h4
    rw [getLsbD_cycleFlag _ i hi, decide_eq_false (by omega), Bool.false_and]
  · rw [BitVec.getLsbD_or, getLsbD_of_align halign (by decide), cycleFlag_getLsbD, Bool.false_or]

/-- A ring of the driver: the size of all rings, and a place that `kmalloc_aligned` gives. -/
structure Ring.Placed (ring : Ring) : Prop where
  size : ring.size = XHCI_RING_SIZE
  align : ring.physAddr.toNat % 64 = 0

theorem indexOf_addr {ring : Ring} (h : ring.Placed) {idx : Nat} (hidx : idx ≤ ring.size - 1) :
    ring.indexOf (ring.addr idx) = idx := by
  have hsize := h.size
  have hle : idx * 16 < 2 ^ 32 := by
    unfold XHCI_RING_SIZE at hsize
    omega
  rw [Ring.indexOf, Ring.addr, BitVec.add_comm, BitVec.add_sub_cancel, BitVec.toNat_ofNat,
    Nat.mod_eq_of_lt hle, Nat.mul_div_cancel _ (by decide)]

theorem afterCmd_recover {ring : Ring} (h : ring.Placed) {idx : Nat} (hidx : idx ≤ ring.size - 1)
    (c : Reader) (slot ep : Nat) (cycle : Bool) :
    [Cmd.resetEp slot ep, .setTrDequeue slot ep (ring.addr idx) cycle].foldl ring.afterCmd c =
      ⟨idx, cycle⟩ := by
  obtain ⟨hptr, hdcs⟩ := setPtr_decode (Ring.addr_align h.align idx) cycle
  simp only [List.foldl_cons, List.foldl_nil, Ring.afterCmd, Cmd.trb, hptr, hdcs, indexOf_addr h hidx]

/-! ### Where the controller may go on -/

/-- The driver puts TRBs on the ring and the controller executes them in order, starting here. -/
def Bus.Faithful (s : Bus) : Prop := ∀ evs, s.Bounded evs → (s.run evs).InOrder

def Bus.from (ring : Ring) (c : Reader) : Bus := ⟨ring, c, [], []⟩

theorem faithful_from_iff {ring : Ring} (hsize : 2 < ring.size) (hok : ring.Ok) {l : Nat}
    (hlap : ring.toCycleRing.InLap l) {idx : Nat} (hidx : idx ≤ ring.size - 1) :
    (Bus.from ring ⟨idx, ring.cycle⟩).Faithful ↔ idx = ring.enqueueIdx := by
  have hbus : (Bus.from ring ⟨idx, ring.cycle⟩).Ok := ⟨Nat.lt_of_succ_lt hsize, hok, hidx⟩
  constructor
  · intro hf
    -- nothing is executed now, and one TRB after it is enqueued
    have hnow := hbus.inOrder_iff.mp (hf [] trivial)
    obtain ⟨hstep, hok'⟩ := hbus.step (.enqueue zeroTrb)
    have hroom : (Bus.from ring ⟨idx, ring.cycle⟩).Bounded [.enqueue zeroTrb] :=
      ⟨show 1 ≤ 0 + (ring.size - 2) by omega, trivial⟩
    have hthen := hok'.inOrder_iff.mp (hf [.enqueue zeroTrb] hroom)
    rw [hstep] at hthen
    exact hlap.eq_enq hidx hnow.next hthen.next
  · rintro rfl evs hb
    have hstart : (Bus.from ring ⟨ring.enqueueIdx, ring.cycle⟩).channel.Ok :=
      ⟨[], rfl, .of_inLap hlap⟩
    obtain ⟨hrun, hok'⟩ := hbus.run evs
    rw [hok'.inOrder_iff, hrun]
    exact hstart.faithful _ ((hbus.bounded_iff evs).mp hb)

/-! ### Histories -/

/-- What happens on an endpoint ring: the driver enqueues and the controller executes, an event is
    polled, and the endpoint is recovered. -/
inductive EpStep where
  | ring (ev : Event)
  | poll (evt : Trb)
  | clearStall
  | controlError

def Bus.epStep (slot ep : Nat) (s : Bus) : EpStep → Bus
  | .ring ev => s.step ev
  | .poll evt => { s with ring := s.ring.noteCompletion evt }
  | .clearStall =>
    { s with consumer := (xhciClearEndpointStall s.ring slot ep).foldl s.ring.afterCmd s.consumer }
  | .controlError =>
    { s with
      ring := (controlError s.ring slot).1
      consumer := (controlError s.ring slot).2.foldl s.ring.afterCmd s.consumer }

def Bus.epRun (slot ep : Nat) (s : Bus) (steps : List EpStep) : Bus := steps.foldl (Bus.epStep slot ep) s

/-- The state as a new start, with nothing outstanding. -/
def Bus.fresh (s : Bus) : Bus := .from s.ring s.consumer

/-- What holds of the driver's side of an endpoint ring, wherever the controller is. -/
structure Ring.Live (ring : Ring) : Prop where
  placed : ring.Placed
  ok : ring.Ok
  lap : ∃ l, ring.toCycleRing.InLap l
  dequeue : ring.dequeueIdx ≤ ring.size - 1

theorem passLink_dequeueIdx (ring : Ring) : (passLink ring).dequeueIdx = ring.dequeueIdx := by
  unfold passLink
  split <;> rfl

theorem passLink_physAddr (ring : Ring) : (passLink ring).physAddr = ring.physAddr := by
  unfold passLink
  split <;> rfl

theorem submitPassLink_dequeueIdx (ring : Ring) :
    (submitPassLink ring).dequeueIdx = ring.dequeueIdx := by
  unfold submitPassLink
  split <;> rfl

theorem submitPassLink_physAddr (ring : Ring) :
    (submitPassLink ring).physAddr = ring.physAddr := by
  unfold submitPassLink
  split <;> rfl

namespace Ring.Live

variable {ring ring' : Ring}

theorem size_gt (h : ring.Live) : 2 < ring.size := by
  rw [h.placed.size]
  decide

theorem of_toCycleRing (h : ring.Live) (hsize : ring'.size = ring.size)
    (hphys : ring'.physAddr = ring.physAddr) (hdeq : ring'.dequeueIdx = ring.dequeueIdx)
    (hok : ring'.Ok) (hlap : ∃ l, ring'.toCycleRing.InLap l) : ring'.Live :=
  ⟨⟨hsize.trans h.placed.size, by rw [hphys, h.placed.align]⟩, hok, hlap, by
    rw [hdeq, hsize]
    exact h.dequeue⟩

theorem wrap_inLap (h : ring.Live) : ∃ l, ring.toCycleRing.wrap.InLap l :=
  let ⟨_, hl⟩ := h.lap
  let ⟨l', hl', _⟩ := hl.wrap
  ⟨l', hl'⟩

theorem put_inLap (h : ring.Live) (trb : Trb) : ∃ l, (ring.toCycleRing.wrap.put trb).InLap l := by
  obtain ⟨l, hl⟩ := h.lap
  obtain ⟨l', hl', hroom, -⟩ := hl.wrap
  exact ⟨l', hl'.put (by rwa [CycleRing.wrap_slots]) trb⟩

theorem step (h : ring.Live) (s : Bus) (hs : s.ring = ring) (ev : Event) : (s.step ev).ring.Live := by
  subst hs
  have hsize := Nat.lt_of_succ_lt h.size_gt
  cases ev with
  | link =>
    refine h.of_toCycleRing (passLink_passes.size _) (passLink_physAddr _) (passLink_dequeueIdx _)
      (passLink_passes.ok _ h.ok) ?_
    rw [Bus.step, passLink_passes.wrap _ h.ok]
    exact h.wrap_inLap
  | enqueue trb =>
    obtain ⟨hring, hok⟩ := enqueue_toCycleRing hsize h.ok trb
    refine h.of_toCycleRing (passLink_passes.size _) (passLink_physAddr _) (passLink_dequeueIdx _)
      hok ?_
    rw [Bus.step, hring]
    exact h.put_inLap trb.body
  | submit cmd =>
    obtain ⟨hring, hok⟩ := submit_toCycleRing hsize h.ok cmd
    refine h.of_toCycleRing (submitPassLink_passes.size _) (submitPassLink_physAddr _)
      (submitPassLink_dequeueIdx _) hok ?_
    rw [Bus.step, hring]
    exact h.put_inLap cmd.trb.body
  | consume => exact h

theorem with_dequeueIdx (h : ring.Live) {idx : Nat} (hidx : idx ≤ ring.size - 1) :
    ({ ring with dequeueIdx := idx } : Ring).Live :=
  ⟨⟨h.placed.size, h.placed.align⟩, ⟨h.ok.enqueue, h.ok.pointer, h.ok.toggle⟩, h.lap, hidx⟩

theorem noteCompletion (h : ring.Live) (evt : Trb) : (ring.noteCompletion evt).Live := by
  unfold Ring.noteCompletion
  split
  · rename_i hin
    obtain ⟨-, hlo, hhi⟩ := hin
    refine h.with_dequeueIdx ?_
    have hsize := h.placed.size
    unfold XHCI_RING_SIZE at hsize
    simp only [Ring.indexOf, BitVec.toNat_sub_of_le hlo]
    rw [BitVec.lt_def, BitVec.toNat_add, BitVec.toNat_ofNat, hsize] at hhi
    have hlo' := BitVec.le_def.mp hlo
    omega
  · exact h

end Ring.Live

theorem Bus.epRun_live (slot ep : Nat) {s : Bus} (h : s.ring.Live) (steps : List EpStep) :
    (s.epRun slot ep steps).ring.Live := by
  induction steps generalizing s with
  | nil => exact h
  | cons step steps ih =>
    refine ih ?_
    cases step with
    | ring ev => exact h.step s rfl ev
    | poll evt => exact h.noteCompletion evt
    | clearStall => exact h
    | controlError => exact h.with_dequeueIdx h.ok.enqueue

theorem newRing_live {ring : Ring} (halign : ring.physAddr.toNat % 64 = 0) :
    (newRing ring XHCI_RING_SIZE).Live := by
  have hsize : 2 ≤ XHCI_RING_SIZE := by decide
  obtain ⟨hok, hlap⟩ := newRing_inLap ring hsize
  exact ⟨⟨rfl, halign⟩, hok, ⟨0, hlap⟩, Nat.zero_le _⟩

/-- **Recovery.**  After any history of an endpoint ring, the controller goes on with what the
    driver enqueues next: always after a control transfer that failed, and after
    `xhci_clear_endpoint_stall` if and only if the dequeue index was the enqueue index. -/
theorem recovery_faithful_iff {ring : Ring} (halign : ring.physAddr.toNat % 64 = 0) {slot ep : Nat}
    (hslot : slot ≤ XHCI_MAX_SLOTS) (hep : ep < 32) (history : List EpStep) :
    let s := (Bus.start (newRing ring XHCI_RING_SIZE)).epRun slot ep history
    ((s.epStep slot ep .clearStall).fresh.Faithful ↔ s.ring.dequeueIdx = s.ring.enqueueIdx) ∧
      (s.epStep slot ep .controlError).fresh.Faithful := by
  intro s
  have hlive : s.ring.Live := Bus.epRun_live slot ep (newRing_live halign) history
  obtain ⟨l, hlap⟩ := hlive.lap
  constructor
  · have hvalid : ¬(slot > XHCI_MAX_SLOTS ∨ ep ≥ 32) := by omega
    have hplace : (s.epStep slot ep .clearStall).consumer = ⟨s.ring.dequeueIdx, s.ring.cycle⟩ := by
      simp only [Bus.epStep, xhciClearEndpointStall, if_neg hvalid]
      exact afterCmd_recover hlive.placed hlive.dequeue ..
    rw [Bus.fresh, hplace]
    exact faithful_from_iff hlive.size_gt hlive.ok hlap hlive.dequeue
  · have hlive' := hlive.with_dequeueIdx hlive.ok.enqueue
    have hplace : (s.epStep slot ep .controlError).consumer = ⟨s.ring.enqueueIdx, s.ring.cycle⟩ :=
      afterCmd_recover hlive.placed hlive.ok.enqueue s.consumer slot 1 s.ring.cycle
    rw [Bus.fresh, hplace]
    exact (faithful_from_iff hlive'.size_gt hlive'.ok hlap hlive'.dequeue).mpr rfl

/-- A bulk transfer from a new endpoint is executed and stalls. -/
def stalledBulk : List EpStep := [.ring (.enqueue (bulkTrb 0x20000 512 true)), .ring .consume]

theorem recovery_faithful_iff_stalled :
    let s := (Bus.start (newRing rawRing XHCI_RING_SIZE)).epRun 1 3 stalledBulk
    ((s.epStep 1 3 .clearStall).fresh.Faithful ↔ s.ring.dequeueIdx = s.ring.enqueueIdx) ∧
      (s.epStep 1 3 .controlError).fresh.Faithful :=
  recovery_faithful_iff (by decide) (by decide) (by decide) stalledBulk

/-- The controller executes the transfer again that stalled. -/
theorem clear_stall_replays :
    let s := (Bus.start (newRing rawRing XHCI_RING_SIZE)).epRun 1 3 (stalledBulk ++ [.clearStall])
    s.enqueued = [bulkTrb 0x20000 512 true] ∧ s.executed.length = 1 ∧
      s.nextTrb.map Trb.body = some (bulkTrb 0x20000 512 true) ∧ ¬s.fresh.Faithful := by
  refine ⟨by decide, by decide, by decide, fun hf => ?_⟩
  have hnext := (hf [] trivial).next
  revert hnext
  decide

end Gemios.Xhci
