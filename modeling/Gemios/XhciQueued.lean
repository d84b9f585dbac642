import Gemios.XhciCalls
import Gemios.XhciRecover
import Mathlib.Data.Int.ModEq
import Mathlib.Data.Nat.ModEq

/-!
# How many TRBs are queued

One event ring is read by `xhci_poll` and by the wait loops of `xhci_submit_cmd`,
`xhci_control_transfer` and `xhci_bulk_transfer`.  A wait loop hands the events of other endpoints
to the HID driver, as `xhci_poll` does, but does nothing else: it forgets port status changes and
does not note where a ring is.

`xhci_get_ring_queued_count` takes the difference of the two indices of an endpoint ring.  The
enqueue index is behind the last TRB that was put on the ring; the dequeue index, which
`xhci_poll` sets, is not behind the last TRB that was reported complete but on it.  So the count
is one too high from the first completion on.
-/

namespace Gemios.Xhci

def XHCI_PORTSC_CCS : BitVec 32 := 0x1

def XHCI_PORTSC_PRESERVE_MASK : BitVec 32 := 0xE000200

def XHCI_PORTSC_W1C_MASK : BitVec 32 := 0xFE0000

/-- What the handling of an event does besides changing the rings. -/
inductive Deed where
  | report (slot ep : Nat)
  | doorbell (slot ep : Nat)
  | writePortsc (port : Nat) (value : BitVec 32)
  | scanPorts
  | removeDevice (slot : Nat)
  | disableSlot (slot : Nat)
deriving DecidableEq

/-- A keyboard or mouse: where its reports come from and go to. -/
structure HidEntry where
  slot : Nat
  ep : Nat
  report : BitVec 32
  size : BitVec 32

/-- What the event handling uses of `g_xhci`, of the port registers, of the device table (the slot
    of the device on a root port) and of the HID tables, with everything done so far. -/
structure Controller where
  epRings : Nat → Nat → Ring
  maxPorts : Nat
  portsc : Nat → BitVec 32
  rootDevice : Nat → Option Nat
  hid : List HidEntry
  deeds : List Deed

namespace Controller

def setRing (c : Controller) (slot ep : Nat) (ring : Ring) : Controller :=
  { c with epRings := fun s e => if s = slot ∧ e = ep then ring else c.epRings s e }

/-- `usb_hid_on_transfer_complete`: the report is processed and the next one is asked for. -/
def hidComplete (c : Controller) (slot ep : Nat) : Controller :=
  match c.hid.find? fun entry => entry.slot == slot && entry.ep == ep with
  | some entry =>
    { c.setRing slot ep
        (xhciRingEnqueueTrb (c.epRings slot ep) (bulkTrb entry.report entry.size true)) with
      deeds := c.deeds ++ [.report slot ep, .doorbell slot ep] }
  | none => c

/-- Writing PORTSC clears the change bits that are written as 1. -/
def writePortsc (c : Controller) (port : Nat) (value : BitVec 32) : Controller :=
  { c with
    portsc := Function.update c.portsc port
      (c.portsc port &&& ~~~(value &&& XHCI_PORTSC_W1C_MASK))
    deeds := c.deeds ++ [.writePortsc port value] }

section

-- what scanning the ports, removing a device and disabling a slot do
variable (outside : Deed → Controller → Controller)

def act (c : Controller) (deed : Deed) : Controller :=
  { outside deed c with deeds := c.deeds ++ [deed] }

/-- The port status change branch of `xhci_poll`. -/
def portChange (c : Controller) (port : Nat) : Controller :=
  if 1 ≤ port ∧ port ≤ c.maxPorts then
    let portsc := c.portsc port
    let c := c.writePortsc port
      ((portsc &&& XHCI_PORTSC_PRESERVE_MASK) ||| (portsc &&& XHCI_PORTSC_W1C_MASK))
    if portsc &&& XHCI_PORTSC_CCS ≠ 0 then
      if (c.rootDevice port).isNone then c.act outside .scanPorts else c
    else
      match c.rootDevice port with
      | some slot => (c.act outside (.removeDevice slot)).act outside (.disableSlot slot)
      | none => c
  else c

/-- The transfer event branch of `xhci_poll`, up to the call of the HID driver. -/
def note (c : Controller) (evt : Trb) : Controller :=
  if evt.slotId > 0 ∧ evt.slotId ≤ XHCI_MAX_SLOTS ∧ evt.epId < 32 then
    c.setRing evt.slotId evt.epId ((c.epRings evt.slotId evt.epId).noteCompletion evt)
  else c

def portId (evt : Trb) : Nat := ((evt.parameterLo >>> 24) &&& 0xFF).toNat

/-- What `xhci_poll` does with an event. -/
def pollEvent (c : Controller) (evt : Trb) : Controller :=
  if evt.type = TRB_TYPE_TRANSFER_EVENT then (c.note evt).hidComplete evt.slotId evt.epId
  else if evt.type = TRB_TYPE_PORT_STATUS_CHANGE then c.portChange outside (portId evt)
  else c

/-- What the wait loop of a call does with an event. -/
def waitEvent (call : Call) (own : List (BitVec 32)) (c : Controller) (evt : Trb) : Controller :=
  if call.matches own evt then c
  else if evt.type = TRB_TYPE_TRANSFER_EVENT then c.hidComplete evt.slotId evt.epId
  else c

/-- Who dequeues an event: a call that waits has the addresses of its own TRBs. -/
inductive Consumer where
  | poll
  | wait (call : Call) (own : List (BitVec 32))

/-- The event is the one that the call is waiting for. -/
def Consumer.wants (evt : Trb) : Consumer → Bool
  | .poll => false
  | .wait call own => call.matches own evt

def consume (c : Controller) (evt : Trb) : Consumer → Controller
  | .poll => c.pollEvent outside evt
  | .wait call own => c.waitEvent call own evt

/-- Events with those who dequeue them, in the order of the event ring. -/
def run (c : Controller) (steps : List (Consumer × Trb)) : Controller :=
  steps.foldl (fun c step => c.consume outside step.2 step.1) c

def pollAll (c : Controller) (evts : List Trb) : Controller := evts.foldl (pollEvent outside) c

end

/-! ### The events that a wait loop may take -/

/-- The ring of the event is already noted to be at its TRB, or `xhci_poll` would not note it. -/
def Noted (c : Controller) (evt : Trb) : Prop :=
  evt.slotId > 0 → evt.slotId ≤ XHCI_MAX_SLOTS → evt.epId < 32 →
    (c.epRings evt.slotId evt.epId).Contains evt.parameterLo →
      (c.epRings evt.slotId evt.epId).dequeueIdx =
        (c.epRings evt.slotId evt.epId).indexOf evt.parameterLo

/-- A transfer event changes no dequeue index, and a port status change is for no port. -/
structure Harmless (c : Controller) (evt : Trb) : Prop where
  transfer : evt.type = TRB_TYPE_TRANSFER_EVENT → c.Noted evt
  port : evt.type = TRB_TYPE_PORT_STATUS_CHANGE → ¬(1 ≤ portId evt ∧ portId evt ≤ c.maxPorts)

variable {outside : Deed → Controller → Controller}

theorem setRing_self (c : Controller) (slot ep : Nat) : c.setRing slot ep (c.epRings slot ep) = c := by
  have hrings : (fun s e => if s = slot ∧ e = ep then c.epRings slot ep else c.epRings s e) =
      c.epRings := by
    funext s e
    split
    · rename_i h
      rw [h.1, h.2]
    · rfl
  rw [setRing, hrings]

theorem setRing_ring (c : Controller) (slot ep : Nat) (ring : Ring) :
    (c.setRing slot ep ring).epRings slot ep = ring := if_pos ⟨rfl, rfl⟩

theorem hidComplete_dequeueIdx (c : Controller) (slot ep : Nat) :
    ((c.hidComplete slot ep).epRings slot ep).dequeueIdx = (c.epRings slot ep).dequeueIdx := by
  unfold hidComplete
  split
  · refine (congrArg Ring.dequeueIdx (setRing_ring ..)).trans ?_
    unfold xhciRingEnqueueTrb passLink
    split <;> rfl
  · rfl

theorem note_of_noted {c : Controller} {evt : Trb} (h : c.Noted evt) : c.note evt = c := by
  unfold note
  split
  · rename_i hvalid
    unfold Ring.noteCompletion
    split
    · rename_i hin
      rw [← h hvalid.1 hvalid.2.1 hvalid.2.2 hin]
      exact setRing_self ..
    · exact setRing_self ..
  · rfl

theorem noted_of_note {c : Controller} {evt : Trb}
    (h : ((c.note evt).epRings evt.slotId evt.epId).dequeueIdx =
      (c.epRings evt.slotId evt.epId).dequeueIdx) : c.Noted evt := by
  intro hpos hslot hep hin
  rw [note, if_pos ⟨hpos, hslot, hep⟩, setRing_ring, Ring.noteCompletion, if_pos hin] at h
  exact h.symm

theorem portChange_deeds {c : Controller} {port : Nat} (hport : 1 ≤ port ∧ port ≤ c.maxPorts) :
    c.deeds.length < (c.portChange outside port).deeds.length := by
  rw [portChange, if_pos hport]
  dsimp only
  split
  · split
    · simp [act, writePortsc]
    · simp [writePortsc]
  · split
    · simp [act, writePortsc]
    · simp [writePortsc]

theorem waitEvent_eq_iff {c : Controller} {call : Call} {own : List (BitVec 32)} {evt : Trb}
    (hother : call.matches own evt = false) :
    c.waitEvent call own evt = c.pollEvent outside evt ↔ c.Harmless evt := by
  rw [waitEvent, if_neg (by rw [hother]; exact Bool.false_ne_true), pollEvent]
  by_cases htransfer : evt.type = TRB_TYPE_TRANSFER_EVENT
  · rw [if_pos htransfer, if_pos htransfer]
    constructor
    · intro heq
      refine ⟨fun _ => noted_of_note ?_, fun hport => ?_⟩
      · rw [← hidComplete_dequeueIdx (c.note evt), ← heq, hidComplete_dequeueIdx]
      · exact absurd (htransfer.symm.trans hport) (by decide)
    · intro h
      rw [note_of_noted (h.transfer htransfer)]
  · rw [if_neg htransfer, if_neg htransfer]
    by_cases hport : evt.type = TRB_TYPE_PORT_STATUS_CHANGE
    · rw [if_pos hport]
      constructor
      · intro heq
        refine ⟨fun h => absurd h htransfer, fun _ hvalid => ?_⟩
        have hlt := @portChange_deeds outside c _ hvalid
        rw [← heq] at hlt
        exact Nat.lt_irrefl _ hlt
      · intro h
        rw [portChange, if_neg (h.port hport)]
    · rw [if_neg hport]
      exact ⟨fun _ => ⟨fun h => absurd h htransfer, fun h => absurd h hport⟩, fun _ => rfl⟩

/-- The event is handled as by `xhci_poll`, or is taken by the call that waits for it. -/
def Safe (c : Controller) (step : Consumer × Trb) : Prop :=
  step.1 = .poll ∨ step.1.wants step.2 = true ∨ c.Harmless step.2

def AllSafe (outside : Deed → Controller → Controller) : Controller → List (Consumer × Trb) → Prop
  | _, [] => True
  | c, step :: steps => c.Safe step ∧ AllSafe outside (c.consume outside step.2 step.1) steps

def unwanted (steps : List (Consumer × Trb)) : List Trb :=
  (steps.filter fun step => !step.1.wants step.2).map Prod.snd

theorem Safe.consume {c : Controller} {step : Consumer × Trb} (h : c.Safe step) :
    c.consume outside step.2 step.1 =
      if step.1.wants step.2 then c else c.pollEvent outside step.2 := by
  obtain ⟨consumer, evt⟩ := step
  cases consumer with
  | poll => rfl
  | wait call own =>
    by_cases hwant : call.matches own evt = true
    · exact (if_pos hwant).trans (if_pos hwant).symm
    · have hharmless : c.Harmless evt := by
        rcases h with hpoll | hwants | hharmless
        · contradiction
        · exact absurd hwants hwant
        · exact hharmless
      refine Eq.trans ?_ (if_neg hwant).symm
      exact (waitEvent_eq_iff (Bool.eq_false_iff.mpr hwant)).mpr hharmless

theorem AllSafe.run_eq {steps : List (Consumer × Trb)} {c : Controller}
    (h : AllSafe outside c steps) : c.run outside steps = c.pollAll outside (unwanted steps) := by
  induction steps generalizing c with
  | nil => rfl
  | cons step steps ih =>
    obtain ⟨hsafe, hrest⟩ := h
    have hstep := @Safe.consume outside c step hsafe
    refine (ih hrest).trans ?_
    rw [hstep]
    by_cases hwant : step.1.wants step.2 = true
    · rw [if_pos hwant, unwanted, unwanted, List.filter_cons_of_neg (by simp [hwant])]
    · rw [if_neg hwant, unwanted, unwanted, List.filter_cons_of_pos (by simp [hwant])]
      rfl

/-- **Who dequeues an event.**  Whatever the ports, devices and rings are and whatever was dequeued
    by whom: if every event that a wait loop takes for someone else is harmless, the events have
    the effect that `xhci_poll` gives them; and an event has another effect in a wait loop, in any
    state that is reached, if it is not harmless. -/
theorem dequeue_same_iff (outside : Deed → Controller → Controller) (c : Controller)
    (steps : List (Consumer × Trb)) :
    (AllSafe outside c steps → c.run outside steps = c.pollAll outside (unwanted steps)) ∧
      ∀ (call : Call) (own : List (BitVec 32)) (evt : Trb), call.matches own evt = false →
        ((c.run outside steps).waitEvent call own evt = (c.run outside steps).pollEvent outside evt ↔
          (c.run outside steps).Harmless evt) :=
  ⟨AllSafe.run_eq, fun _ _ _ hother => waitEvent_eq_iff hother⟩

/-- The device in slot 3 has been taken off port 2. -/
def unplugged : Controller where
  epRings _ _ := newRing rawRing XHCI_RING_SIZE
  maxPorts := 4
  portsc port := if port = 2 then 0x20200 else 0x200
  rootDevice port := if port = 2 then some 3 else none
  hid := []
  deeds := []

def unplugEvent : Trb := ⟨0x2000000, 0, 0x1000000, 0x8800⟩

/-- `xhci_poll` clears the change bits and removes the device; a bulk transfer that is waiting
    drops the event. -/
theorem unplug_is_lost :
    let call := Call.bulk 1 3 0x30000 512 true
    let done := unplugged.pollEvent (fun _ c => c) unplugEvent
    call.matches [0x10000] unplugEvent = false ∧
      done.deeds = [.writePortsc 2 0x20200, .removeDevice 3, .disableSlot 3] ∧
      (unplugged.waitEvent call [0x10000] unplugEvent).deeds = [] ∧
      unplugged.waitEvent call [0x10000] unplugEvent ≠ done := by
  refine ⟨by decide, by decide, by decide, fun heq => ?_⟩
  have hdeeds := congrArg deeds heq
  revert hdeeds
  decide

end Controller

def Controller.xhciGetRingQueuedCount (c : Controller) (slot ep : Nat) : Nat :=
  if slot = 0 ∨ slot > XHCI_MAX_SLOTS ∨ ep ≥ 32 then 0
  else
    let ring := c.epRings slot ep
    if ring.size = 0 then 0
    else if ring.enqueueIdx ≥ ring.dequeueIdx then ring.enqueueIdx - ring.dequeueIdx
    else ring.size - 1 - ring.dequeueIdx + ring.enqueueIdx

/-- What happens to an endpoint ring: a TRB is put on it, or `xhci_poll` gets a transfer event.
    (When the HID driver then asks for the next report, that puts a TRB on it again.) -/
inductive QueueStep where
  | enqueue (trb : Trb)
  | complete (evt : Trb)

/-- The rings, with the addresses of the TRBs on one of them that are not reported complete, in
    order. -/
structure Queue where
  c : Controller
  pending : List (BitVec 32)

namespace Queue

variable (slot ep : Nat)

def step (q : Queue) : QueueStep → Queue
  | .enqueue trb =>
    let ring := q.c.epRings slot ep
    ⟨q.c.setRing slot ep (xhciRingEnqueueTrb ring trb),
      q.pending ++ [(passLink ring).addr (passLink ring).enqueueIdx]⟩
  | .complete evt => ⟨q.c.note evt, q.pending.tail⟩

def run (q : Queue) (steps : List QueueStep) : Queue := steps.foldl (step slot ep) q

/-- At most size - 2 TRBs are outstanding, and they are reported complete in order. -/
def Allowed (q : Queue) : QueueStep → Prop
  | .enqueue _ => q.pending.length + 1 ≤ (q.c.epRings slot ep).size - 2
  | .complete evt =>
    evt.type = TRB_TYPE_TRANSFER_EVENT ∧ evt.slotId = slot ∧ evt.epId = ep ∧
      q.pending.head? = some evt.parameterLo

instance (q : Queue) : (ev : QueueStep) → Decidable (q.Allowed slot ep ev)
  | .enqueue _ => inferInstanceAs (Decidable (_ ≤ _))
  | .complete _ => inferInstanceAs (Decidable (_ ∧ _ ∧ _ ∧ _))

def AllAllowed : Queue → List QueueStep → Prop
  | _, [] => True
  | q, ev :: evs => q.Allowed slot ep ev ∧ AllAllowed (q.step slot ep ev) evs

instance decidableAllAllowed : (q : Queue) → (evs : List QueueStep) →
    Decidable (q.AllAllowed slot ep evs)
  | _, [] => isTrue trivial
  | q, ev :: evs =>
    have := decidableAllAllowed (q.step slot ep ev) evs
    inferInstanceAs (Decidable (_ ∧ _))

def isComplete : QueueStep → Bool
  | .enqueue _ => false
  | .complete _ => true

/-- The count is the number of outstanding TRBs. -/
def Counts (q : Queue) : Prop := q.c.xhciGetRingQueuedCount slot ep = q.pending.length

/-- A controller whose ring at this endpoint is new, with nothing on it. -/
def start (c : Controller) (ring : Ring) (size : Nat) : Queue :=
  ⟨c.setRing slot ep (newRing ring size), []⟩

variable {slot ep}

theorem setRing_self (c : Controller) (ring : Ring) : (c.setRing slot ep ring).epRings slot ep = ring := by
  simp [Controller.setRing]

/-- After `n` TRBs were reported complete: up to laps, the enqueue index is the number of TRBs that
    were put on the ring, and the dequeue index is one before the number that were reported. -/
structure At (phys : BitVec 32) (slots n : Nat) (ring : Ring) (pending : List (BitVec 32)) : Prop where
  size : ring.size = slots + 1
  physAddr : ring.physAddr = phys
  enqueue_le : ring.enqueueIdx ≤ slots
  enqueue : ring.enqueueIdx ≡ n + pending.length [MOD slots]
  dequeue_lt : ring.dequeueIdx < slots
  dequeue : 0 < n → 1 < slots ∧ ring.dequeueIdx + 1 ≡ n [MOD slots]
  first : n = 0 → ring.enqueueIdx = pending.length ∧ ring.dequeueIdx = 0
  bound : pending.length < slots
  addrs : ∀ (k : Nat) (addr : BitVec 32), pending[k]? = some addr →
    addr = phys + BitVec.ofNat 32 ((n + k) % slots * 16)

theorem contains_addr {ring : Ring} {idx : Nat} (hphys : ring.physAddr ≠ 0)
    (hend : ring.physAddr.toNat + ring.size * 16 < 4294967296) (hidx : idx < ring.size) :
    ring.Contains (ring.addr idx) ∧ ring.indexOf (ring.addr idx) = idx := by
  have haddr : (ring.addr idx).toNat = ring.physAddr.toNat + idx * 16 := by
    simp only [Ring.addr, BitVec.toNat_add, BitVec.toNat_ofNat]
    omega
  have hlo : ring.physAddr ≤ ring.addr idx := by
    rw [BitVec.le_def, haddr]
    exact Nat.le_add_right _ _
  refine ⟨⟨hphys, hlo, ?_⟩, ?_⟩
  · rw [BitVec.lt_def, haddr, BitVec.toNat_add, BitVec.toNat_ofNat]
    omega
  · rw [Ring.indexOf, BitVec.toNat_sub_of_le hlo, haddr, Nat.add_sub_cancel_left,
      Nat.mul_div_cancel _ (by decide)]

namespace At

variable {phys : BitVec 32} {slots n : Nat} {ring : Ring} {pending : List (BitVec 32)}

theorem pos (h : At phys slots n ring pending) : 0 < slots := Nat.zero_lt_of_lt h.dequeue_lt

theorem passLink_enqueueIdx (h : At phys slots n ring pending) :
    (passLink ring).enqueueIdx = (n + pending.length) % slots := by
  have hle := h.enqueue_le
  rw [← h.enqueue]
  unfold passLink
  rw [h.size, Nat.add_sub_cancel]
  split
  · rename_i hfull
    rw [Nat.le_antisymm hle hfull, Nat.mod_self]
  · rename_i hroom
    exact (Nat.mod_eq_of_lt (Nat.lt_of_not_ge hroom)).symm

theorem enqueue_step (h : At phys slots n ring pending) (hroom : pending.length + 1 < slots)
    (trb : Trb) :
    At phys slots n (xhciRingEnqueueTrb ring trb)
      (pending ++ [(passLink ring).addr (passLink ring).enqueueIdx]) := by
  have hidx := h.passLink_enqueueIdx
  have hnew : (xhciRingEnqueueTrb ring trb).enqueueIdx = (passLink ring).enqueueIdx + 1 := rfl
  have hdeq : (xhciRingEnqueueTrb ring trb).dequeueIdx = ring.dequeueIdx := passLink_dequeueIdx ring
  refine ⟨(passLink_passes.size ring).trans h.size, (passLink_physAddr ring).trans h.physAddr, ?_, ?_,
    ?_, ?_, fun hn => ?_, ?_, fun k addr hk => ?_⟩
  · rw [hnew, hidx]
    exact Nat.mod_lt _ h.pos
  · rw [hnew, hidx, List.length_append, List.length_singleton, ← Nat.add_assoc]
    exact (Nat.mod_modEq _ _).add_right 1
  · rw [hdeq]
    exact h.dequeue_lt
  · rw [hdeq]
    exact h.dequeue
  · obtain ⟨-, hzero⟩ := h.first hn
    rw [hnew, hidx, hdeq, hn, Nat.zero_add, Nat.mod_eq_of_lt h.bound, List.length_append]
    exact ⟨rfl, hzero⟩
  · rw [List.length_append]
    exact hroom
  · rw [List.getElem?_append] at hk
    split at hk
    · exact h.addrs k addr hk
    · obtain ⟨hlt, haddr⟩ := List.getElem?_eq_some_iff.mp hk
      simp only [List.length_singleton] at hlt
      simp only [List.getElem_singleton] at haddr
      have hk' : k = pending.length := by omega
      rw [← haddr, hk', Ring.addr, passLink_physAddr, h.physAddr, hidx]

theorem complete_step (h : At phys slots n ring pending) (hphys : phys ≠ 0)
    (hend : phys.toNat + (slots + 1) * 16 < 4294967296) {evt : Trb}
    (hhead : pending.head? = some evt.parameterLo) :
    At phys slots (n + 1) (ring.noteCompletion evt) pending.tail := by
  cases pending with
  | nil => contradiction
  | cons addr rest =>
    simp only [List.head?_cons, Option.some.injEq] at hhead
    have hbound : rest.length + 1 < slots := h.bound
    have hmod : n % slots < slots := Nat.mod_lt _ h.pos
    have haddr : evt.parameterLo = ring.addr (n % slots) := by
      rw [← hhead, h.addrs 0 addr rfl, Ring.addr, h.physAddr, Nat.add_zero]
    obtain ⟨hin, hindex⟩ := @contains_addr ring (n % slots) (by rwa [h.physAddr])
      (by rwa [h.physAddr, h.size]) (by rw [h.size]; exact Nat.lt_succ_of_lt hmod)
    rw [← haddr] at hin hindex
    have hnote : ring.noteCompletion evt = { ring with dequeueIdx := n % slots } := by
      rw [Ring.noteCompletion, if_pos hin, hindex]
    rw [hnote]
    refine ⟨h.size, h.physAddr, h.enqueue_le, ?_, hmod, fun _ => ?_, fun habs => ?_, ?_, ?_⟩
    · have henq := h.enqueue
      rw [List.length_cons] at henq
      rw [List.tail_cons, Nat.add_assoc, Nat.add_comm 1]
      exact henq
    · exact ⟨by omega, (Nat.mod_modEq _ _).add_right 1⟩
    · contradiction
    · exact Nat.lt_of_succ_lt hbound
    · intro k addr' hk
      have := h.addrs (k + 1) addr' hk
      rwa [Nat.add_right_comm n 1 k]

theorem count_modEq (h : At phys slots n ring pending) (hn : 0 < n) {c : Controller}
    (hring : c.epRings slot ep = ring) (hslot : 0 < slot) (hmax : slot ≤ XHCI_MAX_SLOTS)
    (hep : ep < 32) :
    c.xhciGetRingQueuedCount slot ep ≡ pending.length + 1 [MOD slots] := by
  have hlt := h.dequeue_lt
  have hcount : c.xhciGetRingQueuedCount slot ep + ring.dequeueIdx ≡ ring.enqueueIdx [MOD slots] := by
    unfold Controller.xhciGetRingQueuedCount
    rw [if_neg (by omega)]
    simp only [hring, h.size]
    rw [if_neg (Nat.succ_ne_zero _), Nat.add_sub_cancel]
    split
    · rw [Nat.sub_add_cancel ‹_›]
    · have hsum : slots - ring.dequeueIdx + ring.enqueueIdx + ring.dequeueIdx =
          ring.enqueueIdx + slots := by omega
      rw [hsum]
      exact Nat.add_modEq_right
  apply Nat.ModEq.add_right_cancel' ring.dequeueIdx
  calc c.xhciGetRingQueuedCount slot ep + ring.dequeueIdx
    _ ≡ ring.enqueueIdx [MOD slots] := hcount
    _ ≡ n + pending.length [MOD slots] := h.enqueue
    _ ≡ ring.dequeueIdx + 1 + pending.length [MOD slots] := ((h.dequeue hn).2.symm).add_right _
    _ = pending.length + 1 + ring.dequeueIdx := by omega

theorem counts_iff (h : At phys slots n ring pending) {c : Controller}
    (hring : c.epRings slot ep = ring) (hslot : 0 < slot) (hmax : slot ≤ XHCI_MAX_SLOTS)
    (hep : ep < 32) : Counts slot ep ⟨c, pending⟩ ↔ n = 0 := by
  constructor
  · intro hcount
    by_contra hn
    have hmod := h.count_modEq (Nat.pos_of_ne_zero hn) hring hslot hmax hep
    rw [show c.xhciGetRingQueuedCount slot ep = pending.length from hcount] at hmod
    -- two numbers that differ by one are not the same up to laps
    have hone : 1 ≡ 0 [MOD slots] := (Nat.ModEq.add_left_cancel' pending.length hmod).symm
    have hdvd : slots ∣ 1 := Nat.modEq_zero_iff_dvd.mp hone
    obtain ⟨hslots, -⟩ := h.dequeue (Nat.pos_of_ne_zero hn)
    exact Nat.not_le_of_lt hslots (Nat.le_of_dvd Nat.one_pos hdvd)
  · intro hn
    obtain ⟨henq, hdeq⟩ := h.first hn
    simp only [Counts, Controller.xhciGetRingQueuedCount]
    rw [if_neg (by omega), hring, h.size, if_neg (Nat.succ_ne_zero _), henq, hdeq,
      if_pos (Nat.zero_le _), Nat.sub_zero]

theorem start {ring : Ring} {slots : Nat} (hslots : 0 < slots) :
    At ring.physAddr slots 0 (newRing ring (slots + 1)) [] :=
  ⟨rfl, rfl, Nat.zero_le _, rfl, hslots, fun habs => absurd habs (Nat.lt_irrefl 0), fun _ => ⟨rfl, rfl⟩,
    hslots, by simp⟩

end At

theorem note_epRings {c : Controller} {evt : Trb} (hslot : 0 < slot) (hmax : slot ≤ XHCI_MAX_SLOTS)
    (hep : ep < 32) (hevtSlot : evt.slotId = slot) (hevtEp : evt.epId = ep) :
    (c.note evt).epRings slot ep = (c.epRings slot ep).noteCompletion evt := by
  rw [Controller.note, hevtSlot, hevtEp, if_pos ⟨hslot, hmax, hep⟩, setRing_self]

theorem run_at {phys : BitVec 32} {slots : Nat} (hslot : 0 < slot) (hmax : slot ≤ XHCI_MAX_SLOTS)
    (hep : ep < 32) (hphys : phys ≠ 0) (hend : phys.toNat + (slots + 1) * 16 < 4294967296)
    {steps : List QueueStep} {q : Queue} {n : Nat}
    (h : At phys slots n (q.c.epRings slot ep) q.pending) (hok : q.AllAllowed slot ep steps) :
    At phys slots (n + steps.countP isComplete) ((q.run slot ep steps).c.epRings slot ep)
      (q.run slot ep steps).pending := by
  induction steps generalizing q n with
  | nil => exact h
  | cons ev steps ih =>
    obtain ⟨hev, hrest⟩ := hok
    cases ev with
    | enqueue trb =>
      have hroom : q.pending.length + 1 ≤ (q.c.epRings slot ep).size - 2 := hev
      rw [h.size] at hroom
      have hpos := h.pos
      refine ih (q := q.step slot ep (.enqueue trb)) ?_ hrest
      simp only [step, setRing_self]
      exact h.enqueue_step (by omega) trb
    | complete evt =>
      obtain ⟨-, hevtSlot, hevtEp, hhead⟩ := hev
      have hcount : n + (QueueStep.complete evt :: steps).countP isComplete =
          n + 1 + steps.countP isComplete := by
        rw [List.countP_cons_of_pos rfl]
        omega
      rw [hcount]
      refine ih (q := q.step slot ep (.complete evt)) ?_ hrest
      simp only [step, note_epRings hslot hmax hep hevtSlot hevtEp]
      exact h.complete_step hphys hend hhead

/-- **The queued count.**  In every run of an endpoint ring of any size, it is the number of TRBs
    that are not reported complete exactly as long as none was reported complete. -/
theorem queued_count_iff (c : Controller) (hslot : 0 < slot) (hmax : slot ≤ XHCI_MAX_SLOTS)
    (hep : ep < 32) {ring : Ring} {size : Nat} (hsize : 2 ≤ size) (hphys : ring.physAddr ≠ 0)
    (hend : ring.physAddr.toNat + size * 16 < 4294967296) {steps : List QueueStep}
    (hok : (start slot ep c ring size).AllAllowed slot ep steps) :
    Counts slot ep ((start slot ep c ring size).run slot ep steps) ↔
      ∀ ev ∈ steps, isComplete ev = false := by
  obtain ⟨slots, rfl⟩ : ∃ slots, size = slots + 1 := ⟨size - 1, by omega⟩
  have hstart : At ring.physAddr slots 0 ((start slot ep c ring (slots + 1)).c.epRings slot ep)
      (start slot ep c ring (slots + 1)).pending := by
    simp only [start, setRing_self]
    exact At.start (by omega)
  have hrun := run_at hslot hmax hep hphys hend hstart hok
  rw [Nat.zero_add] at hrun
  have hcounts := hrun.counts_iff rfl hslot hmax hep
  refine hcounts.trans ?_
  simp [List.countP_eq_zero]

/-- A TRB is put on a new ring, and reported complete. -/
def oneTransfer : List QueueStep :=
  [.enqueue (bulkTrb 0x30000 512 true), .complete ⟨0x10000, 0, 0, 0x01038000⟩]

theorem queued_count_iff_enqueued :
    Counts 1 3 ((start 1 3 Controller.unplugged rawRing 4096).run 1 3
        [.enqueue (bulkTrb 0x30000 512 true)]) ↔
      ∀ ev ∈ [QueueStep.enqueue (bulkTrb 0x30000 512 true)], isComplete ev = false :=
  queued_count_iff Controller.unplugged (by decide) (by decide) (by decide) (by decide) (by decide)
    (by decide) (by decide +kernel)

/-- Nothing is outstanding, but the count is 1. -/
theorem queued_count_off :
    let q := (start 1 3 Controller.unplugged rawRing 4096).run 1 3 oneTransfer
    (start 1 3 Controller.unplugged rawRing 4096).AllAllowed 1 3 oneTransfer ∧
      q.pending = [] ∧ q.c.xhciGetRingQueuedCount 1 3 = 1 := by
  decide +kernel

end Queue

end Gemios.Xhci
