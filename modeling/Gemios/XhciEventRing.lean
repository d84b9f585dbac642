import Gemios.LapRing
import Gemios.Xhci

/-!
# The event ring

`xhci_poll_event` of `src/src/usb/xhci.c` on the event ring that `xhci_init` sets up: one segment
without a Link TRB.  The controller may produce events at any time, also between the look at the
cycle bit and the write of ERDP.
-/

namespace Gemios.Xhci

def XHCI_ERDP_EHB : BitVec 32 := 0x8

/-- What `xhci_poll_event` uses of the controller, with the low word of ERDP; the high word is
    always written as 0. -/
structure EvtCtrl where
  evtRing : Ring
  evtCycle : Bool
  erdp : BitVec 32

namespace EvtCtrl

/-- The event ring in `xhci_init`. -/
def xhciInit (ring : Ring) (size : Nat) : EvtCtrl := ⟨ringInit ring size, true, ring.physAddr⟩

/-- `cycle != ctrl->evt_cycle` is false. -/
def Ready (c : EvtCtrl) : Prop :=
  (c.evtRing.trbs c.evtRing.dequeueIdx).cycleBit = c.evtCycle

instance (c : EvtCtrl) : Decidable c.Ready := inferInstanceAs (Decidable (_ = _))

/-- The next index, and the cycle state after the last entry. -/
def advance (c : EvtCtrl) : EvtCtrl :=
  let idx := c.evtRing.dequeueIdx + 1
  if idx ≥ c.evtRing.size then
    { c with evtRing := { c.evtRing with dequeueIdx := 0 }, evtCycle := !c.evtCycle }
  else { c with evtRing := { c.evtRing with dequeueIdx := idx } }

def writeErdp (c : EvtCtrl) : EvtCtrl :=
  { c with erdp := c.evtRing.addr c.evtRing.dequeueIdx ||| XHCI_ERDP_EHB }

/-- `xhci_poll_event`: the index of the TRB that it returns a pointer to, none for NULL. -/
def xhciPollEvent (c : EvtCtrl) : Option Nat × EvtCtrl :=
  if c.Ready then (some c.evtRing.dequeueIdx, c.advance.writeErdp) else (none, c)

/-- The place of the entry that is examined next. -/
def place (c : EvtCtrl) : Reader := ⟨c.evtRing.dequeueIdx, c.evtCycle⟩

theorem advance_place (c : EvtCtrl) : c.advance.place = c.place.advance c.evtRing.size := by
  unfold advance Reader.advance
  by_cases h : c.evtRing.dequeueIdx + 1 ≥ c.evtRing.size
  · simp [place, h]
  · simp [place, h]

@[simp] theorem advance_size (c : EvtCtrl) : c.advance.evtRing.size = c.evtRing.size := by
  unfold advance
  dsimp only
  split <;> rfl

@[simp] theorem advance_trbs (c : EvtCtrl) : c.advance.evtRing.trbs = c.evtRing.trbs := by
  unfold advance
  dsimp only
  split <;> rfl

@[simp] theorem advance_physAddr (c : EvtCtrl) :
    c.advance.evtRing.physAddr = c.evtRing.physAddr := by
  unfold advance
  dsimp only
  split <;> rfl

/-- The pointer in ERDP is the address of the entry that is examined next. -/
def PointsToNext (c : EvtCtrl) : Prop := c.erdp &&& ~~~0xF = c.evtRing.addr c.evtRing.dequeueIdx

theorem writeErdp_pointsToNext {c : EvtCtrl} (halign : c.evtRing.physAddr.toNat % 64 = 0) :
    c.writeErdp.PointsToNext := by
  apply pointer_or_flags (Ring.addr_align halign _)
  decide

end EvtCtrl

/-! ### The controller and the driver -/

/-- The event ring with the controller's place in it; the TRB that a call of `xhci_poll_event`
    is about to return, before ERDP is written; the pointer that the last call returned; and all
    TRBs that were produced and returned. -/
structure EventBus where
  ctrl : EvtCtrl
  producer : Reader
  busy : Option Nat
  pointer : Option Nat
  produced : List Trb
  returned : List Trb

/-- The two halves of `xhci_poll_event`, and the controller, which chooses the cycle bit. -/
inductive EventStep where
  | produce (evt : Trb)
  | examine
  | finish

def eventTrb (evt : Trb) (cycle : Bool) : Trb :=
  { evt with control := (evt.control &&& ~~~TRB_CYCLE) ||| cycleFlag cycle }

namespace EventBus

def produce (s : EventBus) (evt : Trb) : EventBus :=
  let trb := eventTrb evt s.producer.cycle
  { s with
    ctrl := { s.ctrl with
      evtRing := { s.ctrl.evtRing with
        trbs := Function.update s.ctrl.evtRing.trbs s.producer.idx trb } }
    producer := s.producer.advance s.ctrl.evtRing.size
    produced := s.produced ++ [trb] }

/-- A call starts; it may return NULL at once. -/
def examine (s : EventBus) : EventBus :=
  match s.busy with
  | some _ => s
  | none =>
    if s.ctrl.Ready then
      { s with ctrl := s.ctrl.advance, busy := some s.ctrl.evtRing.dequeueIdx }
    else s

def finish (s : EventBus) : EventBus :=
  match s.busy with
  | some idx =>
    { s with
      ctrl := s.ctrl.writeErdp
      busy := none
      pointer := some idx
      returned := s.returned ++ [s.ctrl.evtRing.trbs idx] }
  | none => s

def step (s : EventBus) : EventStep → EventBus
  | .produce evt => s.produce evt
  | .examine => s.examine
  | .finish => s.finish

def run (s : EventBus) (evs : List EventStep) : EventBus := evs.foldl step s

/-- After `xhci_init`, the controller at the start with cycle state 1. -/
def start (ring : Ring) (size : Nat) : EventBus := ⟨.xhciInit ring size, ⟨0, true⟩, none, none, [], []⟩

/-- The controller does not overrun the entry that ERDP was last set to: it has put no more than
    `size` events behind those that ERDP has passed. -/
def NotOverrun (s : EventBus) : EventStep → Prop
  | .produce _ => s.produced.length < s.returned.length + s.ctrl.evtRing.size
  | _ => True

instance (s : EventBus) : (ev : EventStep) → Decidable (s.NotOverrun ev)
  | .produce _ => inferInstanceAs (Decidable (_ < _))
  | .examine | .finish => isTrue trivial

def Conforming : EventBus → List EventStep → Prop
  | _, [] => True
  | s, ev :: evs => s.NotOverrun ev ∧ Conforming (s.step ev) evs

instance decidableConforming : (s : EventBus) → (evs : List EventStep) → Decidable (s.Conforming evs)
  | _, [] => isTrue trivial
  | s, ev :: evs =>
    have := decidableConforming (s.step ev) evs
    inferInstanceAs (Decidable (_ ∧ _))

/-- The TRBs that were returned are the first ones that were produced.  While no call is going on,
    the next call returns NULL only if nothing else was produced, and ERDP points to the entry that it
    examines.  And the TRB that the last pointer points to is the one that was returned, as long
    as one entry of the ring is free. -/
structure Exact (s : EventBus) : Prop where
  taken : s.returned <+: s.produced
  null : s.busy = none → (s.ctrl.xhciPollEvent.1 = none ↔ s.returned = s.produced)
  erdp : s.busy = none → s.ctrl.PointsToNext
  intact : ∀ idx : Nat, s.pointer = some idx →
    s.produced.length < s.returned.length + s.ctrl.evtRing.size →
    s.returned.getLast? = some (s.ctrl.evtRing.trbs idx)

/-- The number of entries that the driver has passed. -/
def passed (s : EventBus) : Nat := s.returned.length + s.busy.toList.length

/-- Both sides are at the places of what they have done, at most a lap apart. -/
structure Inv (s : EventBus) : Prop where
  size : 0 < s.ctrl.evtRing.size
  align : s.ctrl.evtRing.physAddr.toNat % 64 = 0
  written : LapWritten Trb.cycleBit s.ctrl.evtRing.size s.ctrl.evtRing.trbs s.produced
  producer : s.producer = lapPlace s.ctrl.evtRing.size s.produced.length
  place : s.ctrl.place = lapPlace s.ctrl.evtRing.size s.passed
  passed_le : s.passed ≤ s.produced.length
  room : s.produced.length ≤ s.returned.length + s.ctrl.evtRing.size
  taken : s.returned <+: s.produced
  busy : ∀ idx : Nat, s.busy = some idx → idx = (lapPlace s.ctrl.evtRing.size s.returned.length).idx
  pointer : ∀ idx : Nat, s.pointer = some idx → ∃ n, s.returned.length = n + 1 ∧
    idx = (lapPlace s.ctrl.evtRing.size n).idx
  erdp : s.busy = none → s.ctrl.PointsToNext

namespace Inv

variable {s : EventBus}

theorem produce (h : s.Inv) {evt : Trb}
    (hroom : s.produced.length < s.returned.length + s.ctrl.evtRing.size) : (s.produce evt).Inv := by
  have hbit : (eventTrb evt s.producer.cycle).cycleBit = s.producer.cycle := (stored_trb evt rfl _).2
  rw [h.producer] at hbit
  have hlen : (s.produce evt).produced.length = s.produced.length + 1 := List.length_append
  refine ⟨h.size, h.align, ?_, ?_, h.place, ?_, ?_, ?_, h.busy, h.pointer, h.erdp⟩
  · simp only [EventBus.produce, h.producer]
    exact h.written.put hbit
  · rw [hlen]
    simp only [EventBus.produce, h.producer]
    exact advance_lapPlace h.size _
  · rw [hlen]
    exact Nat.le_succ_of_le h.passed_le
  · rw [hlen]
    exact hroom
  · exact h.taken.trans (List.prefix_append _ _)

theorem ready_iff (h : s.Inv) (hidle : s.busy = none) :
    s.ctrl.Ready ↔ s.returned.length < s.produced.length := by
  have hpassed : s.passed = s.returned.length := by simp [passed, hidle]
  have hplace := h.place
  rw [hpassed] at hplace
  rw [← h.written.ready_iff h.size h.taken.length_le h.room, ← hplace]
  exact Iff.rfl

theorem examine (h : s.Inv) : s.examine.Inv := by
  unfold EventBus.examine
  cases hbusy : s.busy with
  | some idx => exact h
  | none =>
    by_cases hready : s.ctrl.Ready
    · simp only [hready, if_true]
      have hpassed : s.passed = s.returned.length := by simp [passed, hbusy]
      have hlt := (h.ready_iff hbusy).mp hready
      have hplace := h.place
      rw [hpassed] at hplace
      refine ⟨?_, ?_, ?_, ?_, ?_, ?_, ?_, h.taken, ?_, ?_, fun habs => by contradiction⟩
      · simpa using h.size
      · simpa using h.align
      · simpa using h.written
      · simpa using h.producer
      · simp only [EvtCtrl.advance_place, EvtCtrl.advance_size, hplace]
        exact advance_lapPlace h.size _
      · exact hlt
      · simpa using h.room
      · intro idx hidx
        simp only [Option.some.injEq] at hidx
        simp only [EvtCtrl.advance_size]
        rw [← hidx]
        exact congrArg Reader.idx hplace
      · simpa using h.pointer
    · simpa only [hready, if_false] using h

theorem finish (h : s.Inv) : s.finish.Inv := by
  unfold EventBus.finish
  cases hbusy : s.busy with
  | none => exact h
  | some idx =>
    have hpassed : s.passed = s.returned.length + 1 := by simp [passed, hbusy]
    have hidx := h.busy idx hbusy
    have hlt : s.returned.length < s.produced.length := by
      have := h.passed_le
      omega
    -- the entry is not overwritten before ERDP is written
    obtain ⟨hmem, -⟩ := h.written.read (List.getElem?_eq_getElem hlt) h.room
    rw [← hidx] at hmem
    have hplace := h.place
    have hroom := h.room
    refine ⟨h.size, h.align, h.written, h.producer, ?_, ?_, ?_, ?_, ?_, ?_, ?_⟩
    · rw [hpassed] at hplace
      simp only [passed, List.length_append, List.length_singleton]
      exact hplace
    · simp only [passed, List.length_append, List.length_singleton]
      exact hlt
    · simp only [List.length_append, List.length_singleton]
      exact Nat.le_trans hroom (by simp only [EvtCtrl.writeErdp]; omega)
    · obtain ⟨rest, hrest⟩ := h.taken
      simp only [hmem]
      have hget : s.produced[s.returned.length]? = rest[0]? := by
        rw [← hrest, List.getElem?_append_right (Nat.le_refl _), Nat.sub_self]
      rw [List.getElem?_eq_getElem hlt] at hget
      cases rest with
      | nil => contradiction
      | cons trb rest =>
        simp only [List.getElem?_cons_zero, Option.some.injEq] at hget
        rw [hget, ← hrest]
        exact ⟨rest, by simp⟩
    · intro idx' habs
      contradiction
    · intro idx' hidx'
      simp only [Option.some.injEq] at hidx'
      subst hidx'
      exact ⟨s.returned.length, by simp, hidx⟩
    · intro _
      exact EvtCtrl.writeErdp_pointsToNext h.align

theorem step (h : s.Inv) {ev : EventStep} (hok : s.NotOverrun ev) : (s.step ev).Inv := by
  cases ev with
  | produce evt => exact h.produce hok
  | examine => exact h.examine
  | finish => exact h.finish

theorem run {evs : List EventStep} (h : s.Inv) (hok : s.Conforming evs) : (s.run evs).Inv := by
  induction evs generalizing s with
  | nil => exact h
  | cons ev evs ih => exact ih (h.step hok.1) hok.2

theorem exact (h : s.Inv) : s.Exact := by
  refine ⟨h.taken, fun hidle => ?_, h.erdp, fun idx hidx hfree => ?_⟩
  · have hready := h.ready_iff hidle
    have hle := h.taken.length_le
    unfold EvtCtrl.xhciPollEvent
    constructor
    · intro hnull
      apply h.taken.eq_of_length
      by_contra hne
      rw [if_pos (hready.mpr (by omega))] at hnull
      contradiction
    · intro heq
      rw [if_neg]
      rw [hready, heq]
      exact Nat.lt_irrefl _
  · obtain ⟨n, hn, rfl⟩ := h.pointer idx hidx
    obtain ⟨rest, hrest⟩ := h.taken
    have hlt : n < s.produced.length := by
      rw [← hrest, List.length_append]
      omega
    obtain ⟨hmem, -⟩ := h.written.read (List.getElem?_eq_getElem hlt) (by omega)
    rw [hmem, List.getLast?_eq_getElem?, hn, Nat.add_sub_cancel, ← List.getElem?_eq_getElem hlt,
      ← hrest, List.getElem?_append_left (by omega)]

theorem start {ring : Ring} (halign : ring.physAddr.toNat % 64 = 0) {size : Nat} (hsize : 0 < size) :
    (EventBus.start ring size).Inv := by
  have hplace : lapPlace size 0 = ⟨0, true⟩ := by simp [lapPlace, lapBit]
  refine ⟨hsize, halign, .nil fun i hi => ?_, hplace.symm, hplace.symm, Nat.le_refl _,
    Nat.zero_le _, List.nil_prefix, ?_, ?_, fun _ => ?_⟩
  · have hi' : i < size := hi
    simp only [EventBus.start, EvtCtrl.xhciInit, ringInit, hi', if_true]
    rfl
  · intro idx habs
    contradiction
  · intro idx habs
    contradiction
  · -- ERDP starts without a flag
    have hzero := @pointer_or_flags ((EventBus.start ring size).ctrl.evtRing.addr 0) 0
      (Ring.addr_align halign 0) (by decide)
    simpa [EventBus.start, EvtCtrl.xhciInit, EvtCtrl.PointsToNext, ringInit, Ring.addr] using hzero

end Inv

/-- **Event ring consumption is exact.**  In every interleaving of `xhci_poll_event` with a
    controller that does not overrun ERDP. -/
theorem poll_event_exact {ring : Ring} (halign : ring.physAddr.toNat % 64 = 0) {size : Nat}
    (hsize : 0 < size) {evs : List EventStep} (hok : (start ring size).Conforming evs) :
    ((start ring size).run evs).Exact :=
  ((Inv.start halign hsize).run hok).exact

/-- Memory at an address, before `ring_init`. -/
def rawEvtRing : Ring := ⟨fun _ => zeroTrb, 0x20000, 0, 0, 0, false⟩

/-- A ring of two entries is filled, read, and filled again before a call is over. -/
def twoLaps : List EventStep :=
  [.produce zeroTrb, .produce { zeroTrb with status := 1 }, .examine, .finish, .examine,
    .produce { zeroTrb with status := 2 }, .finish, .examine, .finish, .examine]

theorem poll_event_exact_two_laps : ((start rawEvtRing 2).run twoLaps).Exact :=
  poll_event_exact (by decide) (by decide) (by decide +kernel)

end EventBus

end Gemios.Xhci
