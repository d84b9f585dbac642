import Gemios.XhciRing
import Gemios.XhciTransfer
import Mathlib.Algebra.Group.Nat.Defs

/-!
# Calls and completion events

`xhci_submit_cmd`, `xhci_control_transfer` and `xhci_bulk_transfer` put their TRBs on a ring and
then poll the one event ring until an event answers them or the time is over.  A command is
matched by the address of its TRB, a transfer only by its slot and endpoint.  So a transfer can
take the event of an earlier one, and it does so whenever one is still in flight on its endpoint.
-/

namespace Gemios.Xhci

/-! ### Work in flight -/

inductive Target where
  | command
  | endpoint (slot ep : Nat)
deriving DecidableEq

/-- TRBs that the driver has put on a ring and for which it has not polled the event yet. -/
structure Td where
  target : Target
  trbs : List (BitVec 32)
deriving DecidableEq

/-- The event is one that the controller may send for this work: any code and any remainder, with
    a pointer to one of the TRBs. -/
def Td.Completes (td : Td) (evt : Trb) : Prop :=
  evt.parameterLo ∈ td.trbs ∧
    match td.target with
    | .command => evt.type = TRB_TYPE_CMD_COMPLETION_EVENT
    | .endpoint slot ep => evt.type = TRB_TYPE_TRANSFER_EVENT ∧ evt.slotId = slot ∧ evt.epId = ep

/-- The rings of the driver, and the work in flight. -/
structure Host where
  cmdRing : Ring
  epRings : Nat → Nat → Ring
  inFlight : List Td

/-- TRBs are put on a ring; with the address of each. -/
def enqueueAll : Ring → List Trb → Ring × List (BitVec 32)
  | ring, [] => (ring, [])
  | ring, trb :: trbs =>
    let (ring', addrs) := enqueueAll (xhciRingEnqueueTrb ring trb) trbs
    (ring', (passLink ring).addr (passLink ring).enqueueIdx :: addrs)

def Host.setRing (h : Host) (slot ep : Nat) (ring : Ring) : Host :=
  { h with epRings := fun s e => if s = slot ∧ e = ep then ring else h.epRings s e }

def Host.enqueue (h : Host) (slot ep : Nat) (trbs : List Trb) : Host × List (BitVec 32) :=
  let (ring, addrs) := enqueueAll (h.epRings slot ep) trbs
  ({ h.setRing slot ep ring with inFlight := h.inFlight ++ [⟨.endpoint slot ep, addrs⟩] }, addrs)

def Host.command (h : Host) (cmd : Cmd) : Host × List (BitVec 32) :=
  let addr := (submitPassLink h.cmdRing).addr (submitPassLink h.cmdRing).enqueueIdx
  ({ h with
      cmdRing := xhciSubmitCmd h.cmdRing cmd.trb
      inFlight := h.inFlight ++ [⟨.command, [addr]⟩] }, [addr])

/-! ### Calls -/

/-- A call of one of the three functions.  The commands that the error branch of a control
    transfer submits are calls that follow it. -/
inductive Call where
  | bulk (slot ep : Nat) (data len : BitVec 32) (dirIn : Bool)
  | control (slot : Nat) (setup : Setup) (data : BitVec 32) (len : BitVec 16)
  | submit (cmd : Cmd)

def Call.target : Call → Target
  | .bulk slot ep .. => .endpoint slot ep
  | .control slot .. => .endpoint slot 1
  | .submit _ => .command

/-- The first part of a call: its TRBs are enqueued. -/
def Call.start (h : Host) : Call → Host × List (BitVec 32)
  | .bulk slot ep data len dirIn => h.enqueue slot ep [bulkTrb data len dirIn]
  | .control slot setup data len => h.enqueue slot 1 (controlTrbs setup data len)
  | .submit cmd => h.command cmd

/-- The test that the wait loop makes on an event. -/
def Call.matches (own : List (BitVec 32)) (evt : Trb) : Call → Bool
  | .bulk slot ep .. =>
    evt.type == TRB_TYPE_TRANSFER_EVENT && evt.slotId == slot && evt.epId == ep
  | .control slot .. => evt.type == TRB_TYPE_TRANSFER_EVENT && evt.slotId == slot && evt.epId == 1
  | .submit _ => evt.type == TRB_TYPE_CMD_COMPLETION_EVENT && own.contains evt.parameterLo

def Call.result (evt : Trb) : Call → Int
  | .bulk _ _ _ len _ =>
    if evt.compCode = TRB_COMP_SUCCESS ∨ evt.compCode = TRB_COMP_SHORT_PACKET then
      (len - trbGetRemainder evt.status).toInt
    else -evt.compCode
  | .control .. =>
    if evt.compCode = TRB_COMP_SUCCESS ∨ evt.compCode = TRB_COMP_SHORT_PACKET then 0
    else -evt.compCode
  | .submit _ => if evt.compCode = TRB_COMP_SUCCESS then 0 else -evt.compCode

/-- The result of a call that no event answers in time. -/
def TIMEOUT : Int := -100

/-! ### Events -/

/-- An event that is polled: the work that it completes, or none for an event of another kind, and
    the TRB that the handler of its endpoint puts on the ring again, if there is one. -/
structure Arrival where
  td : Option Td
  evt : Trb
  again : Option Trb

def Arrival.Valid (a : Arrival) (h : Host) : Prop :=
  match a.td with
  | some td => td ∈ h.inFlight ∧ td.Completes a.evt
  | none => a.evt.type ≠ TRB_TYPE_TRANSFER_EVENT ∧ a.evt.type ≠ TRB_TYPE_CMD_COMPLETION_EVENT

def Host.dequeue (h : Host) (a : Arrival) : Host :=
  { h with inFlight := a.td.elim h.inFlight h.inFlight.erase }

/-- A transfer event that is not for the call goes to `usb_hid_on_transfer_complete`. -/
def Host.dispatch (h : Host) (a : Arrival) : Host :=
  if a.evt.type = TRB_TYPE_TRANSFER_EVENT then
    match a.again with
    | some trb => ((h.dequeue a).enqueue a.evt.slotId a.evt.epId [trb]).1
    | none => h.dequeue a
  else h.dequeue a

/-- The wait loop: the event that answers the call, if one comes in time. -/
def Host.wait (call : Call) (own : List (BitVec 32)) : Host → List Arrival → Host × Option Trb
  | h, [] => (h, none)
  | h, a :: as =>
    if call.matches own a.evt then (h.dequeue a, some a.evt) else Host.wait call own (h.dispatch a) as

/-- The events that come during a wait are ones that the controller may send. -/
def Host.Delivers (call : Call) (own : List (BitVec 32)) : Host → List Arrival → Prop
  | _, [] => True
  | h, a :: as =>
    a.Valid h ∧ (call.matches own a.evt = false → Host.Delivers call own (h.dispatch a) as)

/-- A call, with the events that come while it waits: the event that answers it. -/
def Host.answer (h : Host) (call : Call) (as : List Arrival) : Option Trb :=
  ((call.start h).1.wait call (call.start h).2 as).2

def Host.returns (h : Host) (call : Call) (as : List Arrival) : Int :=
  (h.answer call as).elim TIMEOUT call.result

/-! ### Runs -/

/-- Calls, events that `xhci_poll` takes, TRBs that are put on a ring with no one waiting, and
    work for which no event will come, as after a Set TR Dequeue Pointer. -/
inductive Action where
  | call (call : Call) (as : List Arrival)
  | poll (a : Arrival)
  | async (slot ep : Nat) (trb : Trb)
  | drop (td : Td)

def Host.act (h : Host) : Action → Host
  | .call call as => ((call.start h).1.wait call (call.start h).2 as).1
  | .poll a => h.dispatch a
  | .async slot ep trb => (h.enqueue slot ep [trb]).1
  | .drop td => { h with inFlight := h.inFlight.erase td }

def Host.run (h : Host) (acts : List Action) : Host := acts.foldl Host.act h

/-! ### Which event answers -/

/-- The call returns the status of an event for one of its own TRBs, or the timeout code. -/
def Host.Own (h : Host) (call : Call) (as : List Arrival) : Prop :=
  h.returns call as ≠ TIMEOUT →
    ∃ evt, h.answer call as = some evt ∧ h.returns call as = call.result evt ∧
      evt.parameterLo ∈ (call.start h).2

/-- For a transfer, no other TRB is in flight on its endpoint. -/
def Host.Clear (h : Host) (call : Call) : Prop :=
  call.target = .command ∨
    ∀ td ∈ h.inFlight, td.target = call.target → ∀ addr ∈ td.trbs, addr ∈ (call.start h).2

/-- All work in flight for this target is at these addresses. -/
def OnlyAt (target : Target) (own : List (BitVec 32)) (tds : List Td) : Prop :=
  ∀ td ∈ tds, td.target = target → ∀ addr ∈ td.trbs, addr ∈ own

theorem OnlyAt.erase {target : Target} {own : List (BitVec 32)} {tds : List Td}
    (h : OnlyAt target own tds) (td : Td) : OnlyAt target own (tds.erase td) :=
  fun td' hmem => h td' (List.mem_of_mem_erase hmem)

theorem OnlyAt.append {target : Target} {own : List (BitVec 32)} {tds : List Td}
    (h : OnlyAt target own tds) {td : Td} (htd : td.target = target → ∀ addr ∈ td.trbs, addr ∈ own) :
    OnlyAt target own (tds ++ [td]) := by
  intro td' hmem
  rcases List.mem_append.mp hmem with hold | hnew
  · exact h td' hold
  · rw [List.mem_singleton.mp hnew]
    exact htd

theorem Call.matches_iff {call : Call} (hcall : call.target ≠ .command) (own : List (BitVec 32))
    (evt : Trb) :
    call.matches own evt = true ↔
      evt.type = TRB_TYPE_TRANSFER_EVENT ∧ call.target = .endpoint evt.slotId evt.epId := by
  cases call with
  | submit cmd => exact absurd rfl hcall
  | bulk slot ep data len dirIn =>
    simp only [Call.matches, Call.target, Bool.and_eq_true, beq_iff_eq, Target.endpoint.injEq,
      and_assoc]
    exact and_congr_right fun _ => and_congr eq_comm eq_comm
  | control slot setup data len =>
    simp only [Call.matches, Call.target, Bool.and_eq_true, beq_iff_eq, Target.endpoint.injEq,
      and_assoc]
    exact and_congr_right fun _ => and_congr eq_comm eq_comm

theorem Call.start_inFlight (call : Call) (h : Host) :
    (call.start h).1.inFlight = h.inFlight ++ [⟨call.target, (call.start h).2⟩] := by
  cases call <;> rfl

theorem Arrival.dequeue_onlyAt {target : Target} {own : List (BitVec 32)} {h : Host}
    (hh : OnlyAt target own h.inFlight) (a : Arrival) : OnlyAt target own (h.dequeue a).inFlight := by
  cases htd : a.td with
  | none =>
    simp only [Host.dequeue, htd, Option.elim_none]
    exact hh
  | some td =>
    simp only [Host.dequeue, htd, Option.elim_some]
    exact hh.erase td

theorem dispatch_onlyAt {call : Call} (hcall : call.target ≠ .command) {own : List (BitVec 32)}
    {h : Host} (hh : OnlyAt call.target own h.inFlight) {a : Arrival}
    (hother : call.matches own a.evt = false) :
    OnlyAt call.target own (h.dispatch a).inFlight := by
  have hdeq := Arrival.dequeue_onlyAt hh a
  unfold Host.dispatch
  split
  · rename_i htype
    split
    · refine hdeq.append fun htarget => ?_
      have hmatch := (Call.matches_iff hcall own a.evt).mpr ⟨htype, htarget.symm⟩
      rw [hother] at hmatch
      contradiction
    · exact hdeq
  · exact hdeq

theorem Arrival.Valid.of_transfer {h : Host} {a : Arrival} (hv : a.Valid h)
    (htype : a.evt.type = TRB_TYPE_TRANSFER_EVENT) :
    ∃ td ∈ h.inFlight, a.td = some td ∧ td.target = .endpoint a.evt.slotId a.evt.epId ∧
      a.evt.parameterLo ∈ td.trbs := by
  unfold Arrival.Valid at hv
  split at hv
  · rename_i td htd
    obtain ⟨hmem, hptr, hkind⟩ := hv
    refine ⟨td, hmem, htd, ?_, hptr⟩
    cases hk : td.target with
    | command =>
      rw [hk] at hkind
      exact absurd (htype.symm.trans hkind) (by decide)
    | endpoint slot ep =>
      rw [hk] at hkind
      obtain ⟨-, rfl, rfl⟩ := hkind
      rfl
  · exact absurd htype hv.1

theorem wait_own {call : Call} (hcall : call.target ≠ .command) {own : List (BitVec 32)}
    {as : List Arrival} {h : Host} (hh : OnlyAt call.target own h.inFlight)
    (hd : h.Delivers call own as) {evt : Trb} (hevt : (h.wait call own as).2 = some evt) :
    evt.parameterLo ∈ own := by
  induction as generalizing h with
  | nil => contradiction
  | cons a as ih =>
    obtain ⟨hv, hrest⟩ := hd
    rw [Host.wait] at hevt
    by_cases hmatch : call.matches own a.evt = true
    · rw [if_pos hmatch] at hevt
      obtain rfl : a.evt = evt := Option.some.inj hevt
      obtain ⟨htype, hep⟩ := (Call.matches_iff hcall own a.evt).mp hmatch
      obtain ⟨td, hmem, -, htarget, hptr⟩ := hv.of_transfer htype
      exact hh td hmem (htarget.trans hep.symm) _ hptr
    · rw [if_neg hmatch] at hevt
      have hother : call.matches own a.evt = false := Bool.eq_false_iff.mpr hmatch
      exact ih (dispatch_onlyAt hcall hh hother) (hrest hother) hevt

theorem wait_command {cmd : Cmd} {own : List (BitVec 32)} {as : List Arrival} {h : Host} {evt : Trb}
    (hevt : (h.wait (.submit cmd) own as).2 = some evt) : evt.parameterLo ∈ own := by
  induction as generalizing h with
  | nil => contradiction
  | cons a as ih =>
    rw [Host.wait] at hevt
    split at hevt
    · rename_i hmatch
      obtain rfl : a.evt = evt := Option.some.inj hevt
      simp only [Call.matches, Bool.and_eq_true, List.contains_iff_mem] at hmatch
      exact hmatch.2
    · exact ih hevt

theorem returns_of_answer {h : Host} {call : Call} {as : List Arrival} {evt : Trb}
    (hans : h.answer call as = some evt) : h.returns call as = call.result evt := by
  rw [Host.returns, hans]
  rfl

theorem own_of_answer {h : Host} {call : Call} {as : List Arrival}
    (hall : ∀ evt, h.answer call as = some evt → evt.parameterLo ∈ (call.start h).2) :
    h.Own call as := by
  intro hne
  cases hans : h.answer call as with
  | none =>
    rw [Host.returns, hans] at hne
    exact absurd rfl hne
  | some evt => exact ⟨evt, rfl, returns_of_answer hans, hall evt hans⟩

theorem own_of_clear {h : Host} {call : Call} (hclear : h.Clear call) {as : List Arrival}
    (hd : (call.start h).1.Delivers call (call.start h).2 as) : h.Own call as := by
  apply own_of_answer
  intro evt hans
  by_cases hcall : call.target = .command
  · cases call with
    | submit cmd => exact wait_command hans
    | bulk => contradiction
    | control => contradiction
  · have honly : OnlyAt call.target (call.start h).2 h.inFlight := hclear.resolve_left hcall
    refine wait_own hcall ?_ hd hans
    rw [Call.start_inFlight]
    exact honly.append fun _ _ hmem => hmem

/-! ### An event of an earlier call -/

theorem field_toNat {x : Nat} (hx : x < 2 ^ 32) (n : Nat) {k : Nat} (hk : k < 32) :
    ((BitVec.ofNat 32 x >>> n) &&& BitVec.ofNat 32 (2 ^ k - 1)).toNat = x / 2 ^ n % 2 ^ k := by
  have hpow : 2 ^ k < 2 ^ 32 := Nat.pow_lt_pow_right (by decide) hk
  rw [BitVec.toNat_and, BitVec.toNat_ushiftRight, BitVec.toNat_ofNat, BitVec.toNat_ofNat,
    Nat.mod_eq_of_lt hx, Nat.mod_eq_of_lt (by omega), Nat.and_two_pow_sub_one_eq_mod,
    Nat.shiftRight_eq_div_pow]

/-- An event for a TRB of an endpoint that ended in a stall. -/
def stallEvent (slot ep : Nat) (addr : BitVec 32) : Trb :=
  ⟨addr, 0, 0x6000000, BitVec.ofNat 32 (slot * 2 ^ 24 + ep * 2 ^ 16 + TRB_TYPE_TRANSFER_EVENT * 2 ^ 10)⟩

theorem stallEvent_fields {slot ep : Nat} (hslot : slot < 256) (hep : ep < 32) (addr : BitVec 32) :
    (stallEvent slot ep addr).type = TRB_TYPE_TRANSFER_EVENT ∧
      (stallEvent slot ep addr).slotId = slot ∧ (stallEvent slot ep addr).epId = ep := by
  have hlt : slot * 2 ^ 24 + ep * 2 ^ 16 + TRB_TYPE_TRANSFER_EVENT * 2 ^ 10 < 2 ^ 32 := by
    unfold TRB_TYPE_TRANSFER_EVENT
    omega
  refine ⟨?_, ?_, ?_⟩
  · refine (field_toNat hlt 10 (k := 6) (by decide)).trans ?_
    unfold TRB_TYPE_TRANSFER_EVENT
    omega
  · refine (field_toNat hlt 24 (k := 8) (by decide)).trans ?_
    unfold TRB_TYPE_TRANSFER_EVENT
    omega
  · refine (field_toNat hlt 16 (k := 5) (by decide)).trans ?_
    unfold TRB_TYPE_TRANSFER_EVENT
    omega

def Call.Valid : Call → Prop
  | .bulk slot ep .. => slot ≤ XHCI_MAX_SLOTS ∧ ep < 32
  | .control slot .. => slot ≤ XHCI_MAX_SLOTS
  | .submit _ => True

theorem Call.Valid.target {call : Call} (hc : call.Valid) (hcall : call.target ≠ .command) :
    ∃ slot ep, call.target = .endpoint slot ep ∧ slot < 256 ∧ ep < 32 := by
  unfold Call.Valid XHCI_MAX_SLOTS at hc
  cases call with
  | bulk slot ep => exact ⟨slot, ep, rfl, by omega, hc.2⟩
  | control slot => exact ⟨slot, 1, rfl, by omega, by decide⟩
  | submit cmd => exact absurd rfl hcall

theorem Call.result_stall (call : Call) (slot ep : Nat) (addr : BitVec 32) :
    call.result (stallEvent slot ep addr) ≠ TIMEOUT := by
  have hcode : (stallEvent slot ep addr).compCode = 6 :=
    show trbGetCompCode 0x6000000 = 6 by decide
  cases call <;> simp [Call.result, hcode, TRB_COMP_SUCCESS, TRB_COMP_SHORT_PACKET, TIMEOUT]

theorem clear_of_own {h : Host} {call : Call} (hc : call.Valid)
    (hall : ∀ as, (call.start h).1.Delivers call (call.start h).2 as → h.Own call as) :
    h.Clear call := by
  by_contra hclear
  simp only [Host.Clear, not_or, not_forall] at hclear
  obtain ⟨hcall, td, hmem, htarget, addr, haddr, hforeign⟩ := hclear
  obtain ⟨slot, ep, hep, hslot, hep32⟩ := hc.target hcall
  obtain ⟨htype, hs, he⟩ := stallEvent_fields hslot hep32 addr
  have hmatch : call.matches (call.start h).2 (stallEvent slot ep addr) = true := by
    rw [Call.matches_iff hcall, hs, he]
    exact ⟨htype, hep⟩
  have hdeliver : (call.start h).1.Delivers call (call.start h).2
      [⟨some td, stallEvent slot ep addr, none⟩] := by
    refine ⟨⟨?_, haddr, ?_⟩, fun hno => ?_⟩
    · rw [Call.start_inFlight]
      exact List.mem_append_left _ hmem
    · rw [htarget, hep]
      exact ⟨htype, hs, he⟩
    · rw [hmatch] at hno
      contradiction
  have hans : h.answer call [⟨some td, stallEvent slot ep addr, none⟩] =
      some (stallEvent slot ep addr) := by
    rw [Host.answer, Host.wait, if_pos hmatch]
  have hne : h.returns call [⟨some td, stallEvent slot ep addr, none⟩] ≠ TIMEOUT := by
    rw [returns_of_answer hans]
    exact call.result_stall slot ep addr
  obtain ⟨evt, hevt, -, hown⟩ := hall _ hdeliver hne
  rw [hans] at hevt
  obtain rfl := Option.some.inj hevt
  exact hforeign hown

/-! ### Runs without a timeout -/

def Host.Quiet (target : Target) (h : Host) : Prop := ∀ td ∈ h.inFlight, td.target ≠ target

/-- An action that leaves nothing in flight for a target that was quiet: a call for it is
    answered, and nothing is put on its ring with no one waiting. -/
def Host.Settles (target : Target) (h : Host) : Action → Prop
  | .call call as =>
    (call.start h).1.Delivers call (call.start h).2 as ∧
      (call.target = target → (h.answer call as).isSome)
  | .poll a => a.Valid h
  | .async slot ep _ => Target.endpoint slot ep ≠ target
  | .drop _ => True

def Host.SettlesAll (target : Target) : Host → List Action → Prop
  | _, [] => True
  | h, act :: acts => h.Settles target act ∧ (h.act act).SettlesAll target acts

theorem Host.Quiet.dequeue {target : Target} {h : Host} (hq : h.Quiet target) (a : Arrival) :
    (h.dequeue a).Quiet target := by
  intro td hmem
  refine hq td ?_
  cases htd : a.td with
  | none => simpa [Host.dequeue, htd] using hmem
  | some td' => exact List.mem_of_mem_erase (by simpa [Host.dequeue, htd] using hmem)

theorem Host.Quiet.append {target : Target} {h : Host} (hq : h.Quiet target) {td : Td}
    (htd : td.target ≠ target) : ∀ td' ∈ h.inFlight ++ [td], td'.target ≠ target := by
  intro td' hmem
  rcases List.mem_append.mp hmem with hold | hnew
  · exact hq td' hold
  · rwa [List.mem_singleton.mp hnew]

theorem Host.Quiet.dispatch {target : Target} {h : Host} (hq : h.Quiet target) {a : Arrival}
    (hv : a.Valid h) : (h.dispatch a).Quiet target := by
  have hdeq := hq.dequeue a
  unfold Host.dispatch
  split
  · rename_i htype
    split
    · obtain ⟨td, hmem, -, htarget, -⟩ := hv.of_transfer htype
      exact hdeq.append (htarget ▸ hq td hmem)
    · exact hdeq
  · exact hdeq

theorem Host.Quiet.wait {target : Target} {call : Call} {own : List (BitVec 32)} {as : List Arrival}
    {h : Host} (hq : h.Quiet target) (hd : h.Delivers call own as) :
    (h.wait call own as).1.Quiet target := by
  induction as generalizing h with
  | nil => exact hq
  | cons a as ih =>
    obtain ⟨hv, hrest⟩ := hd
    rw [Host.wait]
    by_cases hmatch : call.matches own a.evt = true
    · rw [if_pos hmatch]
      exact hq.dequeue a
    · rw [if_neg hmatch]
      exact ih (hq.dispatch hv) (hrest (Bool.eq_false_iff.mpr hmatch))

/-- Only one piece of work is in flight for its target. -/
structure Host.Alone (td : Td) (h : Host) : Prop where
  only : ∀ td' ∈ h.inFlight, td'.target = td.target → td' = td
  once : h.inFlight.count td ≤ 1

theorem Host.Alone.dispatch {call : Call} (hcall : call.target ≠ .command) {own : List (BitVec 32)}
    {td : Td} (htd : td.target = call.target) {h : Host} (hh : h.Alone td) {a : Arrival}
    (hother : call.matches own a.evt = false) : (h.dispatch a).Alone td := by
  have hdeq : (h.dequeue a).Alone td := by
    refine ⟨fun td' hmem => hh.only td' ?_, ?_⟩
    · cases hd : a.td with
      | none => simpa [Host.dequeue, hd] using hmem
      | some td' => exact List.mem_of_mem_erase (by simpa [Host.dequeue, hd] using hmem)
    · cases hd : a.td with
      | none => simpa [Host.dequeue, hd] using hh.once
      | some td' =>
        have hle := (List.erase_sublist (l := h.inFlight) (a := td')).count_le td
        simpa [Host.dequeue, hd] using Nat.le_trans hle hh.once
  unfold Host.dispatch
  split
  · rename_i htype
    split
    · have hne : Target.endpoint a.evt.slotId a.evt.epId ≠ td.target := by
        intro heq
        have hmatch := (Call.matches_iff hcall own a.evt).mpr ⟨htype, htd.symm.trans heq.symm⟩
        rw [hother] at hmatch
        contradiction
      refine ⟨fun td' hmem htarget => ?_, ?_⟩
      · rcases List.mem_append.mp hmem with hold | hnew
        · exact hdeq.only td' hold htarget
        · rw [List.mem_singleton.mp hnew] at htarget
          exact absurd htarget hne
      · refine Nat.le_trans (Nat.le_of_eq ?_) hdeq.once
        refine (List.count_append ..).trans ?_
        rw [List.count_singleton, if_neg, Nat.add_zero]
        intro heq
        rw [beq_iff_eq] at heq
        exact hne (congrArg Td.target heq)
    · exact hdeq
  · exact hdeq

theorem Host.Alone.wait {call : Call} (hcall : call.target ≠ .command) {own : List (BitVec 32)}
    {td : Td} (htd : td.target = call.target) {as : List Arrival} {h : Host} (hh : h.Alone td)
    (hd : h.Delivers call own as) (hans : (h.wait call own as).2.isSome) :
    (h.wait call own as).1.Quiet td.target := by
  induction as generalizing h with
  | nil => contradiction
  | cons a as ih =>
    obtain ⟨hv, hrest⟩ := hd
    rw [Host.wait] at hans ⊢
    by_cases hmatch : call.matches own a.evt = true
    · rw [if_pos hmatch]
      obtain ⟨htype, hep⟩ := (Call.matches_iff hcall own a.evt).mp hmatch
      obtain ⟨td', hmem, hsome, htarget, -⟩ := hv.of_transfer htype
      obtain rfl := hh.only td' hmem (htarget.trans (htd.trans hep).symm)
      intro td'' hmem'' heq
      simp only [Host.dequeue, hsome, Option.elim_some] at hmem''
      have hsame := hh.only td'' (List.mem_of_mem_erase hmem'') heq
      rw [hsame, ← List.count_pos_iff, List.count_erase_self] at hmem''
      have := hh.once
      omega
    · have hother : call.matches own a.evt = false := Bool.eq_false_iff.mpr hmatch
      rw [if_neg hmatch] at hans ⊢
      exact ih (hh.dispatch hcall htd hother) (hrest hother) hans

theorem Host.Quiet.alone {call : Call} {h : Host} (hq : h.Quiet call.target) :
    (call.start h).1.Alone ⟨call.target, (call.start h).2⟩ := by
  have hflight := call.start_inFlight h
  constructor
  · intro td' hmem htarget
    rw [hflight] at hmem
    rcases List.mem_append.mp hmem with hold | hnew
    · exact absurd htarget (hq td' hold)
    · exact List.mem_singleton.mp hnew
  · rw [hflight, List.count_append, List.count_eq_zero.mpr fun hmem => hq _ hmem rfl]
    simp

theorem Host.Quiet.act {slot ep : Nat} {h : Host} (hq : h.Quiet (.endpoint slot ep)) {act : Action}
    (hs : h.Settles (.endpoint slot ep) act) : (h.act act).Quiet (.endpoint slot ep) := by
  cases act with
  | call call as =>
    obtain ⟨hd, hans⟩ := hs
    by_cases htarget : call.target = .endpoint slot ep
    · have hcall : call.target ≠ .command := by
        rw [htarget]
        exact Target.noConfusion
      rw [← htarget] at hq ⊢
      exact hq.alone.wait hcall rfl hd (hans htarget)
    · refine Host.Quiet.wait ?_ hd
      intro td hmem
      rw [Call.start_inFlight] at hmem
      exact hq.append htarget td hmem
  | poll a => exact hq.dispatch hs
  | async slot' ep' trb => exact hq.append hs
  | drop td => exact fun td' hmem => hq td' (List.mem_of_mem_erase hmem)

theorem Host.Quiet.run {slot ep : Nat} {acts : List Action} {h : Host}
    (hq : h.Quiet (.endpoint slot ep)) (hs : h.SettlesAll (.endpoint slot ep) acts) :
    (h.run acts).Quiet (.endpoint slot ep) := by
  induction acts generalizing h with
  | nil => exact hq
  | cons act acts ih => exact ih (hq.act hs.1) hs.2

/-- **No shift without a timeout.**  As long as every call on an endpoint is answered, and nothing
    is put on its ring with no one waiting, each call on it returns its own status. -/
theorem own_of_settled {slot ep : Nat} {h : Host} (hq : h.Quiet (.endpoint slot ep))
    {acts : List Action} (hs : h.SettlesAll (.endpoint slot ep) acts) {call : Call}
    (hcall : call.target = .endpoint slot ep) {as : List Arrival}
    (hd : (call.start (h.run acts)).1.Delivers call (call.start (h.run acts)).2 as) :
    (h.run acts).Own call as := by
  refine own_of_clear (.inr fun td hmem htarget => ?_) hd
  exact absurd (htarget.trans hcall) (hq.run hs td hmem)

/-- **Own completions.**  After any sequence of calls, events and other transfers, a call returns
    the status of one of its own TRBs or the timeout code, whatever events the controller sends
    while it waits, if and only if no other TRB is in flight on its endpoint. -/
theorem own_completion_iff (h₀ : Host) (acts : List Action) {call : Call} (hc : call.Valid) :
    let h := h₀.run acts
    (∀ as, (call.start h).1.Delivers call (call.start h).2 as → h.Own call as) ↔ h.Clear call :=
  ⟨clear_of_own hc, fun hclear _ hd => own_of_clear hclear hd⟩

def idleHost : Host :=
  ⟨newRing rawRing XHCI_RING_SIZE, fun _ _ => newRing rawRing XHCI_RING_SIZE, []⟩

/-- A bulk transfer that is not answered in time. -/
def lateRead : Action := .call (.bulk 1 3 0x20000 512 true) []

theorem own_completion_iff_late :
    let h := idleHost.run [lateRead]
    (∀ as, (Call.start h (.bulk 1 3 0x30000 512 true)).1.Delivers (.bulk 1 3 0x30000 512 true)
      (Call.start h (.bulk 1 3 0x30000 512 true)).2 as → h.Own (.bulk 1 3 0x30000 512 true) as) ↔
      h.Clear (.bulk 1 3 0x30000 512 true) :=
  own_completion_iff idleHost [lateRead]
    (show Call.Valid (.bulk 1 3 0x30000 512 true) from ⟨by decide, by decide⟩)

/-- The event of the first transfer comes while the second one waits. -/
def lateEvent : Arrival :=
  ⟨some ⟨.endpoint 1 3, [0x10000]⟩, { stallEvent 1 3 0x10000 with status := 0x1000000 }, none⟩

/-- The second transfer returns 512 bytes, which is the status of the first one. -/
theorem late_event_is_taken :
    let h := idleHost.run [lateRead]
    let call := Call.bulk 1 3 0x30000 512 true
    (call.start h).1.Delivers call (call.start h).2 [lateEvent] ∧
      h.returns call [lateEvent] = 512 ∧ (call.start h).2 = [0x10010] ∧ ¬h.Own call [lateEvent] := by
  refine ⟨⟨⟨by decide, by decide, by decide⟩, fun _ => trivial⟩, by decide, by decide, fun hown => ?_⟩
  obtain ⟨evt, hevt, -, hptr⟩ := hown (by decide)
  obtain rfl : lateEvent.evt = evt := Option.some.inj hevt
  revert hptr
  decide

end Gemios.Xhci
