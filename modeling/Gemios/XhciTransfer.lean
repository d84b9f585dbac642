import Gemios.Xhci

/-!
# xHCI transfers

What `xhci_control_transfer`, `xhci_bulk_transfer` and `xhci_submit_async_trb` of
`src/src/usb/xhci.c` put on an endpoint ring, how the waiting functions read an event, and how
an endpoint is recovered after an error.
-/

namespace Gemios.Xhci

def XHCI_MAX_SLOTS : Nat := 32

def TRB_TYPE_NORMAL : Nat := 1
def TRB_TYPE_SETUP_STAGE : Nat := 2
def TRB_TYPE_DATA_STAGE : Nat := 3
def TRB_TYPE_STATUS_STAGE : Nat := 4
def TRB_TYPE_TRANSFER_EVENT : Nat := 32
def TRB_TYPE_CMD_COMPLETION_EVENT : Nat := 33
def TRB_TYPE_PORT_STATUS_CHANGE : Nat := 34

def TRB_COMP_SUCCESS : Nat := 1
def TRB_COMP_SHORT_PACKET : Nat := 13

def TRB_ISP : BitVec 32 := 0x4
def TRB_IOC : BitVec 32 := 0x20
def TRB_IDT : BitVec 32 := 0x40
def TRB_TRT_NONE : BitVec 32 := 0
def TRB_TRT_OUT : BitVec 32 := 0x20000
def TRB_TRT_IN : BitVec 32 := 0x30000
def TRB_DIR_IN : BitVec 32 := 0x10000
def TRB_DIR_OUT : BitVec 32 := 0

/-! ### Fields of an event -/

def trbGetType (control : BitVec 32) : Nat := ((control >>> 10) &&& 0x3F).toNat

def trbGetSlotId (control : BitVec 32) : Nat := ((control >>> 24) &&& 0xFF).toNat

def trbGetEpId (control : BitVec 32) : Nat := ((control >>> 16) &&& 0x1F).toNat

def trbGetCompCode (status : BitVec 32) : Nat := ((status >>> 24) &&& 0xFF).toNat

def trbGetRemainder (status : BitVec 32) : BitVec 32 := status &&& 0xFFFFFF

def Trb.type (trb : Trb) : Nat := trbGetType trb.control
def Trb.slotId (trb : Trb) : Nat := trbGetSlotId trb.control
def Trb.epId (trb : Trb) : Nat := trbGetEpId trb.control
def Trb.compCode (trb : Trb) : Nat := trbGetCompCode trb.status

/-! ### The TRBs of a transfer -/

/-- The TRB of `xhci_bulk_transfer` and of `xhci_submit_async_trb`. -/
def bulkTrb (data len : BitVec 32) (dirIn : Bool) : Trb :=
  ⟨data, 0, len, trbSetType TRB_TYPE_NORMAL ||| TRB_IOC ||| if dirIn then TRB_ISP else 0⟩

/-- `usb_setup_packet_t`, as its two words, with the direction of `bmRequestType`. -/
structure Setup where
  lo : BitVec 32
  hi : BitVec 32

def USB_DIR_IN : BitVec 32 := 0x80

/-- `bmRequestType` is the first byte of the packet. -/
def Setup.dirIn (setup : Setup) : Bool := setup.lo &&& USB_DIR_IN ≠ 0

/-- The TRBs of `xhci_control_transfer`; a data pointer of 0 is NULL. -/
def controlTrbs (setup : Setup) (data : BitVec 32) (len : BitVec 16) : List Trb :=
  let trt := if len ≠ 0 then if setup.dirIn then TRB_TRT_IN else TRB_TRT_OUT else TRB_TRT_NONE
  let setupTrb : Trb := ⟨setup.lo, setup.hi, 8, trbSetType TRB_TYPE_SETUP_STAGE ||| TRB_IDT ||| trt⟩
  let dataTrb : Trb := ⟨data, 0, len.setWidth 32,
    trbSetType TRB_TYPE_DATA_STAGE ||| if setup.dirIn then TRB_DIR_IN else TRB_DIR_OUT⟩
  let statusTrb : Trb := ⟨0, 0, 0, trbSetType TRB_TYPE_STATUS_STAGE ||| TRB_IOC |||
    if trt = TRB_TRT_IN then TRB_DIR_OUT else TRB_DIR_IN⟩
  setupTrb :: ((if len ≠ 0 ∧ data ≠ 0 then [dataTrb] else []) ++ [statusTrb])

/-! ### Recovery -/

/-- The commands of `xhci_clear_endpoint_stall`; none for an endpoint that does not exist. -/
def xhciClearEndpointStall (ring : Ring) (slot ep : Nat) : List Cmd :=
  if slot > XHCI_MAX_SLOTS ∨ ep ≥ 32 then []
  else [.resetEp slot ep, .setTrDequeue slot ep (ring.addr ring.dequeueIdx) ring.cycle]

/-- The error branch of `xhci_control_transfer`: the ring and the commands. -/
def controlError (ring : Ring) (slot : Nat) : Ring × List Cmd :=
  let ring := { ring with dequeueIdx := ring.enqueueIdx }
  (ring, [.resetEp slot 1, .setTrDequeue slot 1 (ring.addr ring.dequeueIdx) ring.cycle])

/-- The test of `xhci_poll` that an address is in the ring. -/
def Ring.Contains (ring : Ring) (addr : BitVec 32) : Prop :=
  ring.physAddr ≠ 0 ∧ ring.physAddr ≤ addr ∧ addr < ring.physAddr + BitVec.ofNat 32 (ring.size * 16)

instance (ring : Ring) (addr : BitVec 32) : Decidable (ring.Contains addr) :=
  inferInstanceAs (Decidable (_ ∧ _ ∧ _))

/-- `xhci_poll` notes where in the ring the TRB of a transfer event is. -/
def Ring.noteCompletion (ring : Ring) (evt : Trb) : Ring :=
  if ring.Contains evt.parameterLo then { ring with dequeueIdx := ring.indexOf evt.parameterLo }
  else ring

/-- The controller executes a command for this endpoint: Set TR Dequeue Pointer takes the place
    from the upper bits of the parameter and the cycle state from bit 0. -/
def Ring.afterCmd (ring : Ring) (c : Reader) (cmd : Cmd) : Reader :=
  match cmd with
  | .setTrDequeue .. =>
    ⟨ring.indexOf (cmd.trb.parameterLo &&& ~~~0xF), cmd.trb.parameterLo.getLsbD 0⟩
  | _ => c

end Gemios.Xhci
