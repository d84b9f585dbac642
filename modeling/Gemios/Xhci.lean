import Gemios.CycleRing

/-!
# xHCI rings

The transfer and command rings of `src/src/usb/xhci.c`: `ring_init`, `ring_setup_link_trb`,
`xhci_ring_enqueue_trb`, the ring part of `xhci_submit_cmd`, and the commands that go through
it; with a consumer that follows the rules of the xHCI.  A store of a TRB is one step.
-/

namespace Gemios.Xhci

open Function

/-! ### TRBs -/

structure Trb where
  parameterLo : BitVec 32
  parameterHi : BitVec 32
  status : BitVec 32
  control : BitVec 32
deriving DecidableEq

def TRB_TYPE_LINK : Nat := 6
def TRB_TYPE_ENABLE_SLOT : Nat := 9
def TRB_TYPE_DISABLE_SLOT : Nat := 10
def TRB_TYPE_ADDRESS_DEVICE : Nat := 11
def TRB_TYPE_CONFIG_EP : Nat := 12
def TRB_TYPE_EVALUATE_CTX : Nat := 13
def TRB_TYPE_RESET_EP : Nat := 14
def TRB_TYPE_SET_TR_DEQUEUE : Nat := 16

def TRB_CYCLE : BitVec 32 := 1
def TRB_TC : BitVec 32 := 2
def TRB_BSR : BitVec 32 := 0x200

def trbSetType (t : Nat) : BitVec 32 := (BitVec.ofNat 32 t &&& 0x3F) <<< 10

def trbSlotId (s : Nat) : BitVec 32 := (BitVec.ofNat 32 s &&& 0xFF) <<< 24

def trbEpId (ep : Nat) : BitVec 32 := (BitVec.ofNat 32 ep &&& 0x1F) <<< 16

def zeroTrb : Trb := ⟨0, 0, 0, 0⟩

def Trb.cycleBit (trb : Trb) : Bool := trb.control.getLsbD 0

def Trb.body (trb : Trb) : Trb := { trb with control := trb.control &&& ~~~TRB_CYCLE }

def cycleFlag (cycle : Bool) : BitVec 32 := if cycle then TRB_CYCLE else 0

/-! ### Rings -/

/-- `xhci_ring_t`; `trbs` is the memory at `phys_addr`. -/
structure Ring where
  trbs : Nat → Trb
  physAddr : BitVec 32
  size : Nat
  enqueueIdx : Nat
  dequeueIdx : Nat
  cycle : Bool

def XHCI_RING_SIZE : Nat := 4096

/-- `ring_init`, with the memory of the ring allocated. -/
def ringInit (ring : Ring) (size : Nat) : Ring :=
  { ring with
    size := size
    enqueueIdx := 0
    dequeueIdx := 0
    cycle := true
    trbs := fun i => if i < size then zeroTrb else ring.trbs i }

def linkControl (cycle : Bool) : BitVec 32 := trbSetType TRB_TYPE_LINK ||| TRB_TC ||| cycleFlag cycle

def ringSetupLinkTrb (ring : Ring) : Ring :=
  { ring with
    trbs := update ring.trbs (ring.size - 1)
      ⟨ring.physAddr, 0, 0, linkControl ring.cycle⟩ }

/-- The first half of `xhci_ring_enqueue_trb`: at the Link TRB, it is written again and passed. -/
def passLink (ring : Ring) : Ring :=
  if ring.enqueueIdx ≥ ring.size - 1 then
    { ring with
      trbs := update ring.trbs (ring.size - 1)
        { ring.trbs (ring.size - 1) with
          parameterLo := ring.physAddr, parameterHi := 0, control := linkControl ring.cycle }
      enqueueIdx := 0
      cycle := !ring.cycle }
  else ring

/-- The TRB is stored at the producer's position. -/
def Ring.store (ring : Ring) (trb : Trb) : Ring :=
  { ring with
    trbs := update ring.trbs ring.enqueueIdx trb
    enqueueIdx := ring.enqueueIdx + 1 }

def xhciRingEnqueueTrb (ring : Ring) (trb : Trb) : Ring :=
  let ring := passLink ring
  let control := trb.control &&& ~~~TRB_CYCLE
  ring.store { trb with control := if ring.cycle then control ||| TRB_CYCLE else control }

/-- The physical address of a TRB of the ring. -/
def Ring.addr (ring : Ring) (idx : Nat) : BitVec 32 := ring.physAddr + BitVec.ofNat 32 (idx * 16)

/-! ### Commands -/

/-- The commands of `xhci_cmd_enable_slot` and the functions after it. -/
inductive Cmd where
  | enableSlot
  | disableSlot (slot : Nat)
  | addressDevice (slot : Nat) (inputCtx : BitVec 32) (bsr : Bool)
  | configureEp (slot : Nat) (inputCtx : BitVec 32)
  | evaluateCtx (slot : Nat) (inputCtx : BitVec 32)
  | resetEp (slot ep : Nat)
  | setTrDequeue (slot ep : Nat) (ptr : BitVec 32) (dcs : Bool)
deriving DecidableEq

def Cmd.trb : Cmd → Trb
  | .enableSlot => { zeroTrb with control := trbSetType TRB_TYPE_ENABLE_SLOT }
  | .disableSlot slot =>
    { zeroTrb with control := trbSetType TRB_TYPE_DISABLE_SLOT ||| trbSlotId slot }
  | .addressDevice slot ctx bsr =>
    { zeroTrb with
      parameterLo := ctx
      control := trbSetType TRB_TYPE_ADDRESS_DEVICE ||| trbSlotId slot |||
        if bsr then TRB_BSR else 0 }
  | .configureEp slot ctx =>
    { zeroTrb with
      parameterLo := ctx, control := trbSetType TRB_TYPE_CONFIG_EP ||| trbSlotId slot }
  | .evaluateCtx slot ctx =>
    { zeroTrb with
      parameterLo := ctx, control := trbSetType TRB_TYPE_EVALUATE_CTX ||| trbSlotId slot }
  | .resetEp slot ep =>
    { zeroTrb with
      control := trbSetType TRB_TYPE_RESET_EP ||| trbSlotId slot ||| trbEpId ep }
  | .setTrDequeue slot ep ptr dcs =>
    { zeroTrb with
      parameterLo := ptr ||| cycleFlag dcs
      control := trbSetType TRB_TYPE_SET_TR_DEQUEUE ||| trbSlotId slot ||| trbEpId ep }

/-- The start of `xhci_submit_cmd`: at the Link TRB only the control word is written again, and
    the cycle bit of the TRB is set but never cleared. -/
def submitPassLink (ring : Ring) : Ring :=
  if ring.enqueueIdx ≥ ring.size - 1 then
    { ring with
      trbs := update ring.trbs (ring.size - 1)
        { ring.trbs (ring.size - 1) with control := linkControl ring.cycle }
      enqueueIdx := 0
      cycle := !ring.cycle }
  else ring

/-- The ring part of `xhci_submit_cmd`. -/
def xhciSubmitCmd (ring : Ring) (trb : Trb) : Ring :=
  let ring := submitPassLink ring
  ring.store { trb with control := trb.control ||| cycleFlag ring.cycle }

/-! ### The consumer -/

/-- The TRB index that an address in a ring denotes. -/
def Ring.indexOf (ring : Ring) (addr : BitVec 32) : Nat := (addr - ring.physAddr).toNat / 16

/-- A step of the controller on a ring: it executes the TRB that it is at if the cycle bit agrees
    with its cycle state; the Link TRB sends it to another place. -/
def Ring.consume (ring : Ring) (c : Reader) : Option Trb × Reader :=
  let trb := ring.trbs c.idx
  if trb.cycleBit = c.cycle then
    if c.idx = ring.size - 1 then
      (none, ⟨ring.indexOf trb.parameterLo,
        if trb.control &&& TRB_TC ≠ 0 then !c.cycle else c.cycle⟩)
    else (some trb, ⟨c.idx + 1, c.cycle⟩)
  else (none, c)

/-! ### Addresses of TRBs -/

theorem Ring.addr_align {ring : Ring} (halign : ring.physAddr.toNat % 64 = 0) (idx : Nat) :
    (ring.addr idx).toNat % 16 = 0 := by
  simp only [Ring.addr, BitVec.toNat_add, BitVec.toNat_ofNat]
  omega

theorem getLsbD_of_align {ptr : BitVec 32} (halign : ptr.toNat % 16 = 0) {i : Nat} (hi : i < 4) :
    ptr.getLsbD i = false := by
  have hptr : ptr.toNat = ptr.toNat / 16 * 2 ^ 4 := by omega
  rw [BitVec.getLsbD, hptr, Nat.testBit_mul_two_pow, decide_eq_false (Nat.not_le.mpr hi),
    Bool.false_and]

theorem pointer_or_flags {ptr flags : BitVec 32} (halign : ptr.toNat % 16 = 0)
    (hflags : ∀ i < 32, 4 ≤ i → flags.getLsbD i = false) : (ptr ||| flags) &&& ~~~0xF = ptr := by
  have hmask : ∀ i < 32, (~~~(0xF : BitVec 32)).getLsbD i = decide (4 ≤ i) := by decide
  apply BitVec.eq_of_getLsbD_eq
  intro i hi
  rw [BitVec.getLsbD_and, BitVec.getLsbD_or, hmask i hi]
  by_cases h4 : 4 ≤ i
  · rw [hflags i hi h4]
    simp [h4]
  · rw [getLsbD_of_align halign (Nat.lt_of_not_le h4)]
    simp [h4]

/-! ### TRBs and cycle bits -/

@[simp] theorem cycleFlag_getLsbD (cycle : Bool) : (cycleFlag cycle).getLsbD 0 = cycle := by
  cases cycle <;> rfl

theorem linkControl_getLsbD (cycle : Bool) : (linkControl cycle).getLsbD 0 = cycle := by
  cases cycle <;> rfl

theorem linkControl_tc (cycle : Bool) : linkControl cycle &&& TRB_TC ≠ 0 := by
  cases cycle <;> decide

theorem getLsbD_not_cycle (i : Nat) (hi : i < 32) : (~~~TRB_CYCLE).getLsbD i = decide (i ≠ 0) := by
  have hall : ∀ i < 32, (~~~TRB_CYCLE).getLsbD i = decide (i ≠ 0) := by decide
  exact hall i hi

theorem getLsbD_cycleFlag (cycle : Bool) (i : Nat) (hi : i < 32) :
    (cycleFlag cycle).getLsbD i = (decide (i = 0) && cycle) := by
  have hall : ∀ c, ∀ i < 32, (cycleFlag c).getLsbD i = (decide (i = 0) && c) := by decide
  exact hall cycle i hi

theorem body_or_flag {x : BitVec 32} (h : x.getLsbD 0 = false) (cycle : Bool) :
    (x ||| cycleFlag cycle) &&& ~~~TRB_CYCLE = x := by
  apply BitVec.eq_of_getLsbD_eq
  intro i hi
  rw [BitVec.getLsbD_and, BitVec.getLsbD_or, getLsbD_cycleFlag _ i hi, getLsbD_not_cycle i hi]
  by_cases hzero : i = 0
  · rw [hzero, h]
    simp
  · simp [hzero]

theorem clear_getLsbD (x : BitVec 32) : (x &&& ~~~TRB_CYCLE).getLsbD 0 = false := by
  rw [BitVec.getLsbD_and, getLsbD_not_cycle 0 (by decide)]
  simp

theorem clear_of_clear {x : BitVec 32} (h : x.getLsbD 0 = false) : x &&& ~~~TRB_CYCLE = x := by
  simpa [cycleFlag] using body_or_flag h false

theorem stored_trb (trb : Trb) {x : BitVec 32} (hx : x = trb.control &&& ~~~TRB_CYCLE) (cycle : Bool) :
    ({ trb with control := x ||| cycleFlag cycle } : Trb).body = trb.body ∧
      ({ trb with control := x ||| cycleFlag cycle } : Trb).cycleBit = cycle := by
  have hclear : x.getLsbD 0 = false := by rw [hx, clear_getLsbD]
  constructor
  · simp only [Trb.body, body_or_flag hclear]
    rw [hx]
  · simp only [Trb.cycleBit, BitVec.getLsbD_or, hclear, cycleFlag_getLsbD, Bool.false_or]

theorem Cmd.trb_clear (cmd : Cmd) : cmd.trb.control.getLsbD 0 = false := by
  cases cmd with
  | addressDevice slot ctx bsr => cases bsr <;> simp [Cmd.trb, trbSetType, trbSlotId, TRB_BSR]
  | _ => simp [Cmd.trb, trbSetType, trbSlotId, trbEpId]

end Gemios.Xhci
