import Gemios.Bytes
import Gemios.RecordWalk
import Mathlib.Logic.Function.Basic

/-!
# Configuration descriptors

The loop of `usb_enumerate_device` in `src/src/usb/usb_core.c` that goes through the configuration
descriptor of a device, with its accesses to the buffer and to the tables.  The descriptor is at
the start of a memory of which `n` bytes belong to it.
-/

namespace Gemios.Usb

def USB_DESC_INTERFACE : UInt8 := 0x04
def USB_DESC_ENDPOINT : UInt8 := 0x05
def USB_DESC_SS_EP_COMPANION : UInt8 := 0x30
def USB_DIR_IN : UInt8 := 0x80
def USB_SPEED_FULL : Nat := 1
def USB_SPEED_LOW : Nat := 2
def USB_SPEED_SUPER : Nat := 4
def USB_MAX_ENDPOINTS : Nat := 16
def USB_MAX_INTERFACES : Nat := 8

/-- An access to the buffer or to a table, by its index; the last four are tables of
    `usb_audio_init_device`. -/
inductive Access where
  | byte (i : Nat)
  | iface (i : Nat)
  | endpoint (i : Nat)
  | ring (dci : Nat)
  | unitSrc (i : Nat)
  | inTermType (i : Nat)
  | selPinCount (i : Nat)
  | selPin (i k : Nat)

/-- The access is inside of the buffer of `n` bytes, or of the table. -/
def Access.InBounds (n : Nat) : Access → Prop
  | .byte i => i < n
  | .iface i => i < USB_MAX_INTERFACES
  | .endpoint i => i < USB_MAX_ENDPOINTS
  | .ring dci => dci < 32
  | .unitSrc i | .inTermType i | .selPinCount i => i < 32
  | .selPin i k => i < 32 ∧ k < 8

structure UsbEndpoint where
  address : UInt8
  attributes : UInt8
  maxPacketSize : Nat
  interval : UInt8
  dci : Nat
deriving DecidableEq

/-- `usb_interface_t`; `num_endpoints` is the length of `endpoints`. -/
structure UsbInterface where
  interfaceNumber : UInt8
  alternateSetting : UInt8
  interfaceClass : UInt8
  interfaceSubclass : UInt8
  interfaceProtocol : UInt8
  endpoints : List UsbEndpoint
deriving DecidableEq

/-- The words of `xhci_ep_ctx_t` that the loop fills in itself; the dequeue pointer is the address of
    the ring. -/
structure EpCtx where
  info1 : Nat
  info2 : Nat
  txInfo : Nat

/-- What the loop fills in.  `curIface` is an index of `interfaces`; `rings` are the endpoints that
    `xhci_init_ep_ring` was called for. -/
structure ConfigWalk where
  interfaces : List UsbInterface
  curIface : Option Nat
  maxDci : Nat
  rings : List Nat
  addFlags : BitVec 32
  contexts : Nat → EpCtx

/-! ### An endpoint -/

/-- The device context index of an endpoint address. -/
def dciOf (address : UInt8) : Nat :=
  (address &&& 0x0F).toNat * 2 + if address &&& USB_DIR_IN ≠ 0 then 1 else 0

def epTypeOf (xferType : UInt8) (dirIn : Bool) : Nat :=
  if xferType = 0 then 4
  else if xferType = 1 then if dirIn then 5 else 1
  else if xferType = 2 then if dirIn then 6 else 2
  else if dirIn then 7 else 3

def intervalOf (speed : Nat) (xferType interval : UInt8) : UInt8 :=
  if speed = USB_SPEED_FULL ∨ speed = USB_SPEED_LOW then
    if xferType = 1 then if interval > 0 then interval + 3 else 4 else 3
  else interval

section

variable (mem : Buf) (n speed : Nat)

/-- The endpoint descriptor at `p`, cast to `usb_endpoint_descriptor_t`. -/
def endpointAt (p : Nat) : UsbEndpoint where
  address := mem (p + 2)
  attributes := mem (p + 3)
  maxPacketSize := le16 mem (p + 4)
  interval := mem (p + 6)
  dci := dciOf (mem (p + 2))

/-- The look at the descriptor behind an endpoint, which may be its companion. -/
def maxBurst (p : Nat) : UInt8 :=
  let next := p + (mem p).toNat
  if speed ≥ USB_SPEED_SUPER ∧ next < n ∧ mem (next + 1) = USB_DESC_SS_EP_COMPANION ∧ mem next ≥ 3 then
    mem (next + 2)
  else 0

def companionReads (p : Nat) : List Access :=
  let next := p + (mem p).toNat
  if speed ≥ USB_SPEED_SUPER ∧ next < n then
    .byte (next + 1) ::
      if mem (next + 1) = USB_DESC_SS_EP_COMPANION then
        .byte next :: if mem next ≥ 3 then [.byte (next + 2)] else []
      else []
  else []

def epContext (ep : UsbEndpoint) (burst : UInt8) : EpCtx :=
  let dirIn := ep.address &&& USB_DIR_IN ≠ 0
  let xferType := ep.attributes &&& 0x03
  let cerr := if xferType = 1 then 0 else 3
  let maxEsit := if xferType = 1 then ep.maxPacketSize else 0
  { info1 := ((intervalOf speed xferType ep.interval).toNat <<< 16) |||
      (((maxEsit >>> 16) &&& 0xFF) <<< 24)
    info2 := (cerr <<< 1) ||| (epTypeOf xferType dirIn <<< 3) ||| (burst.toNat <<< 8) |||
      (ep.maxPacketSize <<< 16)
    txInfo := (ep.maxPacketSize &&& 0xFFFF) ||| ((maxEsit &&& 0xFFFF) <<< 16) }

def UsbInterface.addEndpoint (itf : UsbInterface) (ep : UsbEndpoint) : UsbInterface :=
  { itf with endpoints := itf.endpoints ++ [ep] }

/-! ### The loop -/

/-- The interface descriptor at `p`, cast to `usb_interface_descriptor_t`. -/
def ifaceAt (p : Nat) : UsbInterface where
  interfaceNumber := mem (p + 2)
  alternateSetting := mem (p + 3)
  interfaceClass := mem (p + 5)
  interfaceSubclass := mem (p + 6)
  interfaceProtocol := mem (p + 7)
  endpoints := []

def ifaceStep (p : Nat) (w : ConfigWalk) : ConfigWalk × List Access :=
  let num := w.interfaces.length
  if num < USB_MAX_INTERFACES then
    ({ w with interfaces := w.interfaces ++ [ifaceAt mem p], curIface := some num },
      [.iface num, .byte (p + 2), .byte (p + 3), .byte (p + 5), .byte (p + 6), .byte (p + 7)])
  else (w, [])

/-- The branch for an endpoint descriptor: the entry, its ring, its context and its add flag. -/
def endpointStep (p : Nat) (w : ConfigWalk) : ConfigWalk × List Access :=
  match w.curIface with
  | some cur =>
    let num := (w.interfaces[cur]?.elim [] UsbInterface.endpoints).length
    if num < USB_MAX_ENDPOINTS then
      let ep := endpointAt mem p
      ({ w with
          interfaces := w.interfaces.modify cur (·.addEndpoint ep)
          maxDci := max w.maxDci ep.dci
          rings := w.rings ++ [ep.dci]
          addFlags := w.addFlags ||| ((1 : BitVec 32) <<< ep.dci)
          contexts := Function.update w.contexts ep.dci (epContext speed ep (maxBurst mem n speed p)) },
        [.iface cur, .endpoint num, .byte (p + 2), .byte (p + 3), .byte (p + 4), .byte (p + 5),
          .byte (p + 6), .ring ep.dci] ++ companionReads mem n speed p)
    else (w, [.iface cur])
  | none => (w, [])

/-- The body of the loop, for a descriptor that is not cut off. -/
def configBody (p : Nat) (w : ConfigWalk) : ConfigWalk × List Access :=
  if mem (p + 1) = USB_DESC_INTERFACE then ifaceStep mem p w
  else if mem (p + 1) = USB_DESC_ENDPOINT then endpointStep mem n speed p w
  else (w, [])

/-- Both loops read the length and the type of each descriptor. -/
def descHead (p : Nat) : List Access := [.byte p, .byte (p + 1)]

def descLen (p : Nat) : Nat := (mem p).toNat

/-- Before the loop: only the slot context is to be added. -/
def ConfigWalk.start : ConfigWalk := ⟨[], none, 1, [], 1, fun _ => ⟨0, 0, 0⟩⟩

def configWalk : ConfigWalk × List Access :=
  recordWalk (descLen mem) n descHead (configBody mem n speed) n 0 .start

end

/-! ### What the loop keeps -/

theorem dciOf_lt (address : UInt8) : dciOf address < 32 := by
  have hnum : (address &&& 0x0F).toNat ≤ 15 := by
    rw [UInt8.toNat_and]
    exact Nat.and_le_right
  unfold dciOf
  split <;> omega

/-- The current interface is the last one that was recorded, and the tables are not too long. -/
structure ConfigWalk.Ok (w : ConfigWalk) : Prop where
  cur : w.curIface = if w.interfaces.length = 0 then none else some (w.interfaces.length - 1)
  ifaces : w.interfaces.length ≤ USB_MAX_INTERFACES
  endpoints : ∀ itf ∈ w.interfaces, itf.endpoints.length ≤ USB_MAX_ENDPOINTS

theorem ConfigWalk.Ok.start : ConfigWalk.start.Ok := ⟨rfl, Nat.zero_le _, by simp [ConfigWalk.start]⟩

theorem modify_last {α : Type} (f : α → α) (xs : List α) (x : α) :
    (xs ++ [x]).modify xs.length f = xs ++ [f x] := by
  induction xs with
  | nil => rfl
  | cons y ys ih => exact congrArg (y :: ·) ih

variable {mem : Buf} {n speed p : Nat} {w : ConfigWalk}

theorem endpointStep_some (hw : w.Ok) {itfs : List UsbInterface} {itf : UsbInterface}
    (h : w.interfaces = itfs ++ [itf]) :
    endpointStep mem n speed p w =
      if itf.endpoints.length < USB_MAX_ENDPOINTS then
        ({ w with
            interfaces := itfs ++ [itf.addEndpoint (endpointAt mem p)]
            maxDci := max w.maxDci (endpointAt mem p).dci
            rings := w.rings ++ [(endpointAt mem p).dci]
            addFlags := w.addFlags ||| ((1 : BitVec 32) <<< (endpointAt mem p).dci)
            contexts := Function.update w.contexts (endpointAt mem p).dci
              (epContext speed (endpointAt mem p) (maxBurst mem n speed p)) },
          [.iface itfs.length, .endpoint itf.endpoints.length, .byte (p + 2), .byte (p + 3),
            .byte (p + 4), .byte (p + 5), .byte (p + 6), .ring (endpointAt mem p).dci] ++
            companionReads mem n speed p)
      else (w, [.iface itfs.length]) := by
  have hcur : w.curIface = some itfs.length := by rw [hw.cur, h]; simp
  have hget : w.interfaces[itfs.length]? = some itf := by simp [h]
  have hmodify : w.interfaces.modify itfs.length (·.addEndpoint (endpointAt mem p)) =
      itfs ++ [itf.addEndpoint (endpointAt mem p)] := by rw [h, modify_last]
  simp only [endpointStep, hcur, hget, Option.elim_some, hmodify]

theorem endpointStep_none (hw : w.Ok) (h : w.interfaces = []) :
    endpointStep mem n speed p w = (w, []) := by
  have hcur : w.curIface = none := by rw [hw.cur, h]; rfl
  simp only [endpointStep, hcur]

theorem ifaceStep_ok (hw : w.Ok) : (ifaceStep mem p w).1.Ok := by
  unfold ifaceStep
  dsimp only
  split
  · rename_i hroom
    refine ⟨?_, ?_, ?_⟩
    · simp
    · rw [List.length_append]
      exact hroom
    · intro itf hitf
      rcases List.mem_append.mp hitf with hold | hnew
      · exact hw.endpoints itf hold
      · rw [List.mem_singleton.mp hnew]
        exact Nat.zero_le _
  · exact hw

theorem endpointStep_ok (hw : w.Ok) : (endpointStep mem n speed p w).1.Ok := by
  rcases List.eq_nil_or_concat' w.interfaces with h | ⟨itfs, itf, h⟩
  · rwa [endpointStep_none hw h]
  · rw [endpointStep_some hw h]
    split
    · rename_i hroom
      have hlen : w.interfaces.length = itfs.length + 1 := by simp [h]
      refine ⟨?_, ?_, ?_⟩
      · rw [hw.cur, hlen]
        simp
      · have := hw.ifaces
        simp only [List.length_append, List.length_singleton]
        omega
      · intro itf' hitf'
        rcases List.mem_append.mp hitf' with hold | hnew
        · exact hw.endpoints itf' (by rw [h]; exact List.mem_append_left _ hold)
        · rw [List.mem_singleton.mp hnew]
          simp only [UsbInterface.addEndpoint, List.length_append, List.length_singleton]
          exact hroom
    · exact hw

theorem configBody_ok (mem : Buf) (n speed p : Nat) (w : ConfigWalk) (hw : w.Ok) :
    (configBody mem n speed p w).1.Ok := by
  unfold configBody
  split
  · exact ifaceStep_ok hw
  · split
    · exact endpointStep_ok hw
    · exact hw

end Gemios.Usb
