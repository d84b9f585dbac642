import Mathlib.Data.List.Basic
import Mathlib.Logic.Function.Basic

/-!
# The USB device tables

The tables of `src/src/usb/usb_core.c`, `usb_msc.c`, `usb_hub.c` and `usb_hid.c` and of
`src/src/fs/blockdev.c`, with what a device that is plugged in or pulled out does to them.  A
pointer into a table is an index.
-/

namespace Gemios.Usb

open Function

def USB_MAX_DEVICES : Nat := 32
def MAX_MSC_DEVS : Nat := 4
def MAX_BLOCK_DEVS : Nat := 8
def MAX_HUBS : Nat := 4
def MAX_HID_KBDS : Nat := 4
def MAX_HID_MICE : Nat := 4

/-- An interface, with what its driver finds out about it. -/
inductive Iface where
  /-- A keyboard, with its interrupt endpoint if it has one. -/
  | keyboard (inDci : Option Nat)
  | mouse (inDci : Option Nat)
  /-- A disk: whether both bulk endpoints are there, and its blocks and block size if it tells. -/
  | storage (bulk : Bool) (capacity : Option (Nat × Nat))
  | other
deriving DecidableEq

/-- The endpoint of an interface that becomes a keyboard. -/
def Iface.kbdDci : Iface → Option Nat
  | .keyboard inDci => inDci
  | _ => none

/-- The endpoint of an interface that becomes a mouse. -/
def Iface.mouseDci : Iface → Option Nat
  | .mouse inDci => inDci
  | _ => none

/-- A disk: both bulk endpoints are there, and it tells how many blocks it has. -/
def Iface.isDisk : Iface → Bool
  | .storage true (some (_ + 1, _)) => true
  | _ => false

/-- `usb_device_t`.  `plug` is not in the source: it says which time of plugging in it is. -/
structure UsbDevice where
  active : Bool
  slotId : Nat
  rootPort : Nat
  parentHubSlot : Nat
  parentPort : Nat
  isHub : Bool
  interfaces : List Iface
  plug : Nat

/-- The interfaces that the drivers of step 10 are for; a hub has a driver of its own. -/
def UsbDevice.driven (dev : UsbDevice) : List Iface := if dev.isHub then [] else dev.interfaces

/-- `block_dev_t`; `priv` is an index of `msc_devs`, or NULL. -/
structure BlockDev where
  name : String
  blockSize : Nat
  totalBlocks : Nat
  priv : Option Nat

structure MscDev where
  dev : Nat
  ready : Bool
  bdev : BlockDev

/-- `usb_hub_t`, `usb_hid_kbd_t` or `usb_hid_mouse_t`, with the time of plugging in it is for. -/
structure Binding where
  dev : Nat
  inDci : Nat
  plug : Nat
deriving DecidableEq

/-- The tables.  `registered` holds pointers to the block devices in `mscDevs`.  `plugs` and
    `storages` are not in the source: how often something was plugged in, and the name of each
    attached disk with the time it was plugged in. -/
structure Tables where
  devices : Nat → UsbDevice
  deviceCount : Nat
  mscDevs : Nat → MscDev
  mscCount : Nat
  registered : List Nat
  hubs : List Binding
  kbds : List Binding
  mice : List Binding
  plugs : Nat
  storages : List (String × Nat)

namespace Tables

/-! ### Block devices -/

def blockdevRegister (s : Tables) (bdev : Nat) : Tables :=
  if s.registered.length ≥ MAX_BLOCK_DEVS then s else { s with registered := s.registered ++ [bdev] }

def blockdevUnregister (s : Tables) (bdev : Nat) : Tables :=
  { s with registered := s.registered.erase bdev }

def blockdevGet (s : Tables) (name : String) : Option Nat :=
  s.registered.find? fun bdev => (s.mscDevs bdev).bdev.name == name

/-- The device that a read or write through a block device goes to. -/
def access (s : Tables) (bdev : Nat) : Option Nat :=
  match (s.mscDevs bdev).bdev.priv with
  | some msc =>
    if (s.mscDevs msc).ready ∧ (s.devices (s.mscDevs msc).dev).active then
      some (s.devices (s.mscDevs msc).dev).plug
    else none
  | none => none

/-! ### Drivers -/

def mscName (n : Nat) : String := "usb" ++ toString n

def blankMsc (dev : Nat) : MscDev := ⟨dev, false, ⟨"", 0, 0, none⟩⟩

def mscRecord (n dev blocks size : Nat) : MscDev :=
  ⟨dev, true, ⟨mscName n, if size = 0 ∨ size > 4096 then 512 else size, blocks, some n⟩⟩

/-- The end of `usb_msc_init_device`. -/
def mscReady (s : Tables) (dev blocks size : Nat) : Tables :=
  { blockdevRegister { s with
      mscDevs := update s.mscDevs s.mscCount (mscRecord s.mscCount dev blocks size)
      storages := s.storages ++ [(mscName s.mscCount, (s.devices dev).plug)] } s.mscCount with
    mscCount := s.mscCount + 1 }

def usbMscInitDevice (s : Tables) (dev : Nat) (bulk : Bool) (capacity : Option (Nat × Nat)) : Tables :=
  if s.mscCount ≥ MAX_MSC_DEVS then s
  else if !bulk then s
  else
    match capacity with
    | some (blocks + 1, size) => s.mscReady dev (blocks + 1) size
    | _ => { s with mscDevs := update s.mscDevs s.mscCount (blankMsc dev) }

/-- `usb_msc_remove_device`: the records behind the one of the device move up. -/
def usbMscRemoveDevice (s : Tables) (dev : Nat) : Tables :=
  match (List.range s.mscCount).find? fun i => (s.mscDevs i).dev == dev with
  | some i =>
    { s.blockdevUnregister i with
      mscDevs := fun j => if i ≤ j ∧ j < s.mscCount - 1 then s.mscDevs (j + 1) else s.mscDevs j
      mscCount := s.mscCount - 1 }
  | none => s

/-- What the hub and HID drivers keep of a device. -/
def binding (s : Tables) (dev inDci : Nat) : Binding := ⟨dev, inDci, (s.devices dev).plug⟩

def usbHubInitDevice (s : Tables) (dev : Nat) : Tables :=
  if s.hubs.length ≥ MAX_HUBS then s else { s with hubs := s.hubs ++ [s.binding dev 0] }

/-- `usb_hub_find_by_slot`, which does not ask if the device is active. -/
def usbHubFindBySlot (s : Tables) (slot : Nat) : Option Binding :=
  s.hubs.find? fun b => (s.devices b.dev).slotId == slot

/-- Step 10 of `usb_enumerate_device` for an interface: `usb_hid_init_device` or
    `usb_msc_init_device`. -/
def attachDriver (dev : Nat) (s : Tables) : Iface → Tables
  | .keyboard (some inDci) =>
    if s.kbds.length < MAX_HID_KBDS then { s with kbds := s.kbds ++ [s.binding dev inDci] } else s
  | .mouse (some inDci) =>
    if s.mice.length < MAX_HID_MICE then { s with mice := s.mice ++ [s.binding dev inDci] } else s
  | .storage bulk capacity => s.usbMscInitDevice dev bulk capacity
  | _ => s

/-! ### Devices -/

/-- The first record of `usb_devices` with a property. -/
def findDevice (s : Tables) (p : UsbDevice → Bool) : Option Nat :=
  (List.range USB_MAX_DEVICES).find? fun i => p (s.devices i)

def getDeviceBySlot (s : Tables) (slot : Nat) : Option Nat :=
  s.findDevice fun dev => dev.active && dev.slotId == slot

def getDeviceByRootPort (s : Tables) (port : Nat) : Option Nat :=
  s.findDevice fun dev => dev.active && dev.rootPort == port && dev.parentHubSlot == 0

def getDeviceByParent (s : Tables) (hubSlot port : Nat) : Option Nat :=
  s.findDevice fun dev => dev.active && dev.parentHubSlot == hubSlot && dev.parentPort == port

/-- The record that `usb_create_device` takes. -/
def freeDevice (s : Tables) : Option Nat := s.findDevice fun dev => !dev.active

/-- A device that is plugged in, as it tells itself, and the slot that the controller gives it. -/
structure Gadget where
  slot : Nat
  isHub : Bool
  interfaces : List Iface

def Gadget.driven (g : Gadget) : List Iface := if g.isHub then [] else g.interfaces

/-- The record that `usb_enumerate_device` fills in. -/
def Gadget.device (g : Gadget) (rootPort parentHubSlot parentPort plug : Nat) : UsbDevice :=
  ⟨true, g.slot, rootPort, parentHubSlot, parentPort, g.isHub, g.interfaces, plug⟩

/-- `usb_create_device`, with the free record given. -/
def usbCreateDevice (s : Tables) (d : Nat) (dev : UsbDevice) : Tables :=
  { s with
    devices := update s.devices d dev
    deviceCount := s.deviceCount + 1
    plugs := s.plugs + 1 }

/-- `usb_enumerate_device`, when nothing fails but that there may be no free record. -/
def usbEnumerateDevice (s : Tables) (g : Gadget) (rootPort parentHubSlot parentPort : Nat) : Tables :=
  match s.freeDevice with
  | some d =>
    let s := s.usbCreateDevice d (g.device rootPort parentHubSlot parentPort s.plugs)
    if g.isHub then s.usbHubInitDevice d else g.interfaces.foldl (attachDriver d) s
  | none => s

def usbRemoveDevice (s : Tables) (slot : Nat) : Tables :=
  match s.getDeviceBySlot slot with
  | some d =>
    let plug := (s.devices d).plug
    let s := s.usbMscRemoveDevice d
    { s with
      devices := update s.devices d { s.devices d with active := false }
      deviceCount := s.deviceCount - 1
      storages := s.storages.filter fun e => e.2 != plug }
  | none => s

/-- What happens to the tables, once it is clear that something does. -/
inductive Change where
  | enumerate (g : Gadget) (rootPort parentHubSlot parentPort : Nat)
  | remove (slot : Nat)

def apply (s : Tables) : Change → Tables
  | .enumerate g rootPort parentHubSlot parentPort =>
    s.usbEnumerateDevice g rootPort parentHubSlot parentPort
  | .remove slot => s.usbRemoveDevice slot

def empty : Tables where
  devices _ := ⟨false, 0, 0, 0, 0, false, [], 0⟩
  deviceCount := 0
  mscDevs _ := blankMsc 0
  mscCount := 0
  registered := []
  hubs := []
  kbds := []
  mice := []
  plugs := 0
  storages := []

/-! ### The device table -/

variable {s : Tables} {p : UsbDevice → Bool}

theorem usbCreateDevice_self (d : Nat) (dev : UsbDevice) : (s.usbCreateDevice d dev).devices d = dev :=
  update_self ..

theorem usbCreateDevice_of_ne {d i : Nat} (h : i ≠ d) (dev : UsbDevice) :
    (s.usbCreateDevice d dev).devices i = s.devices i :=
  update_of_ne h ..

theorem findDevice_some {d : Nat} (h : s.findDevice p = some d) :
    d < USB_MAX_DEVICES ∧ p (s.devices d) = true :=
  ⟨List.mem_range.mp (List.mem_of_find?_eq_some h), List.find?_some (p := fun i => p (s.devices i)) h⟩

/-! ### What the drivers leave alone -/

/-- Only the tables of the disks and of the block devices differ. -/
structure SameTree (s s' : Tables) : Prop where
  devices : s'.devices = s.devices
  deviceCount : s'.deviceCount = s.deviceCount
  plugs : s'.plugs = s.plugs
  hubs : s'.hubs = s.hubs
  kbds : s'.kbds = s.kbds
  mice : s'.mice = s.mice

theorem SameTree.refl (s : Tables) : SameTree s s := ⟨rfl, rfl, rfl, rfl, rfl, rfl⟩

theorem blockdevRegister_sameTree (s : Tables) (bdev : Nat) : SameTree s (s.blockdevRegister bdev) := by
  unfold blockdevRegister
  split
  · exact .refl s
  · exact ⟨rfl, rfl, rfl, rfl, rfl, rfl⟩

theorem mscReady_sameTree (s : Tables) (dev blocks size : Nat) :
    SameTree s (s.mscReady dev blocks size) := by
  have h := blockdevRegister_sameTree { s with
    mscDevs := update s.mscDevs s.mscCount (mscRecord s.mscCount dev blocks size)
    storages := s.storages ++ [(mscName s.mscCount, (s.devices dev).plug)] } s.mscCount
  exact ⟨h.devices, h.deviceCount, h.plugs, h.hubs, h.kbds, h.mice⟩

theorem usbMscInitDevice_sameTree (s : Tables) (dev : Nat) (bulk : Bool)
    (capacity : Option (Nat × Nat)) : SameTree s (s.usbMscInitDevice dev bulk capacity) := by
  unfold usbMscInitDevice
  split
  · exact .refl s
  · split
    · exact .refl s
    · split
      · exact mscReady_sameTree ..
      · exact ⟨rfl, rfl, rfl, rfl, rfl, rfl⟩

theorem usbMscRemoveDevice_sameTree (s : Tables) (dev : Nat) :
    SameTree s (s.usbMscRemoveDevice dev) := by
  unfold usbMscRemoveDevice
  split
  · exact ⟨rfl, rfl, rfl, rfl, rfl, rfl⟩
  · exact .refl s

/-- Entries are added to a table as long as it has room for them. -/
def addBindings (size : Nat) (bs new : List Binding) : List Binding := bs ++ new.take (size - bs.length)

theorem addBindings_nil (size : Nat) (bs : List Binding) : addBindings size bs [] = bs := by
  rw [addBindings, List.take_nil, List.append_nil]

theorem addBindings_one (size : Nat) (bs : List Binding) (b : Binding) :
    addBindings size bs [b] = if bs.length < size then bs ++ [b] else bs := by
  rw [addBindings]
  split
  · rename_i hroom
    rw [List.take_of_length_le (by rw [List.length_singleton]; omega)]
  · rename_i hfull
    rw [Nat.sub_eq_zero_of_le (Nat.not_lt.mp hfull), List.take_zero, List.append_nil]

theorem addBindings_append (size : Nat) (bs xs ys : List Binding) :
    addBindings size (addBindings size bs xs) ys = addBindings size bs (xs ++ ys) := by
  unfold addBindings
  have hroom : size - (bs ++ xs.take (size - bs.length)).length = size - bs.length - xs.length := by
    rw [List.length_append, List.length_take]
    omega
  rw [hroom, List.append_assoc, List.take_append]

theorem mem_of_mem_addBindings {size : Nat} {bs new : List Binding} {b : Binding}
    (h : b ∈ addBindings size bs new) : b ∈ bs ∨ b ∈ new :=
  (List.mem_append.mp h).imp_right List.mem_of_mem_take

/-- What the drivers of a device add: bindings for its interfaces. -/
structure Attached (d : Nat) (ifaces : List Iface) (s s' : Tables) : Prop where
  devices : s'.devices = s.devices
  deviceCount : s'.deviceCount = s.deviceCount
  plugs : s'.plugs = s.plugs
  hubs : s'.hubs = s.hubs
  kbds : s'.kbds = addBindings MAX_HID_KBDS s.kbds ((ifaces.filterMap Iface.kbdDci).map (s.binding d))
  mice : s'.mice = addBindings MAX_HID_MICE s.mice ((ifaces.filterMap Iface.mouseDci).map (s.binding d))

theorem SameTree.attached {s s' : Tables} (h : SameTree s s') (d : Nat) {ifaces : List Iface}
    (hkbds : ifaces.filterMap Iface.kbdDci = []) (hmice : ifaces.filterMap Iface.mouseDci = []) :
    Attached d ifaces s s' := by
  refine ⟨h.devices, h.deviceCount, h.plugs, h.hubs, ?_, ?_⟩
  · rw [h.kbds, hkbds, List.map_nil, addBindings_nil]
  · rw [h.mice, hmice, List.map_nil, addBindings_nil]

theorem attachDriver_attached (d : Nat) (s : Tables) (iface : Iface) :
    Attached d [iface] s (attachDriver d s iface) := by
  cases iface with
  | keyboard inDci =>
    cases inDci with
    | none => exact (SameTree.refl s).attached d rfl rfl
    | some inDci =>
      have hstep : attachDriver d s (.keyboard (some inDci)) =
          { s with kbds := addBindings MAX_HID_KBDS s.kbds [s.binding d inDci] } := by
        rw [addBindings_one]
        simp only [attachDriver]
        split <;> rfl
      rw [hstep]
      exact ⟨rfl, rfl, rfl, rfl, rfl, (addBindings_nil ..).symm⟩
  | mouse inDci =>
    cases inDci with
    | none => exact (SameTree.refl s).attached d rfl rfl
    | some inDci =>
      have hstep : attachDriver d s (.mouse (some inDci)) =
          { s with mice := addBindings MAX_HID_MICE s.mice [s.binding d inDci] } := by
        rw [addBindings_one]
        simp only [attachDriver]
        split <;> rfl
      rw [hstep]
      exact ⟨rfl, rfl, rfl, rfl, (addBindings_nil ..).symm, rfl⟩
  | storage bulk capacity => exact (usbMscInitDevice_sameTree s d bulk capacity).attached d rfl rfl
  | other => exact (SameTree.refl s).attached d rfl rfl

theorem Attached.trans {d : Nat} {ifaces ifaces' : List Iface} {s s' s'' : Tables}
    (h : Attached d ifaces s s') (h' : Attached d ifaces' s' s'') : Attached d (ifaces ++ ifaces') s s'' := by
  have hbind : s'.binding d = s.binding d := by
    funext inDci
    rw [binding, h.devices, binding]
  refine ⟨h'.devices.trans h.devices, h'.deviceCount.trans h.deviceCount, h'.plugs.trans h.plugs,
    h'.hubs.trans h.hubs, ?_, ?_⟩
  · rw [h'.kbds, h.kbds, hbind, addBindings_append, List.filterMap_append, List.map_append]
  · rw [h'.mice, h.mice, hbind, addBindings_append, List.filterMap_append, List.map_append]

theorem attachDrivers_attached (d : Nat) (s : Tables) (ifaces : List Iface) :
    Attached d ifaces s (ifaces.foldl (attachDriver d) s) := by
  induction ifaces generalizing s with
  | nil => exact (SameTree.refl s).attached d rfl rfl
  | cons iface ifaces ih => exact (attachDriver_attached d s iface).trans (ih (attachDriver d s iface))

end Tables

end Gemios.Usb
