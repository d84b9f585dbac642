import Gemios.UsbTree
import Mathlib.Data.List.Find

/-!
# The device tree under hot-plug

What is plugged in and pulled out on root ports and hub ports.  Pulling a device out frees its
record, but the entries of the hub, keyboard and mouse tables stay, and so do the devices behind a
hub.  As long as no such entry or device is left behind, the tables are consistent, and a device
that is plugged in again is bound like the first time.
-/

namespace Gemios.Usb.Tables

/-! ### Events on ports -/

/-- What `xhci_poll` and `usb_hub_poll` see; a hub is an entry of the hub table. -/
inductive PortEvent where
  | rootConnect (port : Nat) (g : Gadget)
  | rootDisconnect (port : Nat)
  | hubConnect (hub port : Nat) (g : Gadget)
  | hubDisconnect (hub port : Nat)

/-- The record of the device of a hub entry; `usb_hub_poll` skips inactive ones. -/
def hubDevice (s : Tables) (hub : Nat) : Option UsbDevice :=
  (s.hubs[hub]?.map fun b => s.devices b.dev).filter fun dev => dev.active

def change (s : Tables) : PortEvent → Option Change
  | .rootConnect port g =>
    if (s.getDeviceByRootPort port).isNone then some (.enumerate g port 0 0) else none
  | .rootDisconnect port =>
    (s.getDeviceByRootPort port).map fun d => .remove (s.devices d).slotId
  | .hubConnect hub port g =>
    (s.hubDevice hub).bind fun dev =>
      if (s.getDeviceByParent dev.slotId port).isNone then
        some (.enumerate g dev.rootPort dev.slotId port)
      else none
  | .hubDisconnect hub port =>
    (s.hubDevice hub).bind fun dev =>
      (s.getDeviceByParent dev.slotId port).map fun d => .remove (s.devices d).slotId

def portEvent (s : Tables) (ev : PortEvent) : Tables := (s.change ev).elim s s.apply

def portEvents (s : Tables) (evs : List PortEvent) : Tables := evs.foldl portEvent s

def SlotFree (s : Tables) : Change → Prop
  | .enumerate g .. => 0 < g.slot ∧
      ∀ i < USB_MAX_DEVICES, (s.devices i).active = true → (s.devices i).slotId ≠ g.slot
  | .remove _ => True

instance (s : Tables) : (c : Change) → Decidable (s.SlotFree c)
  | .enumerate g .. => inferInstanceAs (Decidable (0 < g.slot ∧
      ∀ i < USB_MAX_DEVICES, (s.devices i).active = true → (s.devices i).slotId ≠ g.slot))
  | .remove _ => isTrue trivial

/-! ### What the tables should say -/

def activeCount (s : Tables) : Nat :=
  (List.range USB_MAX_DEVICES).countP fun i => (s.devices i).active

/-- A binding is for the device that is in its record now. -/
def Current (s : Tables) (b : Binding) : Prop :=
  (s.devices b.dev).active = true ∧ (s.devices b.dev).plug = b.plug

instance (s : Tables) (b : Binding) : Decidable (s.Current b) :=
  inferInstanceAs (Decidable ((s.devices b.dev).active = true ∧ (s.devices b.dev).plug = b.plug))

def live (s : Tables) (bs : List Binding) : List Binding := bs.filter fun b => decide (s.Current b)

/-- The counter, the slots, the hubs above the devices, and the entries that are used: of the hub
    table those with an active device, which are also found by its slot, of the other two all. -/
structure TreeOk (s : Tables) : Prop where
  count : s.deviceCount = s.activeCount
  slots : ∀ i < USB_MAX_DEVICES, ∀ j < USB_MAX_DEVICES, (s.devices i).active = true →
    (s.devices j).active = true → (s.devices i).slotId = (s.devices j).slotId → i = j
  parents : ∀ i < USB_MAX_DEVICES, (s.devices i).active = true → (s.devices i).parentHubSlot ≠ 0 →
    ∃ j < USB_MAX_DEVICES, (s.devices j).active = true ∧ (s.devices j).isHub = true ∧
      (s.devices j).slotId = (s.devices i).parentHubSlot
  hubs : ∀ b ∈ s.hubs, (s.devices b.dev).active = true →
    (s.devices b.dev).isHub = true ∧ (s.devices b.dev).plug = b.plug
  found : ∀ b ∈ s.hubs, (s.devices b.dev).active = true →
    s.usbHubFindBySlot (s.devices b.dev).slotId = some b
  kbds : ∀ b ∈ s.kbds, s.Current b ∧ .keyboard (some b.inDci) ∈ (s.devices b.dev).interfaces
  mice : ∀ b ∈ s.mice, s.Current b ∧ .mouse (some b.inDci) ∈ (s.devices b.dev).interfaces

def Gadget.hubs (g : Gadget) (d plug : Nat) : List Binding := if g.isHub then [⟨d, 0, plug⟩] else []

/-- The entries of the keyboard table that a device gets. -/
def Gadget.kbds (g : Gadget) (d plug : Nat) : List Binding :=
  (g.driven.filterMap Iface.kbdDci).map fun inDci => ⟨d, inDci, plug⟩

/-- The entries of the mouse table that a device gets. -/
def Gadget.mice (g : Gadget) (d plug : Nat) : List Binding :=
  (g.driven.filterMap Iface.mouseDci).map fun inDci => ⟨d, inDci, plug⟩

/-- Plugging in works like the first time: the device is bound as it would be if nothing but the
    devices that are there now had ever been plugged in. -/
def LikeFirst (s : Tables) : Change → Prop
  | .enumerate g rootPort hubSlot port => ∀ d ∈ s.freeDevice,
      let s' := s.usbEnumerateDevice g rootPort hubSlot port
      s'.live s'.hubs = addBindings MAX_HUBS (s.live s.hubs) (g.hubs d s.plugs) ∧
      s'.live s'.kbds = addBindings MAX_HID_KBDS (s.live s.kbds) (g.kbds d s.plugs) ∧
      s'.live s'.mice = addBindings MAX_HID_MICE (s.live s.mice) (g.mice d s.plugs)
  | .remove _ => True

structure Bounds (s : Tables) : Prop where
  slotPos : ∀ i < USB_MAX_DEVICES, (s.devices i).active = true → 0 < (s.devices i).slotId
  hubDev : ∀ b ∈ s.hubs, b.dev < USB_MAX_DEVICES
  hubPlug : ∀ b ∈ s.hubs, b.plug < s.plugs

/-- The hub table has room for one more hub, and no old entry has its slot; or it is full of hubs
    that are there. -/
def HubRoom (s : Tables) (slot : Nat) : Prop :=
  s.hubs.length < MAX_HUBS ∧ (∀ b ∈ s.hubs, (s.devices b.dev).slotId ≠ slot) ∨
    MAX_HUBS ≤ (s.live s.hubs).length

instance (s : Tables) (slot : Nat) : Decidable (s.HubRoom slot) :=
  inferInstanceAs (Decidable (s.hubs.length < MAX_HUBS ∧
    (∀ b ∈ s.hubs, (s.devices b.dev).slotId ≠ slot) ∨ MAX_HUBS ≤ (s.live s.hubs).length))

/-- A change that leaves nothing behind: a new device is not entered where a hub entry points to,
    and a new hub finds room; a device that goes has no device behind it and is no keyboard or
    mouse. -/
def Tidy (s : Tables) : Change → Prop
  | .enumerate g .. => ∀ d ∈ s.freeDevice,
      (∀ b ∈ s.hubs, b.dev ≠ d) ∧ (g.isHub = true → s.HubRoom g.slot)
  | .remove slot => ∀ d ∈ s.getDeviceBySlot slot,
      (∀ i < USB_MAX_DEVICES, i ≠ d → (s.devices i).active = true →
        (s.devices i).parentHubSlot ≠ slot) ∧
      (∀ b ∈ s.kbds, b.dev ≠ d) ∧ ∀ b ∈ s.mice, b.dev ≠ d

instance (s : Tables) : (c : Change) → Decidable (s.Tidy c)
  | .enumerate g .. => inferInstanceAs (Decidable (∀ d ∈ s.freeDevice,
      (∀ b ∈ s.hubs, b.dev ≠ d) ∧ (g.isHub = true → s.HubRoom g.slot)))
  | .remove slot => inferInstanceAs (Decidable (∀ d ∈ s.getDeviceBySlot slot,
      (∀ i < USB_MAX_DEVICES, i ≠ d → (s.devices i).active = true →
        (s.devices i).parentHubSlot ≠ slot) ∧
      (∀ b ∈ s.kbds, b.dev ≠ d) ∧ ∀ b ∈ s.mice, b.dev ≠ d))

/-- Each event of a run, if it does something, has this property in the state it finds. -/
def Along (P : Tables → Change → Prop) : Tables → List PortEvent → Prop
  | _, [] => True
  | s, ev :: evs => (∀ c ∈ s.change ev, P s c) ∧ Along P (s.portEvent ev) evs

instance decidableAlong (P : Tables → Change → Prop) [∀ s c, Decidable (P s c)] :
    (s : Tables) → (evs : List PortEvent) → Decidable (Along P s evs)
  | _, [] => isTrue trivial
  | s, ev :: evs =>
    have := decidableAlong P (s.portEvent ev) evs
    inferInstanceAs (Decidable ((∀ c ∈ s.change ev, P s c) ∧ Along P (s.portEvent ev) evs))

/-! ### Counting -/

theorem countP_flip {p q : Nat → Bool} {d : Nat} (hp : p d = false) (hq : q d = true)
    (hother : ∀ i, i ≠ d → q i = p i) {l : List Nat} (hl : l.Nodup) (hd : d ∈ l) :
    l.countP q = l.countP p + 1 := by
  induction l with
  | nil => contradiction
  | cons i l ih =>
    obtain ⟨hnot, hl⟩ := List.nodup_cons.mp hl
    by_cases hid : i = d
    · subst hid
      have hrest : l.countP q = l.countP p :=
        List.countP_congr fun j hj => by rw [hother j (fun h => hnot (h ▸ hj))]
      rw [List.countP_cons_of_pos hq, List.countP_cons_of_neg (by simp [hp]), hrest]
    · have hmem : d ∈ l := (List.mem_cons.mp hd).resolve_left (Ne.symm hid)
      rw [List.countP_cons, List.countP_cons, hother i hid, ih hl hmem]
      omega

theorem activeCount_flip {s s' : Tables} {d : Nat} (hd : d < USB_MAX_DEVICES)
    (hold : (s.devices d).active = false) (hnew : (s'.devices d).active = true)
    (hother : ∀ i, i ≠ d → s'.devices i = s.devices i) : s'.activeCount = s.activeCount + 1 :=
  countP_flip (p := fun i => (s.devices i).active) (q := fun i => (s'.devices i).active) hold hnew
    (fun i hi => by rw [hother i hi]) List.nodup_range (List.mem_range.mpr hd)

/-! ### Plugging in -/

section

variable {s : Tables} {g : Gadget} {rootPort hubSlot port : Nat}

/-- The tables after a device was entered in a free record. -/
structure Entered (s s' : Tables) (d : Nat) (dev : UsbDevice) (g : Gadget) : Prop where
  self : s'.devices d = dev
  other : ∀ i, i ≠ d → s'.devices i = s.devices i
  count : s'.deviceCount = s.deviceCount + 1
  plugs : s'.plugs = s.plugs + 1
  hubs : s'.hubs = addBindings MAX_HUBS s.hubs (g.hubs d dev.plug)
  kbds : s'.kbds = addBindings MAX_HID_KBDS s.kbds (g.kbds d dev.plug)
  mice : s'.mice = addBindings MAX_HID_MICE s.mice (g.mice d dev.plug)

theorem mem_interfaces_of_driven {iface : Iface} (h : iface ∈ g.driven) : iface ∈ g.interfaces := by
  rw [Gadget.driven] at h
  split at h
  · exact absurd h List.not_mem_nil
  · exact h

theorem binding_of_self {d : Nat} {dev : UsbDevice} (h : s.devices d = dev) :
    s.binding d = fun inDci => ⟨d, inDci, dev.plug⟩ := by
  funext inDci
  rw [binding, h]

theorem usbEnumerateDevice_entered {d : Nat} (hfree : s.freeDevice = some d) :
    Entered s (s.usbEnumerateDevice g rootPort hubSlot port) d
      (g.device rootPort hubSlot port s.plugs) g := by
  have hself := s.usbCreateDevice_self d (g.device rootPort hubSlot port s.plugs)
  have hother := fun i (hi : i ≠ d) =>
    s.usbCreateDevice_of_ne hi (g.device rootPort hubSlot port s.plugs)
  have hbind := binding_of_self hself
  unfold usbEnumerateDevice
  rw [hfree]
  dsimp only
  split
  · rename_i hhub
    have hkbds : g.kbds d s.plugs = [] := by rw [Gadget.kbds, Gadget.driven, if_pos hhub]; rfl
    have hmice : g.mice d s.plugs = [] := by rw [Gadget.mice, Gadget.driven, if_pos hhub]; rfl
    have hhubs : g.hubs d s.plugs = [⟨d, 0, s.plugs⟩] := if_pos hhub
    have hstep : (s.usbCreateDevice d (g.device rootPort hubSlot port s.plugs)).usbHubInitDevice d =
        { s.usbCreateDevice d (g.device rootPort hubSlot port s.plugs) with
          hubs := addBindings MAX_HUBS s.hubs [⟨d, 0, s.plugs⟩] } := by
      rw [addBindings_one, usbHubInitDevice, hbind]
      by_cases hroom : s.hubs.length < MAX_HUBS
      · rw [if_pos hroom]
        exact if_neg (Nat.not_le_of_lt hroom)
      · rw [if_neg hroom]
        exact if_pos (Nat.le_of_not_lt hroom)
    rw [hstep]
    refine ⟨hself, hother, rfl, rfl, ?_, ?_, ?_⟩
    · exact congrArg (addBindings MAX_HUBS s.hubs) hhubs.symm
    · exact ((congrArg _ hkbds).trans (addBindings_nil ..)).symm
    · exact ((congrArg _ hmice).trans (addBindings_nil ..)).symm
  · rename_i hhub
    have hdriven : g.driven = g.interfaces := if_neg hhub
    have hhubs : g.hubs d s.plugs = [] := if_neg hhub
    have h := attachDrivers_attached d
      (s.usbCreateDevice d (g.device rootPort hubSlot port s.plugs)) g.interfaces
    refine ⟨?_, fun i hi => ?_, h.deviceCount, h.plugs, ?_, ?_, ?_⟩
    · rw [h.devices, hself]
    · rw [h.devices, hother i hi]
    · exact h.hubs.trans ((congrArg _ hhubs).trans (addBindings_nil ..)).symm
    · rw [h.kbds, hbind, Gadget.kbds, hdriven]
      rfl
    · rw [h.mice, hbind, Gadget.mice, hdriven]
      rfl

namespace Entered

variable {s' : Tables} {d : Nat} {dev : UsbDevice}

theorem mem_hubs (h : Entered s s' d dev g) {b : Binding} (hb : b ∈ s'.hubs) :
    b ∈ s.hubs ∨ g.isHub = true ∧ b = ⟨d, 0, dev.plug⟩ := by
  rw [h.hubs] at hb
  refine (mem_of_mem_addBindings hb).imp_right fun hnew => ?_
  rw [Gadget.hubs] at hnew
  split at hnew
  · rename_i hhub
    exact ⟨hhub, List.mem_singleton.mp hnew⟩
  · exact absurd hnew List.not_mem_nil

theorem keeps (h : Entered s s' d dev g) {b : Binding} (hb : b ∈ s.hubs) : b ∈ s'.hubs := by
  rw [h.hubs]
  exact List.mem_append_left _ hb

theorem mem_kbds (h : Entered s s' d dev g) {b : Binding} (hb : b ∈ s'.kbds) :
    b ∈ s.kbds ∨ b.dev = d ∧ b.plug = dev.plug ∧ .keyboard (some b.inDci) ∈ g.interfaces := by
  rw [h.kbds] at hb
  refine (mem_of_mem_addBindings hb).imp_right fun hnew => ?_
  obtain ⟨inDci, hdci, rfl⟩ := List.mem_map.mp hnew
  obtain ⟨iface, hiface, heq⟩ := List.mem_filterMap.mp hdci
  refine ⟨rfl, rfl, ?_⟩
  cases iface with
  | keyboard inDci' => exact heq ▸ mem_interfaces_of_driven hiface
  | mouse _ | storage _ _ | other => contradiction

theorem mem_mice (h : Entered s s' d dev g) {b : Binding} (hb : b ∈ s'.mice) :
    b ∈ s.mice ∨ b.dev = d ∧ b.plug = dev.plug ∧ .mouse (some b.inDci) ∈ g.interfaces := by
  rw [h.mice] at hb
  refine (mem_of_mem_addBindings hb).imp_right fun hnew => ?_
  obtain ⟨inDci, hdci, rfl⟩ := List.mem_map.mp hnew
  obtain ⟨iface, hiface, heq⟩ := List.mem_filterMap.mp hdci
  refine ⟨rfl, rfl, ?_⟩
  cases iface with
  | mouse inDci' => exact heq ▸ mem_interfaces_of_driven hiface
  | keyboard _ | storage _ _ | other => contradiction

theorem bounds (h : Entered s s' d dev g) (hb : s.Bounds) (hd : d < USB_MAX_DEVICES)
    (hslot : 0 < dev.slotId) (hplug : dev.plug = s.plugs) : s'.Bounds := by
  refine ⟨fun i hi hactive => ?_, fun b hmem => ?_, fun b hmem => ?_⟩
  · by_cases hid : i = d
    · rwa [hid, h.self]
    · rw [h.other i hid] at hactive ⊢
      exact hb.slotPos i hi hactive
  · rcases h.mem_hubs hmem with hold | ⟨-, rfl⟩
    · exact hb.hubDev b hold
    · exact hd
  · rw [h.plugs]
    rcases h.mem_hubs hmem with hold | ⟨-, rfl⟩
    · exact Nat.lt_succ_of_lt (hb.hubPlug b hold)
    · exact hplug ▸ Nat.lt_succ_self _

theorem dev_ne_of_treeOk (h : Entered s s' d dev g) (hb : s.Bounds) (hactive : dev.active = true)
    (hplug : dev.plug = s.plugs) (hok : s'.TreeOk) : ∀ b ∈ s.hubs, b.dev ≠ d := by
  intro b hmem hdev
  have hcur := (hok.hubs b (h.keeps hmem) (by rwa [hdev, h.self])).2
  rw [hdev, h.self, hplug] at hcur
  exact Nat.ne_of_gt (hb.hubPlug b hmem) hcur

theorem hubs_of_room (h : Entered s s' d dev g) (hhub : g.isHub = true)
    (hroom : s.hubs.length < MAX_HUBS) : s'.hubs = s.hubs ++ [⟨d, 0, dev.plug⟩] := by
  rw [h.hubs, Gadget.hubs, if_pos hhub, addBindings_one, if_pos hroom]

theorem hubs_of_full (h : Entered s s' d dev g) (hfull : MAX_HUBS ≤ s.hubs.length) :
    s'.hubs = s.hubs := by
  rw [h.hubs, Gadget.hubs]
  split
  · rw [addBindings_one, if_neg (Nat.not_lt_of_le hfull)]
  · exact addBindings_nil ..

theorem find_old (h : Entered s s' d dev g) (htidy : ∀ b ∈ s.hubs, b.dev ≠ d) (slot : Nat) :
    s.hubs.find? (fun b => (s'.devices b.dev).slotId == slot) = s.usbHubFindBySlot slot :=
  List.find?_congr fun b hb => by rw [h.other _ (htidy b hb)]

theorem live_old (h : Entered s s' d dev g) (htidy : ∀ b ∈ s.hubs, b.dev ≠ d) :
    s'.live s.hubs = s.live s.hubs :=
  List.filter_congr fun b hb => decide_eq_decide.mpr (by rw [Current, Current, h.other _ (htidy b hb)])

theorem find_new (h : Entered s s' d dev g) (htidy : ∀ b ∈ s.hubs, b.dev ≠ d) (hhub : g.isHub = true)
    (hroom : s.hubs.length < MAX_HUBS) :
    s'.usbHubFindBySlot dev.slotId = some ⟨d, 0, dev.plug⟩ ↔
      ∀ b ∈ s.hubs, (s.devices b.dev).slotId ≠ dev.slotId := by
  rw [usbHubFindBySlot, h.hubs_of_room hhub hroom, List.find?_append, h.find_old htidy]
  constructor
  · intro hfind b hb heq
    have hsome : (s.usbHubFindBySlot dev.slotId).isSome :=
      List.find?_isSome.mpr ⟨b, hb, beq_iff_eq.mpr heq⟩
    rw [Option.or_of_isSome hsome] at hfind
    exact htidy _ (List.mem_of_find?_eq_some hfind) rfl
  · intro hnone
    have hold : s.usbHubFindBySlot dev.slotId = none :=
      List.find?_eq_none.mpr fun b hb => by simpa using hnone b hb
    rw [hold, Option.none_or, List.find?_singleton, h.self, if_pos (beq_self_eq_true _)]

theorem hubRoom_of_treeOk (h : Entered s s' d dev g) (hactive : dev.active = true)
    (htidy : ∀ b ∈ s.hubs, b.dev ≠ d) (hhub : g.isHub = true) (hok : s'.TreeOk)
    (hlive : s'.live s'.hubs = addBindings MAX_HUBS (s.live s.hubs) (g.hubs d dev.plug)) :
    s.HubRoom dev.slotId := by
  by_cases hroom : s.hubs.length < MAX_HUBS
  · have hnew : ⟨d, 0, dev.plug⟩ ∈ s'.hubs := by
      rw [h.hubs_of_room hhub hroom]
      exact List.mem_append_right _ (List.mem_singleton_self _)
    have hfound := hok.found _ hnew (by rwa [h.self])
    rw [h.self] at hfound
    exact .inl ⟨hroom, (h.find_new htidy hhub hroom).mp hfound⟩
  · refine .inr (Nat.le_of_not_lt fun hlt => ?_)
    -- the new entry would be in a table that has not changed
    rw [h.hubs_of_full (Nat.le_of_not_lt hroom), h.live_old htidy, Gadget.hubs, if_pos hhub,
      addBindings_one, if_pos hlt] at hlive
    have hmem : (⟨d, 0, dev.plug⟩ : Binding) ∈ s.live s.hubs := by
      rw [hlive]
      exact List.mem_append_right _ (List.mem_singleton_self _)
    exact htidy _ (List.mem_filter.mp hmem).1 rfl

theorem live_hubs (h : Entered s s' d dev g) (hactive : dev.active = true)
    (htidy : ∀ b ∈ s.hubs, b.dev ≠ d) (hroom : g.isHub = true → s.HubRoom dev.slotId) :
    s'.live s'.hubs = addBindings MAX_HUBS (s.live s.hubs) (g.hubs d dev.plug) := by
  by_cases hhub : g.isHub = true
  · rw [Gadget.hubs, if_pos hhub, addBindings_one]
    have hle : (s.live s.hubs).length ≤ s.hubs.length := List.length_filter_le ..
    rcases hroom hhub with ⟨hlt, -⟩ | hfull
    · have hnew : s'.Current ⟨d, 0, dev.plug⟩ := by
        rw [Current, h.self]
        exact ⟨hactive, rfl⟩
      rw [if_pos (Nat.lt_of_le_of_lt hle hlt), h.hubs_of_room hhub hlt, live, List.filter_append,
        List.filter_singleton, decide_eq_true hnew, cond_true]
      exact congrArg (· ++ _) (h.live_old htidy)
    · rw [if_neg (Nat.not_lt_of_le hfull), h.hubs_of_full (Nat.le_trans hfull hle), h.live_old htidy]
  · rw [h.hubs, Gadget.hubs, if_neg hhub, addBindings_nil, addBindings_nil, h.live_old htidy]

theorem treeOk (h : Entered s s' d dev g) (hs : s.TreeOk) (hd : d < USB_MAX_DEVICES)
    (hfree : (s.devices d).active = false) (hactive : dev.active = true)
    (hisHub : dev.isHub = g.isHub) (hifaces : dev.interfaces = g.interfaces)
    (hslot : ∀ i < USB_MAX_DEVICES, (s.devices i).active = true → (s.devices i).slotId ≠ dev.slotId)
    (hparent : dev.parentHubSlot ≠ 0 → ∃ j < USB_MAX_DEVICES, (s.devices j).active = true ∧
      (s.devices j).isHub = true ∧ (s.devices j).slotId = dev.parentHubSlot)
    (htidy : ∀ b ∈ s.hubs, b.dev ≠ d) (hroom : g.isHub = true → s.HubRoom dev.slotId) :
    s'.TreeOk := by
  -- the devices that were there stay where they are
  have hkeep : ∀ j, (s.devices j).active = true → s'.devices j = s.devices j := by
    intro j hj
    refine h.other j ?_
    rintro rfl
    rw [hfree] at hj
    contradiction
  have hhub : ∀ slot, (∃ j < USB_MAX_DEVICES, (s.devices j).active = true ∧
      (s.devices j).isHub = true ∧ (s.devices j).slotId = slot) →
      ∃ j < USB_MAX_DEVICES, (s'.devices j).active = true ∧ (s'.devices j).isHub = true ∧
        (s'.devices j).slotId = slot := by
    rintro slot ⟨j, hj, hact, hrest⟩
    exact ⟨j, hj, by rwa [hkeep j hact], by rwa [hkeep j hact]⟩
  refine ⟨?_, fun i hi j hj hi' hj' heq => ?_, fun i hi hi' hne => ?_, fun b hmem hb => ?_,
    fun b hmem hb => ?_, fun b hmem => ?_, fun b hmem => ?_⟩
  · rw [h.count, hs.count]
    exact (activeCount_flip hd hfree (by rw [h.self, hactive]) h.other).symm
  · by_cases hid : i = d
    · by_cases hjd : j = d
      · rw [hid, hjd]
      · rw [hid, h.self, h.other j hjd] at heq
        rw [h.other j hjd] at hj'
        exact absurd heq.symm (hslot j hj hj')
    · rw [h.other i hid] at hi' heq
      by_cases hjd : j = d
      · rw [hjd, h.self] at heq
        exact absurd heq (hslot i hi hi')
      · rw [h.other j hjd] at hj' heq
        exact hs.slots i hi j hj hi' hj' heq
  · by_cases hid : i = d
    · rw [hid, h.self] at hne ⊢
      exact hhub _ (hparent hne)
    · rw [h.other i hid] at hi' hne ⊢
      exact hhub _ (hs.parents i hi hi' hne)
  · rcases h.mem_hubs hmem with hold | ⟨hisHub', rfl⟩
    · rw [h.other _ (htidy b hold)] at hb ⊢
      exact hs.hubs b hold hb
    · rw [h.self, hisHub]
      exact ⟨hisHub', rfl⟩
  · rcases h.mem_hubs hmem with hold | ⟨hisHub', rfl⟩
    · rw [h.other _ (htidy b hold)] at hb ⊢
      have hfound := hs.found b hold hb
      rw [usbHubFindBySlot, h.hubs, addBindings, List.find?_append, h.find_old htidy, hfound,
        Option.some_or]
    · rw [h.self]
      rcases hroom hisHub' with ⟨hlt, hother⟩ | hfull
      · exact (h.find_new htidy hisHub' hlt).mpr hother
      · -- a full table has no entry for the new device
        rw [h.hubs_of_full (Nat.le_trans hfull (List.length_filter_le ..))] at hmem
        exact absurd rfl (htidy _ hmem)
  · rcases h.mem_kbds hmem with hold | ⟨hdev, hplug, hiface⟩
    · obtain ⟨hcur, hiface⟩ := hs.kbds b hold
      rw [Current, hkeep _ hcur.1]
      exact ⟨hcur, hiface⟩
    · rw [Current, hdev, h.self, hifaces]
      exact ⟨⟨hactive, hplug.symm⟩, hiface⟩
  · rcases h.mem_mice hmem with hold | ⟨hdev, hplug, hiface⟩
    · obtain ⟨hcur, hiface⟩ := hs.mice b hold
      rw [Current, hkeep _ hcur.1]
      exact ⟨hcur, hiface⟩
    · rw [Current, hdev, h.self, hifaces]
      exact ⟨⟨hactive, hplug.symm⟩, hiface⟩

end Entered

theorem live_eq_self {bs : List Binding} (h : ∀ b ∈ bs, s.Current b) : s.live bs = bs :=
  List.filter_eq_self.mpr fun b hb => decide_eq_true (h b hb)

end

/-! ### Pulling out -/

structure Left (s s' : Tables) (d : Nat) : Prop where
  gone : (s'.devices d).active = false
  slot : (s'.devices d).slotId = (s.devices d).slotId
  other : ∀ i, i ≠ d → s'.devices i = s.devices i
  count : s'.deviceCount = s.deviceCount - 1
  plugs : s'.plugs = s.plugs
  hubs : s'.hubs = s.hubs
  kbds : s'.kbds = s.kbds
  mice : s'.mice = s.mice

theorem usbRemoveDevice_left {s : Tables} {slot d : Nat} (hfind : s.getDeviceBySlot slot = some d) :
    Left s (s.usbRemoveDevice slot) d := by
  have h := s.usbMscRemoveDevice_sameTree d
  unfold usbRemoveDevice
  rw [hfind]
  dsimp only
  rw [h.devices, h.deviceCount]
  exact ⟨by simp only [Function.update_self], by simp only [Function.update_self],
    fun i hi => Function.update_of_ne hi .., rfl, h.plugs, h.hubs, h.kbds, h.mice⟩

namespace Left

variable {s s' : Tables} {d : Nat}

theorem ne_of_active (h : Left s s' d) {i : Nat} (hi : (s'.devices i).active = true) : i ≠ d := by
  rintro rfl
  rw [h.gone] at hi
  contradiction

theorem find (h : Left s s' d) (slot : Nat) : s'.usbHubFindBySlot slot = s.usbHubFindBySlot slot := by
  rw [usbHubFindBySlot, h.hubs]
  refine List.find?_congr fun b _ => ?_
  by_cases hid : b.dev = d
  · rw [hid, h.slot]
  · rw [h.other _ hid]

theorem bounds (h : Left s s' d) (hb : s.Bounds) : s'.Bounds := by
  refine ⟨fun i hi hactive => ?_, fun b hmem => ?_, fun b hmem => ?_⟩
  · have hid := h.ne_of_active hactive
    rw [h.other i hid] at hactive ⊢
    exact hb.slotPos i hi hactive
  · exact hb.hubDev b (h.hubs ▸ hmem)
  · rw [h.plugs]
    exact hb.hubPlug b (h.hubs ▸ hmem)

theorem tidy_of_treeOk (h : Left s s' d) (hs : s.TreeOk) (hb : s.Bounds) (hd : d < USB_MAX_DEVICES)
    (hactive : (s.devices d).active = true) (hok : s'.TreeOk) :
    (∀ i < USB_MAX_DEVICES, i ≠ d → (s.devices i).active = true →
      (s.devices i).parentHubSlot ≠ (s.devices d).slotId) ∧
      (∀ b ∈ s.kbds, b.dev ≠ d) ∧ ∀ b ∈ s.mice, b.dev ≠ d := by
  refine ⟨fun i hi hid hact hpar => ?_, fun b hmem => ?_, fun b hmem => ?_⟩
  · have hne : (s'.devices i).parentHubSlot ≠ 0 := by
      rw [h.other i hid, hpar]
      exact Nat.ne_of_gt (hb.slotPos d hd hactive)
    obtain ⟨j, hj, hact', -, hslot⟩ := hok.parents i hi (by rwa [h.other i hid]) hne
    have hjd := h.ne_of_active hact'
    rw [h.other j hjd] at hact' hslot
    rw [h.other i hid, hpar] at hslot
    exact hjd (hs.slots j hj d hd hact' hactive hslot)
  · exact h.ne_of_active (hok.kbds b (h.kbds.symm ▸ hmem)).1.1
  · exact h.ne_of_active (hok.mice b (h.mice.symm ▸ hmem)).1.1

theorem treeOk (h : Left s s' d) (hs : s.TreeOk) (hd : d < USB_MAX_DEVICES)
    (hactive : (s.devices d).active = true)
    (hbehind : ∀ i < USB_MAX_DEVICES, i ≠ d → (s.devices i).active = true →
      (s.devices i).parentHubSlot ≠ (s.devices d).slotId)
    (hkbds : ∀ b ∈ s.kbds, b.dev ≠ d) (hmice : ∀ b ∈ s.mice, b.dev ≠ d) : s'.TreeOk := by
  refine ⟨?_, fun i hi j hj hi' hj' heq => ?_, fun i hi hi' hne => ?_, fun b hmem hb => ?_,
    fun b hmem hb => ?_, fun b hmem => ?_, fun b hmem => ?_⟩
  · have hflip := activeCount_flip hd h.gone hactive fun i hi => (h.other i hi).symm
    rw [h.count, hs.count, hflip, Nat.add_sub_cancel]
  · have hid := h.ne_of_active hi'
    have hjd := h.ne_of_active hj'
    rw [h.other i hid] at hi' heq
    rw [h.other j hjd] at hj' heq
    exact hs.slots i hi j hj hi' hj' heq
  · have hid := h.ne_of_active hi'
    rw [h.other i hid] at hi' hne ⊢
    obtain ⟨j, hj, hact, hhub, hslot⟩ := hs.parents i hi hi' hne
    have hjd : j ≠ d := by
      rintro rfl
      exact hbehind i hi hid hi' hslot.symm
    rw [← h.other j hjd] at hact hhub hslot
    exact ⟨j, hj, hact, hhub, hslot⟩
  · have hid := h.ne_of_active hb
    rw [h.other _ hid] at hb ⊢
    exact hs.hubs b (h.hubs ▸ hmem) hb
  · have hid := h.ne_of_active hb
    rw [h.find]
    rw [h.other _ hid] at hb ⊢
    exact hs.found b (h.hubs ▸ hmem) hb
  · rw [h.kbds] at hmem
    rw [Current, h.other _ (hkbds b hmem)]
    exact hs.kbds b hmem
  · rw [h.mice] at hmem
    rw [Current, h.other _ (hmice b hmem)]
    exact hs.mice b hmem

end Left

/-! ### One event -/

section

variable {s : Tables}

theorem empty_treeOk : empty.TreeOk := by
  have hnone : ∀ i, (empty.devices i).active ≠ true := fun _ => Bool.false_ne_true
  exact ⟨by decide, fun i _ _ _ hi => absurd hi (hnone i), fun i _ hi => absurd hi (hnone i),
    fun b hb => absurd hb List.not_mem_nil, fun b hb => absurd hb List.not_mem_nil,
    fun b hb => absurd hb List.not_mem_nil, fun b hb => absurd hb List.not_mem_nil⟩

theorem empty_bounds : empty.Bounds :=
  ⟨fun _ _ hi => absurd hi Bool.false_ne_true, fun _ hb => absurd hb List.not_mem_nil,
    fun _ hb => absurd hb List.not_mem_nil⟩

/-- A device is entered below a hub that is there, or on a root port. -/
def Rooted (s : Tables) : Change → Prop
  | .enumerate _ _ hubSlot _ => hubSlot ≠ 0 → ∃ j < USB_MAX_DEVICES,
      (s.devices j).active = true ∧ (s.devices j).isHub = true ∧ (s.devices j).slotId = hubSlot
  | .remove _ => True

theorem change_rooted (hs : s.TreeOk) (hb : s.Bounds) {ev : PortEvent} {c : Change}
    (hc : s.change ev = some c) : s.Rooted c := by
  cases ev with
  | rootConnect port g =>
    simp only [change, Option.ite_none_right_eq_some, Option.some.injEq] at hc
    obtain ⟨-, rfl⟩ := hc
    exact fun h => absurd rfl h
  | rootDisconnect port =>
    obtain ⟨d, -, rfl⟩ := Option.map_eq_some_iff.mp hc
    trivial
  | hubConnect hub port g =>
    obtain ⟨dev, hdev, hif⟩ := Option.bind_eq_some_iff.mp hc
    simp only [Option.ite_none_right_eq_some, Option.some.injEq] at hif
    obtain ⟨-, rfl⟩ := hif
    intro _
    -- the entry is one that is used, so it is for a hub
    obtain ⟨hentry, hactive⟩ := Option.filter_eq_some_iff.mp hdev
    obtain ⟨b, hget, rfl⟩ := Option.map_eq_some_iff.mp hentry
    have hmem := List.mem_of_getElem? hget
    exact ⟨b.dev, hb.hubDev b hmem, hactive, (hs.hubs b hmem hactive).1, rfl⟩
  | hubDisconnect hub port =>
    obtain ⟨dev, -, hmap⟩ := Option.bind_eq_some_iff.mp hc
    obtain ⟨d, -, rfl⟩ := Option.map_eq_some_iff.mp hmap
    trivial

/-- A change keeps the tables in order, and binds like the first time, just if it is tidy. -/
theorem apply_treeOk_iff (hs : s.TreeOk) (hb : s.Bounds) {c : Change} (hroot : s.Rooted c)
    (hslot : s.SlotFree c) :
    ((s.apply c).TreeOk ∧ s.LikeFirst c ↔ s.Tidy c) ∧ (s.apply c).Bounds := by
  cases c with
  | enumerate g rootPort hubSlot port =>
    cases hfree : s.freeDevice with
    | none =>
      have hsame : s.apply (.enumerate g rootPort hubSlot port) = s := by
        rw [apply, usbEnumerateDevice, hfree]
      rw [hsame]
      refine ⟨⟨fun _ d hd => ?_, fun _ => ⟨hs, fun d hd => ?_⟩⟩, hb⟩
      all_goals
        rw [hfree] at hd
        contradiction
    | some d =>
      obtain ⟨hd, hinactive⟩ := findDevice_some hfree
      have hinactive' : (s.devices d).active = false := by simpa using hinactive
      have hent : Entered s (s.apply (.enumerate g rootPort hubSlot port)) d _ g :=
        usbEnumerateDevice_entered hfree
      obtain ⟨hpos, hfresh⟩ := hslot
      refine ⟨⟨fun ⟨hok, hlike⟩ d' hd' => ?_, fun htidy => ?_⟩, hent.bounds hb hd hpos rfl⟩
      · obtain rfl : d = d' := Option.some.inj (hfree.symm.trans hd')
        have hne := hent.dev_ne_of_treeOk hb rfl rfl hok
        exact ⟨hne, fun hhub => hent.hubRoom_of_treeOk rfl hne hhub hok (hlike d hfree).1⟩
      · obtain ⟨hne, hroom⟩ := htidy d hfree
        have hok := hent.treeOk hs hd hinactive' rfl rfl rfl hfresh hroot hne hroom
        refine ⟨hok, fun d' hd' => ?_⟩
        obtain rfl : d = d' := Option.some.inj (hfree.symm.trans hd')
        refine ⟨hent.live_hubs rfl hne hroom, ?_, ?_⟩
        · rw [live_eq_self fun b hmem => (hs.kbds b hmem).1]
          exact (live_eq_self fun b hmem => (hok.kbds b hmem).1).trans hent.kbds
        · rw [live_eq_self fun b hmem => (hs.mice b hmem).1]
          exact (live_eq_self fun b hmem => (hok.mice b hmem).1).trans hent.mice
  | remove slot =>
    cases hfind : s.getDeviceBySlot slot with
    | none =>
      have hsame : s.apply (.remove slot) = s := by rw [apply, usbRemoveDevice, hfind]
      rw [hsame]
      refine ⟨⟨fun _ d hd => ?_, fun _ => ⟨hs, trivial⟩⟩, hb⟩
      rw [hfind] at hd
      contradiction
    | some d =>
      obtain ⟨hd, hslotd⟩ := findDevice_some hfind
      rw [Bool.and_eq_true_iff, beq_iff_eq] at hslotd
      obtain ⟨hactive, rfl⟩ := hslotd
      have hleft : Left s (s.apply (.remove (s.devices d).slotId)) d := usbRemoveDevice_left hfind
      refine ⟨⟨fun ⟨hok, _⟩ d' hd' => ?_, fun htidy => ⟨?_, trivial⟩⟩, hleft.bounds hb⟩
      · obtain rfl : d = d' := Option.some.inj (hfind.symm.trans hd')
        exact hleft.tidy_of_treeOk hs hb hd hactive hok
      · obtain ⟨hbehind, hkbds, hmice⟩ := htidy d hfind
        exact hleft.treeOk hs hd hactive hbehind hkbds hmice

theorem portEvent_treeOk_iff (hs : s.TreeOk) (hb : s.Bounds) {ev : PortEvent}
    (hslot : ∀ c ∈ s.change ev, s.SlotFree c) :
    ((s.portEvent ev).TreeOk ∧ (∀ c ∈ s.change ev, s.LikeFirst c) ↔ ∀ c ∈ s.change ev, s.Tidy c) ∧
      (s.portEvent ev).Bounds := by
  cases hc : s.change ev with
  | none =>
    have hsame : s.portEvent ev = s := by rw [portEvent, hc, Option.elim_none]
    rw [hsame]
    have hnone : ∀ P : Change → Prop, ∀ c ∈ (none : Option Change), P c :=
      fun _ c hmem => absurd hmem (by simp)
    exact ⟨⟨fun _ => hnone _, fun _ => ⟨hs, hnone _⟩⟩, hb⟩
  | some c =>
    have hstep : s.portEvent ev = s.apply c := by rw [portEvent, hc, Option.elim_some]
    have honly : ∀ P : Change → Prop, (∀ c' ∈ some c, P c') ↔ P c := by simp
    rw [hstep, honly, honly]
    exact apply_treeOk_iff hs hb (change_rooted hs hb hc) (hslot c hc)

/-! ### Runs -/

theorem portEvents_treeOk {evs : List PortEvent} (hs : s.TreeOk) (hb : s.Bounds)
    (hslots : Along SlotFree s evs) (htidy : Along Tidy s evs) :
    ((s.portEvents evs).TreeOk ∧ Along LikeFirst s evs) ∧ (s.portEvents evs).Bounds := by
  induction evs generalizing s with
  | nil => exact ⟨⟨hs, trivial⟩, hb⟩
  | cons ev evs ih =>
    obtain ⟨hiff, hb'⟩ := portEvent_treeOk_iff hs hb hslots.1
    obtain ⟨hok, hlike⟩ := hiff.mpr htidy.1
    obtain ⟨⟨hok', hlikes⟩, hb''⟩ := ih hok hb' hslots.2 htidy.2
    exact ⟨⟨hok', hlike, hlikes⟩, hb''⟩

end

/-- **Hot-plug.**  In every run of events that are all tidy the tables are consistent and every
    device is bound like the first time; and the first event that is not tidy breaks this. -/
theorem hotplug_treeOk {evs : List PortEvent} (hslots : Along SlotFree empty evs)
    (htidy : Along Tidy empty evs) :
    let s := empty.portEvents evs
    (s.TreeOk ∧ Along LikeFirst empty evs) ∧ ∀ ev, (∀ c ∈ s.change ev, s.SlotFree c) →
      ((s.portEvent ev).TreeOk ∧ (∀ c ∈ s.change ev, s.LikeFirst c) ↔
        ∀ c ∈ s.change ev, s.Tidy c) := by
  obtain ⟨hs, hb⟩ := portEvents_treeOk empty_treeOk empty_bounds hslots htidy
  exact ⟨hs, fun ev hslot => (portEvent_treeOk_iff hs.1 hb hslot).1⟩

def keyboard (slot : Nat) : PortEvent := .rootConnect 1 ⟨slot, false, [.keyboard (some 3)]⟩

/-- A hub on root port 2, a second one on its port 1, and a disk on port 3 that comes and goes. -/
def hubsWithDisk : List PortEvent :=
  [.rootConnect 2 ⟨1, true, []⟩, .hubConnect 0 1 ⟨2, true, []⟩,
    .hubConnect 1 3 ⟨3, false, [.storage true (some (8192, 512))]⟩, .hubDisconnect 1 3,
    .hubConnect 1 3 ⟨4, false, [.storage true (some (8192, 512))]⟩, .hubDisconnect 1 3,
    keyboard 3]

theorem hotplug_treeOk_hubs :
    let s := empty.portEvents hubsWithDisk
    (s.TreeOk ∧ Along LikeFirst empty hubsWithDisk) ∧ ∀ ev, (∀ c ∈ s.change ev, s.SlotFree c) →
      ((s.portEvent ev).TreeOk ∧ (∀ c ∈ s.change ev, s.LikeFirst c) ↔
        ∀ c ∈ s.change ev, s.Tidy c) :=
  hotplug_treeOk (by decide) (by decide)

/-- A keyboard that is pulled out stays in the table of keyboards. -/
theorem stale_keyboard :
    let s := empty.portEvents [keyboard 1, .rootDisconnect 1]
    s.kbds.map Binding.dev = [0] ∧ (s.devices 0).active = false ∧ ¬s.TreeOk := by
  refine ⟨by decide, by decide, fun h => ?_⟩
  have hcur := (h.kbds ⟨0, 3, 0⟩ (by decide)).1.1
  revert hcur
  decide

end Gemios.Usb.Tables
