import Gemios.UsbTree

/-!
# Enumerations that fail

`usb_enumerate_device` in `src/src/usb/usb_core.c` with all of its exits, and its callers in
`xhci_scan_ports`, `usb_hub_init_device` and `usb_hub_poll`.  The commands and transfers answer
what they like.  Once the record of the device is taken, no exit gives it back; and the retry
after a port reset works with a slot that the caller does not know.
-/

namespace Gemios.Usb

open Function

/-- What the commands and the control transfers of an enumeration return.  `newSlot` is the slot
    that Enable Slot gives in the retry. -/
structure Answers where
  address : Int
  disable : Int
  enable : Int
  newSlot : Nat
  retryAddress : Int
  blockAddress : Int
  deviceDesc : Int
  configHeader : Int
  fullConfig : Int
  setConfiguration : Int

/-- Where a device is plugged in; `parentHubSlot` is 0 for a root port. -/
structure Place where
  rootPort : Nat
  parentHubSlot : Nat
  parentPort : Nat

/-- The tables, and the slots that are enabled in the controller. -/
structure Bus where
  tables : Tables
  enabled : Nat → Bool

/-- The test of the callers: there is a device at this place already. -/
def Tables.occupied (s : Tables) (place : Place) : Bool :=
  if place.parentHubSlot = 0 then (s.getDeviceByRootPort place.rootPort).isSome
  else (s.getDeviceByParent place.parentHubSlot place.parentPort).isSome

def Tables.describe (s : Tables) (d : Nat) (g : Tables.Gadget) : Tables :=
  { s with
    devices := update s.devices d
      { s.devices d with isHub := g.isHub, interfaces := g.interfaces } }

namespace Bus

/-- `xhci_cmd_enable_slot`, when it gives this slot. -/
def enableSlot (s : Bus) (slot : Nat) : Bus :=
  { s with enabled := update s.enabled slot true }

/-- `xhci_cmd_disable_slot`, with its result. -/
def disableSlot (s : Bus) (slot : Nat) (res : Int) : Bus :=
  if res = 0 then { s with enabled := update s.enabled slot false } else s

/-- Step 4 of `usb_enumerate_device`: the slot that has got an address, or the error. -/
def addressDevice (s : Bus) (slot : Nat) (a : Answers) : Bus × Except Int Nat :=
  if a.address = 0 then (s, .ok slot)
  else
    let s := s.disableSlot slot a.disable
    if a.enable ≠ 0 ∨ a.newSlot = 0 then (s, .error a.address)
    else
      let s := s.enableSlot a.newSlot
      if a.retryAddress ≠ 0 ∧ a.blockAddress ≠ 0 then (s, .error a.blockAddress)
      else (s, .ok a.newSlot)

/-- Steps 5 to 10, with the record of the device given. -/
def describeDevice (s : Bus) (d : Nat) (a : Answers) (g : Tables.Gadget) : Bus × Int :=
  if a.deviceDesc ≠ 0 then (s, a.deviceDesc)
  else if a.configHeader ≠ 0 then (s, a.configHeader)
  else if a.fullConfig ≠ 0 then (s, a.fullConfig)
  else
    let t := s.tables.describe d g
    if a.setConfiguration ≠ 0 then ({ s with tables := t }, a.setConfiguration)
    else
      ({ s with
          tables := if g.isHub then t.usbHubInitDevice d
            else g.interfaces.foldl (Tables.attachDriver d) t },
        0)

/-- The record that `usb_create_device` has zeroed. -/
def blankDevice (slot : Nat) (place : Place) (plug : Nat) : UsbDevice :=
  ⟨true, slot, place.rootPort, place.parentHubSlot, place.parentPort, false, [], plug⟩

def usbEnumerateDevice (s : Bus) (slot : Nat) (place : Place) (a : Answers) (g : Tables.Gadget) :
    Bus × Int :=
  let r := s.addressDevice slot a
  match r.2 with
  | .error res => (r.1, res)
  | .ok slot' =>
    match r.1.tables.freeDevice with
    | none => (r.1, -1)
    | some d =>
      describeDevice { r.1 with
        tables := r.1.tables.usbCreateDevice d (blankDevice slot' place r.1.tables.plugs) } d a g

/-! ### What a failure should leave -/

/-- After a failed enumeration: the tables are as before, the slot of the caller is the one that is
    still enabled, and a later device at the same place is seen. -/
structure NoTrace (s r : Bus) (slot : Nat) (place : Place) : Prop where
  devices : r.tables.devices = s.tables.devices
  count : r.tables.deviceCount = s.tables.deviceCount
  hubs : r.tables.hubs = s.tables.hubs
  kbds : r.tables.kbds = s.tables.kbds
  mice : r.tables.mice = s.tables.mice
  mscDevs : r.tables.mscDevs = s.tables.mscDevs ∧ r.tables.mscCount = s.tables.mscCount
  registered : r.tables.registered = s.tables.registered
  own : r.enabled slot = true
  others : ∀ i ≠ slot, r.enabled i = s.enabled i
  again : r.tables.occupied place = false

/-- The retry leaves no other slot enabled than that of the caller: it gets the same one again, or
    neither the old one can be disabled nor a new one be had. -/
def KeepsSlot (s : Bus) (slot : Nat) (a : Answers) : Prop :=
  if a.enable ≠ 0 ∨ a.newSlot = 0 then a.disable ≠ 0
  else a.newSlot = slot ∨ a.disable ≠ 0 ∧ s.enabled a.newSlot = true

/-- The enumeration comes to no record: all are in use, or the device gets no address. -/
def NoRecord (s : Bus) (a : Answers) : Prop :=
  s.tables.freeDevice = none ∨
    a.address ≠ 0 ∧ ((a.enable ≠ 0 ∨ a.newSlot = 0) ∨ a.retryAddress ≠ 0 ∧ a.blockAddress ≠ 0)

/-! ### The exits -/

variable {s : Bus} {slot : Nat} {place : Place} {a : Answers} {g : Tables.Gadget}

@[simp] theorem disableSlot_tables (s : Bus) (slot : Nat) (res : Int) :
    (s.disableSlot slot res).tables = s.tables := by
  unfold disableSlot
  split <;> rfl

theorem addressDevice_tables (s : Bus) (slot : Nat) (a : Answers) :
    (s.addressDevice slot a).1.tables = s.tables := by
  unfold addressDevice
  dsimp only
  split
  · rfl
  · split
    · exact disableSlot_tables s slot a.disable
    · split <;> exact disableSlot_tables s slot a.disable

theorem addressDevice_ok_iff : (∃ slot', (s.addressDevice slot a).2 = .ok slot') ↔
    ¬(a.address ≠ 0 ∧ ((a.enable ≠ 0 ∨ a.newSlot = 0) ∨ a.retryAddress ≠ 0 ∧ a.blockAddress ≠ 0)) := by
  unfold addressDevice
  dsimp only
  by_cases haddress : a.address = 0
  · simp [haddress]
  · by_cases henable : a.enable ≠ 0 ∨ a.newSlot = 0
    · simp [haddress, henable]
    · by_cases hretry : a.retryAddress ≠ 0 ∧ a.blockAddress ≠ 0
      · simp [haddress, henable, hretry]
      · simp only [haddress, henable, hretry, if_false, not_and, ne_eq, not_false_eq_true, or_self,
          forall_const, iff_true]
        exact ⟨_, rfl⟩

theorem addressDevice_enabled (s : Bus) (slot : Nat) (a : Answers) :
    (s.addressDevice slot a).1.enabled =
      if a.address = 0 then s.enabled
      else if a.enable ≠ 0 ∨ a.newSlot = 0 then (s.disableSlot slot a.disable).enabled
      else update (s.disableSlot slot a.disable).enabled a.newSlot true := by
  unfold addressDevice
  dsimp only
  split
  · rfl
  · split
    · rfl
    · split <;> rfl

/-- The slot of the caller is the only one that was enabled exactly if the retry keeps it. -/
theorem addressDevice_keeps_iff (s : Bus) (slot : Nat) (a : Answers) :
    (((s.enableSlot slot).addressDevice slot a).1.enabled slot = true ∧
        ∀ i ≠ slot, ((s.enableSlot slot).addressDevice slot a).1.enabled i = s.enabled i) ↔
      (a.address ≠ 0 → s.KeepsSlot slot a) := by
  have hown : (s.enableSlot slot).enabled slot = true := update_self ..
  have hothers : ∀ i ≠ slot, (s.enableSlot slot).enabled i = s.enabled i := fun i hi =>
    update_of_ne hi ..
  have hdisabled : ∀ i ≠ slot,
      ((s.enableSlot slot).disableSlot slot a.disable).enabled i = s.enabled i := by
    intro i hi
    unfold disableSlot
    split
    · exact (update_of_ne hi ..).trans (hothers i hi)
    · exact hothers i hi
  have hleft : ((s.enableSlot slot).disableSlot slot a.disable).enabled slot = true ↔ a.disable ≠ 0 := by
    unfold disableSlot
    split
    · rename_i hzero
      simp [hzero]
    · rename_i hfailed
      exact iff_of_true hown hfailed
  rw [addressDevice_enabled]
  by_cases haddress : a.address = 0
  · rw [if_pos haddress]
    exact iff_of_true ⟨hown, hothers⟩ fun habs => absurd haddress habs
  · rw [if_neg haddress, KeepsSlot]
    by_cases henable : a.enable ≠ 0 ∨ a.newSlot = 0
    · rw [if_pos henable, if_pos henable, hleft]
      exact ⟨fun h _ => h.1, fun h => ⟨h haddress, hdisabled⟩⟩
    · rw [if_neg henable, if_neg henable]
      by_cases hsame : a.newSlot = slot
      · rw [hsame]
        refine iff_of_true ⟨update_self .., fun i hi => ?_⟩ fun _ => .inl rfl
        rw [update_of_ne hi]
        exact hdisabled i hi
      · have hnew : update ((s.enableSlot slot).disableSlot slot a.disable).enabled a.newSlot
            true a.newSlot = true := update_self ..
        rw [update_of_ne (Ne.symm hsame), hleft]
        constructor
        · rintro ⟨hkept, hall⟩ -
          exact .inr ⟨hkept, (hall a.newSlot hsame).symm.trans hnew⟩
        · intro h
          obtain ⟨hkept, hbefore⟩ := (h haddress).resolve_left hsame
          refine ⟨hkept, fun i hi => ?_⟩
          by_cases hi' : i = a.newSlot
          · rw [hi', hnew, hbefore]
          · rw [update_of_ne hi']
            exact hdisabled i hi

theorem usbEnumerateDevice_noRecord (h : s.NoRecord a) :
    (s.usbEnumerateDevice slot place a g).1.tables = s.tables ∧
      (s.usbEnumerateDevice slot place a g).1.enabled = (s.addressDevice slot a).1.enabled := by
  unfold usbEnumerateDevice
  dsimp only
  split
  · exact ⟨addressDevice_tables s slot a, rfl⟩
  · rename_i slot' hok
    rw [addressDevice_tables]
    have hfull := h.resolve_right (addressDevice_ok_iff.mp ⟨slot', hok⟩)
    rw [hfull]
    exact ⟨addressDevice_tables s slot a, rfl⟩

theorem describeDevice_count {d : Nat} (hfail : (s.describeDevice d a g).2 ≠ 0) :
    (s.describeDevice d a g).1.tables.deviceCount = s.tables.deviceCount := by
  unfold describeDevice at hfail ⊢
  dsimp only at hfail ⊢
  repeat' split
  all_goals first | rfl | (exfalso; simp_all)

theorem usbEnumerateDevice_count (h : ¬s.NoRecord a)
    (hfail : (s.usbEnumerateDevice slot place a g).2 ≠ 0) :
    (s.usbEnumerateDevice slot place a g).1.tables.deviceCount = s.tables.deviceCount + 1 := by
  obtain ⟨hroom, haddress⟩ := not_or.mp h
  obtain ⟨slot', hok⟩ := addressDevice_ok_iff.mpr haddress
  obtain ⟨d, hd⟩ := Option.ne_none_iff_exists'.mp hroom
  unfold usbEnumerateDevice at hfail ⊢
  dsimp only at hfail ⊢
  rw [hok] at hfail ⊢
  simp only [addressDevice_tables, hd] at hfail ⊢
  exact describeDevice_count hfail

/-- **Failed enumerations.**  One leaves no trace exactly if it comes to no record, and a retry keeps
    the slot of the caller. -/
theorem failed_noTrace_iff {s : Bus} {slot : Nat} {place : Place} {a : Answers} {g : Tables.Gadget}
    (hplace : s.tables.occupied place = false)
    (hfail : ((s.enableSlot slot).usbEnumerateDevice slot place a g).2 ≠ 0) :
    NoTrace s ((s.enableSlot slot).usbEnumerateDevice slot place a g).1 slot place ↔
      s.NoRecord a ∧ (a.address ≠ 0 → s.KeepsSlot slot a) := by
  rw [← addressDevice_keeps_iff]
  by_cases hnone : s.NoRecord a
  · obtain ⟨htables, henabled⟩ :
        ((s.enableSlot slot).usbEnumerateDevice slot place a g).1.tables = s.tables ∧ _ :=
      usbEnumerateDevice_noRecord hnone
    constructor
    · intro h
      exact ⟨hnone, henabled ▸ h.own, henabled ▸ h.others⟩
    · rintro ⟨-, hown, hothers⟩
      exact ⟨by rw [htables], by rw [htables], by rw [htables], by rw [htables], by rw [htables],
        by rw [htables]; exact ⟨rfl, rfl⟩, by rw [htables], henabled ▸ hown, henabled ▸ hothers,
        by rw [htables]; exact hplace⟩
  · refine iff_of_false (fun h => ?_) fun h => hnone h.1
    have hnone' : ¬(s.enableSlot slot).NoRecord a := hnone
    have hcount := usbEnumerateDevice_count hnone' hfail
    have hsame : _ = (s.enableSlot slot).tables.deviceCount := h.count
    omega

/-- All answers are good, but for a table that is full. -/
def calm : Answers := ⟨0, 0, 0, 0, 0, 0, 0, 0, 0, 0⟩

/-- The tables of a computer with nothing plugged in. -/
def idle : Bus := ⟨.empty, fun _ => false⟩

/-- A retry that gets the same slot again, in which the device has no address. -/
def mute : Answers := { calm with address := -1, newSlot := 1, retryAddress := -1, blockAddress := -1 }

theorem failed_noTrace_iff_mute :
    NoTrace idle ((idle.enableSlot 1).usbEnumerateDevice 1 ⟨1, 0, 0⟩ mute ⟨0, false, []⟩).1 1 ⟨1, 0, 0⟩ ↔
      idle.NoRecord mute ∧ (mute.address ≠ 0 → idle.KeepsSlot 1 mute) :=
  failed_noTrace_iff (by decide) (by decide)

/-- A device that gets an address and then does not tell its device descriptor: its record stays. -/
theorem silent_device_stays :
    ((idle.enableSlot 1).usbEnumerateDevice 1 ⟨1, 0, 0⟩ { calm with deviceDesc := -1 }
        ⟨0, false, []⟩).2 ≠ 0 ∧
      ¬NoTrace idle ((idle.enableSlot 1).usbEnumerateDevice 1 ⟨1, 0, 0⟩ { calm with deviceDesc := -1 }
        ⟨0, false, []⟩).1 1 ⟨1, 0, 0⟩ := by
  refine ⟨by decide, fun h => ?_⟩
  have hcount := h.count
  exact absurd hcount (by decide)

/-! ### The callers -/

end Bus

end Gemios.Usb
