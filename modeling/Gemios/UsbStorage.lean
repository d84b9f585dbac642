import Gemios.UsbTree
import Mathlib.Data.List.Nodup
import Mathlib.Data.List.Perm.Basic

/-!
# Block devices of attached disks

The block layer keeps pointers to records of `msc_devs`, and the records move when one of them is
removed.  As long as the last record is the one that goes, the record of the n-th disk stays at
place n, under the name of that place; and as long as there is a record for each disk that comes,
all the disks that are there are registered.
-/

namespace Gemios.Usb

open Function

/-- The disks of a device that is there, each as the time the device was plugged in. -/
def UsbDevice.disks (dev : UsbDevice) : List Nat :=
  if dev.active then List.replicate (dev.driven.countP Iface.isDisk) dev.plug else []

namespace Tables

/-! ### What the registry is for -/

def disks (s : Tables) : List Nat :=
  (List.range USB_MAX_DEVICES).flatMap fun i => (s.devices i).disks

/-- The registered block devices are those of the attached disks, no two have one name, and an
    access through a name goes to the disk for which it was registered. -/
structure Consistent (s : Tables) : Prop where
  exact : (s.registered.map s.access).Perm (s.disks.map some)
  distinct : (s.registered.map fun bdev => (s.mscDevs bdev).bdev.name).Nodup
  same : ∀ name plug, (name, plug) ∈ s.storages → (s.blockdevGet name).bind s.access = some plug

/-- A device that comes finds a record for each of its disks; one that goes has the last record of
    `msc_devs`, or none. -/
def Admits (s : Tables) : Change → Prop
  | .enumerate g .. => s.freeDevice.isSome = true →
      s.mscCount + g.driven.countP Iface.isDisk ≤ MAX_MSC_DEVS
  | .remove slot => ∀ d ∈ s.getDeviceBySlot slot,
      ∀ i < s.mscCount, (s.mscDevs i).dev = d → i + 1 = s.mscCount

instance (s : Tables) : (change : Change) → Decidable (s.Admits change)
  | .enumerate g .. => inferInstanceAs (Decidable (s.freeDevice.isSome = true →
      s.mscCount + g.driven.countP Iface.isDisk ≤ MAX_MSC_DEVS))
  | .remove slot => inferInstanceAs (Decidable (∀ d ∈ s.getDeviceBySlot slot,
      ∀ i < s.mscCount, (s.mscDevs i).dev = d → i + 1 = s.mscCount))

def AllAdmitted : Tables → List Change → Prop
  | _, [] => True
  | s, change :: changes => s.Admits change ∧ AllAdmitted (s.apply change) changes

instance decidableAllAdmitted : (s : Tables) → (changes : List Change) →
    Decidable (AllAdmitted s changes)
  | _, [] => isTrue trivial
  | s, change :: changes =>
    have := decidableAllAdmitted (s.apply change) changes
    inferInstanceAs (Decidable (s.Admits change ∧ AllAdmitted (s.apply change) changes))

def run (s : Tables) (changes : List Change) : Tables := changes.foldl apply s

/-! ### Records in their places -/

/-- Record i is registered i-th, has the name of place i, points to itself and is for a device that
    is there; no two devices were plugged in at the same time. -/
structure InPlace (s : Tables) : Prop where
  count : s.mscCount ≤ MAX_MSC_DEVS
  registered : s.registered = List.range s.mscCount
  record : ∀ i < s.mscCount, (s.mscDevs i).ready = true ∧ (s.mscDevs i).bdev.name = mscName i ∧
    (s.mscDevs i).bdev.priv = some i ∧ (s.mscDevs i).dev < USB_MAX_DEVICES ∧
    (s.devices (s.mscDevs i).dev).active = true
  storages : s.storages =
    (List.range s.mscCount).map fun i => (mscName i, (s.devices (s.mscDevs i).dev).plug)
  plugs : ∀ i < USB_MAX_DEVICES, (s.devices i).active = true → (s.devices i).plug < s.plugs
  plug_inj : ∀ i < USB_MAX_DEVICES, ∀ j < USB_MAX_DEVICES, (s.devices i).active = true →
    (s.devices j).active = true → (s.devices i).plug = (s.devices j).plug → i = j

theorem mscName_inj {i j : Nat} (hi : i < MAX_MSC_DEVS) (hj : j < MAX_MSC_DEVS)
    (h : mscName i = mscName j) : i = j := by
  have hall : ∀ i < 4, ∀ j < 4, mscName i = mscName j → i = j := by decide
  exact hall i hi j hj h

namespace InPlace

variable {s : Tables}

theorem access (h : s.InPlace) {i : Nat} (hi : i < s.mscCount) :
    s.access i = some (s.devices (s.mscDevs i).dev).plug := by
  obtain ⟨hready, -, hpriv, -, hactive⟩ := h.record i hi
  simp [Tables.access, hpriv, hready, hactive]

theorem blockdevGet (h : s.InPlace) {i : Nat} (hi : i < s.mscCount) :
    s.blockdevGet (mscName i) = some i := by
  have hmatch : ∀ j < s.mscCount, ((s.mscDevs j).bdev.name == mscName i) = (j == i) := by
    intro j hj
    obtain ⟨-, hname, -⟩ := h.record j hj
    rw [hname, Bool.eq_iff_iff, beq_iff_eq, beq_iff_eq]
    constructor
    · exact mscName_inj (Nat.lt_of_lt_of_le hj h.count) (Nat.lt_of_lt_of_le hi h.count)
    · exact congrArg mscName
  rw [Tables.blockdevGet, h.registered]
  cases hfind : (List.range s.mscCount).find? fun j => (s.mscDevs j).bdev.name == mscName i with
  | none =>
    have := List.find?_eq_none.mp hfind i (List.mem_range.mpr hi)
    rw [hmatch i hi] at this
    simp at this
  | some j =>
    have hj := List.mem_range.mp (List.mem_of_find?_eq_some hfind)
    have hname := List.find?_some hfind
    rw [hmatch j hj, beq_iff_eq] at hname
    rw [hname]

theorem consistent (h : s.InPlace) (hdisks : (s.storages.map Prod.snd).Perm s.disks) :
    s.Consistent := by
  refine ⟨?_, ?_, fun name plug hmem => ?_⟩
  · have haccess : s.registered.map s.access = (s.storages.map Prod.snd).map some := by
      rw [h.registered, h.storages, List.map_map, List.map_map]
      exact List.map_congr_left fun i hi => h.access (List.mem_range.mp hi)
    rw [haccess]
    exact hdisks.map some
  · rw [h.registered]
    refine List.Nodup.map_on ?_ List.nodup_range
    intro i hi j hj heq
    have hi' := List.mem_range.mp hi
    have hj' := List.mem_range.mp hj
    rw [(h.record i hi').2.1, (h.record j hj').2.1] at heq
    exact mscName_inj (Nat.lt_of_lt_of_le hi' h.count) (Nat.lt_of_lt_of_le hj' h.count) heq
  · rw [h.storages, List.mem_map] at hmem
    obtain ⟨i, hi, heq⟩ := hmem
    obtain ⟨rfl, rfl⟩ := Prod.mk.inj heq
    rw [h.blockdevGet (List.mem_range.mp hi), Option.bind_some, h.access (List.mem_range.mp hi)]

end InPlace

theorem empty_inPlace : empty.InPlace :=
  ⟨Nat.zero_le _, rfl, fun _ hi => absurd hi (Nat.not_lt_zero _), rfl,
    fun _ _ hactive => absurd hactive Bool.false_ne_true,
    fun _ _ _ _ hactive => absurd hactive Bool.false_ne_true⟩

/-! ### Plugging in -/

namespace InPlace

variable {s : Tables}

theorem usbCreateDevice (h : s.InPlace) {d : Nat} (hd : (s.devices d).active = false) {dev : UsbDevice}
    (hplug : dev.plug = s.plugs) : (s.usbCreateDevice d dev).InPlace := by
  have hold : ∀ i, (s.devices i).active = true → update s.devices d dev i = s.devices i := by
    intro i hi
    refine update_of_ne ?_ _ _
    rintro rfl
    rw [hd] at hi
    contradiction
  have hrec : ∀ i < s.mscCount, update s.devices d dev (s.mscDevs i).dev =
      s.devices (s.mscDevs i).dev := fun i hi => hold _ (h.record i hi).2.2.2.2
  refine ⟨h.count, h.registered, fun i hi => ?_, ?_, fun i hi hactive => ?_,
    fun i hi j hj hi' hj' heq => ?_⟩
  · simp only [Tables.usbCreateDevice, hrec i hi]
    exact h.record i hi
  · refine h.storages.trans (List.map_congr_left fun i hi => ?_)
    simp only [Tables.usbCreateDevice, hrec i (List.mem_range.mp hi)]
  · simp only [Tables.usbCreateDevice] at hactive ⊢
    by_cases hid : i = d
    · subst hid
      rw [update_self, hplug]
      exact Nat.lt_succ_self _
    · rw [update_of_ne hid] at hactive ⊢
      exact Nat.lt_succ_of_lt (h.plugs i hi hactive)
  · simp only [Tables.usbCreateDevice] at hi' hj' heq
    by_cases hid : i = d
    · by_cases hjd : j = d
      · rw [hid, hjd]
      · rw [hid, update_self, update_of_ne hjd, hplug] at heq
        rw [update_of_ne hjd] at hj'
        exact absurd heq (Nat.ne_of_gt (h.plugs j hj hj'))
    · rw [update_of_ne hid] at hi' heq
      by_cases hjd : j = d
      · rw [hjd, update_self, hplug] at heq
        exact absurd heq (Nat.ne_of_lt (h.plugs i hi hi'))
      · rw [update_of_ne hjd] at hj' heq
        exact h.plug_inj i hi j hj hi' hj' heq

theorem with_next (h : s.InPlace) (r : MscDev) :
    InPlace { s with mscDevs := update s.mscDevs s.mscCount r } := by
  have hrec : ∀ i < s.mscCount, update s.mscDevs s.mscCount r i = s.mscDevs i :=
    fun i hi => update_of_ne (Nat.ne_of_lt hi) _ _
  refine ⟨h.count, h.registered, fun i hi => ?_, ?_, h.plugs, h.plug_inj⟩
  · simp only [hrec i hi]
    exact h.record i hi
  · refine h.storages.trans (List.map_congr_left fun i hi => ?_)
    simp only [hrec i (List.mem_range.mp hi)]

theorem mscReady (h : s.InPlace) (hroom : s.mscCount < MAX_MSC_DEVS) {dev : Nat}
    (hdev : dev < USB_MAX_DEVICES) (hactive : (s.devices dev).active = true) (blocks size : Nat) :
    (s.mscReady dev blocks size).InPlace := by
  have hreg : ¬s.registered.length ≥ MAX_BLOCK_DEVS := by
    rw [h.registered, List.length_range]
    exact Nat.not_le_of_lt (Nat.lt_trans hroom (by decide))
  rw [Tables.mscReady, blockdevRegister, if_neg hreg]
  have hrec : ∀ r : MscDev, ∀ i < s.mscCount, update s.mscDevs s.mscCount r i = s.mscDevs i :=
    fun r i hi => update_of_ne (Nat.ne_of_lt hi) _ _
  refine ⟨hroom, ?_, fun i hi => ?_, ?_, h.plugs, h.plug_inj⟩
  · simp only [h.registered, List.range_succ]
  · simp only at hi ⊢
    by_cases hlast : i = s.mscCount
    · rw [hlast, update_self]
      exact ⟨rfl, rfl, rfl, hdev, hactive⟩
    · have hlt : i < s.mscCount := Nat.lt_of_le_of_ne (Nat.le_of_lt_succ hi) hlast
      rw [hrec _ i hlt]
      exact h.record i hlt
  · simp only [List.range_succ, List.map_append, List.map_cons, List.map_nil, update_self]
    refine congrArg (· ++ _) (h.storages.trans (List.map_congr_left fun i hi => ?_))
    rw [hrec _ i (List.mem_range.mp hi)]

theorem usbMscInitDevice (h : s.InPlace) {dev : Nat} (hdev : dev < USB_MAX_DEVICES)
    (hactive : (s.devices dev).active = true) (bulk : Bool) (capacity : Option (Nat × Nat)) :
    (s.usbMscInitDevice dev bulk capacity).InPlace := by
  unfold Tables.usbMscInitDevice
  split
  · exact h
  · rename_i hroom
    split
    · exact h
    · split
      · exact h.mscReady (Nat.lt_of_not_le hroom) hdev hactive ..
      · exact h.with_next _

theorem attachDriver (h : s.InPlace) {d : Nat} (hd : d < USB_MAX_DEVICES)
    (hactive : (s.devices d).active = true) (iface : Iface) : (attachDriver d s iface).InPlace := by
  unfold Tables.attachDriver
  split
  · split
    · exact ⟨h.count, h.registered, h.record, h.storages, h.plugs, h.plug_inj⟩
    · exact h
  · split
    · exact ⟨h.count, h.registered, h.record, h.storages, h.plugs, h.plug_inj⟩
    · exact h
  · exact h.usbMscInitDevice hd hactive ..
  · exact h

theorem attachDrivers (h : s.InPlace) {d : Nat} (hd : d < USB_MAX_DEVICES)
    (hactive : (s.devices d).active = true) (ifaces : List Iface) :
    (ifaces.foldl (Tables.attachDriver d) s).InPlace := by
  induction ifaces generalizing s with
  | nil => exact h
  | cons iface ifaces ih =>
    refine ih (h.attachDriver hd hactive iface) ?_
    rw [(attachDriver_attached d s iface).devices]
    exact hactive

theorem usbEnumerateDevice (h : s.InPlace) (g : Gadget) (rootPort parentHubSlot parentPort : Nat) :
    (s.usbEnumerateDevice g rootPort parentHubSlot parentPort).InPlace := by
  unfold Tables.usbEnumerateDevice
  split
  · rename_i d hfree
    obtain ⟨hd, hinactive⟩ := findDevice_some hfree
    have hnew := h.usbCreateDevice (by simpa using hinactive)
      (show (g.device rootPort parentHubSlot parentPort s.plugs).plug = s.plugs from rfl)
    dsimp only
    split
    · unfold usbHubInitDevice
      split
      · exact hnew
      · exact ⟨hnew.count, hnew.registered, hnew.record, hnew.storages, hnew.plugs, hnew.plug_inj⟩
    · refine hnew.attachDrivers hd ?_ g.interfaces
      rw [usbCreateDevice_self]
      rfl
  · exact h

/-! ### Pulling out -/

theorem usbMscRemoveDevice (h : s.InPlace) {d : Nat}
    (hlast : ∀ i < s.mscCount, (s.mscDevs i).dev = d → i + 1 = s.mscCount) :
    ∃ n ≤ s.mscCount, s.usbMscRemoveDevice d =
        { s with registered := List.range n, mscCount := n } ∧
      (∀ i < n, (s.mscDevs i).dev ≠ d) ∧ ∀ i < s.mscCount, n ≤ i → (s.mscDevs i).dev = d := by
  unfold Tables.usbMscRemoveDevice
  split
  · rename_i i hfind
    have hi := List.mem_range.mp (List.mem_of_find?_eq_some hfind)
    have hdev : (s.mscDevs i).dev = d := by simpa using List.find?_some hfind
    have hn := hlast i hi hdev
    refine ⟨i, Nat.le_of_lt hi, ?_, fun j hj hjd => ?_, fun j hj hij => ?_⟩
    · have hcount : s.mscCount - 1 = i := by omega
      have hmsc : (fun j => if i ≤ j ∧ j < s.mscCount - 1 then s.mscDevs (j + 1) else s.mscDevs j) =
          s.mscDevs := by
        funext j
        exact if_neg (by omega)
      have hreg : s.registered.erase i = List.range i := by
        rw [h.registered, List.erase_range, Nat.min_eq_right (Nat.le_of_lt hi), hn, Nat.sub_self]
        exact List.append_nil _
      rw [blockdevUnregister, hreg, hmsc, hcount]
    · have := hlast j (Nat.lt_trans hj hi) hjd
      omega
    · rwa [show j = i by omega]
  · rename_i hnone
    refine ⟨s.mscCount, Nat.le_refl _, ?_, fun i hi hdev => ?_, fun i hi hle => ?_⟩
    · rw [← h.registered]
    · have := List.find?_eq_none.mp hnone i (List.mem_range.mpr hi)
      simp [hdev] at this
    · exact absurd hi (Nat.not_lt_of_le hle)

theorem usbRemoveDevice (h : s.InPlace) {slot : Nat} (hadmits : s.Admits (.remove slot)) :
    (s.usbRemoveDevice slot).InPlace := by
  unfold Tables.usbRemoveDevice
  split
  swap
  · exact h
  rename_i d hfind
  obtain ⟨hd, hslot⟩ := findDevice_some hfind
  have hactive : (s.devices d).active = true := (Bool.and_eq_true_iff.mp hslot).1
  obtain ⟨n, hn, hremove, hother, hgone⟩ := h.usbMscRemoveDevice (hadmits d hfind)
  rw [hremove]
  -- the devices that are still there are other ones
  have hdevs : ∀ i, i ≠ d →
      update s.devices d { s.devices d with active := false } i = s.devices i :=
    fun i hi => update_of_ne hi _ _
  have hstill : ∀ i, (update s.devices d { s.devices d with active := false } i).active = true →
      i ≠ d := by
    rintro i hi rfl
    rw [update_self] at hi
    contradiction
  refine ⟨Nat.le_trans hn h.count, rfl, fun i hi => ?_, ?_, fun i hi hi' => ?_,
    fun i hi j hj hi' hj' heq => ?_⟩
  · simp only [hdevs _ (hother i hi)]
    exact h.record i (Nat.lt_of_lt_of_le hi hn)
  · -- the names of the other disks are kept
    simp only [h.storages, List.filter_map]
    have hfilter : (List.range s.mscCount).filter ((fun e : String × Nat =>
        e.2 != (s.devices d).plug) ∘ fun i => (mscName i, (s.devices (s.mscDevs i).dev).plug)) =
        List.range n := by
      obtain ⟨k, hk⟩ := Nat.exists_eq_add_of_le hn
      rw [hk, List.range_add, List.filter_append, List.filter_eq_self.mpr, List.filter_eq_nil_iff.mpr,
        List.append_nil]
      · intro i hi
        obtain ⟨j, hj, rfl⟩ := List.mem_map.mp hi
        have hjk := List.mem_range.mp hj
        have hlt : n + j < s.mscCount := by omega
        simp [hgone (n + j) hlt (Nat.le_add_right ..)]
      · intro i hi
        have hi' := List.mem_range.mp hi
        obtain ⟨-, -, -, hlt, hact⟩ := h.record i (Nat.lt_of_lt_of_le hi' hn)
        simp only [Function.comp_apply, bne_iff_ne, ne_eq]
        exact fun heq => hother i hi' (h.plug_inj _ hlt d hd hact hactive heq)
    rw [hfilter]
    refine List.map_congr_left fun i hi => ?_
    rw [hdevs _ (hother i (List.mem_range.mp hi))]
  · have hne := hstill i hi'
    simp only [hdevs i hne] at hi' ⊢
    exact h.plugs i hi hi'
  · have hni := hstill i hi'
    have hnj := hstill j hj'
    simp only [hdevs i hni, hdevs j hnj] at hi' hj' heq
    exact h.plug_inj i hi j hj hi' hj' heq

theorem apply (h : s.InPlace) {change : Change} (hadmits : s.Admits change) : (s.apply change).InPlace := by
  cases change with
  | enumerate g rootPort parentHubSlot parentPort => exact h.usbEnumerateDevice ..
  | remove slot => exact h.usbRemoveDevice hadmits

end InPlace

/-! ### A record for each disk -/

section

variable {s : Tables}

theorem flatMap_flip {f g : Nat → List Nat} {d : Nat} (hold : f d = [])
    (hother : ∀ i, i ≠ d → g i = f i) {l : List Nat} (hl : l.Nodup) (hd : d ∈ l) :
    (l.flatMap g).Perm (l.flatMap f ++ g d) := by
  have hperm := List.perm_cons_erase hd
  have hrest : (l.erase d).flatMap g = (l.erase d).flatMap f :=
    List.flatMap_congr fun i hi => hother i (hl.mem_erase_iff.mp hi).1
  have hbase : (l.flatMap f).Perm ((l.erase d).flatMap f) := by
    have h := hperm.flatMap_right f
    rwa [List.flatMap_cons, hold, List.nil_append] at h
  have hgrown : (l.flatMap g).Perm (g d ++ (l.erase d).flatMap f) := by
    have h := hperm.flatMap_right g
    rwa [List.flatMap_cons, hrest] at h
  exact (hgrown.trans List.perm_append_comm).trans (hbase.symm.append_right _)

theorem disks_usbCreateDevice {d : Nat} (hd : d < USB_MAX_DEVICES) (hfree : (s.devices d).active = false)
    (dev : UsbDevice) : (s.usbCreateDevice d dev).disks.Perm (s.disks ++ dev.disks) := by
  have h := flatMap_flip (f := fun i => (s.devices i).disks)
    (g := fun i => ((s.usbCreateDevice d dev).devices i).disks)
    (if_neg (by rw [hfree]; exact Bool.false_ne_true))
    (fun i hi => by rw [usbCreateDevice_of_ne hi]) List.nodup_range (List.mem_range.mpr hd)
  rwa [usbCreateDevice_self] at h

/-- The plugs of the registered disks, as the drivers of some interfaces leave them. -/
structure Stored (d : Nat) (ifaces : List Iface) (s s' : Tables) : Prop where
  count : s'.mscCount = s.mscCount + ifaces.countP Iface.isDisk
  plugs : s'.storages.map Prod.snd = s.storages.map Prod.snd ++
    List.replicate (ifaces.countP Iface.isDisk) (s.devices d).plug

theorem Stored.none (d : Nat) {ifaces : List Iface} {s s' : Tables}
    (hdisks : ifaces.countP Iface.isDisk = 0) (hcount : s'.mscCount = s.mscCount)
    (hstorages : s'.storages = s.storages) : Stored d ifaces s s' := by
  refine ⟨?_, ?_⟩
  · rw [hcount, hdisks, Nat.add_zero]
  · rw [hstorages, hdisks, List.replicate_zero, List.append_nil]

theorem mscReady_stored (d blocks size : Nat) :
    (s.mscReady d blocks size).mscCount = s.mscCount + 1 ∧
      (s.mscReady d blocks size).storages.map Prod.snd =
        s.storages.map Prod.snd ++ [(s.devices d).plug] := by
  refine ⟨rfl, ?_⟩
  rw [mscReady, blockdevRegister]
  split <;> exact List.map_append ..

theorem eq_of_isDisk {bulk : Bool} {capacity : Option (Nat × Nat)}
    (h : (Iface.storage bulk capacity).isDisk = true) :
    ∃ blocks size, bulk = true ∧ capacity = some (blocks + 1, size) := by
  unfold Iface.isDisk at h
  split at h
  · rename_i blocks size heq
    obtain ⟨rfl, rfl⟩ := Iface.storage.inj heq
    exact ⟨blocks, size, rfl, rfl⟩
  · contradiction

theorem usbMscInitDevice_of_not_isDisk (s : Tables) (d : Nat) {bulk : Bool}
    {capacity : Option (Nat × Nat)} (h : ¬(Iface.storage bulk capacity).isDisk = true) :
    (s.usbMscInitDevice d bulk capacity).mscCount = s.mscCount ∧
      (s.usbMscInitDevice d bulk capacity).storages = s.storages := by
  unfold usbMscInitDevice
  split
  · exact ⟨rfl, rfl⟩
  · split
    · exact ⟨rfl, rfl⟩
    · rename_i hbulk
      split
      · rw [Bool.not_eq_true', Bool.not_eq_false] at hbulk
        exact absurd (by rw [hbulk]; rfl) h
      · exact ⟨rfl, rfl⟩

theorem attachDriver_stored (d : Nat) (iface : Iface)
    (hroom : s.mscCount + [iface].countP Iface.isDisk ≤ MAX_MSC_DEVS) :
    Stored d [iface] s (attachDriver d s iface) := by
  cases iface with
  | keyboard inDci =>
    cases inDci with
    | none => exact .none d rfl rfl rfl
    | some inDci =>
      simp only [attachDriver]
      split <;> exact .none d rfl rfl rfl
  | mouse inDci =>
    cases inDci with
    | none => exact .none d rfl rfl rfl
    | some inDci =>
      simp only [attachDriver]
      split <;> exact .none d rfl rfl rfl
  | storage bulk capacity =>
    by_cases hdisk : (Iface.storage bulk capacity).isDisk = true
    · obtain ⟨blocks, size, rfl, rfl⟩ := eq_of_isDisk hdisk
      obtain ⟨hcount, hplugs⟩ := s.mscReady_stored d (blocks + 1) size
      simp only [attachDriver, usbMscInitDevice]
      rw [if_neg (Nat.not_le_of_lt hroom), if_neg (by decide)]
      exact ⟨hcount, hplugs⟩
    · obtain ⟨hcount, hstorages⟩ := usbMscInitDevice_of_not_isDisk s d hdisk
      exact .none d (List.countP_eq_zero.mpr fun iface hmem => by
        rwa [List.mem_singleton.mp hmem]) hcount hstorages
  | other => exact .none d rfl rfl rfl

theorem attachDrivers_stored (d : Nat) (ifaces : List Iface)
    (hroom : s.mscCount + ifaces.countP Iface.isDisk ≤ MAX_MSC_DEVS) :
    Stored d ifaces s (ifaces.foldl (attachDriver d) s) := by
  induction ifaces generalizing s with
  | nil => exact .none d rfl rfl rfl
  | cons iface ifaces ih =>
    have hsplit : (iface :: ifaces).countP Iface.isDisk =
        [iface].countP Iface.isDisk + ifaces.countP Iface.isDisk := by
      rw [← List.countP_append, List.singleton_append]
    rw [hsplit] at hroom
    have hfirst := attachDriver_stored (s := s) d iface (by omega)
    have hrest := ih (s := attachDriver d s iface) (by rw [hfirst.count]; omega)
    refine ⟨?_, ?_⟩
    · rw [List.foldl_cons, hrest.count, hfirst.count, hsplit]
      omega
    · rw [List.foldl_cons, hrest.plugs, hfirst.plugs, (attachDriver_attached d s iface).devices, hsplit,
        List.append_assoc, List.replicate_append_replicate]

theorem usbEnumerateDevice_disks (hdisks : (s.storages.map Prod.snd).Perm s.disks) (g : Gadget)
    (rootPort hubSlot port : Nat)
    (hadmits : s.Admits (.enumerate g rootPort hubSlot port)) :
    ((s.usbEnumerateDevice g rootPort hubSlot port).storages.map Prod.snd).Perm
      (s.usbEnumerateDevice g rootPort hubSlot port).disks := by
  unfold usbEnumerateDevice
  split
  swap
  · exact hdisks
  rename_i d hfree
  obtain ⟨hd, hinactive⟩ := findDevice_some hfree
  have hcreate := disks_usbCreateDevice hd (by simpa using hinactive)
    (g.device rootPort hubSlot port s.plugs)
  have hown : (g.device rootPort hubSlot port s.plugs).disks =
      List.replicate (g.driven.countP Iface.isDisk) s.plugs := if_pos rfl
  rw [hown] at hcreate
  dsimp only
  split
  · rename_i hhub
    have hdriven : g.driven = [] := if_pos hhub
    rw [hdriven, List.countP_nil, List.replicate_zero, List.append_nil] at hcreate
    unfold usbHubInitDevice
    split
    · exact hdisks.trans hcreate.symm
    · exact hdisks.trans hcreate.symm
  · rename_i hhub
    have hdriven : g.driven = g.interfaces := if_neg hhub
    have hroom := hadmits (by rw [hfree]; rfl)
    rw [hdriven] at hroom hcreate
    have hstored := attachDrivers_stored
      (s := s.usbCreateDevice d (g.device rootPort hubSlot port s.plugs)) d g.interfaces hroom
    have hdevs := (attachDrivers_attached d
      (s.usbCreateDevice d (g.device rootPort hubSlot port s.plugs)) g.interfaces).devices
    rw [hstored.plugs, usbCreateDevice_self, disks, hdevs]
    exact (hdisks.append_right _).trans hcreate.symm

theorem usbRemoveDevice_disks (h : s.InPlace) (hdisks : (s.storages.map Prod.snd).Perm s.disks)
    {slot : Nat} :
    ((s.usbRemoveDevice slot).storages.map Prod.snd).Perm (s.usbRemoveDevice slot).disks := by
  unfold usbRemoveDevice
  split
  swap
  · exact hdisks
  rename_i d hfind
  obtain ⟨hd, hslot⟩ := findDevice_some hfind
  have hactive : (s.devices d).active = true := (Bool.and_eq_true_iff.mp hslot).1
  have hsame := s.usbMscRemoveDevice_sameTree d
  have hstorages : (s.usbMscRemoveDevice d).storages = s.storages := by
    unfold usbMscRemoveDevice
    split <;> rfl
  dsimp only
  rw [disks, hstorages, hsame.devices]
  -- the disks of the device are those with its plug
  have hleft : ((List.range USB_MAX_DEVICES).flatMap fun i =>
      (update s.devices d { s.devices d with active := false } i).disks) =
      s.disks.filter fun plug => plug != (s.devices d).plug := by
    rw [disks, List.filter_flatMap]
    refine List.flatMap_congr fun i hi => ?_
    by_cases hid : i = d
    · rw [hid, update_self, UsbDevice.disks, if_neg Bool.false_ne_true, UsbDevice.disks,
        if_pos hactive, List.filter_replicate_of_neg (by simp)]
    · rw [update_of_ne hid, UsbDevice.disks]
      split
      · rename_i hi'
        rw [List.filter_replicate_of_pos]
        rw [bne_iff_ne]
        exact fun heq => hid (h.plug_inj i (List.mem_range.mp hi) d hd hi' hactive heq)
      · rfl
  rw [hleft]
  have hkept : (s.storages.filter fun e => e.2 != (s.devices d).plug).map Prod.snd =
      (s.storages.map Prod.snd).filter fun plug => plug != (s.devices d).plug := by
    rw [List.filter_map]
    rfl
  rw [hkept]
  exact hdisks.filter _

theorem apply_disks (h : s.InPlace) (hdisks : (s.storages.map Prod.snd).Perm s.disks)
    {change : Change} (hadmits : s.Admits change) :
    ((s.apply change).storages.map Prod.snd).Perm (s.apply change).disks := by
  cases change with
  | enumerate g rootPort hubSlot port => exact usbEnumerateDevice_disks hdisks g _ _ _ hadmits
  | remove slot => exact usbRemoveDevice_disks h hdisks

theorem run_consistent {changes : List Change} (h : s.InPlace)
    (hdisks : (s.storages.map Prod.snd).Perm s.disks) (hadmitted : s.AllAdmitted changes) :
    (s.run changes).Consistent := by
  induction changes generalizing s with
  | nil => exact h.consistent hdisks
  | cons change changes ih =>
    exact ih (h.apply hadmitted.1) (apply_disks h hdisks hadmitted.1) hadmitted.2

end

/-- **Last in, first out.**  Whatever is plugged in and pulled out: as long as each disk that goes
    is the last one that came, and the only one of its device, and no more than four are there at a
    time, the registry is consistent. -/
theorem registry_consistent {changes : List Change} (hadmitted : empty.AllAdmitted changes) :
    (empty.run changes).Consistent :=
  run_consistent empty_inPlace (List.Perm.of_eq (by decide)) hadmitted

def stick (slot : Nat) : Change := .enumerate ⟨slot, false, [.storage true (some (8192, 512))]⟩ slot 0 0

theorem registry_consistent_sticks :
    (empty.run [stick 1, stick 2, .remove 2, stick 3, .remove 3, .remove 1]).Consistent :=
  registry_consistent (by decide)

/-- Two disks come, the first one goes and a third one comes: the name of the second one leads to
    the third. -/
theorem wrong_stick :
    let s := empty.run [stick 1, stick 2, .remove 1, stick 3]
    s.storages = [("usb1", 1), ("usb1", 2)] ∧ (s.blockdevGet "usb1").bind s.access = some 2 ∧
      ¬s.Consistent := by
  refine ⟨by decide, by decide, fun h => ?_⟩
  have hsame := h.same "usb1" 1 (by decide)
  revert hsame
  decide

end Tables

end Gemios.Usb
