import Gemios.UsbConfig

/-!
# The descriptor loops on any bytes

The loop of `usb_audio_init_device` in `src/src/usb/usb_audio.c` that goes through the same
descriptor, and the search for the microphone's selector unit after it.

Both loops end, and their accesses to the tables are inside of them.  But they read the type of a
descriptor that may be the last byte, and cast descriptors that may be shorter than what they are
cast to; and the search for the microphone takes a number of pins that was never checked.
-/

namespace Gemios.Usb

def CS_INTERFACE : UInt8 := 0x24
def INPUT_TERMINAL : UInt8 := 0x02
def OUTPUT_TERMINAL : UInt8 := 0x03
def SELECTOR_UNIT : UInt8 := 0x05
def FEATURE_UNIT : UInt8 := 0x06
def FORMAT_TYPE : UInt8 := 0x02

/-- The local variables of the loop, with its four tables, and the fields of `usb_audio_device_t`
    that it sets.  Eight entries of `selPins` belong to each unit. -/
structure AudioWalk where
  curIfaceNum : UInt8
  curAltNum : UInt8
  curIfaceClass : UInt8
  curIfaceSubclass : UInt8
  outFu : UInt8
  inFu : UInt8
  unitSrc : Nat → UInt8
  inTermType : Nat → Nat
  selPins : Nat → UInt8
  selPinCount : Nat → UInt8
  acIface : UInt8
  channels : UInt8
  bitsPerSample : UInt8
  inChannels : UInt8
  inBitsPerSample : UInt8
  asOutIface : UInt8
  asOutAlt : UInt8
  asOutEpAddr : UInt8
  asOutEpDci : UInt8
  asOutMaxPacket : Nat
  asInIface : UInt8
  asInAlt : UInt8
  asInEpAddr : UInt8
  asInEpDci : UInt8
  asInMaxPacket : Nat
  hasCapture : Bool

def AudioWalk.start : AudioWalk :=
  ⟨0, 0, 0, 0, 0, 0, fun _ => 0, fun _ => 0, fun _ => 0, fun _ => 0, 0, 0, 0, 0, 0, 0, 0, 0, 0, 0,
    0, 0, 0, 0, 0, false⟩

section

variable (mem : Buf) (p : Nat) (a : AudioWalk)

def audioIface : AudioWalk × List Access :=
  let a := { a with
    curIfaceNum := mem (p + 2)
    curAltNum := mem (p + 3)
    curIfaceClass := mem (p + 5)
    curIfaceSubclass := mem (p + 6) }
  (if a.curIfaceClass = 1 ∧ a.curIfaceSubclass = 1 then { a with acIface := a.curIfaceNum } else a,
    [.byte (p + 2), .byte (p + 3), .byte (p + 5), .byte (p + 6)])

/-- The number of pins of a selector unit that are stored. -/
def storedPins : Nat := min (mem (p + 4)).toNat (min 8 ((mem p).toNat - 5))

/-- A descriptor of the AudioControl interface. -/
def audioControl : AudioWalk × List Access :=
  let len := (mem p).toNat
  let subtype := mem (p + 2)
  if subtype = INPUT_TERMINAL ∧ len ≥ 6 then
    let termId := (mem (p + 3)).toNat
    let reads := [.byte (p + 3), .byte (p + 4), .byte (p + 5)]
    if termId < 32 then
      ({ a with inTermType := Function.update a.inTermType termId (le16 mem (p + 4)) },
        reads ++ [.inTermType termId])
    else (a, reads)
  else if subtype = OUTPUT_TERMINAL ∧ len ≥ 8 then
    let termType := le16 mem (p + 4)
    (if termType = 0x0301 ∨ termType = 0x0302 ∨ termType = 0x0300 then { a with outFu := mem (p + 7) }
      else if termType = 0x0101 then { a with inFu := mem (p + 7) } else a,
      [.byte (p + 4), .byte (p + 5), .byte (p + 7)])
  else if subtype = FEATURE_UNIT ∧ len ≥ 5 then
    let uid := mem (p + 3)
    let reads := [.byte (p + 3), .byte (p + 4)]
    let r := if uid.toNat < 32 then
        ({ a with unitSrc := Function.update a.unitSrc uid.toNat (mem (p + 4)) },
          reads ++ [.unitSrc uid.toNat])
      else (a, reads)
    (if a.outFu = 0 then { r.1 with outFu := uid } else r.1, r.2)
  else if subtype = SELECTOR_UNIT ∧ len ≥ 5 then
    let uid := (mem (p + 3)).toNat
    let reads := [.byte (p + 3), .byte (p + 4)]
    if uid < 32 then
      ({ a with
          selPinCount := Function.update a.selPinCount uid (mem (p + 4))
          selPins := fun i =>
            if uid * 8 ≤ i ∧ i < uid * 8 + storedPins mem p then mem (p + 5 + (i - uid * 8))
            else a.selPins i },
        reads ++ .selPinCount uid ::
          (List.range (storedPins mem p)).flatMap fun k => [.selPin uid k, .byte (p + 5 + k)])
    else (a, reads)
  else (a, [])

/-- A descriptor of an AudioStreaming interface. -/
def audioStreaming : AudioWalk × List Access :=
  if mem (p + 2) = FORMAT_TYPE ∧ (mem p).toNat ≥ 7 then
    let nrChannels := mem (p + 4)
    let bitRes := mem (p + 6)
    (if a.curIfaceNum = a.asInIface then
        { a with
          inChannels := if nrChannels > 0 then nrChannels else a.inChannels
          inBitsPerSample := if bitRes > 0 then bitRes else a.inBitsPerSample }
      else
        { a with
          channels := if nrChannels > 0 then nrChannels else a.channels
          bitsPerSample := if bitRes > 0 then bitRes else a.bitsPerSample },
      [.byte (p + 4), .byte (p + 6)])
  else (a, [])

def audioSpecific : AudioWalk × List Access :=
  let r :=
    if a.curIfaceClass = 1 ∧ a.curIfaceSubclass = 1 then audioControl mem p a
    else if a.curIfaceClass = 1 ∧ a.curIfaceSubclass = 2 then audioStreaming mem p a
    else (a, [])
  (r.1, .byte (p + 2) :: r.2)

def audioEndpoint : AudioWalk × List Access :=
  if mem (p + 3) &&& 0x03 = 1 then
    let addr := mem (p + 2)
    let alt := if a.curAltNum > 0 then a.curAltNum else 1
    (if addr &&& USB_DIR_IN = 0 then
        { a with
          asOutIface := a.curIfaceNum
          asOutAlt := alt
          asOutEpAddr := addr
          asOutEpDci := (addr &&& 0x0F) * 2
          asOutMaxPacket := le16 mem (p + 4) }
      else
        { a with
          asInIface := a.curIfaceNum
          asInAlt := alt
          asInEpAddr := addr
          asInEpDci := (addr &&& 0x0F) * 2 + 1
          asInMaxPacket := le16 mem (p + 4)
          hasCapture := true },
      [.byte (p + 3), .byte (p + 2), .byte (p + 4), .byte (p + 5)])
  else (a, [.byte (p + 3)])

def audioBody : AudioWalk × List Access :=
  if mem (p + 1) = USB_DESC_INTERFACE then audioIface mem p a
  else if mem (p + 1) = CS_INTERFACE then audioSpecific mem p a
  else if mem (p + 1) = USB_DESC_ENDPOINT then audioEndpoint mem p a
  else (a, [])

end

def audioWalk (mem : Buf) (n : Nat) : AudioWalk × List Access :=
  recordWalk (descLen mem) n descHead (audioBody mem) n 0 .start

/-! ### The microphone -/

/-- The terminal on a pin of a unit is a microphone. -/
def AudioWalk.IsMic (a : AudioWalk) (su k : Nat) : Prop :=
  (a.selPins (su * 8 + k)).toNat < 32 ∧ a.inTermType (a.selPins (su * 8 + k)).toNat = 0x0201

instance (a : AudioWalk) (su k : Nat) : Decidable (a.IsMic su k) := inferInstanceAs (Decidable (_ ∧ _))

/-- The loop over the pins from `k` on, with this many left: `mic_selector_pin`, if it is set. -/
def micPin (a : AudioWalk) (su : Nat) : Nat → Nat → Option UInt8 × List Access
  | 0, _ => (none, [])
  | left + 1, k =>
    let inTerm := (a.selPins (su * 8 + k)).toNat
    let reads := Access.selPin su k :: if inTerm < 32 then [.inTermType inTerm] else []
    if a.IsMic su k then (some (UInt8.ofNat (k + 1)), reads)
    else
      let r := micPin a su left (k + 1)
      (r.1, reads ++ r.2)

/-- The search after the loop: `mic_selector_unit_id` and `mic_selector_pin`, where they are set. -/
def micSelector (a : AudioWalk) : Option (UInt8 × Option UInt8) × List Access :=
  if a.inFu.toNat < 32 then
    let su := a.unitSrc a.inFu.toNat
    if su > 0 ∧ su.toNat < 32 then
      if a.selPinCount su.toNat > 0 then
        let r := micPin a su.toNat (a.selPinCount su.toNat).toNat 0
        (some (su, r.1), [.unitSrc a.inFu.toNat, .selPinCount su.toNat] ++ r.2)
      else (none, [.unitSrc a.inFu.toNat, .selPinCount su.toNat])
    else (none, [.unitSrc a.inFu.toNat])
  else (none, [])

variable {mem : Buf} {n speed p : Nat}

/-! ### The loop of `usb_enumerate_device` -/

/-- The number of interfaces that are recorded, and of endpoints of the last one. -/
structure Counts where
  ifaces : Nat
  endpoints : Nat

def Counts.add (type : UInt8) (c : Counts) : Counts :=
  if type = USB_DESC_INTERFACE then
    if c.ifaces < USB_MAX_INTERFACES then ⟨c.ifaces + 1, 0⟩ else c
  else if type = USB_DESC_ENDPOINT then
    if c.ifaces ≠ 0 ∧ c.endpoints < USB_MAX_ENDPOINTS then { c with endpoints := c.endpoints + 1 } else c
  else c

/-- The descriptors that the loop comes to, each with what was counted before it. -/
def countedDescs (mem : Buf) (n : Nat) : List (Nat × Counts) :=
  recordVisits (descLen mem) n (fun p => Counts.add (mem (p + 1))) n 0 ⟨0, 0⟩

/-- A descriptor that is read inside of the buffer: its type, the fields of an interface or
    an endpoint that is recorded, and the burst size of a companion behind it. -/
structure Framed (mem : Buf) (n speed p : Nat) (c : Counts) : Prop where
  type : p + 1 < n
  iface : WholeAt (descLen mem) n p → mem (p + 1) = USB_DESC_INTERFACE →
    c.ifaces < USB_MAX_INTERFACES → p + 7 < n
  endpoint : WholeAt (descLen mem) n p → mem (p + 1) = USB_DESC_ENDPOINT → c.ifaces ≠ 0 →
    c.endpoints < USB_MAX_ENDPOINTS → p + 6 < n
  companion : WholeAt (descLen mem) n p → mem (p + 1) = USB_DESC_ENDPOINT → c.ifaces ≠ 0 →
    c.endpoints < USB_MAX_ENDPOINTS → USB_SPEED_SUPER ≤ speed → p + descLen mem p < n →
    mem (p + descLen mem p + 1) = USB_DESC_SS_EP_COMPANION → 3 ≤ mem (p + descLen mem p) →
    p + descLen mem p + 2 < n

/-- The loop ends by itself, and its accesses are inside of the buffer and the tables. -/
structure ConfigSafe (mem : Buf) (n speed : Nat) : Prop where
  ends : ∀ more, recordWalk (descLen mem) n descHead (configBody mem n speed) (n + more) 0 .start =
    configWalk mem n speed
  inBounds : ∀ a ∈ (configWalk mem n speed).2, a.InBounds n

def ConfigWalk.counts (w : ConfigWalk) : Counts :=
  ⟨w.interfaces.length, (w.interfaces.getLast?.elim [] UsbInterface.endpoints).length⟩

theorem configBody_counts {w : ConfigWalk} (hw : w.Ok) :
    (configBody mem n speed p w).1.counts = w.counts.add (mem (p + 1)) := by
  unfold configBody Counts.add
  split
  · unfold ifaceStep ConfigWalk.counts
    dsimp only
    split
    · simp [ifaceAt]
    · rfl
  · split
    · rcases List.eq_nil_or_concat' w.interfaces with h | ⟨itfs, itf, h⟩
      · rw [endpointStep_none hw h]
        simp [ConfigWalk.counts, h]
      · rw [endpointStep_some hw h]
        by_cases hroom : itf.endpoints.length < USB_MAX_ENDPOINTS
        · simp [ConfigWalk.counts, h, hroom, UsbInterface.addEndpoint]
        · simp [ConfigWalk.counts, h, hroom]
    · rfl

theorem forall_mem_companionReads (hnext : p + descLen mem p < n → p + descLen mem p + 1 < n) :
    (∀ a ∈ companionReads mem n speed p, a.InBounds n) ↔
      (USB_SPEED_SUPER ≤ speed → p + descLen mem p < n →
        mem (p + descLen mem p + 1) = USB_DESC_SS_EP_COMPANION → 3 ≤ mem (p + descLen mem p) →
        p + descLen mem p + 2 < n) := by
  unfold companionReads descLen at *
  dsimp only
  by_cases hlook : speed ≥ USB_SPEED_SUPER ∧ p + (mem p).toNat < n
  · have hbyte := hnext hlook.2
    rw [if_pos hlook]
    by_cases hcomp : mem (p + (mem p).toNat + 1) = USB_DESC_SS_EP_COMPANION
    · rw [if_pos hcomp]
      by_cases hlen : mem (p + (mem p).toNat) ≥ 3
      · simp [hlen, hcomp, hlook, hbyte, Access.InBounds]
      · simp [hlen, hlook, hbyte, Access.InBounds]
    · rw [if_neg hcomp]
      simp [hcomp, hbyte, Access.InBounds]
  · rw [if_neg hlook]
    refine iff_of_true (by simp) ?_
    intro hspeed hlt
    exact absurd ⟨hspeed, hlt⟩ hlook

theorem ifaceStep_inBounds_iff {w : ConfigWalk} (htype : p + 1 < n)
    (hwhole : WholeAt (descLen mem) n p) (hiface : mem (p + 1) = USB_DESC_INTERFACE) :
    (∀ a ∈ (ifaceStep mem p w).2, a.InBounds n) ↔ Framed mem n speed p w.counts := by
  have hnot : mem (p + 1) ≠ USB_DESC_ENDPOINT := hiface ▸ (by decide)
  have hframed : Framed mem n speed p w.counts ↔
      (w.interfaces.length < USB_MAX_INTERFACES → p + 7 < n) :=
    ⟨fun h => h.iface hwhole hiface, fun h => ⟨htype, fun _ _ => h, fun _ habs => absurd habs hnot,
      fun _ habs => absurd habs hnot⟩⟩
  rw [hframed]
  unfold ifaceStep
  dsimp only
  by_cases hroom : w.interfaces.length < USB_MAX_INTERFACES
  · simp only [hroom, if_true, List.forall_mem_cons, Access.InBounds, List.not_mem_nil,
      false_implies, implies_true, and_true, true_and, true_implies]
    omega
  · simp [hroom]

theorem endpointStep_inBounds_iff {w : ConfigWalk} (hw : w.Ok) (htype : p + 1 < n)
    (hwhole : WholeAt (descLen mem) n p) (hnext : p + descLen mem p < n → p + descLen mem p + 1 < n)
    (hendpoint : mem (p + 1) = USB_DESC_ENDPOINT) :
    (∀ a ∈ (endpointStep mem n speed p w).2, a.InBounds n) ↔ Framed mem n speed p w.counts := by
  have hiface : mem (p + 1) ≠ USB_DESC_INTERFACE := hendpoint ▸ (by decide)
  rcases List.eq_nil_or_concat' w.interfaces with h | ⟨itfs, itf, h⟩
  · have hzero : w.counts.ifaces = 0 := by simp [ConfigWalk.counts, h]
    rw [endpointStep_none hw h]
    simp only [List.not_mem_nil, false_implies, implies_true, true_iff]
    exact ⟨htype, fun _ habs => absurd habs hiface, fun _ _ habs => absurd hzero habs,
      fun _ _ habs => absurd hzero habs⟩
  · have hifaces : w.counts.ifaces ≠ 0 := by simp [ConfigWalk.counts, h]
    have hcount : w.counts.endpoints = itf.endpoints.length := by simp [ConfigWalk.counts, h]
    have hlast : itfs.length < USB_MAX_INTERFACES := by
      have := hw.ifaces
      rw [h, List.length_append, List.length_singleton] at this
      omega
    rw [endpointStep_some hw h]
    by_cases hroom : itf.endpoints.length < USB_MAX_ENDPOINTS
    · have hframed : Framed mem n speed p w.counts ↔ p + 6 < n ∧
          ∀ a ∈ companionReads mem n speed p, a.InBounds n := by
        rw [forall_mem_companionReads hnext]
        rw [← hcount] at hroom
        exact ⟨fun hf => ⟨hf.endpoint hwhole hendpoint hifaces hroom,
            hf.companion hwhole hendpoint hifaces hroom⟩,
          fun hf => ⟨htype, fun _ habs => absurd habs hiface, fun _ _ _ _ => hf.1,
            fun _ _ _ _ => hf.2⟩⟩
      have hdci : (endpointAt mem p).dci < 32 := dciOf_lt _
      rw [hframed]
      simp only [hroom, if_true, List.forall_mem_append, List.forall_mem_cons, Access.InBounds,
        hlast, hdci, List.not_mem_nil, false_implies, implies_true, and_true, true_and]
      refine and_congr_left fun _ => ?_
      omega
    · simp only [hroom, if_false, List.forall_mem_cons, Access.InBounds, hlast, List.not_mem_nil,
        false_implies, implies_true, and_true, true_iff]
      rw [← hcount] at hroom
      exact ⟨htype, fun _ habs => absurd habs hiface, fun _ _ _ habs => absurd habs hroom,
        fun _ _ _ habs => absurd habs hroom⟩

theorem configBody_inBounds_iff {w : ConfigWalk} (hw : w.Ok) (htype : p + 1 < n)
    (hwhole : WholeAt (descLen mem) n p) (hnext : p + descLen mem p < n → p + descLen mem p + 1 < n) :
    (∀ a ∈ (configBody mem n speed p w).2, a.InBounds n) ↔ Framed mem n speed p w.counts := by
  unfold configBody
  by_cases hiface : mem (p + 1) = USB_DESC_INTERFACE
  · rw [if_pos hiface]
    exact ifaceStep_inBounds_iff htype hwhole hiface
  · rw [if_neg hiface]
    by_cases hendpoint : mem (p + 1) = USB_DESC_ENDPOINT
    · rw [if_pos hendpoint]
      exact endpointStep_inBounds_iff hw htype hwhole hnext hendpoint
    · rw [if_neg hendpoint]
      simp only [List.not_mem_nil, false_implies, implies_true, true_iff]
      exact ⟨htype, fun _ habs => absurd habs hiface, fun _ habs => absurd habs hendpoint,
        fun _ habs => absurd habs hendpoint⟩

theorem configSafe_iff (mem : Buf) (n speed : Nat) :
    ConfigSafe mem n speed ↔ ∀ v ∈ countedDescs mem n, Framed mem n speed v.1 v.2 := by
  have hcounted : countedDescs mem n =
      (recordVisits (descLen mem) n (fun p w => (configBody mem n speed p w).1) n 0 .start).map
        fun v => (v.1, v.2.counts) :=
    recordVisits_map (fun p w hw => configBody_ok mem n speed p w hw)
      (fun p w hw => configBody_counts hw) n 0 ConfigWalk.Ok.start
  have hok : ∀ v ∈ recordVisits (descLen mem) n (fun p w => (configBody mem n speed p w).1) n 0 .start,
      v.2.Ok :=
    recordVisits_inv (fun p w hw => configBody_ok mem n speed p w hw) ConfigWalk.Ok.start
  have hall : (∀ a ∈ (configWalk mem n speed).2, a.InBounds n) ↔ _ := recordWalk_forall
  rw [hcounted, List.forall_mem_map]
  constructor
  · intro h v hv
    obtain ⟨hhead, hbody⟩ := hall.mp h.inBounds v hv
    have htype : v.1 + 1 < n := hhead (.byte (v.1 + 1)) (by simp [descHead])
    by_cases hwhole : WholeAt (descLen mem) n v.1
    · refine (configBody_inBounds_iff (hok v hv) htype hwhole fun hmore => ?_).mp (hbody hwhole)
      -- the next descriptor has a type too
      obtain ⟨w, hw⟩ := recordVisits_next (Nat.le_add_left n 0) hv hwhole hmore
      exact (hall.mp h.inBounds _ hw).1 (.byte (v.1 + descLen mem v.1 + 1)) (by simp [descHead])
    · exact ⟨htype, fun habs => absurd habs hwhole, fun habs => absurd habs hwhole,
        fun habs => absurd habs hwhole⟩
  · intro h
    refine ⟨recordWalk_more _ (Nat.le_add_left n 0), hall.mpr fun v hv => ⟨fun a ha => ?_, fun hwhole => ?_⟩⟩
    · have htype := (h v hv).type
      simp only [descHead, List.mem_cons, List.not_mem_nil, or_false] at ha
      rcases ha with rfl | rfl
      · exact Nat.lt_of_succ_lt htype
      · exact htype
    · refine (configBody_inBounds_iff (hok v hv) (h v hv).type hwhole fun hmore => ?_).mpr (h v hv)
      obtain ⟨w, hw⟩ := recordVisits_next (Nat.le_add_left n 0) hv hwhole hmore
      exact (h _ hw).type

end Gemios.Usb
