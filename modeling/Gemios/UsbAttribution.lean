import Gemios.UsbConfig

/-!
# Whose endpoint it is

On a well-formed configuration descriptor the loop of `usb_enumerate_device` records at most
eight interfaces.  When the table is full, the current interface stays the eighth, so it gets the
endpoints of the interfaces behind it too.
-/

namespace Gemios.Usb

/-! ### Descriptors -/

/-- The fields of an interface descriptor, and what a longer one has behind them. -/
structure IfaceDesc where
  number : UInt8
  alternate : UInt8
  numEndpoints : UInt8
  cls : UInt8
  subclass : UInt8
  protocol : UInt8
  string : UInt8
  extra : List UInt8

structure EndpointDesc where
  address : UInt8
  attributes : UInt8
  maxPacketLo : UInt8
  maxPacketHi : UInt8
  interval : UInt8
  extra : List UInt8

inductive ConfigDesc where
  | iface (d : IfaceDesc)
  | endpoint (d : EndpointDesc)
  | other (type : UInt8) (body : List UInt8)

namespace ConfigDesc

def type : ConfigDesc → UInt8
  | .iface _ => USB_DESC_INTERFACE
  | .endpoint _ => USB_DESC_ENDPOINT
  | .other type _ => type

def body : ConfigDesc → List UInt8
  | .iface d =>
    [d.number, d.alternate, d.numEndpoints, d.cls, d.subclass, d.protocol, d.string] ++ d.extra
  | .endpoint d => [d.address, d.attributes, d.maxPacketLo, d.maxPacketHi, d.interval] ++ d.extra
  | .other _ body => body

def Typed : ConfigDesc → Prop
  | .other type _ => type ≠ USB_DESC_INTERFACE ∧ type ≠ USB_DESC_ENDPOINT
  | _ => True

instance : (d : ConfigDesc) → Decidable d.Typed
  | .other _ _ => inferInstanceAs (Decidable (_ ∧ _))
  | .iface _ | .endpoint _ => isTrue trivial

def WellFormed (d : ConfigDesc) : Prop := d.body.length + 2 < 256 ∧ d.Typed

instance (d : ConfigDesc) : Decidable d.WellFormed := inferInstanceAs (Decidable (_ ∧ _))

def bytes (d : ConfigDesc) : List UInt8 := UInt8.ofNat (d.body.length + 2) :: d.type :: d.body

structure IsAt (mem : Buf) (p : Nat) (d : ConfigDesc) : Prop where
  len : (mem p).toNat = d.bytes.length
  type : mem (p + 1) = d.type
  body : ∀ i (hi : i < d.body.length), mem (p + 2 + i) = d.body[i]
  typed : d.Typed

end ConfigDesc

/-- A configuration descriptor, with everything that belongs to it. -/
def encodeConfig (ds : List ConfigDesc) : List UInt8 := ds.flatMap ConfigDesc.bytes

def HoldsAt (mem : Buf) (p : Nat) (bytes : List UInt8) : Prop :=
  ∀ i (hi : i < bytes.length), mem (p + i) = bytes[i]

theorem laidOut_of_holds {mem : Buf} {ds : List ConfigDesc} (hds : ∀ d ∈ ds, d.WellFormed) {p : Nat}
    (h : HoldsAt mem p (encodeConfig ds)) :
    LaidOut (descLen mem) (ConfigDesc.IsAt mem) p ds (p + (encodeConfig ds).length) := by
  induction ds generalizing p with
  | nil => exact .nil p
  | cons d ds ih =>
    obtain ⟨hlen, htyped⟩ := hds d List.mem_cons_self
    have hcons : encodeConfig (d :: ds) = d.bytes ++ encodeConfig ds := List.flatMap_cons
    have hbytes : d.bytes.length = d.body.length + 2 := rfl
    have hget : ∀ i (hi : i < d.bytes.length), mem (p + i) = d.bytes[i] := by
      intro i hi
      have := h i (by rw [hcons, List.length_append]; omega)
      simpa only [hcons, List.getElem_append_left hi] using this
    have hsize : descLen mem p = d.bytes.length := by
      have hzero := hget 0 (by omega)
      rw [Nat.add_zero] at hzero
      rw [descLen, hzero]
      simp only [ConfigDesc.bytes, List.getElem_cons_zero, UInt8.toNat_ofNat', List.length_cons]
      exact Nat.mod_eq_of_lt hlen
    refine .cons ⟨hsize, hget 1 (by omega), fun i hi => ?_, htyped⟩ (by omega) ?_
    · have := hget (i + 2) (by omega)
      simpa only [ConfigDesc.bytes, List.getElem_cons_succ, Nat.add_assoc, Nat.add_comm 2] using this
    · rw [hsize, hcons, List.length_append, ← Nat.add_assoc]
      refine ih (fun d' hd' => hds d' (List.mem_cons_of_mem _ hd')) fun i hi => ?_
      have := h (d.bytes.length + i) (by rw [hcons, List.length_append]; omega)
      rw [Nat.add_assoc, this]
      simp only [hcons, List.getElem_append_right (Nat.le_add_right _ _), Nat.add_sub_cancel_left]

/-! ### What is recorded -/

def IfaceDesc.record (d : IfaceDesc) : UsbInterface :=
  ⟨d.number, d.alternate, d.cls, d.subclass, d.protocol, []⟩

def EndpointDesc.record (d : EndpointDesc) : UsbEndpoint :=
  ⟨d.address, d.attributes, d.maxPacketLo.toNat + 256 * d.maxPacketHi.toNat, d.interval,
    dciOf d.address⟩

/-- An interface gets an endpoint if there is room. -/
def UsbInterface.tryEndpoint (itf : UsbInterface) (ep : UsbEndpoint) : UsbInterface :=
  if itf.endpoints.length < USB_MAX_ENDPOINTS then itf.addEndpoint ep else itf

/-- What one descriptor does to the table of interfaces. -/
def recordDesc (itfs : List UsbInterface) : ConfigDesc → List UsbInterface
  | .iface d => if itfs.length < USB_MAX_INTERFACES then itfs ++ [d.record] else itfs
  | .endpoint d => itfs.modify (itfs.length - 1) (·.tryEndpoint d.record)
  | .other _ _ => itfs

/-- Each recorded endpoint, and nothing else, has a ring and an add flag. -/
structure ConfigWalk.Ringed (w : ConfigWalk) : Prop where
  rings : w.rings = (w.interfaces.flatMap (·.endpoints)).map (·.dci)
  flags : ∀ i < 32, w.addFlags.getLsbD i = true ↔ i = 0 ∨ i ∈ w.rings

theorem ConfigWalk.Ringed.start : ConfigWalk.start.Ringed := by
  refine ⟨rfl, fun i hi => ?_⟩
  have hall : ∀ i < 32, (1 : BitVec 32).getLsbD i = true ↔ i = 0 ∨ i ∈ ([] : List Nat) := by decide
  exact hall i hi

theorem or_bit_getLsbD (x : BitVec 32) {dci i : Nat} (hi : i < 32) :
    (x ||| ((1 : BitVec 32) <<< dci)).getLsbD i = true ↔ x.getLsbD i = true ∨ i = dci := by
  rw [BitVec.getLsbD_or, Bool.or_eq_true]
  apply or_congr_right
  have hone : ∀ j, (1#32).getLsbD j = decide (j = 0) := fun j => by simp [BitVec.getLsbD_one]
  rw [BitVec.getLsbD_shiftLeft]
  simp only [show (1 : BitVec 32) = 1#32 from rfl, hone, hi, decide_true, Bool.true_and,
    Bool.and_eq_true, Bool.not_eq_true', decide_eq_false_iff_not, decide_eq_true_eq]
  omega

theorem configBody_ringed {mem : Buf} {n speed p : Nat} {w : ConfigWalk} (hok : w.Ok)
    (hw : w.Ringed) : (configBody mem n speed p w).1.Ringed := by
  unfold configBody
  split
  · unfold ifaceStep
    dsimp only
    split
    · refine ⟨?_, hw.flags⟩
      simp only [List.flatMap_append, List.flatMap_singleton, ifaceAt, List.append_nil]
      exact hw.rings
    · exact hw
  · split
    · rcases List.eq_nil_or_concat' w.interfaces with h | ⟨itfs, itf, h⟩
      · rwa [endpointStep_none hok h]
      · rw [endpointStep_some hok h]
        split
        · refine ⟨?_, fun i hi => ?_⟩
          · simp only [hw.rings, h, List.flatMap_append, List.flatMap_singleton, UsbInterface.addEndpoint,
              List.map_append, List.map_cons, List.map_nil, List.append_assoc]
          · simp only [or_bit_getLsbD _ hi, hw.flags i hi, List.mem_append, List.mem_singleton,
              or_assoc]
        · exact hw
    · exact hw

theorem configBody_interfaces {mem : Buf} {n speed p : Nat} {d : ConfigDesc} {w : ConfigWalk}
    (hok : w.Ok) (hd : d.IsAt mem p) :
    (configBody mem n speed p w).1.interfaces = recordDesc w.interfaces d := by
  unfold configBody
  rw [hd.type]
  cases d with
  | iface d =>
    have hlen : 7 ≤ (ConfigDesc.iface d).body.length := by simp [ConfigDesc.body]
    have h0 : mem (p + 2) = d.number := hd.body 0 (by omega)
    have h1 : mem (p + 3) = d.alternate := hd.body 1 (by omega)
    have h3 : mem (p + 5) = d.cls := hd.body 3 (by omega)
    have h4 : mem (p + 6) = d.subclass := hd.body 4 (by omega)
    have h5 : mem (p + 7) = d.protocol := hd.body 5 (by omega)
    have hrecord : ifaceAt mem p = d.record := by
      simp only [ifaceAt, IfaceDesc.record, h0, h1, h3, h4, h5]
    simp only [ConfigDesc.type, if_true, ifaceStep, recordDesc, hrecord]
    split <;> rfl
  | endpoint d =>
    have hlen : 5 ≤ (ConfigDesc.endpoint d).body.length := by simp [ConfigDesc.body]
    have h0 : mem (p + 2) = d.address := hd.body 0 (by omega)
    have h1 : mem (p + 3) = d.attributes := hd.body 1 (by omega)
    have h2 : mem (p + 4) = d.maxPacketLo := hd.body 2 (by omega)
    have h3 : mem (p + 4 + 1) = d.maxPacketHi := hd.body 3 (by omega)
    have h4 : mem (p + 6) = d.interval := hd.body 4 (by omega)
    have hrecord : endpointAt mem p = d.record := by
      simp only [endpointAt, EndpointDesc.record, le16, h0, h1, h2, h3, h4]
    have htype : ¬USB_DESC_ENDPOINT = USB_DESC_INTERFACE := by decide
    simp only [ConfigDesc.type, htype, if_false, if_true]
    rcases List.eq_nil_or_concat' w.interfaces with h | ⟨itfs, itf, h⟩
    · rw [endpointStep_none hok h, h]
      rfl
    · rw [endpointStep_some hok h, recordDesc, h, List.length_append, List.length_singleton,
        Nat.add_sub_cancel, modify_last, UsbInterface.tryEndpoint, hrecord]
      split
      · rfl
      · exact h
  | other type body =>
    obtain ⟨h4, h5⟩ := hd.typed
    simp only [ConfigDesc.type, h4, h5, if_false, recordDesc]

theorem configWalk_encode {mem : Buf} {ds : List ConfigDesc} (hds : ∀ d ∈ ds, d.WellFormed)
    (h : HoldsAt mem 0 (encodeConfig ds)) (speed : Nat) :
    (configWalk mem (encodeConfig ds).length speed).1.interfaces = ds.foldl recordDesc [] ∧
      (configWalk mem (encodeConfig ds).length speed).1.Ringed := by
  have hlaid := laidOut_of_holds hds h
  rw [Nat.zero_add] at hlaid
  have hrun : (configWalk mem (encodeConfig ds).length speed).1.interfaces = ds.foldl recordDesc [] ∧
      (configWalk mem (encodeConfig ds).length speed).1.Ok ∧
        (configWalk mem (encodeConfig ds).length speed).1.Ringed :=
    recordWalk_laidOut (f := ConfigWalk.interfaces) (I := fun w => w.Ok ∧ w.Ringed)
      (fun p w hw => ⟨configBody_ok mem _ speed p w hw.1, configBody_ringed hw.1 hw.2⟩)
      (fun p d w hw hd => configBody_interfaces hw.1 hd) hlaid (by omega) ⟨.start, .start⟩
  exact ⟨hrun.1, hrun.2.2⟩

/-! ### Interfaces with their endpoints -/

/-- The interface descriptors, each with the endpoint descriptors that it is the nearest before. -/
def groupDesc (gs : List (IfaceDesc × List EndpointDesc)) :
    ConfigDesc → List (IfaceDesc × List EndpointDesc)
  | .iface d => gs ++ [(d, [])]
  | .endpoint d => gs.modify (gs.length - 1) fun g => (g.1, g.2 ++ [d])
  | .other _ _ => gs

def groups (ds : List ConfigDesc) : List (IfaceDesc × List EndpointDesc) := ds.foldl groupDesc []

/-- Each recorded interface is the one at its place, and its endpoints are the first ones of its
    own; only they have a ring and an add flag. -/
structure Attributed (ds : List ConfigDesc) (w : ConfigWalk) : Prop where
  own : ∀ (k : Nat) (itf : UsbInterface), w.interfaces[k]? = some itf →
    ∃ g : IfaceDesc × List EndpointDesc, (groups ds)[k]? = some g ∧
      { itf with endpoints := [] } = g.1.record ∧ itf.endpoints <+: g.2.map EndpointDesc.record
  rings : w.rings = (w.interfaces.flatMap (·.endpoints)).map (·.dci)
  flags : ∀ i < 32, w.addFlags.getLsbD i = true ↔ i = 0 ∨ i ∈ w.rings

/-- No endpoint comes after the ninth interface, or the eighth has no room left by then. -/
def Fits (ds : List ConfigDesc) : Prop :=
  ((groups ds).drop USB_MAX_INTERFACES).flatMap Prod.snd = [] ∨
    ∃ g, (groups ds)[7]? = some g ∧ USB_MAX_ENDPOINTS ≤ g.2.length

/-- The entry of an interface that gets these endpoints. -/
def recordGroup (d : IfaceDesc) (es : List EndpointDesc) : UsbInterface :=
  { d.record with endpoints := (es.map EndpointDesc.record).take USB_MAX_ENDPOINTS }

/-- The table that the loop leaves: the eighth entry gets the endpoints of all that follow. -/
def recordGroups (gs : List (IfaceDesc × List EndpointDesc)) : List UsbInterface :=
  (gs.take 7).map (fun g => recordGroup g.1 g.2) ++
    ((gs.drop 7).head?.map fun g => recordGroup g.1 ((gs.drop 7).flatMap Prod.snd)).toList

theorem recordGroup_snoc (d : IfaceDesc) (es : List EndpointDesc) (e : EndpointDesc) :
    recordGroup d (es ++ [e]) = (recordGroup d es).tryEndpoint e.record := by
  unfold recordGroup UsbInterface.tryEndpoint UsbInterface.addEndpoint
  simp only [List.map_append, List.map_singleton, List.take_append, List.length_take, List.length_map]
  by_cases h : es.length < USB_MAX_ENDPOINTS
  · have hone : [e.record].take (USB_MAX_ENDPOINTS - es.length) = [e.record] :=
      List.take_of_length_le (by simp; omega)
    rw [if_pos (by omega), hone]
  · rw [if_neg (by omega), Nat.sub_eq_zero_of_le (by omega), List.take_zero, List.append_nil]

section

variable {front rest gs : List (IfaceDesc × List EndpointDesc)} {g : IfaceDesc × List EndpointDesc}

theorem recordGroups_short (h : gs.length ≤ 7) :
    recordGroups gs = gs.map fun g => recordGroup g.1 g.2 := by
  simp [recordGroups, List.take_of_length_le h, List.drop_eq_nil_of_le h]

theorem recordGroups_full (h : front.length = 7) :
    recordGroups (front ++ g :: rest) = front.map (fun g => recordGroup g.1 g.2) ++
      [recordGroup g.1 (g.2 ++ rest.flatMap Prod.snd)] := by
  rw [recordGroups, ← h, List.take_left, List.drop_left]
  simp

theorem short_or_full (gs : List (IfaceDesc × List EndpointDesc)) :
    gs.length ≤ 7 ∨ ∃ front g rest, gs = front ++ g :: rest ∧ front.length = 7 := by
  rcases Nat.lt_or_ge 7 gs.length with h | h
  · refine .inr ⟨gs.take 7, gs[7], gs.drop 8, ?_, by simp; omega⟩
    rw [← List.drop_eq_getElem_cons h, List.take_append_drop]
  · exact .inl h

end

theorem recordDesc_recordGroups (gs : List (IfaceDesc × List EndpointDesc)) (d : ConfigDesc) :
    recordDesc (recordGroups gs) d = recordGroups (groupDesc gs d) := by
  cases d with
  | other type body => rfl
  | iface d =>
    simp only [recordDesc, groupDesc]
    have hnew : recordGroup d [] = d.record := rfl
    rcases short_or_full gs with h | ⟨front, g, rest, rfl, h⟩
    · rw [recordGroups_short h, List.length_map, if_pos (show gs.length < USB_MAX_INTERFACES from Nat.lt_succ_of_le h)]
      rcases Nat.lt_or_ge gs.length 7 with hlt | hge
      · rw [recordGroups_short (by simp; omega), List.map_append, List.map_singleton, hnew]
      · rw [recordGroups_full (Nat.le_antisymm h hge)]
        simp [hnew]
    · rw [List.append_assoc, List.cons_append, recordGroups_full h, recordGroups_full h, if_neg]
      · simp
      · simp [h, USB_MAX_INTERFACES]
  | endpoint e =>
    simp only [recordDesc, groupDesc]
    rcases List.eq_nil_or_concat' gs with rfl | ⟨gs, g, rfl⟩
    · rfl
    rw [List.length_append, List.length_singleton, Nat.add_sub_cancel, modify_last]
    rcases Nat.lt_or_ge gs.length 7 with h | h
    · -- the last one is not the eighth
      rw [recordGroups_short (by simp; omega), recordGroups_short (by simp; omega),
        List.map_append, List.map_append, List.map_singleton, List.map_singleton, List.length_append,
        List.length_singleton, Nat.add_sub_cancel, modify_last, recordGroup_snoc]
    · -- the endpoints of the last one go to the eighth
      rcases short_or_full gs with hle | ⟨front, g', rest, rfl, hfront⟩
      · have hlen := Nat.le_antisymm hle h
        rw [recordGroups_full hlen, recordGroups_full hlen, List.length_append, List.length_singleton,
          Nat.add_sub_cancel, modify_last, ← recordGroup_snoc]
        simp
      · rw [List.append_assoc, List.cons_append, recordGroups_full hfront, List.append_assoc,
          List.cons_append, recordGroups_full hfront, List.length_append, List.length_singleton,
          Nat.add_sub_cancel, modify_last, ← recordGroup_snoc]
        simp

theorem foldl_recordDesc (ds : List ConfigDesc) :
    ds.foldl recordDesc [] = recordGroups (groups ds) := by
  have hrun : ∀ gs, ds.foldl recordDesc (recordGroups gs) = recordGroups (ds.foldl groupDesc gs) := by
    induction ds with
    | nil => exact fun _ => rfl
    | cons d ds ih =>
      intro gs
      rw [List.foldl_cons, List.foldl_cons, recordDesc_recordGroups, ih]
  exact hrun []

theorem take_prefix_iff {α : Type} (xs ys : List α) (m : Nat) :
    (xs ++ ys).take m <+: xs ↔ ys = [] ∨ m ≤ xs.length := by
  constructor
  · intro h
    have hlen := h.length_le
    rw [List.length_take, List.length_append] at hlen
    cases ys with
    | nil => exact .inl rfl
    | cons y ys =>
      rw [List.length_cons] at hlen
      exact .inr (by omega)
  · rintro (rfl | hle)
    · rw [List.append_nil]
      exact List.take_prefix m xs
    · rw [List.take_append_of_le_length hle]
      exact List.take_prefix m xs

/-- The entry at `k` is of the group there, with some of the endpoints of the group. -/
def OwnAt (gs : List (IfaceDesc × List EndpointDesc)) (k : Nat) (itf : UsbInterface) : Prop :=
  ∃ g, gs[k]? = some g ∧ { itf with endpoints := [] } = g.1.record ∧
    itf.endpoints <+: g.2.map EndpointDesc.record

theorem ownAt_short {gs : List (IfaceDesc × List EndpointDesc)} (h : gs.length ≤ 7) {k : Nat}
    {itf : UsbInterface} (hk : (recordGroups gs)[k]? = some itf) : OwnAt gs k itf := by
  rw [recordGroups_short h, List.getElem?_map] at hk
  obtain ⟨g, hg, rfl⟩ := Option.map_eq_some_iff.mp hk
  exact ⟨g, hg, rfl, List.take_prefix _ _⟩

theorem getElem?_eighth {α : Type} {front rest : List α} {g : α} (hfront : front.length = 7) :
    (front ++ g :: rest)[7]? = some g := by
  rw [← hfront, List.getElem?_append_right (Nat.le_refl _), Nat.sub_self]
  rfl

theorem ownAt_full_iff {front rest : List (IfaceDesc × List EndpointDesc)}
    {g : IfaceDesc × List EndpointDesc} (hfront : front.length = 7) :
    (∀ k itf, (recordGroups (front ++ g :: rest))[k]? = some itf → OwnAt (front ++ g :: rest) k itf) ↔
      rest.flatMap Prod.snd = [] ∨ USB_MAX_ENDPOINTS ≤ g.2.length := by
  have heighth : ((g.2 ++ rest.flatMap Prod.snd).map EndpointDesc.record).take USB_MAX_ENDPOINTS <+:
      g.2.map EndpointDesc.record ↔
      rest.flatMap Prod.snd = [] ∨ USB_MAX_ENDPOINTS ≤ g.2.length := by
    rw [List.map_append, take_prefix_iff, List.map_eq_nil_iff, List.length_map]
  rw [recordGroups_full hfront, ← heighth]
  constructor
  · intro hown
    obtain ⟨g', hg', -, hprefix⟩ := hown 7 (recordGroup g.1 (g.2 ++ rest.flatMap Prod.snd)) (by
      rw [List.getElem?_append_right (by simp [hfront]), List.length_map, hfront]
      rfl)
    rw [getElem?_eighth hfront, Option.some.injEq] at hg'
    rwa [← hg'] at hprefix
  · intro hprefix k itf hk
    rw [List.getElem?_append, List.length_map, hfront] at hk
    split at hk
    · rename_i hlt
      rw [List.getElem?_map] at hk
      obtain ⟨g', hg', rfl⟩ := Option.map_eq_some_iff.mp hk
      refine ⟨g', ?_, rfl, List.take_prefix _ _⟩
      rw [List.getElem?_append_left (by omega)]
      exact hg'
    · rename_i hge
      obtain ⟨hlt, rfl⟩ := List.getElem?_eq_some_iff.mp hk
      simp only [List.length_singleton] at hlt
      obtain rfl : k = 7 := by omega
      exact ⟨g, getElem?_eighth hfront, rfl, hprefix⟩

theorem fits_full_iff {ds : List ConfigDesc} {front rest : List (IfaceDesc × List EndpointDesc)}
    {g : IfaceDesc × List EndpointDesc} (hgs : groups ds = front ++ g :: rest)
    (hfront : front.length = 7) :
    Fits ds ↔ rest.flatMap Prod.snd = [] ∨ USB_MAX_ENDPOINTS ≤ g.2.length := by
  have hdrop : (groups ds).drop USB_MAX_INTERFACES = rest := by
    rw [hgs, show USB_MAX_INTERFACES = front.length + 1 by rw [hfront]; rfl, List.drop_append]
    simp
  rw [Fits, hdrop, hgs, getElem?_eighth hfront]
  simp

/-- **Whose endpoint it is.**  Every endpoint that the loop records belongs to the interface that it is
    recorded for exactly if no endpoint comes after the ninth interface descriptor, or the eighth
    has no room left. -/
theorem attributed_iff {mem : Buf} {ds : List ConfigDesc} (hds : ∀ d ∈ ds, d.WellFormed)
    (h : HoldsAt mem 0 (encodeConfig ds)) (speed : Nat) :
    Attributed ds (configWalk mem (encodeConfig ds).length speed).1 ↔ Fits ds := by
  obtain ⟨hitfs, hringed⟩ := configWalk_encode hds h speed
  rw [foldl_recordDesc] at hitfs
  have hattr : Attributed ds (configWalk mem (encodeConfig ds).length speed).1 ↔
      ∀ k itf, (recordGroups (groups ds))[k]? = some itf → OwnAt (groups ds) k itf := by
    rw [← hitfs]
    exact ⟨fun ha => ha.own, fun hown => ⟨hown, hringed.rings, hringed.flags⟩⟩
  rw [hattr]
  rcases short_or_full (groups ds) with hshort | ⟨front, g, rest, hgs, hfront⟩
  · have hdrop : (groups ds).drop USB_MAX_INTERFACES = [] :=
      List.drop_eq_nil_of_le (Nat.le_succ_of_le hshort)
    exact iff_of_true (fun _ _ hk => ownAt_short hshort hk) (.inl (by rw [hdrop]; rfl))
  · rw [fits_full_iff hgs hfront, hgs]
    exact ownAt_full_iff hfront

/-- An alternate setting of a streaming interface, with its endpoint. -/
def streaming (alternate : UInt8) : List ConfigDesc :=
  [.iface ⟨1, alternate, 1, 1, 2, 0, 0, []⟩, .endpoint ⟨0x80 ||| alternate, 1, 192, 0, 1, []⟩]

/-- A buffer with a configuration descriptor, and zeros behind it. -/
def configBuf (ds : List ConfigDesc) : Buf := fun i => (encodeConfig ds).getD i 0

theorem configBuf_holds (ds : List ConfigDesc) : HoldsAt (configBuf ds) 0 (encodeConfig ds) := by
  intro i hi
  rw [Nat.zero_add, configBuf, List.getD_eq_getElem?_getD, List.getElem?_eq_getElem hi]
  rfl

theorem attributed_iff_streaming :
    Attributed (streaming 1 ++ streaming 2)
        (configWalk (configBuf (streaming 1 ++ streaming 2))
          (encodeConfig (streaming 1 ++ streaming 2)).length 3).1 ↔
      Fits (streaming 1 ++ streaming 2) :=
  attributed_iff (by decide) (configBuf_holds _) 3

/-- Nine of them: the eighth gets the endpoint of the ninth. -/
def nineSettings : List ConfigDesc :=
  [1, 2, 3, 4, 5, 6, 7, 8, 9].flatMap streaming

theorem ninth_goes_to_eighth :
    ¬Attributed nineSettings
      (configWalk (configBuf nineSettings) (encodeConfig nineSettings).length 3).1 := by
  have hrun : ((configWalk (configBuf nineSettings) (encodeConfig nineSettings).length 3).1.interfaces[7]?.map
      fun itf => itf.endpoints.length) = some 2 ∧
      ((groups nineSettings)[7]?.map fun g => g.2.length) = some 1 := by
    decide +kernel
  intro h
  obtain ⟨itf, hitf, htwo⟩ := Option.map_eq_some_iff.mp hrun.1
  obtain ⟨g, hg, -, hprefix⟩ := h.own 7 itf hitf
  have hone := hrun.2
  rw [hg, Option.map_some, Option.some.injEq] at hone
  have hlen := hprefix.length_le
  rw [List.length_map] at hlen
  omega

end Gemios.Usb
