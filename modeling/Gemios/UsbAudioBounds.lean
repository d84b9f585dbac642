import Gemios.UsbWalkBounds
import Mathlib.Data.List.Induction

/-!
# The audio descriptor loop on any bytes

The loop of `usb_audio_init_device` ends too, and checks the lengths of most class-specific
descriptors.  The search for the microphone takes its number of pins from a selector unit, where it
was never checked.
-/

namespace Gemios.Usb

open Function

variable {mem : Buf} {n p : Nat} {a : AudioWalk}

/-! ### The loop -/

/-- A descriptor that is read inside of the buffer: its type, the fields of an interface, the
    subtype of a class-specific descriptor, and the attributes of an endpoint with, where it is
    isochronous, its packet size. -/
structure AudioFramed (mem : Buf) (n p : Nat) : Prop where
  type : p + 1 < n
  iface : WholeAt (descLen mem) n p → mem (p + 1) = USB_DESC_INTERFACE → p + 6 < n
  specific : WholeAt (descLen mem) n p → mem (p + 1) = CS_INTERFACE → p + 2 < n
  endpoint : WholeAt (descLen mem) n p → mem (p + 1) = USB_DESC_ENDPOINT → p + 3 < n
  isochronous : WholeAt (descLen mem) n p → mem (p + 1) = USB_DESC_ENDPOINT →
    mem (p + 3) &&& 0x03 = 1 → p + 5 < n

theorem storedPins_le (mem : Buf) (p : Nat) :
    storedPins mem p ≤ 8 ∧ (5 + storedPins mem p ≤ descLen mem p ∨ storedPins mem p = 0) := by
  unfold storedPins descLen
  omega

theorem audioControl_inBounds (h : p + descLen mem p ≤ n) :
    ∀ c ∈ (audioControl mem p a).2, c.InBounds n := by
  unfold descLen at h
  unfold audioControl
  dsimp only
  split
  · rename_i hterm
    have hlen := hterm.2
    split
    · rename_i hid
      simp [Access.InBounds, hid]
      omega
    · simp [Access.InBounds]
      omega
  · split
    · rename_i hterm
      have hlen := hterm.2
      simp [Access.InBounds]
      omega
    · split
      · rename_i hunit
        have hlen := hunit.2
        have h3 : p + 3 < n := by omega
        have h4 : p + 4 < n := by omega
        by_cases huid : (mem (p + 3)).toNat < 32
        · simp [Access.InBounds, huid, h3, h4]
        · simp [Access.InBounds, huid, h3, h4]
      · split
        · rename_i hunit
          have hlen := hunit.2
          split
          · rename_i huid
            have hpins := storedPins_le mem p
            unfold descLen at hpins
            intro c hc
            simp only [List.cons_append, List.nil_append, List.mem_cons, List.mem_flatMap,
              List.mem_range, List.not_mem_nil, or_false] at hc
            rcases hc with rfl | rfl | rfl | ⟨k, hk, rfl | rfl⟩
            · show p + 3 < n
              omega
            · show p + 4 < n
              omega
            · exact huid
            · exact ⟨huid, by omega⟩
            · show p + 5 + k < n
              omega
          · simp [Access.InBounds]
            omega
        · simp

theorem audioStreaming_inBounds (h : p + descLen mem p ≤ n) :
    ∀ c ∈ (audioStreaming mem p a).2, c.InBounds n := by
  unfold descLen at h
  unfold audioStreaming
  dsimp only
  split
  · rename_i hformat
    have hlen := hformat.2
    simp [Access.InBounds]
    omega
  · simp

theorem audioSpecific_inBounds_iff (h : p + descLen mem p ≤ n) :
    (∀ c ∈ (audioSpecific mem p a).2, c.InBounds n) ↔ p + 2 < n := by
  unfold audioSpecific
  dsimp only
  rw [List.forall_mem_cons]
  refine and_iff_left ?_
  split
  · exact audioControl_inBounds h
  · split
    · exact audioStreaming_inBounds h
    · simp

theorem audioBody_inBounds_iff (htype : p + 1 < n) (hwhole : WholeAt (descLen mem) n p) :
    (∀ c ∈ (audioBody mem p a).2, c.InBounds n) ↔ AudioFramed mem n p := by
  have h45 : USB_DESC_ENDPOINT ≠ USB_DESC_INTERFACE := by decide
  have h424 : CS_INTERFACE ≠ USB_DESC_INTERFACE := by decide
  have h524 : CS_INTERFACE ≠ USB_DESC_ENDPOINT := by decide
  unfold audioBody
  by_cases hiface : mem (p + 1) = USB_DESC_INTERFACE
  · have hnot : mem (p + 1) ≠ USB_DESC_ENDPOINT := hiface ▸ h45.symm
    have hnot' : mem (p + 1) ≠ CS_INTERFACE := hiface ▸ h424.symm
    have hreads : (∀ c ∈ (audioIface mem p a).2, c.InBounds n) ↔ p + 6 < n := by
      simp [audioIface, Access.InBounds]
      omega
    rw [if_pos hiface, hreads]
    exact ⟨fun h => ⟨htype, fun _ _ => h, fun _ habs => absurd habs hnot', fun _ habs => absurd habs hnot,
      fun _ habs => absurd habs hnot⟩, fun h => h.iface hwhole hiface⟩
  · rw [if_neg hiface]
    by_cases hspecific : mem (p + 1) = CS_INTERFACE
    · have hnot : mem (p + 1) ≠ USB_DESC_ENDPOINT := hspecific ▸ h524
      rw [if_pos hspecific, audioSpecific_inBounds_iff hwhole.2]
      exact ⟨fun h => ⟨htype, fun _ habs => absurd habs hiface, fun _ _ => h,
        fun _ habs => absurd habs hnot, fun _ habs => absurd habs hnot⟩,
        fun h => h.specific hwhole hspecific⟩
    · rw [if_neg hspecific]
      by_cases hendpoint : mem (p + 1) = USB_DESC_ENDPOINT
      · have hreads : (∀ c ∈ (audioEndpoint mem p a).2, c.InBounds n) ↔
            p + 3 < n ∧ (mem (p + 3) &&& 0x03 = 1 → p + 5 < n) := by
          unfold audioEndpoint
          by_cases hiso : mem (p + 3) &&& 0x03 = 1
          · simp [hiso, Access.InBounds]
            omega
          · simp [hiso, Access.InBounds]
        rw [if_pos hendpoint, hreads]
        exact ⟨fun h => ⟨htype, fun _ habs => absurd habs hiface, fun _ habs => absurd habs hspecific,
          fun _ _ => h.1, fun _ _ => h.2⟩, fun h => ⟨h.endpoint hwhole hendpoint,
          h.isochronous hwhole hendpoint⟩⟩
      · rw [if_neg hendpoint]
        refine iff_of_true (by simp) ?_
        exact ⟨htype, fun _ habs => absurd habs hiface, fun _ habs => absurd habs hspecific,
          fun _ habs => absurd habs hendpoint, fun _ habs => absurd habs hendpoint⟩

theorem audioWalk_inBounds_iff (mem : Buf) (n : Nat) :
    (∀ c ∈ (audioWalk mem n).2, c.InBounds n) ↔
      ∀ p ∈ recordPositions (descLen mem) n n 0, AudioFramed mem n p := by
  have hall : (∀ c ∈ (audioWalk mem n).2, c.InBounds n) ↔ _ := recordWalk_forall
  rw [hall, ← recordVisits_positions (fun p a => (audioBody mem p a).1) n 0 .start, List.forall_mem_map]
  refine forall₂_congr fun v _ => ?_
  have hhead : (∀ c ∈ descHead v.1, c.InBounds n) ↔ v.1 + 1 < n := by
    simp [descHead, Access.InBounds]
    omega
  rw [hhead]
  by_cases hwhole : WholeAt (descLen mem) n v.1
  · constructor
    · rintro ⟨htype, hbody⟩
      exact (audioBody_inBounds_iff htype hwhole).mp (hbody hwhole)
    · intro h
      exact ⟨h.type, fun _ => (audioBody_inBounds_iff h.type hwhole).mpr h⟩
  · exact ⟨fun h => ⟨h.1, fun habs => absurd habs hwhole, fun habs => absurd habs hwhole,
      fun habs => absurd habs hwhole, fun habs => absurd habs hwhole⟩,
      fun h => ⟨h.type, fun habs => absurd habs hwhole⟩⟩

/-! ### The search for the microphone -/

/-- From pin `k` on, the search stays inside of the eight pins if there are no more of them, or if
    it finds a microphone there. -/
theorem micPin_inBounds_iff {su left k : Nat} (hsu : su < 32) (hk : k ≤ 8) :
    (∀ c ∈ (micPin a su left k).2, c.InBounds n) ↔
      k + left ≤ 8 ∨ ∃ i, k ≤ i ∧ i < 8 ∧ i < k + left ∧ a.IsMic su i := by
  induction left generalizing k with
  | zero =>
    rw [micPin]
    exact iff_of_true (by simp) (.inl hk)
  | succ left ih =>
    have hread : (∀ c ∈ Access.selPin su k ::
          if (a.selPins (su * 8 + k)).toNat < 32 then
            [Access.inTermType (a.selPins (su * 8 + k)).toNat] else [], c.InBounds n) ↔ k < 8 := by
      split
      · rename_i hterm
        simp [Access.InBounds, hsu, hterm]
      · simp [Access.InBounds, hsu]
    rw [micPin]
    dsimp only
    by_cases hmic : a.IsMic su k
    · rw [if_pos hmic, hread]
      constructor
      · intro h
        exact .inr ⟨k, Nat.le_refl k, h, by omega, hmic⟩
      · rintro (h | ⟨i, hle, hlt, -⟩)
        · omega
        · omega
    · rw [if_neg hmic, List.forall_mem_append, hread]
      constructor
      · rintro ⟨hlt, hrest⟩
        rcases (ih hlt).mp hrest with h | ⟨i, hle, h8, hi, hfound⟩
        · exact .inl (by omega)
        · exact .inr ⟨i, by omega, h8, by omega, hfound⟩
      · intro h
        have hlt : k < 8 := by
          rcases h with h | ⟨i, hle, h8, -⟩
          · omega
          · omega
        refine ⟨hlt, (ih hlt).mpr ?_⟩
        rcases h with h | ⟨i, hle, h8, hi, hfound⟩
        · exact .inl (by omega)
        · have hne : k ≠ i := fun habs => hmic (habs ▸ hfound)
          exact .inr ⟨i, by omega, h8, by omega, hfound⟩

theorem micSelector_inBounds_iff :
    (∀ c ∈ (micSelector a).2, c.InBounds n) ↔
      (a.inFu.toNat < 32 → 0 < (a.unitSrc a.inFu.toNat).toNat → (a.unitSrc a.inFu.toNat).toNat < 32 →
        (a.selPinCount (a.unitSrc a.inFu.toNat).toNat).toNat ≤ 8 ∨
          ∃ k < 8, a.IsMic (a.unitSrc a.inFu.toNat).toNat k) := by
  have hpos : ∀ x : UInt8, x > 0 ↔ 0 < x.toNat := fun x => UInt8.lt_iff_toNat_lt
  unfold micSelector
  dsimp only
  by_cases hfu : a.inFu.toNat < 32
  · rw [if_pos hfu]
    by_cases hsu : a.unitSrc a.inFu.toNat > 0 ∧ (a.unitSrc a.inFu.toNat).toNat < 32
    · rw [if_pos hsu]
      have hsu' := (hpos _).mp hsu.1
      by_cases hcount : a.selPinCount (a.unitSrc a.inFu.toNat).toNat > 0
      · rw [if_pos hcount, List.forall_mem_append, micPin_inBounds_iff hsu.2 (Nat.zero_le 8)]
        have hreads : ∀ c ∈ [Access.unitSrc a.inFu.toNat,
            .selPinCount (a.unitSrc a.inFu.toNat).toNat], c.InBounds n := by
          simp [Access.InBounds, hfu, hsu.2]
        constructor
        · rintro ⟨-, h⟩ - - -
          rcases h with h | ⟨i, -, h8, -, hmic⟩
          · exact .inl (by omega)
          · exact .inr ⟨i, h8, hmic⟩
        · intro h
          refine ⟨hreads, ?_⟩
          rcases Nat.lt_or_ge 8 (a.selPinCount (a.unitSrc a.inFu.toNat).toNat).toNat with hmany | hfew
          · rcases h hfu hsu' hsu.2 with h | ⟨k, h8, hmic⟩
            · omega
            · exact .inr ⟨k, Nat.zero_le k, h8, by omega, hmic⟩
          · exact .inl (by omega)
      · rw [if_neg hcount]
        have hzero := mt (hpos _).mpr hcount
        refine iff_of_true ?_ fun _ _ _ => .inl (by omega)
        simp [Access.InBounds, hfu, hsu.2]
    · rw [if_neg hsu]
      refine iff_of_true ?_ fun _ h h' => absurd ⟨(hpos _).mpr h, h'⟩ hsu
      simp [Access.InBounds, hfu]
  · rw [if_neg hfu]
    exact iff_of_true (by simp) fun h => absurd h hfu

/-! ### What the descriptors say of the microphone -/

/-- The last of these positions that is of a kind. -/
def lastOf (P : Nat → Prop) [DecidablePred P] (ps : List Nat) : Option Nat := (ps.filter P).getLast?

theorem foldl_last {τ β : Type} {f : τ → β} {step : τ → Nat → τ} {P : Nat → Prop} [DecidablePred P]
    {v : Nat → β} (h : ∀ t p, f (step t p) = if P p then v p else f t) (ps : List Nat) (t : τ) :
    f (ps.foldl step t) = ((lastOf P ps).map v).getD (f t) := by
  induction ps using List.reverseRecOn with
  | nil => rfl
  | append_singleton ps p ih =>
    rw [List.foldl_concat, h]
    by_cases hp : P p
    · simp [lastOf, hp]
    · simpa [lastOf, hp] using ih

section

variable (mem : Buf)

/-- The class-specific descriptors among these that belong to an AudioControl interface; `inControl`
    if those before them end in one. -/
def controlDescs : Bool → List Nat → List Nat
  | _, [] => []
  | inControl, p :: ps =>
    if mem (p + 1) = USB_DESC_INTERFACE then
      controlDescs (decide (mem (p + 5) = 1 ∧ mem (p + 6) = 1)) ps
    else if mem (p + 1) = CS_INTERFACE ∧ inControl = true then p :: controlDescs inControl ps
    else controlDescs inControl ps

/-- A terminal or unit of this subtype with this number. -/
def IsUnit (subtype : UInt8) (least x p : Nat) : Prop :=
  x < 32 ∧ mem (p + 2) = subtype ∧ least ≤ (mem p).toNat ∧ (mem (p + 3)).toNat = x

/-- The output terminal that goes to the host. -/
def IsUsbTerminal (p : Nat) : Prop :=
  mem (p + 2) = OUTPUT_TERMINAL ∧ 8 ≤ (mem p).toNat ∧ le16 mem (p + 4) = 0x0101

instance (subtype : UInt8) (least x p : Nat) : Decidable (IsUnit mem subtype least x p) :=
  inferInstanceAs (Decidable (_ ∧ _))

instance (p : Nat) : Decidable (IsUsbTerminal mem p) := inferInstanceAs (Decidable (_ ∧ _))

variable (cs : List Nat)

/-- The unit behind the terminal that goes to the host. -/
def usbSource : UInt8 := ((lastOf (IsUsbTerminal mem) cs).map fun p => mem (p + 7)).getD 0

def featureSource (x : Nat) : UInt8 :=
  ((lastOf (IsUnit mem FEATURE_UNIT 5 x) cs).map fun p => mem (p + 4)).getD 0

def pinCount (x : Nat) : UInt8 :=
  ((lastOf (IsUnit mem SELECTOR_UNIT 5 x) cs).map fun p => mem (p + 4)).getD 0

def pinSource (x k : Nat) : UInt8 :=
  ((lastOf (fun p => IsUnit mem SELECTOR_UNIT 5 x p ∧ k < storedPins mem p) cs).map fun p =>
    mem (p + 5 + k)).getD 0

def terminalType (x : Nat) : Nat :=
  ((lastOf (IsUnit mem INPUT_TERMINAL 6 x) cs).map fun p => le16 mem (p + 4)).getD 0

/-- The selector unit of the microphone, if there is one, has no more than eight pins, or a
    microphone on one of the first eight. -/
def MicBounded : Prop :=
  let su := (featureSource mem cs (usbSource mem cs).toNat).toNat
  (usbSource mem cs).toNat < 32 → 0 < su → su < 32 →
    (pinCount mem cs su).toNat ≤ 8 ∨ ∃ k < 8, (pinSource mem cs su k).toNat < 32 ∧
      terminalType mem cs (pinSource mem cs su k).toNat = 0x0201

end

structure MicTables where
  inFu : UInt8
  unitSrc : Nat → UInt8
  inTermType : Nat → Nat
  selPins : Nat → UInt8
  selPinCount : Nat → UInt8

def AudioWalk.tables (a : AudioWalk) : MicTables :=
  ⟨a.inFu, a.unitSrc, a.inTermType, a.selPins, a.selPinCount⟩

def AudioWalk.InControl (a : AudioWalk) : Prop := a.curIfaceClass = 1 ∧ a.curIfaceSubclass = 1

instance (a : AudioWalk) : Decidable a.InControl := inferInstanceAs (Decidable (_ ∧ _))

/-- What an AudioControl descriptor adds to them. -/
def MicTables.add (mem : Buf) (t : MicTables) (p : Nat) : MicTables where
  inFu := if IsUsbTerminal mem p then mem (p + 7) else t.inFu
  unitSrc := fun x => if IsUnit mem FEATURE_UNIT 5 x p then mem (p + 4) else t.unitSrc x
  inTermType := fun x => if IsUnit mem INPUT_TERMINAL 6 x p then le16 mem (p + 4) else t.inTermType x
  selPins := fun i =>
    if IsUnit mem SELECTOR_UNIT 5 (i / 8) p ∧ i % 8 < storedPins mem p then mem (p + 5 + i % 8)
    else t.selPins i
  selPinCount := fun x => if IsUnit mem SELECTOR_UNIT 5 x p then mem (p + 4) else t.selPinCount x

theorem audioControl_inControl : (audioControl mem p a).1.InControl ↔ a.InControl := by
  unfold audioControl AudioWalk.InControl
  dsimp only
  split_ifs <;> rfl

theorem isUnit_iff {subtype : UInt8} {least x : Nat} (hsub : mem (p + 2) = subtype)
    (hlen : least ≤ (mem p).toNat) : IsUnit mem subtype least x p ↔ x < 32 ∧ (mem (p + 3)).toNat = x :=
  ⟨fun h => ⟨h.1, h.2.2.2⟩, fun h => ⟨h.1, hsub, hlen, h.2⟩⟩

theorem not_isUnit {kind subtype : UInt8} (hsub : mem (p + 2) = kind) (hne : kind ≠ subtype)
    (least x : Nat) : ¬IsUnit mem subtype least x p := fun h => hne (hsub.symm.trans h.2.1)

theorem not_isUsbTerminal {kind : UInt8} (hsub : mem (p + 2) = kind) (hne : kind ≠ OUTPUT_TERMINAL) :
    ¬IsUsbTerminal mem p := fun h => hne (hsub.symm.trans h.1)

theorem update_guarded {β : Type} (g : Nat → β) (i : Nat) (v : β) :
    (if i < 32 then update g i v else g) = fun x => if x < 32 ∧ i = x then v else g x := by
  funext x
  by_cases hix : i = x
  · subst hix
    by_cases hi : i < 32
    · simp [hi]
    · simp [hi]
  · by_cases hi : i < 32
    · simp [hi, hix, Ne.symm hix]
    · simp [hi, hix]

theorem selPins_add (hsub : mem (p + 2) = SELECTOR_UNIT) (hlen : 5 ≤ (mem p).toNat) (i : Nat) :
    (IsUnit mem SELECTOR_UNIT 5 (i / 8) p ∧ i % 8 < storedPins mem p) ↔
      (mem (p + 3)).toNat < 32 ∧ (mem (p + 3)).toNat * 8 ≤ i ∧
        i < (mem (p + 3)).toNat * 8 + storedPins mem p := by
  have hpins := (storedPins_le mem p).1
  rw [isUnit_iff hsub hlen]
  omega

namespace MicTables

variable {t : MicTables}

theorem add_inputTerminal (hsub : mem (p + 2) = INPUT_TERMINAL) (hlen : 6 ≤ (mem p).toNat) :
    t.add mem p =
      { t with
        inTermType := if (mem (p + 3)).toNat < 32 then
          update t.inTermType (mem (p + 3)).toNat (le16 mem (p + 4)) else t.inTermType } := by
  have hfeature := not_isUnit hsub (by decide : INPUT_TERMINAL ≠ FEATURE_UNIT) 5
  have hselector := not_isUnit hsub (by decide : INPUT_TERMINAL ≠ SELECTOR_UNIT) 5
  have husb := not_isUsbTerminal hsub (by decide)
  rw [update_guarded]
  simp only [add, hfeature, hselector, husb, isUnit_iff hsub hlen, false_and, if_false]

theorem add_outputTerminal (hsub : mem (p + 2) = OUTPUT_TERMINAL) (hlen : 8 ≤ (mem p).toNat) :
    t.add mem p = { t with inFu := if le16 mem (p + 4) = 0x0101 then mem (p + 7) else t.inFu } := by
  have hinput := not_isUnit hsub (by decide : OUTPUT_TERMINAL ≠ INPUT_TERMINAL) 6
  have hfeature := not_isUnit hsub (by decide : OUTPUT_TERMINAL ≠ FEATURE_UNIT) 5
  have hselector := not_isUnit hsub (by decide : OUTPUT_TERMINAL ≠ SELECTOR_UNIT) 5
  have husb : IsUsbTerminal mem p ↔ le16 mem (p + 4) = 0x0101 :=
    ⟨fun h => h.2.2, fun h => ⟨hsub, hlen, h⟩⟩
  simp only [add, hinput, hfeature, hselector, husb, false_and, if_false]

theorem add_featureUnit (hsub : mem (p + 2) = FEATURE_UNIT) (hlen : 5 ≤ (mem p).toNat) :
    t.add mem p =
      { t with
        unitSrc := if (mem (p + 3)).toNat < 32 then
          update t.unitSrc (mem (p + 3)).toNat (mem (p + 4)) else t.unitSrc } := by
  have hinput := not_isUnit hsub (by decide : FEATURE_UNIT ≠ INPUT_TERMINAL) 6
  have hselector := not_isUnit hsub (by decide : FEATURE_UNIT ≠ SELECTOR_UNIT) 5
  have husb := not_isUsbTerminal hsub (by decide)
  rw [update_guarded]
  simp only [add, hinput, hselector, husb, isUnit_iff hsub hlen, false_and, if_false]

theorem add_selectorUnit (hsub : mem (p + 2) = SELECTOR_UNIT) (hlen : 5 ≤ (mem p).toNat) :
    t.add mem p =
      { t with
        selPinCount := if (mem (p + 3)).toNat < 32 then
          update t.selPinCount (mem (p + 3)).toNat (mem (p + 4)) else t.selPinCount
        selPins := fun i =>
          if (mem (p + 3)).toNat < 32 ∧ (mem (p + 3)).toNat * 8 ≤ i ∧
              i < (mem (p + 3)).toNat * 8 + storedPins mem p then
            mem (p + 5 + (i - (mem (p + 3)).toNat * 8))
          else t.selPins i } := by
  have hinput := not_isUnit hsub (by decide : SELECTOR_UNIT ≠ INPUT_TERMINAL) 6
  have hfeature := not_isUnit hsub (by decide : SELECTOR_UNIT ≠ FEATURE_UNIT) 5
  have husb := not_isUsbTerminal hsub (by decide)
  have hpins : ∀ i, (if (mem (p + 3)).toNat < 32 ∧ (mem (p + 3)).toNat * 8 ≤ i ∧
        i < (mem (p + 3)).toNat * 8 + storedPins mem p then mem (p + 5 + i % 8) else t.selPins i) =
      if (mem (p + 3)).toNat < 32 ∧ (mem (p + 3)).toNat * 8 ≤ i ∧
        i < (mem (p + 3)).toNat * 8 + storedPins mem p then
          mem (p + 5 + (i - (mem (p + 3)).toNat * 8)) else t.selPins i := by
    intro i
    refine if_ctx_congr Iff.rfl (fun hi => ?_) fun _ => rfl
    have hle := (storedPins_le mem p).1
    have hmod : i - (mem (p + 3)).toNat * 8 = i % 8 := by omega
    rw [hmod]
  rw [update_guarded]
  simp only [add, hinput, hfeature, husb, selPins_add hsub hlen, hpins, if_false]
  simp only [isUnit_iff hsub hlen]

theorem add_other (hin : ¬(mem (p + 2) = INPUT_TERMINAL ∧ (mem p).toNat ≥ 6))
    (hout : ¬(mem (p + 2) = OUTPUT_TERMINAL ∧ (mem p).toNat ≥ 8))
    (hfeature : ¬(mem (p + 2) = FEATURE_UNIT ∧ (mem p).toNat ≥ 5))
    (hselector : ¬(mem (p + 2) = SELECTOR_UNIT ∧ (mem p).toNat ≥ 5)) : t.add mem p = t := by
  have hnone : ∀ x, ¬IsUnit mem INPUT_TERMINAL 6 x p ∧ ¬IsUnit mem FEATURE_UNIT 5 x p ∧
      ¬IsUnit mem SELECTOR_UNIT 5 x p := fun x =>
    ⟨fun h => hin ⟨h.2.1, h.2.2.1⟩, fun h => hfeature ⟨h.2.1, h.2.2.1⟩,
      fun h => hselector ⟨h.2.1, h.2.2.1⟩⟩
  have husb : ¬IsUsbTerminal mem p := fun h => hout ⟨h.1, h.2.1⟩
  simp only [add, hnone, husb, false_and, if_false]

end MicTables

theorem audioControl_tables : (audioControl mem p a).1.tables = a.tables.add mem p := by
  unfold audioControl
  dsimp only
  by_cases hin : mem (p + 2) = INPUT_TERMINAL ∧ (mem p).toNat ≥ 6
  · rw [if_pos hin, MicTables.add_inputTerminal hin.1 hin.2]
    split <;> rfl
  · rw [if_neg hin]
    by_cases hout : mem (p + 2) = OUTPUT_TERMINAL ∧ (mem p).toNat ≥ 8
    · rw [if_pos hout, MicTables.add_outputTerminal hout.1 hout.2]
      by_cases husb : le16 mem (p + 4) = 0x0101
      · simp [husb, AudioWalk.tables]
      · simp only [husb, if_false]
        split <;> rfl
    · rw [if_neg hout]
      by_cases hfeature : mem (p + 2) = FEATURE_UNIT ∧ (mem p).toNat ≥ 5
      · rw [if_pos hfeature, MicTables.add_featureUnit hfeature.1 hfeature.2]
        by_cases huid : (mem (p + 3)).toNat < 32
        · simp only [huid, if_true]
          split <;> rfl
        · simp only [huid, if_false]
          split <;> rfl
      · rw [if_neg hfeature]
        by_cases hselector : mem (p + 2) = SELECTOR_UNIT ∧ (mem p).toNat ≥ 5
        · rw [if_pos hselector, MicTables.add_selectorUnit hselector.1 hselector.2]
          by_cases huid : (mem (p + 3)).toNat < 32
          · simp only [huid, if_true, true_and]
            rfl
          · simp only [huid, if_false, false_and]
        · rw [if_neg hselector, MicTables.add_other hin hout hfeature hselector]

theorem audioStreaming_inControl : (audioStreaming mem p a).1.InControl ↔ a.InControl := by
  unfold audioStreaming AudioWalk.InControl
  dsimp only
  split_ifs <;> rfl

theorem audioStreaming_tables : (audioStreaming mem p a).1.tables = a.tables := by
  unfold audioStreaming
  dsimp only
  split_ifs <;> rfl

theorem audioIface_inControl :
    (audioIface mem p a).1.InControl ↔ mem (p + 5) = 1 ∧ mem (p + 6) = 1 := by
  unfold audioIface AudioWalk.InControl
  dsimp only
  split_ifs <;> rfl

theorem audioIface_tables : (audioIface mem p a).1.tables = a.tables := by
  unfold audioIface
  dsimp only
  split_ifs <;> rfl

theorem audioEndpoint_inControl : (audioEndpoint mem p a).1.InControl ↔ a.InControl := by
  unfold audioEndpoint AudioWalk.InControl
  dsimp only
  split_ifs <;> rfl

theorem audioEndpoint_tables : (audioEndpoint mem p a).1.tables = a.tables := by
  unfold audioEndpoint
  dsimp only
  split_ifs <;> rfl

theorem audioSpecific_inControl : (audioSpecific mem p a).1.InControl ↔ a.InControl := by
  unfold audioSpecific
  dsimp only
  split
  · exact audioControl_inControl
  · split
    · exact audioStreaming_inControl
    · rfl

theorem audioSpecific_tables :
    (audioSpecific mem p a).1.tables = if a.InControl then a.tables.add mem p else a.tables := by
  unfold audioSpecific
  dsimp only
  by_cases hcontrol : a.InControl
  · have hcontrol' : a.curIfaceClass = 1 ∧ a.curIfaceSubclass = 1 := hcontrol
    rw [if_pos hcontrol', if_pos hcontrol]
    exact audioControl_tables
  · have hcontrol' : ¬(a.curIfaceClass = 1 ∧ a.curIfaceSubclass = 1) := hcontrol
    rw [if_neg hcontrol', if_neg hcontrol]
    split
    · exact audioStreaming_tables
    · rfl

theorem foldl_audioBody_tables (ps : List Nat) (a : AudioWalk) :
    (ps.foldl (fun a p => (audioBody mem p a).1) a).tables =
      (controlDescs mem (decide a.InControl) ps).foldl (MicTables.add mem) a.tables := by
  induction ps generalizing a with
  | nil => rfl
  | cons p ps ih =>
    rw [List.foldl_cons, ih, controlDescs, audioBody]
    by_cases hiface : mem (p + 1) = USB_DESC_INTERFACE
    · rw [if_pos hiface, if_pos hiface, audioIface_tables]
      simp only [audioIface_inControl]
    · rw [if_neg hiface, if_neg hiface]
      by_cases hspecific : mem (p + 1) = CS_INTERFACE
      · rw [if_pos hspecific, audioSpecific_tables]
        simp only [audioSpecific_inControl]
        by_cases hcontrol : a.InControl
        · rw [if_pos hcontrol, if_pos ⟨hspecific, by simpa⟩, List.foldl_cons]
        · rw [if_neg hcontrol, if_neg (by simp [hcontrol])]
      · have hnot : ¬(mem (p + 1) = CS_INTERFACE ∧ decide a.InControl = true) := fun h => hspecific h.1
        rw [if_neg hspecific, if_neg hnot]
        split
        · rw [audioEndpoint_tables]
          simp only [audioEndpoint_inControl]
        · rfl

def micDescs (mem : Buf) (n : Nat) : List Nat :=
  controlDescs mem false ((recordPositions (descLen mem) n n 0).filter (WholeAt (descLen mem) n))

theorem audioWalk_tables (mem : Buf) (n : Nat) :
    (audioWalk mem n).1.tables = (micDescs mem n).foldl (MicTables.add mem) AudioWalk.start.tables := by
  have hfold : (audioWalk mem n).1 = _ := recordWalk_fst n 0 AudioWalk.start
  rw [hfold, foldl_audioBody_tables]
  rfl

theorem audioWalk_micBounded_iff (mem : Buf) (n : Nat) :
    (∀ c ∈ (micSelector (audioWalk mem n).1).2, c.InBounds n) ↔ MicBounded mem (micDescs mem n) := by
  have htables := audioWalk_tables mem n
  have hfu : (audioWalk mem n).1.tables.inFu = usbSource mem (micDescs mem n) := by
    rw [htables]
    exact foldl_last (f := MicTables.inFu) (fun _ _ => rfl) _ _
  have hsrc : ∀ x, (audioWalk mem n).1.tables.unitSrc x = featureSource mem (micDescs mem n) x := by
    intro x
    rw [htables]
    exact foldl_last (f := fun t => MicTables.unitSrc t x) (fun _ _ => rfl) _ _
  have hcount : ∀ x, (audioWalk mem n).1.tables.selPinCount x = pinCount mem (micDescs mem n) x := by
    intro x
    rw [htables]
    exact foldl_last (f := fun t => MicTables.selPinCount t x) (fun _ _ => rfl) _ _
  have hterm : ∀ x, (audioWalk mem n).1.tables.inTermType x = terminalType mem (micDescs mem n) x := by
    intro x
    rw [htables]
    exact foldl_last (f := fun t => MicTables.inTermType t x) (fun _ _ => rfl) _ _
  have hpin : ∀ su, ∀ k < 8, (audioWalk mem n).1.tables.selPins (su * 8 + k) =
      pinSource mem (micDescs mem n) su k := by
    intro su k hk
    have hdiv : (su * 8 + k) / 8 = su := by omega
    have hmod : (su * 8 + k) % 8 = k := by omega
    rw [htables]
    refine foldl_last (f := fun t => MicTables.selPins t (su * 8 + k)) (fun t p => ?_) _ _
    simp only [MicTables.add, hdiv, hmod]
  simp only [AudioWalk.tables] at hfu hsrc hcount hterm hpin
  rw [micSelector_inBounds_iff, hfu, hsrc, hcount, MicBounded]
  refine imp_congr_right fun _ => imp_congr_right fun _ => imp_congr_right fun _ => or_congr_right ?_
  refine exists_congr fun k => and_congr_right fun hk => ?_
  rw [AudioWalk.IsMic, hpin _ k hk, hterm]

/-! ### Both loops -/

/-- The loop ends by itself, and its accesses and those of the search are inside of the buffer and
    the tables. -/
structure AudioSafe (mem : Buf) (n : Nat) : Prop where
  ends : ∀ more, recordWalk (descLen mem) n descHead (audioBody mem) (n + more) 0 .start =
    audioWalk mem n
  inBounds : ∀ c ∈ (audioWalk mem n).2, c.InBounds n
  micInBounds : ∀ c ∈ (micSelector (audioWalk mem n).1).2, c.InBounds n

theorem audioSafe_iff (mem : Buf) (n : Nat) :
    AudioSafe mem n ↔ (∀ p ∈ recordPositions (descLen mem) n n 0, AudioFramed mem n p) ∧
      MicBounded mem (micDescs mem n) := by
  rw [← audioWalk_inBounds_iff, ← audioWalk_micBounded_iff]
  constructor
  · intro h
    exact ⟨h.inBounds, h.micInBounds⟩
  · rintro ⟨hwalk, hmic⟩
    exact ⟨recordWalk_more _ (Nat.le_add_left n 0), hwalk, hmic⟩

/-- **Walks over any bytes.**  Both walks are safe exactly if each descriptor that they come to is
    framed, and the selector unit of the microphone is bounded. -/
theorem descriptor_walks_safe_iff (mem : Buf) (n speed : Nat) :
    ConfigSafe mem n speed ∧ AudioSafe mem n ↔
      (∀ v ∈ countedDescs mem n, Framed mem n speed v.1 v.2) ∧
        (∀ p ∈ recordPositions (descLen mem) n n 0, AudioFramed mem n p) ∧
          MicBounded mem (micDescs mem n) := by
  rw [configSafe_iff, audioSafe_iff]

/-- A device whose total length is 1: the type of the descriptor is read behind the buffer. -/
theorem lone_length_unsafe :
    ¬(ConfigSafe (fun _ => 9) 1 USB_SPEED_FULL ∧ AudioSafe (fun _ => 9) 1) := by
  rintro ⟨hconfig, -⟩
  have hread : Access.byte 1 ∈ (configWalk (fun _ => 9) 1 USB_SPEED_FULL).2 := by
    simp [configWalk, recordWalk, descHead, descLen, WholeAt]
  have hlt : 1 < 1 := hconfig.inBounds _ hread
  exact Nat.lt_irrefl 1 hlt

end Gemios.Usb
