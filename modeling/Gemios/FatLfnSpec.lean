import Gemios.FatDirSpec
import Gemios.FatSlots
import Mathlib.Data.List.GetD

/-!
# Names read back

The slots of a name that `fat_write_lfn_and_short_entry` stores, as the long-name
parser and `format_fat_name` read them again.  The parser leaves out the last eight
characters a name can have: slot 20 does not fit its bound.
-/

namespace Gemios

/-! ### One long-name slot -/

theorem lfnEntry_head (name : List UInt8) (numLfn : Nat) (chk : UInt8) (seq i : Nat)
    (hi : i = 0 ∨ i = 11 ∨ i = 12 ∨ i = 13 ∨ i = 26 ∨ i = 27 ∨ 32 ≤ i) :
    lfnEntry name numLfn chk seq i =
      if i = 0 then if seq = numLfn then 0x40 ||| UInt8.ofNat seq else UInt8.ofNat seq
      else if i = 11 then 0x0F else if i = 13 then chk else 0 := by
  simp only [lfnEntry, encodeLfnChars]
  rw [if_neg (by omega), if_neg (by omega), if_neg (by omega)]

theorem lfnEntry_proper (name : List UInt8) (numLfn : Nat) (chk : UInt8) (seq : Nat) :
    (lfnEntry name numLfn chk seq).Proper := by
  intro i hi
  rw [lfnEntry_head name numLfn chk seq i (by omega), if_neg (by omega), if_neg (by omega),
    if_neg (by omega)]

theorem nameSlots_proper (name short11 : List UInt8) {e : Slot} (he : e.Proper) :
    ∀ s ∈ nameSlots name short11 e, s.Proper := by
  have hlfns : ∀ numLfn chk seq, ∀ s ∈ lfnSlots name numLfn chk seq, s.Proper := by
    intro numLfn chk seq
    induction seq with
    | zero =>
      intro s hs
      cases hs
    | succ seq ih =>
      intro s hs
      rw [lfnSlots, List.mem_cons] at hs
      rcases hs with rfl | hs
      · exact lfnEntry_proper name numLfn chk (seq + 1)
      · exact ih s hs
  intro s hs i hi
  rcases List.mem_append.mp hs with hs | hs
  · exact hlfns _ _ _ s hs i hi
  · rw [List.mem_singleton.mp hs, Slot.withName, if_neg (by omega)]
    exact he i hi

theorem lfnUnit_lt (name : List UInt8) (idx : Nat) : lfnUnit name idx < 65536 := by
  unfold lfnUnit
  split
  · have := (name.getD idx 0).toNat_lt
    omega
  · split <;> omega

theorem le16_encodeLfnChars (name : List UInt8) (start : Nat) (dst : Slot) {off count k : Nat}
    (hk : k < count) :
    le16 (encodeLfnChars name start dst off count) (off + 2 * k) = lfnUnit name (start + k) := by
  have hlo : encodeLfnChars name start dst off count (off + 2 * k) =
      UInt8.ofNat (lfnUnit name (start + k)) := by
    simp only [encodeLfnChars]
    rw [if_pos (by omega), show (off + 2 * k - off) / 2 = k by omega, if_pos (by omega)]
  have hhi : encodeLfnChars name start dst off count (off + 2 * k + 1) =
      UInt8.ofNat (lfnUnit name (start + k) / 256) := by
    simp only [encodeLfnChars]
    rw [if_pos (by omega), show (off + 2 * k + 1 - off) / 2 = k by omega, if_neg (by omega)]
  have hlt := lfnUnit_lt name (start + k)
  rw [le16, hlo, hhi, UInt8.toNat_ofNat', UInt8.toNat_ofNat']
  omega

theorem le16_encodeLfnChars_of_ne (name : List UInt8) (start : Nat) (dst : Slot) {off count j : Nat}
    (h : j + 2 ≤ off ∨ off + 2 * count ≤ j) :
    le16 (encodeLfnChars name start dst off count) j = le16 dst j :=
  le16_congr fun k hk => if_neg (by omega)

section

variable (name : List UInt8) (numLfn : Nat) (chk : UInt8) (seq : Nat)

theorem lfnEntry_name1 {k : Nat} (hk : k < 5) :
    le16 (lfnEntry name numLfn chk seq) (1 + 2 * k) = lfnUnit name ((seq - 1) * 13 + k) := by
  simp only [lfnEntry]
  rw [le16_encodeLfnChars_of_ne _ _ _ (by omega), le16_encodeLfnChars_of_ne _ _ _ (by omega),
    le16_encodeLfnChars _ _ _ hk]

theorem lfnEntry_name2 {k : Nat} (hk : k < 6) :
    le16 (lfnEntry name numLfn chk seq) (14 + 2 * k) = lfnUnit name ((seq - 1) * 13 + 5 + k) := by
  simp only [lfnEntry]
  rw [le16_encodeLfnChars_of_ne _ _ _ (by omega), le16_encodeLfnChars _ _ _ hk]

theorem lfnEntry_name3 {k : Nat} (hk : k < 2) :
    le16 (lfnEntry name numLfn chk seq) (28 + 2 * k) = lfnUnit name ((seq - 1) * 13 + 11 + k) := by
  simp only [lfnEntry]
  rw [le16_encodeLfnChars _ _ _ hk]

end

/-- `decode_lfn_chars` gives back the characters from `pos` on, in a buffer that holds
    zeros there. -/
theorem decodeLfnChars_eq {name : List UInt8} (h0 : (0 : UInt8) ∉ name) (src : Slot) :
    ∀ (count off pos : Nat) (dst : Buf),
      (∀ k, k < count → le16 src (off + 2 * k) = lfnUnit name (pos + k)) →
      (∀ i, pos ≤ i → i < pos + count → dst i = 0) →
      decodeLfnChars src off count dst pos =
        fun i => if pos ≤ i ∧ i < pos + count then name.getD i 0 else dst i := by
  intro count
  induction count with
  | zero =>
    intro off pos dst _ _
    funext i
    rw [decodeLfnChars, if_neg (by omega)]
  | succ count ih =>
    intro off pos dst hunit hzero
    rw [decodeLfnChars]
    have hu : le16 src off = lfnUnit name pos := hunit 0 (by omega)
    rw [hu]
    by_cases hpos : pos < name.length
    · have hbyte : name.getD pos 0 ≠ 0 := by
        rw [List.getD_eq_getElem _ _ hpos]
        exact fun heq => h0 (heq ▸ List.getElem_mem hpos)
      have hunit' : lfnUnit name pos = (name.getD pos 0).toNat := if_pos hpos
      have hlt := (name.getD pos 0).toNat_lt
      have hne : (name.getD pos 0).toNat ≠ 0 := fun heq => hbyte (UInt8.toNat_inj.mp heq)
      rw [hunit', if_neg (by omega), UInt8.ofNat_toNat]
      rw [ih (off + 2) (pos + 1) _ ?_ ?_]
      · funext i
        by_cases hi : i = pos
        · subst hi
          rw [if_neg (by omega), if_pos rfl, if_pos (by omega)]
        · by_cases hin : pos + 1 ≤ i ∧ i < pos + 1 + count
          · rw [if_pos hin, if_pos (by omega)]
          · rw [if_neg hin, if_neg hi, if_neg (by omega)]
      · intro k hk
        have := hunit (k + 1) (by omega)
        rw [show off + 2 + 2 * k = off + 2 * (k + 1) by omega, this]
        congr 1
        omega
      · intro i h1 h2
        rw [if_neg (by omega)]
        exact hzero i (by omega) (by omega)
    · -- behind the end of the name: a terminator or padding
      have hend : lfnUnit name pos = 0 ∨ lfnUnit name pos = 0xFFFF := by
        unfold lfnUnit
        rw [if_neg hpos]
        split
        · exact Or.inl rfl
        · exact Or.inr rfl
      rw [if_pos hend]
      funext i
      by_cases hin : pos ≤ i ∧ i < pos + (count + 1)
      · have hd : name.getD i 0 = 0 := List.getD_eq_default _ _ (by omega)
        rw [if_pos hin, hd]
        split
        · rfl
        · exact hzero i hin.1 hin.2
      · rw [if_neg hin, if_neg (by omega)]

/-! ### The parser over the slots of a name -/

/-- The parser's buffer when slots down to `seq + 1` have been read. -/
def lfnBuf (name : List UInt8) (seq : Nat) : Buf := fun i =>
  if 13 * seq ≤ i ∧ i < 247 then name.getD i 0 else 0

/-- The parser on its way through the slots of a name that start at `start`. -/
def lfnState (name : List UInt8) (numLfn : Nat) (chk : UInt8) (start seq : Nat) : LfnParser where
  lfnName := lfnBuf name seq
  checksum := chk
  expectedSeq := seq
  hasLfn := true
  isValid := true
  startSec := start / 512
  startSlot := (start % 512 / 32 : Nat)
  totalLfnEntries := numLfn

theorem lfnBuf_length {name : List UInt8} {seq : Nat} (h : name.length ≤ 13 * seq) :
    lfnBuf name seq = fun _ => 0 := by
  funext i
  unfold lfnBuf
  split
  · exact List.getD_eq_default _ _ (by omega)
  · rfl

theorem storeChars_lfnEntry {name : List UInt8} (h0 : (0 : UInt8) ∉ name) (numLfn : Nat)
    (chk : UInt8) {seq : Nat} (hseq : seq < 20) {p : LfnParser}
    (hbuf : p.lfnName = lfnBuf name (seq + 1)) :
    p.storeChars (lfnEntry name numLfn chk (seq + 1)) (seq + 1) =
      { p with lfnName := lfnBuf name seq } := by
  unfold LfnParser.storeChars
  rw [Nat.add_sub_cancel]
  dsimp only
  split
  · next hfit =>
    have hzero : ∀ i, i < 13 * (seq + 1) → p.lfnName i = 0 := fun i hi => by
      rw [hbuf]
      exact if_neg (by omega)
    have h1 := decodeLfnChars_eq h0 (lfnEntry name numLfn chk (seq + 1)) 5 1 (seq * 13)
      p.lfnName (fun k hk => lfnEntry_name1 name numLfn chk (seq + 1) hk)
      fun i _ hi => hzero i (by omega)
    have h2 := decodeLfnChars_eq h0 (lfnEntry name numLfn chk (seq + 1)) 6 14 (seq * 13 + 5)
      (decodeLfnChars (lfnEntry name numLfn chk (seq + 1)) 1 5 p.lfnName (seq * 13))
      (fun k hk => lfnEntry_name2 name numLfn chk (seq + 1) hk) fun i _ hi => by
        rw [h1]
        dsimp only
        rw [if_neg (by omega)]
        exact hzero i (by omega)
    have h3 := decodeLfnChars_eq h0 (lfnEntry name numLfn chk (seq + 1)) 2 28 (seq * 13 + 11)
      (decodeLfnChars (lfnEntry name numLfn chk (seq + 1)) 14 6
        (decodeLfnChars (lfnEntry name numLfn chk (seq + 1)) 1 5 p.lfnName (seq * 13))
        (seq * 13 + 5)) (fun k hk => lfnEntry_name3 name numLfn chk (seq + 1) hk) fun i _ hi => by
        rw [h2]
        dsimp only
        rw [if_neg (by omega), h1]
        dsimp only
        rw [if_neg (by omega)]
        exact hzero i (by omega)
    rw [h3, h2, h1, hbuf]
    congr 1
    funext i
    unfold lfnBuf
    dsimp only
    by_cases hlow : i < 13 * seq
    · rw [if_neg (by omega), if_neg (by omega), if_neg (by omega), if_neg (by omega),
        if_neg (by omega)]
    · by_cases hin : i < 13 * (seq + 1)
      · rw [if_pos (show 13 * seq ≤ i ∧ i < 247 by omega)]
        repeat' split
        all_goals first | rfl | omega
      · have hiff : (13 * (seq + 1) ≤ i ∧ i < 247) ↔ (13 * seq ≤ i ∧ i < 247) := by omega
        rw [if_neg (by omega), if_neg (by omega), if_neg (by omega)]
        simp only [hiff]
  · next hfit =>
    -- slot 20 is left out
    have hempty : lfnBuf name seq = p.lfnName := by
      rw [hbuf]
      funext i
      unfold lfnBuf
      rw [if_neg (by omega), if_neg (by omega)]
    rw [hempty]

theorem order_facts : ∀ seq, seq < 21 → 0 < seq →
    (UInt8.ofNat seq ≠ 0 ∧ UInt8.ofNat seq ≠ 0xE5 ∧ (UInt8.ofNat seq).toNat % 32 = seq ∧
      UInt8.ofNat seq &&& 0x40 = 0) ∧
    ((0x40 ||| UInt8.ofNat seq) ≠ 0 ∧ (0x40 ||| UInt8.ofNat seq) ≠ 0xE5 ∧
      (0x40 ||| UInt8.ofNat seq).toNat % 32 = seq ∧ (0x40 ||| UInt8.ofNat seq) &&& 0x40 ≠ 0) := by
  decide

section

variable {name : List UInt8} (h0 : (0 : UInt8) ∉ name) {numLfn : Nat} (chk : UInt8)
  (hnum : numLfn ≤ 20) {seq : Nat} (hseq : seq < numLfn)

include hnum hseq

theorem lfnEntry_kind (name : List UInt8) : (lfnEntry name numLfn chk (seq + 1)).isEnd = false ∧
    (lfnEntry name numLfn chk (seq + 1)).isDeleted = false ∧
    (lfnEntry name numLfn chk (seq + 1)).isLfn = true ∧
    (lfnEntry name numLfn chk (seq + 1) 0).toNat % 32 = seq + 1 ∧
    (lfnEntry name numLfn chk (seq + 1) 0 &&& 0x40 ≠ 0 ↔ seq + 1 = numLfn) ∧
    lfnEntry name numLfn chk (seq + 1) 13 = chk := by
  have hhead := lfnEntry_head name numLfn chk (seq + 1) 0 (by omega)
  have hattr := lfnEntry_head name numLfn chk (seq + 1) 11 (by omega)
  have hchk := lfnEntry_head name numLfn chk (seq + 1) 13 (by omega)
  rw [if_pos rfl] at hhead
  rw [if_neg (by omega), if_pos rfl] at hattr
  rw [if_neg (by omega), if_neg (by omega), if_pos rfl] at hchk
  obtain ⟨⟨ha, hb, hc, hd⟩, hA, hB, hC, hD⟩ := order_facts (seq + 1) (by omega) (by omega)
  simp only [Slot.isEnd, Slot.isDeleted, Slot.isLfn, Slot.attr, hattr, hchk]
  by_cases hlast : seq + 1 = numLfn
  · rw [if_pos hlast] at hhead
    rw [hhead]
    exact ⟨beq_eq_false_iff_ne.mpr hA, beq_eq_false_iff_ne.mpr hB, rfl, hC,
      ⟨fun _ => hlast, fun _ => hD⟩, trivial⟩
  · rw [if_neg hlast] at hhead
    rw [hhead]
    exact ⟨beq_eq_false_iff_ne.mpr ha, beq_eq_false_iff_ne.mpr hb, rfl, hc,
      ⟨fun h => absurd hd h, fun h => absurd h hlast⟩, trivial⟩

include h0

theorem lfnParserFeed_first (hlast : seq + 1 = numLfn) (hlen : name.length ≤ 13 * numLfn)
    (p : LfnParser) (start : Nat) :
    lfnParserFeed p (lfnEntry name numLfn chk (seq + 1)) (start / 512) (start % 512 / 32) =
      lfnState name numLfn chk start seq := by
  obtain ⟨hend, hdel, hlfn, hmod, hmask, hchk⟩ := lfnEntry_kind chk hnum hseq name
  rw [lfnParserFeed, hend, hdel, hlfn]
  simp only [Bool.or_self, Bool.false_eq_true, if_false, if_true, hmod, hchk]
  rw [if_neg (by omega), if_pos (hmask.mpr hlast), storeChars_lfnEntry h0 numLfn chk (by omega)]
  · subst hlast
    rfl
  · rw [hlast, lfnBuf_length hlen]
    rfl

theorem lfnParserFeed_next (hlast : seq + 1 < numLfn) (start sec slot : Nat) :
    lfnParserFeed (lfnState name numLfn chk start (seq + 1)) (lfnEntry name numLfn chk (seq + 1))
      sec slot = lfnState name numLfn chk start seq := by
  obtain ⟨hend, hdel, hlfn, hmod, hmask, hchk⟩ := lfnEntry_kind chk hnum hseq name
  rw [lfnParserFeed, hend, hdel, hlfn]
  simp only [Bool.or_self, Bool.false_eq_true, if_false, if_true, hmod, hchk]
  rw [if_neg (by omega), if_neg (fun h => by have := hmask.mp h; omega),
    storeChars_lfnEntry h0 numLfn chk (by omega) rfl]
  simp only [lfnState, Bool.not_true, bne_self_eq_false, Bool.or_self,
    Bool.false_eq_true, if_false]
  rfl

end

theorem scan_lfnSlots {name : List UInt8} (h0 : (0 : UInt8) ∉ name) {numLfn : Nat} (chk : UInt8)
    (hnum : numLfn ≤ 20) (hlen : name.length ≤ 13 * numLfn) (d : Disk) (x : List UInt8)
    (start : Nat) : ∀ (seq a : Nat) (p : LfnParser), seq ≤ numLfn →
      (seq = numLfn → a = start) → (seq < numLfn → p = lfnState name numLfn chk start seq) →
      (slotsFrom a seq).map (slotAt d) = lfnSlots name numLfn chk seq →
      scan (atAddr d (findBody x)) (slotsFrom a seq) p =
        .next (if numLfn = 0 then p else lfnState name numLfn chk start 0) := by
  intro seq
  induction seq with
  | zero =>
    intro a p hle hstart hp _
    rw [slotsFrom, List.range'_zero, scan_nil]
    split
    · rfl
    · next h => rw [hp (by omega)]
  | succ seq ih =>
    intro a p hle hstart hp hslots
    rw [slotsFrom_succ, List.map_cons, lfnSlots, List.cons.injEq] at hslots
    obtain ⟨hslot, hrest⟩ := hslots
    obtain ⟨hend, hdel, hlfn, _⟩ := lfnEntry_kind chk hnum (Nat.lt_of_succ_le hle) name
    have hfeed : lfnParserFeed p (slotAt d a) (a / 512) (a % 512 / 32) =
        lfnState name numLfn chk start seq := by
      rw [hslot]
      rcases Nat.eq_or_lt_of_le hle with heq | hlt
      · rw [← hstart heq]
        exact lfnParserFeed_first h0 chk hnum (by omega) heq hlen p a
      · rw [hp hlt]
        exact lfnParserFeed_next h0 chk hnum (by omega) hlt start _ _
    have hturn : atAddr d (findBody x) a p = .next (lfnState name numLfn chk start seq) := by
      rw [atAddr, findBody, hfeed, hslot, hend, hdel, hlfn]
      rfl
    rw [slotsFrom_succ, scan_cons_next hturn, ih (a + 32) _ (by omega) (by omega) (fun _ => rfl) hrest,
      if_neg (show ¬ numLfn = 0 by omega)]
    rw [if_neg (by omega)]

/-! ### The name behind the long-name slots -/

theorem lfnState_named (name : List UInt8) (numLfn : Nat) (chk : UInt8) (start seq : Nat) :
    (lfnState name numLfn chk start seq).named = true := rfl

theorem cstr_range (f : Buf) {l : List UInt8} (h0 : (0 : UInt8) ∉ l) : ∀ (s n : Nat),
    l.length < n → (∀ i, i < l.length → f (s + i) = l.getD i 0) → f (s + l.length) = 0 →
    cstr ((List.range' s n).map f) = l := by
  induction l with
  | nil =>
    intro s n hn _ hend
    obtain ⟨m, rfl⟩ : ∃ m, n = m + 1 := ⟨n - 1, by simp at hn; omega⟩
    have hfs : f s = 0 := hend
    rw [List.range'_succ, List.map_cons, cstr, hfs]
    rfl
  | cons c l ih =>
    intro s n hn hf hend
    rw [List.mem_cons, not_or] at h0
    rw [List.length_cons] at hn hf hend
    obtain ⟨m, rfl⟩ : ∃ m, n = m + 1 := ⟨n - 1, by omega⟩
    have hfs : f s = c := hf 0 (by omega)
    have hrest : cstr ((List.range' (s + 1) m).map f) = l := by
      refine ih h0.2 (s + 1) m (by omega) (fun i hi => ?_) ?_
      · have := hf (i + 1) (by omega)
        rw [Nat.add_assoc, Nat.add_comm 1 i, this]
        rfl
      · rw [Nat.add_assoc, Nat.add_comm 1]
        exact hend
    rw [List.range'_succ, List.map_cons, hfs, cstr, List.takeWhile_cons_of_pos]
    · exact congrArg (c :: ·) hrest
    · exact bne_iff_ne.mpr (Ne.symm h0.1)

theorem lfnState_str {name : List UInt8} (h0 : (0 : UInt8) ∉ name) (numLfn : Nat) (chk : UInt8)
    (start : Nat) : (lfnState name numLfn chk start 0).str = name.take 247 := by
  have hlen : (name.take 247).length = min 247 name.length := List.length_take
  refine cstr_range _ (fun h => h0 (List.mem_of_mem_take h)) 0 256 (by omega) (fun i hi => ?_) ?_
  · rw [hlen] at hi
    rw [Nat.zero_add, lfnState, List.getD_eq_getElem _ _ (by omega), List.getElem_take]
    dsimp only
    rw [lfnBuf, if_pos (by omega), List.getD_eq_getElem _ _ (by omega)]
  · rw [hlen, Nat.zero_add, lfnState]
    dsimp only
    unfold lfnBuf
    split
    · exact List.getD_eq_default _ _ (by omega)
    · rfl

theorem fatNameEquals_self (name : List UInt8) : fatNameEquals name name = true := by
  induction name with
  | nil => rfl
  | cons c cs ih => simp [fatNameEquals, ih]

theorem length_of_fatNameEquals {s t : List UInt8} (h : fatNameEquals s t = true) :
    s.length = t.length := by
  induction s generalizing t with
  | nil =>
    cases t with
    | nil => rfl
    | cons b t => cases h
  | cons a s ih =>
    cases t with
    | nil => cases h
    | cons b t =>
      rw [fatNameEquals] at h
      split at h
      · cases h
      · rw [List.length_cons, List.length_cons, ih h]

theorem fatNameEquals_comm : ∀ s t : List UInt8, fatNameEquals s t = fatNameEquals t s
  | [], [] => rfl
  | [], _ :: _ => rfl
  | _ :: _, [] => rfl
  | a :: s, b :: t => by
    rw [fatNameEquals, fatNameEquals, fatNameEquals_comm s t, bne_comm]

/-! ### The short entry of a name -/

/-- An 11-byte name field that marks neither the end nor a deleted slot. -/
structure ShortOk (short11 : List UInt8) : Prop where
  length : short11.length = 11
  notEnd : short11.getD 0 0 ≠ 0x00
  notDeleted : short11.getD 0 0 ≠ 0xE5

/-- The attributes of an entry the driver makes. -/
def EntryAttr (attr : UInt8) : Prop := attr = 0x20 ∨ attr = 0x10

theorem Slot.withName_of_lt (e : Slot) (nm : List UInt8) {i : Nat} (hi : i < 11) :
    e.withName nm i = nm.getD i 0 := if_pos hi

theorem Slot.withName_of_ge (e : Slot) (nm : List UInt8) {i : Nat} (hi : 11 ≤ i) :
    e.withName nm i = e i := if_neg (by omega)

theorem Slot.withName_name (e : Slot) {nm : List UInt8} (h : nm.length = 11) :
    (e.withName nm).name = nm := by
  refine List.ext_getElem (by simp [Slot.name, h]) fun i h1 h2 => ?_
  simp only [Slot.name, List.getElem_map, List.getElem_range', Nat.one_mul, Nat.zero_add]
  rw [Slot.withName_of_lt _ _ (by omega), List.getD_eq_getElem _ _ h2]

section

variable (attr : UInt8) (c size : Nat) (short11 : List UInt8)

def newEntry : Slot := (Slot.fresh attr c size).withName short11

theorem newEntry_attr : (newEntry attr c size short11).attr = attr := by
  rw [newEntry, Slot.attr, Slot.withName_of_ge _ _ (by omega), Slot.fresh, put32_of_ne (by omega),
    Slot.setCluster, put16_of_ne (by omega), put16_of_ne (by omega), if_pos rfl]

theorem newEntry_fileSize (hsize : size < 4294967296) :
    (newEntry attr c size short11).fileSize = size := by
  have h : le32 (newEntry attr c size short11) 28 = le32 (Slot.fresh attr c size) 28 :=
    le32_congr fun k _ => Slot.withName_of_ge _ _ (by omega)
  rw [Slot.fileSize, h, Slot.fresh, le32_put32, Nat.mod_eq_of_lt hsize]

theorem newEntry_cluster (hc : c < 4294967296) : (newEntry attr c size short11).cluster = c := by
  have h : ∀ j, 11 ≤ j → j + 2 ≤ 28 → le16 (newEntry attr c size short11) j =
      le16 (Slot.setCluster (fun i => if i = 11 then attr else 0) c) j := by
    intro j h1 h2
    refine le16_congr fun k hk => ?_
    rw [newEntry, Slot.withName_of_ge _ _ (by omega), Slot.fresh, put32_of_ne (by omega)]
  have hset : (Slot.setCluster (fun i => if i = 11 then attr else 0) c).cluster = c := by
    rw [Slot.cluster, Slot.fstClusHi, Slot.fstClusLo, Slot.setCluster, le16_put16,
      le16_put16_of_ne (by omega), le16_put16]
    unfold u16
    omega
  rw [Slot.cluster, Slot.fstClusHi, Slot.fstClusLo, h 20 (by omega) (by omega),
    h 26 (by omega) (by omega)]
  exact hset

theorem Slot.fresh_proper : (Slot.fresh attr c size).Proper := by
  intro i hi
  rw [Slot.fresh, put32_of_ne (by omega), Slot.setCluster, put16_of_ne (by omega),
    put16_of_ne (by omega), if_neg (by omega)]

variable {attr short11}

theorem newEntry_kind (hattr : EntryAttr attr) (hshort : ShortOk short11) :
    (newEntry attr c size short11).isEnd = false ∧
    (newEntry attr c size short11).isDeleted = false ∧
    (newEntry attr c size short11).isLfn = false ∧
    (newEntry attr c size short11).isVolumeId = false := by
  have h0 : newEntry attr c size short11 0 = short11.getD 0 0 :=
    Slot.withName_of_lt _ _ (by omega)
  rw [Slot.isEnd, Slot.isDeleted, h0, Slot.isLfn, Slot.isVolumeId, newEntry_attr]
  refine ⟨beq_eq_false_iff_ne.mpr hshort.notEnd, beq_eq_false_iff_ne.mpr hshort.notDeleted, ?_⟩
  rcases hattr with rfl | rfl <;> decide

theorem newEntry_isDirectory : (newEntry attr c size short11).isDirectory = (attr &&& 0x10 != 0) := by
  rw [Slot.isDirectory, newEntry_attr]

end

/-- The parser at the short entry of a name, when it comes there by way of the state `p`. -/
def nameParser (name short11 : List UInt8) (e : Slot) (start : Nat) (p : LfnParser) : LfnParser :=
  if numLfnSlots name = 0 then lfnParserFeed p e (start / 512) (start % 512 / 32)
  else lfnState name (numLfnSlots name) (fatLfnChecksum short11) start 0

theorem length_le_numLfnSlots {name : List UInt8} (h : numLfnSlots name ≠ 0) :
    name.length ≤ 13 * numLfnSlots name := by
  unfold numLfnSlots at h ⊢
  split at h
  · next hlfn =>
    rw [if_pos hlfn]
    omega
  · exact absurd rfl h

theorem scan_short {d : Disk} {b : Nat} {e : Slot} (he : slotAt d b = e) (hend : e.isEnd = false)
    (hdel : e.isDeleted = false) (hlfn : e.isLfn = false) (hvol : e.isVolumeId = false)
    (x : List UInt8) (p : LfnParser) :
    scan (atAddr d (findBody x)) [b] p =
      let q := lfnParserFeed p e (b / 512) (b % 512 / 32)
      if entryMatches q e x then .ret (some (entryLoc q e (b / 512) (b % 512 / 32)))
      else .next lfnParserReset := by
  rw [scan_cons, atAddr, he, findBody, hend, hdel, hlfn, hvol]
  simp only [Bool.or_self, Bool.false_eq_true, if_false]
  cases entryMatches (lfnParserFeed p e (b / 512) (b % 512 / 32)) e x <;> rfl

/-- **A lookup over the slots of a name**: it ends at the short entry if that matches,
    under the long name or the short one, and else goes on with a fresh parser. -/
theorem scan_nameSlots {name short11 : List UInt8} (h0 : (0 : UInt8) ∉ name)
    (hlen : name.length ≤ 255) (hshort : ShortOk short11) {attr : UInt8} (hattr : EntryAttr attr)
    (c size : Nat) {d : Disk} {a : Nat}
    (hslots : (slotsFrom a (numLfnSlots name + 1)).map (slotAt d) =
      nameSlots name short11 (Slot.fresh attr c size)) (x : List UInt8) (p : LfnParser) :
    scan (atAddr d (findBody x)) (slotsFrom a (numLfnSlots name + 1)) p =
      let e := newEntry attr c size short11
      let b := a + 32 * numLfnSlots name
      let q := nameParser name short11 e a p
      if entryMatches q e x then .ret (some (entryLoc q e (b / 512) (b % 512 / 32)))
      else .next lfnParserReset := by
  obtain ⟨hend, hdel, hlfn, hvol⟩ := newEntry_kind c size hattr hshort
  have hnum : numLfnSlots name ≤ 20 := by
    unfold numLfnSlots
    split <;> omega
  rw [slotsFrom_append, List.map_append, nameSlots] at hslots
  obtain ⟨hlfns, hlast⟩ := List.append_inj hslots
    (by rw [List.length_map, length_slotsFrom, length_lfnSlots])
  have hentry : slotAt d (a + 32 * numLfnSlots name) = newEntry attr c size short11 := by
    simpa [newEntry] using hlast
  rw [slotsFrom_append, scan_append]
  by_cases hn : numLfnSlots name = 0
  · -- the short entry alone
    rw [hn] at hentry ⊢
    simp only [Nat.mul_zero, Nat.add_zero] at hentry ⊢
    rw [slotsFrom, List.range'_zero, scan_nil]
    dsimp only
    rw [scan_short hentry hend hdel hlfn hvol, nameParser, if_pos hn]
  · have hscan := scan_lfnSlots h0 (fatLfnChecksum short11) hnum (length_le_numLfnSlots hn) d x a
      (numLfnSlots name) a p (Nat.le_refl _) (fun _ => rfl) (fun h => absurd h (Nat.lt_irrefl _))
      hlfns
    rw [hscan, if_neg hn]
    dsimp only
    have hfeed : ∀ sec slot, lfnParserFeed
        (lfnState name (numLfnSlots name) (fatLfnChecksum short11) a 0)
        (newEntry attr c size short11) sec slot =
          lfnState name (numLfnSlots name) (fatLfnChecksum short11) a 0 := by
      intro sec slot
      rw [lfnParserFeed, hend, hdel, hlfn]
      have hname : (newEntry attr c size short11).name = short11 :=
        Slot.withName_name _ hshort.length
      have hnul : (fun i => if i = 255 then (0 : UInt8) else lfnBuf name 0 i) = lfnBuf name 0 := by
        funext i
        split
        · next hi =>
          subst hi
          rfl
        · rfl
      simp only [Bool.or_self, Bool.false_eq_true, if_false, lfnState, hname, beq_self_eq_true,
        Bool.and_self, if_true, hnul]
    rw [scan_short hentry hend hdel hlfn hvol, hfeed, nameParser, if_neg hn]

end Gemios
