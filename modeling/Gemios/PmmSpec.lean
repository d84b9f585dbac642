import Gemios.Pmm
import Mathlib.Data.Finset.Card
import Mathlib.Data.Finset.Range
import Mathlib.Data.List.Basic

/-!
# The page allocator keeps its books

The bitmap, the counter of used pages and the ranges handed out, over any sequence of
allocations and frees: the counter is the number of set bits, the ranges are disjoint,
and an allocation fails only when there is no run of clear bits for it.
-/

namespace Gemios

/-! ### Bits -/

theorem bitmapTest_eq (w : Nat → BitVec 32) (b : Nat) :
    bitmapTest w b = (w (b / 32)).getLsbD (b % 32) := by
  have hmask : bitMask b = BitVec.twoPow 32 (b % 32) := (BitVec.twoPow_eq 32 _).symm
  rw [bitmapTest, hmask, BitVec.and_twoPow]
  have hne : BitVec.twoPow 32 (b % 32) ≠ 0#32 := by
    intro h
    have := congrArg (fun v => v.getLsbD (b % 32)) h
    simp only [BitVec.getLsbD_twoPow, BitVec.getLsbD_zero] at this
    simp at this
    omega
  cases (w (b / 32)).getLsbD (b % 32) with
  | true => simpa using hne
  | false => simp

theorem getLsbD_bitMask (b i : Nat) : (bitMask b).getLsbD i = decide (b % 32 = i) := by
  have hlt : b % 32 < 32 := Nat.mod_lt _ (by omega)
  rw [bitMask, ← BitVec.twoPow_eq, BitVec.getLsbD_twoPow]
  simp [hlt]

theorem div_mod_eq_iff {b b' : Nat} (h : b' / 32 = b / 32) : b % 32 = b' % 32 ↔ b = b' := by
  omega

theorem bitmapTest_bitmapSet (w : Nat → BitVec 32) (b b' : Nat) :
    bitmapTest (bitmapSet w b) b' = (decide (b = b') || bitmapTest w b') := by
  rw [bitmapTest_eq, bitmapTest_eq, bitmapSet]
  split
  · next h =>
    rw [BitVec.getLsbD_or, getLsbD_bitMask, decide_eq_decide.mpr (div_mod_eq_iff h), Bool.or_comm]
  · next h =>
    have hne : ¬ b = b' := fun heq => h (by rw [heq])
    simp [hne]

theorem bitmapTest_bitmapClear (w : Nat → BitVec 32) (b b' : Nat) :
    bitmapTest (bitmapClear w b) b' = (!decide (b = b') && bitmapTest w b') := by
  rw [bitmapTest_eq, bitmapTest_eq, bitmapClear]
  split
  · next h =>
    have hlt : b' % 32 < 32 := Nat.mod_lt _ (by omega)
    rw [BitVec.getLsbD_and, BitVec.getLsbD_not, getLsbD_bitMask,
      decide_eq_decide.mpr (div_mod_eq_iff h), decide_eq_true hlt, Bool.true_and, Bool.and_comm]
  · next h =>
    have hne : ¬ b = b' := fun heq => h (by rw [heq])
    simp [hne]

namespace Pmm

theorem test_take (s : Pmm) (p q : Nat) : (s.take p).test q = (decide (p = q) || s.test q) :=
  bitmapTest_bitmapSet _ _ _

theorem test_drop (s : Pmm) (p q : Nat) : (s.drop p).test q = (!decide (p = q) && s.test q) :=
  bitmapTest_bitmapClear _ _ _

/-! ### The counter -/

/-- The number of set bits among the first `total_pages`. -/
def setBits (s : Pmm) : Nat := ((Finset.range s.totalPages).filter fun p => s.test p = true).card

def Counted (s : Pmm) : Prop := s.usedPages = s.setBits

instance (s : Pmm) : Decidable s.Counted := inferInstanceAs (Decidable (_ = _))

theorem setBits_le (s : Pmm) : s.setBits ≤ s.totalPages := by
  have h := Finset.card_filter_le (Finset.range s.totalPages) fun p => s.test p = true
  rwa [Finset.card_range] at h

theorem setBits_take {s : Pmm} {p : Nat} (hp : p < s.totalPages) (hclear : s.test p = false) :
    (s.take p).setBits = s.setBits + 1 := by
  have hset : (Finset.range s.totalPages).filter (fun q => (s.take p).test q = true) =
      insert p ((Finset.range s.totalPages).filter fun q => s.test q = true) := by
    ext q
    rw [Finset.mem_insert, Finset.mem_filter, Finset.mem_filter, Finset.mem_range, test_take]
    constructor
    · rintro ⟨hq, h⟩
      rcases Bool.or_eq_true_iff.mp h with h | h
      · exact Or.inl (of_decide_eq_true h).symm
      · exact Or.inr ⟨hq, h⟩
    · rintro (rfl | ⟨hq, h⟩)
      · exact ⟨hp, by simp⟩
      · exact ⟨hq, by simp [h]⟩
  have hnot : p ∉ (Finset.range s.totalPages).filter fun q => s.test q = true := by
    simp [hclear]
  rw [setBits, show (s.take p).totalPages = s.totalPages from rfl, hset,
    Finset.card_insert_of_notMem hnot]
  rfl

theorem setBits_drop {s : Pmm} {p : Nat} (hp : p < s.totalPages) (hset : s.test p = true) :
    (s.drop p).setBits + 1 = s.setBits := by
  have heq : (Finset.range s.totalPages).filter (fun q => (s.drop p).test q = true) =
      ((Finset.range s.totalPages).filter fun q => s.test q = true).erase p := by
    ext q
    rw [Finset.mem_erase, Finset.mem_filter, Finset.mem_filter, Finset.mem_range, test_drop]
    constructor
    · rintro ⟨hq, h⟩
      rw [Bool.and_eq_true] at h
      exact ⟨fun heq => by simp [heq] at h, hq, h.2⟩
    · rintro ⟨hne, hq, h⟩
      exact ⟨hq, by simp [Ne.symm hne, h]⟩
  have hmem : p ∈ (Finset.range s.totalPages).filter fun q => s.test q = true := by
    simp [hset, hp]
  rw [setBits, show (s.drop p).totalPages = s.totalPages from rfl, heq]
  exact Finset.card_erase_add_one hmem

theorem Counted.take {s : Pmm} (h : s.Counted) (hmax : s.totalPages < 4294967296) {p : Nat}
    (hp : p < s.totalPages) (hclear : s.test p = false) : (s.take p).Counted := by
  have hbits := setBits_take hp hclear
  have hle := (s.take p).setBits_le
  have htot : (s.take p).totalPages = s.totalPages := rfl
  have hused : (s.take p).usedPages = u32 (s.usedPages + 1) := rfl
  rw [Counted] at h
  rw [Counted, hused, u32_of_lt (by omega)]
  omega

theorem Counted.drop {s : Pmm} (h : s.Counted) (hmax : s.totalPages < 4294967296) {p : Nat}
    (hp : p < s.totalPages) (hset : s.test p = true) : (s.drop p).Counted := by
  have hbits := setBits_drop hp hset
  have hle := s.setBits_le
  have hused : (s.drop p).usedPages = u32 (s.usedPages + 4294967295) := rfl
  rw [Counted] at h
  rw [Counted, hused, u32]
  omega

end Pmm

/-! ### Ranges of pages taken and freed -/

section

variable (s : Pmm)

theorem takeFrom_succ (p n : Nat) : s.takeFrom p (n + 1) = (s.take p).takeFrom (p + 1) n := by
  rw [Pmm.takeFrom, List.range'_succ, List.foldl_cons, Pmm.takeFrom]

theorem takeFrom_params (p n : Nat) : (s.takeFrom p n).totalPages = s.totalPages ∧
    (s.takeFrom p n).pmmStartAddr = s.pmmStartAddr := by
  induction n generalizing s p with
  | zero => exact ⟨rfl, rfl⟩
  | succ n ih =>
    rw [takeFrom_succ]
    exact ih (s.take p) (p + 1)

theorem test_takeFrom (p n q : Nat) :
    (s.takeFrom p n).test q = (decide (p ≤ q ∧ q < p + n) || s.test q) := by
  induction n generalizing s p with
  | zero =>
    have h : ¬ (p ≤ q ∧ q < p + 0) := by omega
    rw [decide_eq_false h, Bool.false_or]
    rfl
  | succ n ih =>
    rw [takeFrom_succ, ih, Pmm.test_take, ← Bool.or_assoc]
    congr 1
    rw [← Bool.decide_or, decide_eq_decide]
    omega

variable {s}

theorem counted_takeFrom (hmax : s.totalPages < 4294967296) {p n : Nat} (h : s.Counted)
    (hn : p + n ≤ s.totalPages) (hclear : ∀ q, p ≤ q → q < p + n → s.test q = false) :
    (s.takeFrom p n).Counted := by
  induction n generalizing s p with
  | zero => exact h
  | succ n ih =>
    rw [takeFrom_succ]
    refine ih (s := s.take p) hmax (h.take hmax (by omega) (hclear p (by omega) (by omega)))
      (show p + 1 + n ≤ s.totalPages by omega) fun q h1 h2 => ?_
    rw [Pmm.test_take, hclear q (by omega) (by omega), decide_eq_false (by omega)]
    rfl

theorem freePage_params (s : Pmm) (p : Nat) : (freePage s p).totalPages = s.totalPages ∧
    (freePage s p).pmmStartAddr = s.pmmStartAddr := by
  unfold freePage
  split <;> exact ⟨rfl, rfl⟩

theorem test_freePage (s : Pmm) (p q : Nat) :
    (freePage s p).test q = (!decide (p = q ∧ q < s.totalPages) && s.test q) := by
  unfold freePage
  split
  · next h =>
    rw [Pmm.test_drop, decide_eq_decide.mpr (show p = q ↔ p = q ∧ q < s.totalPages from
      ⟨fun heq => ⟨heq, heq ▸ h.1⟩, fun h => h.1⟩)]
  · next h =>
    by_cases hpq : p = q ∧ q < s.totalPages
    · obtain ⟨rfl, hlt⟩ := hpq
      have hclear : s.test p = false := by
        rw [← Bool.not_eq_true]
        exact fun ht => h ⟨hlt, ht⟩
      rw [hclear, Bool.and_false]
    · simp [hpq]

theorem counted_freePage (hmax : s.totalPages < 4294967296) (h : s.Counted) (p : Nat) :
    (freePage s p).Counted := by
  unfold freePage
  split
  · next hp => exact h.drop hmax hp.1 hp.2
  · exact h

theorem foldl_freePage (s : Pmm) (p n : Nat) :
    ((List.range' p n).foldl freePage s).totalPages = s.totalPages ∧
    ((List.range' p n).foldl freePage s).pmmStartAddr = s.pmmStartAddr ∧
    (∀ q, ((List.range' p n).foldl freePage s).test q =
      (!decide (p ≤ q ∧ q < p + n ∧ q < s.totalPages) && s.test q)) ∧
    (s.totalPages < 4294967296 → s.Counted → ((List.range' p n).foldl freePage s).Counted) := by
  induction n generalizing s p with
  | zero =>
    refine ⟨rfl, rfl, fun q => ?_, fun _ h => h⟩
    have hnot : ¬ (p ≤ q ∧ q < p + 0 ∧ q < s.totalPages) := by omega
    rw [decide_eq_false hnot]
    rfl
  | succ n ih =>
    obtain ⟨h1, h2, h3, h4⟩ := ih (freePage s p) (p + 1)
    obtain ⟨h5, h6⟩ := freePage_params s p
    rw [List.range'_succ, List.foldl_cons]
    refine ⟨h1.trans h5, h2.trans h6, fun q => ?_, fun hmax hc => ?_⟩
    · rw [h3, test_freePage, h5, ← Bool.and_assoc, ← Bool.not_or, ← Bool.decide_or]
      have hiff : ((p + 1 ≤ q ∧ q < p + 1 + n ∧ q < s.totalPages) ∨ (p = q ∧ q < s.totalPages)) ↔
          (p ≤ q ∧ q < p + (n + 1) ∧ q < s.totalPages) := by omega
      rw [decide_eq_decide.mpr hiff]
    · exact h4 (by rwa [h5]) (counted_freePage hmax hc p)

end

/-! ### The two searches -/

/-- A run of `count` clear bits from page `p` on, at or above `pmm_start_addr`, at an
    address that is a multiple of `align`. -/
structure Suitable (s : Pmm) (count align p : Nat) : Prop where
  start : s.pmmStartAddr ≤ p * pageSize
  bound : p + count ≤ s.totalPages
  aligned : align ∣ p * pageSize
  clear : ∀ q, p ≤ q → q < p + count → s.test q = false

theorem scan_allocPagesTurn (s : Pmm) (count : Nat) : ∀ (n p c f : Nat), c < count → c ≤ p →
    (c ≠ 0 → f = p - c) → (∀ q, p - c ≤ q → q < p → s.test q = false) →
    (∀ r, scan (allocPagesTurn s count) (List.range' p n) (c, f) = .ret r →
      p - c ≤ r ∧ r + count ≤ p + n ∧ ∀ q, r ≤ q → q < r + count → s.test q = false) ∧
    (∀ st, scan (allocPagesTurn s count) (List.range' p n) (c, f) ≠ .stop st) ∧
    (∀ st, scan (allocPagesTurn s count) (List.range' p n) (c, f) = .next st →
      ∀ r, p - c ≤ r → r + count ≤ p + n → ∃ q, r ≤ q ∧ q < r + count ∧ s.test q = true) := by
  intro n
  induction n with
  | zero =>
    intro p c f hc hcp _ _
    refine ⟨fun r h => ?_, fun st h => ?_, fun st _ r h1 h2 => ?_⟩
    · cases h
    · cases h
    · omega
  | succ n ih =>
    intro p c f hc hcp hf hclear
    rw [List.range'_succ, scan_cons, allocPagesTurn]
    dsimp only
    cases hp : s.test p with
    | true =>
      -- the run is broken at `p`
      obtain ⟨h1, h2, h3⟩ := ih (p + 1) 0 f (by omega) (by omega) (fun h => absurd rfl h)
        fun q h1 h2 => by omega
      rw [Bool.not_true, if_neg Bool.false_ne_true]
      refine ⟨fun r h => ?_, h2, fun st h r hr hb => ?_⟩
      · obtain ⟨h4, h5, h6⟩ := h1 r h
        exact ⟨by omega, by omega, h6⟩
      · by_cases hle : r ≤ p
        · exact ⟨p, hle, by omega, hp⟩
        · exact h3 st h r (by omega) (by omega)
    | false =>
      have hstart : (if c = 0 then p else f) = p - c := by
        split
        · omega
        · next hc0 => exact hf hc0
      have hclear' : ∀ q, p - c ≤ q → q < p + 1 → s.test q = false := by
        intro q h1 h2
        by_cases hq : q = p
        · rw [hq, hp]
        · exact hclear q h1 (by omega)
      rw [Bool.not_false, if_pos rfl, hstart]
      by_cases hfull : c + 1 = count
      · rw [if_pos hfull]
        refine ⟨fun r h => ?_, fun st h => ?_, fun st h => ?_⟩
        · cases h
          exact ⟨by omega, by omega, fun q h1 h2 => hclear' q h1 (by omega)⟩
        · cases h
        · cases h
      · rw [if_neg hfull]
        obtain ⟨h1, h2, h3⟩ := ih (p + 1) (c + 1) (p - c) (by omega) (by omega)
          (fun _ => by omega) fun q h1 h2 => hclear' q (by omega) h2
        refine ⟨fun r h => ?_, h2, fun st h r hr hb => h3 st h r (by omega) (by omega)⟩
        obtain ⟨h4, h5, h6⟩ := h1 r h
        exact ⟨by omega, by omega, h6⟩

theorem allocAlignedLoop_spec (s : Pmm) {count ap : Nat} (hap : 0 < ap) (hcount : 0 < count)
    (hmax : s.totalPages + 2 * ap < 4294967296) : ∀ (fuel p : Nat), s.totalPages < fuel + p →
    p + count + ap < 4294967296 → ap ∣ p →
    (∀ r, allocAlignedLoop s count ap fuel p = some r → p ≤ r ∧ ap ∣ r ∧
      r + count ≤ s.totalPages ∧ ∀ q, r ≤ q → q < r + count → s.test q = false) ∧
    (allocAlignedLoop s count ap fuel p = none → ∀ r, p ≤ r → ap ∣ r → r + count ≤ s.totalPages →
      ∃ q, r ≤ q ∧ q < r + count ∧ s.test q = true) := by
  intro fuel
  induction fuel with
  | zero =>
    intro p hfuel _ _
    refine ⟨fun r h => ?_, fun _ r h1 _ h2 => ?_⟩
    · cases h
    · omega
  | succ fuel ih =>
    intro p hfuel hp hdvd
    rw [allocAlignedLoop]
    by_cases hle : p + count ≤ s.totalPages
    · rw [u32_of_lt (by omega), if_pos hle]
      by_cases hany : (List.range' p count).any s.test = true
      · rw [if_pos hany, u32_of_lt (by omega)]
        obtain ⟨q, hq, htest⟩ := List.any_eq_true.mp hany
        rw [List.mem_range'_1] at hq
        obtain ⟨h1, h2⟩ := ih (p + ap) (by omega) (by omega) (Nat.dvd_add hdvd (Nat.dvd_refl ap))
        refine ⟨fun r h => ?_, fun h r hr hdr hb => ?_⟩
        · obtain ⟨h3, h4⟩ := h1 r h
          exact ⟨by omega, h4⟩
        · by_cases heq : r = p
          · exact ⟨q, by omega, by omega, htest⟩
          · -- the next multiple
            have hstep : p + ap ≤ r := by
              obtain ⟨m, rfl⟩ := hdvd
              obtain ⟨k, rfl⟩ := hdr
              have hmk : m < k := Nat.lt_of_mul_lt_mul_left (a := ap) (by omega)
              have := Nat.mul_le_mul_left ap hmk
              rw [Nat.mul_succ] at this
              omega
            exact h2 h r hstep hdr hb
      · rw [if_neg hany]
        refine ⟨fun r h => ?_, fun h => ?_⟩
        · cases h
          refine ⟨Nat.le_refl _, hdvd, hle, fun q h1 h2 => ?_⟩
          rw [← Bool.not_eq_true]
          exact fun ht => hany (List.any_eq_true.mpr ⟨q, List.mem_range'_1.mpr ⟨h1, h2⟩, ht⟩)
        · cases h
    · rw [u32_of_lt (by omega), if_neg hle]
      refine ⟨fun r h => ?_, fun _ r h1 _ h2 => ?_⟩
      · cases h
      · omega

/-! ### What an allocation returns -/

/-- The parameters `pmm_init` leaves. -/
structure Pmm.Ready (s : Pmm) : Prop where
  aligned : s.pmmStartAddr % 4096 = 0
  pos : 0 < s.pmmStartAddr
  small : s.pmmStartAddr < 4294967296
  pages : s.totalPages ≤ 1048576

/-- An allocation takes a suitable run, and fails when there is none. -/
def Allocates (s : Pmm) (count align : Nat) (r : Nat × Pmm) : Prop :=
  (∃ p, Suitable s count align p ∧ r = (p * pageSize, s.takeFrom p count)) ∨
    ((∀ p, ¬ Suitable s count align p) ∧ r = (0, s))

section

variable {s : Pmm} (hs : s.Ready) {count : Nat} (hcount : 0 < count)

include hs

theorem Pmm.Ready.start_le_iff (p : Nat) :
    s.pmmStartAddr ≤ p * pageSize ↔ s.pmmStartAddr / pageSize ≤ p := by
  have h := hs.aligned
  unfold pageSize
  omega

theorem Pmm.Ready.u32_addr {p : Nat} (hp : p < s.totalPages) : u32 (p * pageSize) = p * pageSize := by
  have h := hs.pages
  exact u32_of_lt (by unfold pageSize; omega)

include hcount

theorem pmmAllocPages_spec : Allocates s count 1 (pmmAllocPages s count) := by
  rw [pmmAllocPages, if_neg (by omega)]
  dsimp only
  obtain ⟨h1, h2, h3⟩ := scan_allocPagesTurn s count (s.totalPages - s.pmmStartAddr / pageSize)
    (s.pmmStartAddr / pageSize) 0 0 hcount (Nat.zero_le _) (fun h => absurd rfl h)
    fun q h1 h2 => by omega
  cases hscan : scan (allocPagesTurn s count)
      (List.range' (s.pmmStartAddr / pageSize) (s.totalPages - s.pmmStartAddr / pageSize))
      (0, 0) with
  | ret r =>
    obtain ⟨h4, h5, h6⟩ := h1 r hscan
    have hbound : r + count ≤ s.totalPages := by
      by_contra hnot
      have hzero : s.totalPages - s.pmmStartAddr / pageSize = 0 := by omega
      rw [hzero] at hscan
      cases hscan
    refine Or.inl ⟨r, ⟨(hs.start_le_iff r).mpr (by omega), hbound, Nat.one_dvd _, h6⟩, ?_⟩
    dsimp only
    rw [hs.u32_addr (by omega)]
  | next st =>
    refine Or.inr ⟨fun p hp => ?_, rfl⟩
    have hstart := (hs.start_le_iff p).mp hp.start
    have hbound := hp.bound
    obtain ⟨q, hq1, hq2, hq⟩ := h3 st hscan p (by omega) (by omega)
    rw [hp.clear q hq1 hq2] at hq
    cases hq
  | stop st => exact absurd hscan (h2 st)

omit hs hcount in
theorem alignPages_eq (j : Nat) (hj : j < 32) :
    ∃ k, k ≤ 19 ∧ (if 2 ^ j < pageSize then pageSize else 2 ^ j) / pageSize = 2 ^ k ∧
      ∀ p, 2 ^ k ∣ p ↔ 2 ^ j ∣ p * pageSize := by
  have hpage : pageSize = 2 ^ 12 := rfl
  by_cases hlt : j < 12
  · refine ⟨0, by omega, ?_, fun p => ?_⟩
    · rw [if_pos (by rw [hpage]; exact Nat.pow_lt_pow_right (by omega) hlt)]
      rfl
    · rw [Nat.pow_zero]
      refine iff_of_true (Nat.one_dvd p) ?_
      rw [hpage]
      exact Nat.dvd_mul_left_of_dvd (Nat.pow_dvd_pow 2 (by omega)) p
  · refine ⟨j - 12, by omega, ?_, fun p => ?_⟩
    · rw [if_neg (by rw [hpage]; exact Nat.not_lt.mpr (Nat.pow_le_pow_right (by omega) (by omega))),
        hpage, Nat.pow_div (by omega) (by omega)]
    · have hsplit : 2 ^ j = 2 ^ (j - 12) * 2 ^ 12 := by
        rw [← Nat.pow_add, Nat.sub_add_cancel (by omega)]
      rw [hsplit, hpage]
      exact (Nat.mul_dvd_mul_iff_right (Nat.two_pow_pos 12)).symm

theorem pmmAllocPagesAligned_spec (hle : count ≤ s.totalPages) {j : Nat} (hj : j < 32) :
    Allocates s count (2 ^ j) (pmmAllocPagesAligned s count (2 ^ j)) := by
  obtain ⟨k, hk, hap, hdvd⟩ := alignPages_eq j hj
  have hpages := hs.pages
  have hpow : 2 ^ k ≤ 2 ^ 19 := Nat.pow_le_pow_right (by omega) hk
  have hpos : 0 < 2 ^ k := Nat.two_pow_pos k
  have hstart : s.pmmStartAddr / pageSize < 1048576 := by
    have := hs.small
    unfold pageSize
    omega
  rw [pmmAllocPagesAligned, if_neg (by omega)]
  dsimp only
  rw [hap]
  have hwrap : s.pmmStartAddr / pageSize + 2 ^ k - 1 < 4294967296 := by omega
  have hup := alignUp_dvd (by omega) hwrap
  have hge := le_alignUp (by omega) hwrap
  have hleast := fun y => alignUp_le_of_dvd (y := y) (by omega) hwrap
  have hlt := alignUp_lt (by omega) hwrap
  generalize alignUp (s.pmmStartAddr / pageSize) (2 ^ k) = p₀ at hup hge hleast hlt ⊢
  obtain ⟨h1, h2⟩ := allocAlignedLoop_spec s hpos hcount (by omega) (s.totalPages + 1) p₀
    (by omega) (by omega) hup
  cases hloop : allocAlignedLoop s count (2 ^ k) (s.totalPages + 1) p₀ with
  | some p =>
    obtain ⟨h3, h4, h5, h6⟩ := h1 p hloop
    refine Or.inl ⟨p, ⟨(hs.start_le_iff p).mpr (by omega), h5, (hdvd p).mp h4, h6⟩, ?_⟩
    dsimp only
    rw [hs.u32_addr (by omega)]
  | none =>
    refine Or.inr ⟨fun p hp => ?_, rfl⟩
    have hsp := (hs.start_le_iff p).mp hp.start
    have hdp := (hdvd p).mpr hp.aligned
    obtain ⟨q, hq1, hq2, hq⟩ := h2 hloop p (hleast p hsp hdp) hdp hp.bound
    rw [hp.clear q hq1 hq2] at hq
    cases hq

end

/-! ### Runs -/

/-- The first page and the page behind the last one of a range. -/
def rangePages (r : Nat × Nat) : Nat × Nat := (r.1 / pageSize, r.1 / pageSize + r.2)

def RangeDisjoint (r r' : Nat × Nat) : Prop :=
  (rangePages r).2 ≤ (rangePages r').1 ∨ (rangePages r').2 ≤ (rangePages r).1

instance (r r' : Nat × Nat) : Decidable (RangeDisjoint r r') :=
  inferInstanceAs (Decidable (_ ∨ _))

/-- The ranges on a list after an allocation. -/
def addRange (addr count : Nat) (live : List (Nat × Nat)) : List (Nat × Nat) :=
  if addr = 0 then live else (addr, count) :: live

/-- The states that calls lead to, with the ranges returned so far and those still live:
    a range is live until one of its pages is freed. -/
inductive PmmReach (s₀ : Pmm) : Pmm → List (Nat × Nat) → List (Nat × Nat) → Prop
  | init : PmmReach s₀ s₀ [] []
  | alloc {s : Pmm} {returned live : List (Nat × Nat)} (h : PmmReach s₀ s returned live)
      {count : Nat} (hpos : 0 < count) (hle : count ≤ s.totalPages) :
      PmmReach s₀ (pmmAllocPages s count).2 (addRange (pmmAllocPages s count).1 count returned)
        (addRange (pmmAllocPages s count).1 count live)
  | allocAligned {s : Pmm} {returned live : List (Nat × Nat)} (h : PmmReach s₀ s returned live)
      {count j : Nat} (hpos : 0 < count) (hle : count ≤ s.totalPages) (hj : j < 32) :
      PmmReach s₀ (pmmAllocPagesAligned s count (2 ^ j)).2
        (addRange (pmmAllocPagesAligned s count (2 ^ j)).1 count returned)
        (addRange (pmmAllocPagesAligned s count (2 ^ j)).1 count live)
  | free {s : Pmm} {returned live : List (Nat × Nat)} (h : PmmReach s₀ s returned live)
      {r : Nat × Nat} (hr : r ∈ returned) :
      PmmReach s₀ (pmmFreePages s r.1 r.2) returned (live.filter fun r' => RangeDisjoint r r')

structure LiveRange (s : Pmm) (r : Nat × Nat) : Prop where
  aligned : pageSize ∣ r.1
  start : s.pmmStartAddr ≤ r.1
  bound : r.1 + r.2 * pageSize ≤ s.totalPages * pageSize
  nonempty : 0 < r.2
  set : ∀ q, (rangePages r).1 ≤ q → q < (rangePages r).2 → s.test q = true

structure PmmInv (s : Pmm) (live : List (Nat × Nat)) : Prop where
  ready : s.Ready
  counted : s.Counted
  inUse : ∀ r ∈ live, LiveRange s r
  disjoint : live.Pairwise RangeDisjoint

/-- What an allocation in a state with the ranges `live` guarantees. -/
structure AllocOk (s : Pmm) (live : List (Nat × Nat)) (count align addr : Nat) : Prop where
  fails_iff : addr = 0 ↔ ¬ ∃ p, Suitable s count align p
  aligned : pageSize ∣ addr ∧ align ∣ addr
  range : addr ≠ 0 → s.pmmStartAddr ≤ addr ∧ addr + count * pageSize ≤ s.totalPages * pageSize
  fresh : addr ≠ 0 → ∀ r ∈ live, RangeDisjoint (addr, count) r

theorem rangeDisjoint_of_suitable {s : Pmm} {count align p : Nat} (hp : Suitable s count align p)
    {r : Nat × Nat} (hr : LiveRange s r) (hcount : 0 < count) :
    RangeDisjoint (p * pageSize, count) r := by
  by_contra hnot
  have hdiv : p * pageSize / pageSize = p := Nat.mul_div_cancel p (by unfold pageSize; omega)
  have hne := hr.nonempty
  simp only [RangeDisjoint, rangePages, hdiv, not_or, Nat.not_le] at hnot
  -- the later of the two first pages lies in both
  have hset := hr.set (max p (r.1 / pageSize)) (Nat.le_max_right _ _) (by
    simp only [rangePages]
    omega)
  rw [hp.clear _ (Nat.le_max_left _ _) (by omega)] at hset
  cases hset

theorem Allocates.allocOk {s : Pmm} {live : List (Nat × Nat)} {count align : Nat} {r : Nat × Pmm}
    (h : Allocates s count align r) (hi : PmmInv s live) (hcount : 0 < count) :
    AllocOk s live count align r.1 := by
  rcases h with ⟨p, hp, rfl⟩ | ⟨hnone, rfl⟩
  · have hne : p * pageSize ≠ 0 := by
      have h1 := hp.start
      have h2 := hi.ready.pos
      omega
    refine ⟨⟨fun h => absurd h hne, fun h => absurd ⟨p, hp⟩ h⟩,
      ⟨Nat.dvd_mul_left _ _, hp.aligned⟩, fun _ => ⟨hp.start, ?_⟩, fun _ r hr => ?_⟩
    · dsimp only
      rw [← Nat.add_mul]
      exact Nat.mul_le_mul_right _ hp.bound
    · exact rangeDisjoint_of_suitable hp (hi.inUse r hr) hcount
  · refine ⟨⟨fun _ ⟨p, hp⟩ => hnone p hp, fun _ => rfl⟩, ⟨Nat.dvd_zero _, Nat.dvd_zero _⟩,
      fun h => absurd rfl h, fun h => absurd rfl h⟩

theorem Allocates.inv {s : Pmm} {live : List (Nat × Nat)} {count align : Nat} {r : Nat × Pmm}
    (h : Allocates s count align r) (hi : PmmInv s live) (hcount : 0 < count) :
    PmmInv r.2 (addRange r.1 count live) := by
  have hok := h.allocOk hi hcount
  rcases h with ⟨p, hp, rfl⟩ | ⟨_, rfl⟩
  · have hdiv : p * pageSize / pageSize = p := Nat.mul_div_cancel p (by unfold pageSize; omega)
    have hne : p * pageSize ≠ 0 := by
      have h1 := hp.start
      have h2 := hi.ready.pos
      omega
    obtain ⟨htot, hstart⟩ := takeFrom_params s p count
    have hmax : s.totalPages < 4294967296 := by
      have := hi.ready.pages
      omega
    dsimp only at hok ⊢
    rw [addRange, if_neg hne]
    refine ⟨⟨by rw [hstart]; exact hi.ready.aligned, by rw [hstart]; exact hi.ready.pos,
      by rw [hstart]; exact hi.ready.small, by rw [htot]; exact hi.ready.pages⟩,
      counted_takeFrom hmax hi.counted hp.bound hp.clear, fun r hr => ?_,
      List.pairwise_cons.mpr ⟨fun r hr => hok.fresh hne r hr, hi.disjoint⟩⟩
    rcases List.mem_cons.mp hr with rfl | hr
    · refine ⟨hok.aligned.1, by rw [hstart]; exact hp.start, by rw [htot]; exact (hok.range hne).2,
        hcount, fun q h1 h2 => ?_⟩
      simp only [rangePages, hdiv] at h1 h2
      rw [test_takeFrom, decide_eq_true ⟨h1, h2⟩, Bool.true_or]
    · have hl := hi.inUse r hr
      refine ⟨hl.aligned, by rw [hstart]; exact hl.start, by rw [htot]; exact hl.bound, hl.nonempty,
        fun q h1 h2 => ?_⟩
      rw [test_takeFrom, hl.set q h1 h2, Bool.or_true]
  · rw [addRange, if_pos rfl]
    exact hi

theorem pmmInv_free {s : Pmm} {live : List (Nat × Nat)} (hi : PmmInv s live) (r : Nat × Nat) :
    PmmInv (pmmFreePages s r.1 r.2) (live.filter fun r' => RangeDisjoint r r') := by
  rw [pmmFreePages]
  split
  · exact ⟨hi.ready, hi.counted, fun r' hr' => hi.inUse r' (List.mem_filter.mp hr').1,
      hi.disjoint.sublist List.filter_sublist⟩
  · obtain ⟨htot, hstart, htest, hcounted⟩ := foldl_freePage s (r.1 / pageSize) r.2
    refine ⟨⟨by rw [hstart]; exact hi.ready.aligned, by rw [hstart]; exact hi.ready.pos,
      by rw [hstart]; exact hi.ready.small, by rw [htot]; exact hi.ready.pages⟩,
      hcounted (by have := hi.ready.pages; omega) hi.counted, fun r' hr' => ?_,
      hi.disjoint.sublist List.filter_sublist⟩
    obtain ⟨hmem, hdis⟩ := List.mem_filter.mp hr'
    have hl := hi.inUse r' hmem
    refine ⟨hl.aligned, by rw [hstart]; exact hl.start, by rw [htot]; exact hl.bound, hl.nonempty,
      fun q h1 h2 => ?_⟩
    -- the pages of a range that stays live are not among those freed
    have hout : ¬ (r.1 / pageSize ≤ q ∧ q < r.1 / pageSize + r.2 ∧ q < s.totalPages) := by
      have hdis := of_decide_eq_true hdis
      simp only [RangeDisjoint, rangePages] at hdis h1 h2
      omega
    rw [htest, decide_eq_false hout, hl.set q h1 h2]
    rfl

theorem PmmReach.inv {s₀ s : Pmm} {returned live : List (Nat × Nat)}
    (h : PmmReach s₀ s returned live) (hr : s₀.Ready) (hc : s₀.Counted) : PmmInv s live := by
  induction h with
  | init => exact ⟨hr, hc, fun r h => absurd h (by simp), List.Pairwise.nil⟩
  | alloc _ hpos hle ih => exact (pmmAllocPages_spec ih.ready hpos).inv ih hpos
  | allocAligned _ hpos hle hj ih =>
    exact (pmmAllocPagesAligned_spec ih.ready hpos hle hj).inv ih hpos
  | free _ hr ih => exact pmmInv_free ih _

/-! ### From `pmm_init` on -/

theorem mmapMaxAddr_lt (es : List MmapEntry) : mmapMaxAddr es < 4294967296 := by
  have hstep : ∀ (es : List MmapEntry) (m : Nat), m < 4294967296 →
      es.foldl
        (fun maxAddr e =>
          if e.type = 1 ∧ e.addrHigh = 0 then
            let endAddr := u32 (e.addrLow + e.lenLow)
            if endAddr > maxAddr then endAddr else maxAddr
          else maxAddr) m < 4294967296 := by
    intro es
    induction es with
    | nil => exact fun m hm => hm
    | cons e es ih =>
      intro m hm
      have hend := u32_lt (e.addrLow + e.lenLow)
      refine ih _ ?_
      dsimp only
      split
      · split
        · exact hend
        · exact hm
      · exact hm
  exact hstep es 0 (by omega)

theorem foldl_drop_params (s : Pmm) (ps : List Nat) :
    (ps.foldl Pmm.drop s).totalPages = s.totalPages ∧
      (ps.foldl Pmm.drop s).pmmStartAddr = s.pmmStartAddr := by
  induction ps generalizing s with
  | nil => exact ⟨rfl, rfl⟩
  | cons p ps ih => exact ih (s.drop p)

theorem foldl_mmapEntryFree_params (s : Pmm) (es : List MmapEntry) :
    (es.foldl mmapEntryFree s).totalPages = s.totalPages ∧
      (es.foldl mmapEntryFree s).pmmStartAddr = s.pmmStartAddr := by
  induction es generalizing s with
  | nil => exact ⟨rfl, rfl⟩
  | cons e es ih =>
    have hone : (mmapEntryFree s e).totalPages = s.totalPages ∧
        (mmapEntryFree s e).pmmStartAddr = s.pmmStartAddr := by
      unfold mmapEntryFree
      dsimp only
      generalize (if e.addrLow < s.pmmStartAddr then s.pmmStartAddr else e.addrLow) = start
      split
      · split
        · exact foldl_drop_params s _
        · exact ⟨rfl, rfl⟩
      · exact ⟨rfl, rfl⟩
    obtain ⟨h1, h2⟩ := ih (mmapEntryFree s e)
    exact ⟨h1.trans hone.1, h2.trans hone.2⟩

/-- `pmm_init` leaves room for every page below 4 GB, and an allocation area that does
    not start at address 0. -/
theorem pmmInit_ready {kernelEnd : Nat} (hlo : 0x100000 ≤ kernelEnd) (hhi : kernelEnd ≤ 0xFFF00000)
    (mem : Nat → BitVec 32) (memSizeKb : Nat) (mmap : Option (List MmapEntry)) :
    (pmmInit kernelEnd mem memSizeKb mmap).Ready := by
  have hstart : ∀ n, n ≤ 131072 →
      alignUp (u32 (alignUp kernelEnd 4096 + n)) pageSize % 4096 = 0 ∧
      0 < alignUp (u32 (alignUp kernelEnd 4096 + n)) pageSize ∧
      alignUp (u32 (alignUp kernelEnd 4096 + n)) pageSize < 4294967296 := by
    intro n hn
    have h1 := le_alignUp (x := kernelEnd) (k := 12) (by omega) (by omega)
    have h2 := alignUp_lt (x := kernelEnd) (k := 12) (by omega) (by omega)
    have hpow : (2 : Nat) ^ 12 = 4096 := rfl
    rw [hpow] at h1 h2
    have hsum : u32 (alignUp kernelEnd 4096 + n) = alignUp kernelEnd 4096 + n :=
      u32_of_lt (by omega)
    rw [hsum]
    have h3 := le_alignUp (x := alignUp kernelEnd 4096 + n) (k := 12) (by omega) (by omega)
    have h4 := alignUp_lt (x := alignUp kernelEnd 4096 + n) (k := 12) (by omega) (by omega)
    have h5 := alignUp_dvd (x := alignUp kernelEnd 4096 + n) (k := 12) (by omega) (by omega)
    rw [hpow] at h3 h4 h5
    exact ⟨Nat.mod_eq_zero_of_dvd h5, by unfold pageSize; omega, by unfold pageSize; omega⟩
  unfold pmmInit
  cases mmap with
  | none =>
    dsimp only
    generalize ht : u32 ((if memSizeKb = 0 then 128 * 1024 else memSizeKb) * 1024) / pageSize = t
    have hle : t ≤ 1048576 := by
      have : u32 ((if memSizeKb = 0 then 128 * 1024 else memSizeKb) * 1024) < 4294967296 :=
        Nat.mod_lt _ (by omega)
      rw [← ht]
      unfold pageSize
      omega
    obtain ⟨h1, h2, h3⟩ := hstart ((t + 7) / 8) (by omega)
    obtain ⟨h4, h5⟩ := foldl_drop_params
      ⟨bitmapFill mem ((t + 7) / 8), t, t, alignUp (u32 (alignUp kernelEnd 4096 + (t + 7) / 8)) pageSize⟩
      (List.range' (alignUp (u32 (alignUp kernelEnd 4096 + (t + 7) / 8)) pageSize / pageSize)
        (t - alignUp (u32 (alignUp kernelEnd 4096 + (t + 7) / 8)) pageSize / pageSize))
    exact ⟨by rw [h5]; exact h1, by rw [h5]; exact h2, by rw [h5]; exact h3, by rw [h4]; exact hle⟩
  | some es =>
    dsimp only
    generalize ht : (if mmapMaxAddr es > 0 then mmapMaxAddr es / pageSize
      else u32 (memSizeKb * 1024) / pageSize) = t
    have hle : t ≤ 1048576 := by
      have h1 := mmapMaxAddr_lt es
      have h2 := u32_lt (memSizeKb * 1024)
      rw [← ht]
      unfold pageSize
      split <;> omega
    obtain ⟨h1, h2, h3⟩ := hstart ((t + 7) / 8) (by omega)
    obtain ⟨h4, h5⟩ := foldl_mmapEntryFree_params
      ⟨bitmapFill mem ((t + 7) / 8), t, t, alignUp (u32 (alignUp kernelEnd 4096 + (t + 7) / 8)) pageSize⟩ es
    exact ⟨by rw [h5]; exact h1, by rw [h5]; exact h2, by rw [h5]; exact h3, by rw [h4]; exact hle⟩

/-- **The page allocator keeps its books.**  From any state after `pmm_init` whose
    counter is right, over any sequence of allocations and frees of ranges returned
    before. -/
theorem pmm_books {kernelEnd : Nat} (hlo : 0x100000 ≤ kernelEnd) (hhi : kernelEnd ≤ 0xFFF00000)
    {mem : Nat → BitVec 32} {memSizeKb : Nat} {mmap : Option (List MmapEntry)}
    (hc : (pmmInit kernelEnd mem memSizeKb mmap).Counted) {s : Pmm}
    {returned live : List (Nat × Nat)}
    (h : PmmReach (pmmInit kernelEnd mem memSizeKb mmap) s returned live) :
    s.usedPages = s.setBits ∧ (∀ r ∈ live, LiveRange s r) ∧ live.Pairwise RangeDisjoint ∧
    ∀ count, 0 < count → count ≤ s.totalPages →
      AllocOk s live count 1 (pmmAllocPages s count).1 ∧
      ∀ j, j < 32 → AllocOk s live count (2 ^ j) (pmmAllocPagesAligned s count (2 ^ j)).1 := by
  have hi := h.inv (pmmInit_ready hlo hhi mem memSizeKb mmap) hc
  refine ⟨hi.counted, hi.inUse, hi.disjoint, fun count hpos hle => ⟨?_, fun j hj => ?_⟩⟩
  · exact (pmmAllocPages_spec hi.ready hpos).allocOk hi hpos
  · exact (pmmAllocPagesAligned_spec hi.ready hpos hle hj).allocOk hi hpos

/-- A machine with 258 pages, the kernel at 1 MB: page 257 is the only free one, and one
    allocation takes it. -/
theorem pmm_books_one_page :
    let s₀ := pmmInit 0x100000 (fun _ => 0#32) 1032 none
    let s := (pmmAllocPages s₀ 1).2
    (pmmAllocPages s₀ 1).1 = 0x101000 ∧ s.usedPages = 258 ∧ s.usedPages = s.setBits ∧
      (pmmAllocPages s 1).1 = 0 := by
  have hc : (pmmInit 0x100000 (fun _ => 0#32) 1032 none).Counted := by decide +kernel
  have hle : 1 ≤ (pmmInit 0x100000 (fun _ => 0#32) 1032 none).totalPages := by decide +kernel
  have hreach := PmmReach.alloc PmmReach.init Nat.one_pos hle
  exact ⟨by decide +kernel, by decide +kernel,
    (pmm_books (by decide) (by decide) hc hreach).1, by decide +kernel⟩

end Gemios
