import Gemios.PmmSpec
import Mathlib.Data.List.Nodup
import Mathlib.Data.List.Pairwise

/-!
# Which pages `pmm_init` frees

The memory map names regions by 64-bit bases and lengths, and `pmm_init` works with the low
halves of them.  The pages it frees are one list, entry by entry; the counter is lowered once
for each element of the list and the bitmap once for each page.
-/

namespace Gemios

/-! ### The memory map -/

/-- An entry of the memory map, as the boot loader means it. -/
structure MmapRegion where
  base : Nat
  len : Nat
  type : Nat
deriving DecidableEq

namespace MmapRegion

/-- The entry in memory: `addr_low`, `addr_high` and `len_low`. -/
def entry (r : MmapRegion) : MmapEntry where
  addrLow := u32 r.base
  addrHigh := r.base / 4294967296
  lenLow := u32 r.len
  type := r.type

/-- Page `p` lies wholly inside a region of usable memory. -/
def Covers (r : MmapRegion) (p : Nat) : Prop :=
  r.type = 1 ∧ r.base ≤ p * pageSize ∧ (p + 1) * pageSize ≤ r.base + r.len

instance (r : MmapRegion) (p : Nat) : Decidable (r.Covers p) := inferInstanceAs (Decidable (_ ∧ _))

end MmapRegion

/-! ### The list of pages -/

/-- The pages that `pmm_init` frees for one entry. -/
def entryPages (startAddr totalPages : Nat) (e : MmapEntry) : List Nat :=
  let start := if e.addrLow < startAddr then startAddr else e.addrLow
  let endAddr := u32 (e.addrLow + e.lenLow)
  if e.type = 1 ∧ e.addrHigh = 0 ∧ start < endAddr then
    List.range' (start / pageSize)
      ((if endAddr / pageSize > totalPages then totalPages else endAddr / pageSize) -
        start / pageSize)
  else []

theorem mmapEntryFree_eq (s : Pmm) (e : MmapEntry) :
    mmapEntryFree s e = (entryPages s.pmmStartAddr s.totalPages e).foldl Pmm.drop s := by
  unfold mmapEntryFree entryPages
  by_cases hlow : e.type = 1 ∧ e.addrHigh = 0
  · by_cases hstart : (if e.addrLow < s.pmmStartAddr then s.pmmStartAddr else e.addrLow) <
        u32 (e.addrLow + e.lenLow)
    · simp [hlow, hstart]
    · simp [hlow, hstart]
  · rw [if_neg hlow, if_neg fun h => hlow ⟨h.1, h.2.1⟩]
    rfl

theorem foldl_mmapEntryFree_eq (s : Pmm) (es : List MmapEntry) :
    es.foldl mmapEntryFree s =
      (es.flatMap (entryPages s.pmmStartAddr s.totalPages)).foldl Pmm.drop s := by
  induction es generalizing s with
  | nil => rfl
  | cons e es ih =>
    obtain ⟨htotal, hstart⟩ := foldl_drop_params s (entryPages s.pmmStartAddr s.totalPages e)
    rw [List.foldl_cons, ih, List.flatMap_cons, List.foldl_append, mmapEntryFree_eq, htotal, hstart]

theorem test_foldl_drop (s : Pmm) (ps : List Nat) (q : Nat) :
    (ps.foldl Pmm.drop s).test q = (!decide (q ∈ ps) && s.test q) := by
  induction ps generalizing s with
  | nil => simp
  | cons p ps ih =>
    rw [List.foldl_cons, ih, Pmm.test_drop, ← Bool.and_assoc, ← Bool.not_or, ← Bool.decide_or]
    congr 2
    rw [decide_eq_decide]
    simp [eq_comm, or_comm]

theorem usedPages_foldl_drop (s : Pmm) (hs : s.usedPages < 4294967296) (ps : List Nat) :
    (ps.foldl Pmm.drop s).usedPages = u32 (s.usedPages + ps.length * 4294967295) := by
  induction ps generalizing s with
  | nil => simp [u32_of_lt hs]
  | cons p ps ih =>
    have hused : (s.drop p).usedPages = u32 (s.usedPages + 4294967295) := rfl
    rw [List.foldl_cons, ih (s.drop p) (Nat.mod_lt _ (by decide)), hused, List.length_cons]
    unfold u32
    omega

theorem length_eq_card_toFinset (l : List Nat) : l.length = l.toFinset.card ↔ l.Nodup := by
  constructor
  · intro h
    rw [List.card_toFinset] at h
    rw [← List.dedup_eq_self]
    exact (List.dedup_sublist l).eq_of_length h.symm
  · intro h
    exact (List.toFinset_card_of_nodup h).symm

theorem counted_foldl_drop {s : Pmm} (hused : s.usedPages = s.totalPages)
    (hmax : s.totalPages < 4294967296) (hset : ∀ q, q < s.totalPages → s.test q = true)
    {ps : List Nat} (hps : ∀ p ∈ ps, p < s.totalPages) (hlen : ps.length < 4294967296) :
    (ps.foldl Pmm.drop s).Counted ↔ ps.Nodup := by
  have htotal := (foldl_drop_params s ps).1
  have hclear : (Finset.range s.totalPages).filter (fun q => (ps.foldl Pmm.drop s).test q = true) =
      Finset.range s.totalPages \ ps.toFinset := by
    ext q
    rw [Finset.mem_filter, Finset.mem_sdiff, List.mem_toFinset, Finset.mem_range, test_foldl_drop]
    constructor
    · rintro ⟨hq, h⟩
      simp at h
      exact ⟨hq, h.1⟩
    · rintro ⟨hq, h⟩
      simp [hq, h, hset q hq]
  have hsub : ps.toFinset ⊆ Finset.range s.totalPages := by
    intro p hp
    exact Finset.mem_range.mpr (hps p (List.mem_toFinset.mp hp))
  have hcard := Finset.card_le_card hsub
  have hle := List.toFinset_card_le ps
  rw [Finset.card_range] at hcard
  rw [← length_eq_card_toFinset, Pmm.Counted, Pmm.setBits, htotal, hclear,
    Finset.card_sdiff_of_subset hsub, Finset.card_range,
    usedPages_foldl_drop s (by omega) ps, hused]
  unfold u32
  omega

/-! ### The state before the first entry -/

theorem bitmapTest_bitmapFill (w : Nat → BitVec 32) {n q : Nat} (hq : q < 8 * n) :
    bitmapTest (bitmapFill w n) q = true := by
  rw [bitmapTest_eq, bitmapFill]
  have hbit : q % 32 < 32 := Nat.mod_lt _ (by decide)
  by_cases hfull : 4 * (q / 32) + 4 ≤ n
  · rw [if_pos hfull, BitVec.getLsbD_allOnes]
    simpa using hbit
  · -- the last word, of which some bytes are written
    have hpart : 4 * (q / 32) < n := by omega
    rw [if_neg hfull, if_pos hpart, BitVec.getLsbD_or]
    have hk : 8 * (n - 4 * (q / 32)) < 32 := by omega
    have hlt : q % 32 < 8 * (n - 4 * (q / 32)) := by omega
    generalize 8 * (n - 4 * (q / 32)) = k at hk hlt
    have hone : (1#32 <<< k - 1#32).toNat = 2 ^ k - 1 := by
      have hpow : 2 ^ k < 2 ^ 32 := Nat.pow_lt_pow_right (by decide) hk
      have hpos := Nat.two_pow_pos k
      rw [← BitVec.twoPow_eq, BitVec.toNat_sub, BitVec.toNat_twoPow_of_lt hk]
      simp only [BitVec.toNat_ofNat]
      omega
    have htest : (1#32 <<< k - 1#32).getLsbD (q % 32) = true := by
      rw [BitVec.getLsbD, hone, Nat.testBit_two_pow_sub_one]
      simpa using hlt
    rw [htest, Bool.or_true]

/-- The number of pages that `pmm_init` counts with a memory map. -/
def mmapPages (memSizeKb : Nat) (es : List MmapEntry) : Nat :=
  if mmapMaxAddr es > 0 then mmapMaxAddr es / pageSize else u32 (memSizeKb * 1024) / pageSize

theorem mmapPages_lt (memSizeKb : Nat) (es : List MmapEntry) : mmapPages memSizeKb es < 1048576 := by
  have hmap := mmapMaxAddr_lt es
  have hmem := u32_lt (memSizeKb * 1024)
  unfold mmapPages pageSize
  split <;> omega

/-- `pmm_start_addr`: the first page behind the kernel and the bitmap of `totalPages` bits. -/
def bitmapEnd (kernelEnd totalPages : Nat) : Nat :=
  alignUp (u32 (alignUp kernelEnd 4096 + (totalPages + 7) / 8)) pageSize

def pmmReserved (kernelEnd : Nat) (mem : Nat → BitVec 32) (totalPages : Nat) : Pmm where
  pmmBitmap := bitmapFill mem ((totalPages + 7) / 8)
  totalPages := totalPages
  usedPages := totalPages
  pmmStartAddr := alignUp (u32 (alignUp kernelEnd 4096 + (totalPages + 7) / 8)) pageSize

theorem pmmInit_some (kernelEnd : Nat) (mem : Nat → BitVec 32) (memSizeKb : Nat)
    (es : List MmapEntry) :
    pmmInit kernelEnd mem memSizeKb (some es) =
      (es.flatMap (entryPages (pmmReserved kernelEnd mem (mmapPages memSizeKb es)).pmmStartAddr
        (mmapPages memSizeKb es))).foldl Pmm.drop
          (pmmReserved kernelEnd mem (mmapPages memSizeKb es)) :=
  foldl_mmapEntryFree_eq (pmmReserved kernelEnd mem (mmapPages memSizeKb es)) es

theorem test_pmmReserved {kernelEnd : Nat} {mem : Nat → BitVec 32} {totalPages q : Nat}
    (hq : q < totalPages) : (pmmReserved kernelEnd mem totalPages).test q = true :=
  bitmapTest_bitmapFill mem (by omega)

theorem pmmReserved_start (kernelEnd : Nat) (mem : Nat → BitVec 32) (totalPages : Nat) :
    (pmmReserved kernelEnd mem totalPages).pmmStartAddr % pageSize = 0 := by
  have hmask : ∀ x, alignUp x 4096 = u32 (x + 4096 - 1) / 2 ^ 12 * 2 ^ 12 := fun x =>
    land_two_pow_sub (k := 12) (Nat.mod_lt _ (by decide)) (by decide)
  exact (congrArg (· % 4096) (hmask _)).trans (Nat.mul_mod_left _ _)

/-! ### The pages of one region -/

theorem le_mmapMaxAddr {es : List MmapEntry} {e : MmapEntry} (he : e ∈ es) (htype : e.type = 1)
    (hhigh : e.addrHigh = 0) : u32 (e.addrLow + e.lenLow) ≤ mmapMaxAddr es := by
  have hstep : ∀ (es : List MmapEntry) (m : Nat),
      m ≤ es.foldl
        (fun maxAddr e =>
          if e.type = 1 ∧ e.addrHigh = 0 then
            let endAddr := u32 (e.addrLow + e.lenLow)
            if endAddr > maxAddr then endAddr else maxAddr
          else maxAddr) m ∧
      ∀ e ∈ es, e.type = 1 → e.addrHigh = 0 → u32 (e.addrLow + e.lenLow) ≤ es.foldl
        (fun maxAddr e =>
          if e.type = 1 ∧ e.addrHigh = 0 then
            let endAddr := u32 (e.addrLow + e.lenLow)
            if endAddr > maxAddr then endAddr else maxAddr
          else maxAddr) m := by
    intro es
    induction es with
    | nil => simp
    | cons d es ih =>
      intro m
      rw [List.foldl_cons]
      generalize hnext : (if d.type = 1 ∧ d.addrHigh = 0 then
          let endAddr := u32 (d.addrLow + d.lenLow)
          if endAddr > m then endAddr else m
        else m) = m'
      obtain ⟨hle, hall⟩ := ih m'
      have hm : m ≤ m' := by
        rw [← hnext]
        dsimp only
        split
        · split <;> omega
        · omega
      refine ⟨Nat.le_trans hm hle, ?_⟩
      intro e he htype hhigh
      rcases List.mem_cons.mp he with rfl | he
      · refine Nat.le_trans ?_ hle
        rw [← hnext, if_pos ⟨htype, hhigh⟩]
        dsimp only
        split <;> omega
      · exact hall e he htype hhigh
  exact (hstep es 0).2 e he htype hhigh

theorem mem_entryPages {startAddr totalPages p : Nat} {e : MmapEntry} :
    p ∈ entryPages startAddr totalPages e ↔
      e.type = 1 ∧ e.addrHigh = 0 ∧ e.addrLow / pageSize ≤ p ∧ startAddr / pageSize ≤ p ∧
        p < u32 (e.addrLow + e.lenLow) / pageSize ∧ p < totalPages := by
  unfold entryPages pageSize
  by_cases hlow : e.type = 1 ∧ e.addrHigh = 0
  · by_cases hstart : (if e.addrLow < startAddr then startAddr else e.addrLow) <
        u32 (e.addrLow + e.lenLow)
    · simp only [hlow, hstart, and_self, if_true, List.mem_range'_1, true_and]
      split <;> split <;> omega
    · simp only [hlow, hstart, and_false, if_false, List.not_mem_nil, true_and, false_iff]
      split at hstart <;> omega
  · simp only [← and_assoc, hlow, false_and, if_false, List.not_mem_nil]

section

variable {regions : List MmapRegion} {r r' : MmapRegion} {startAddr totalPages p : Nat}

def lastPage : Nat := 1048575

theorem mem_entryPages_region (hlast : ¬ r.Covers lastPage) (htotal : totalPages < 1048576) :
    p ∈ entryPages startAddr totalPages r.entry ↔
      r.type = 1 ∧ r.base / pageSize ≤ p ∧ startAddr / pageSize ≤ p ∧
        (p + 1) * pageSize ≤ r.base + r.len ∧ p < totalPages := by
  rw [mem_entryPages]
  unfold MmapRegion.Covers lastPage pageSize at hlast
  unfold MmapRegion.entry u32 pageSize
  dsimp only
  by_cases htype : r.type = 1
  · simp only [htype, true_and] at hlast ⊢
    omega
  · simp [htype]

theorem lt_mmapPages (hlast : ¬ r.Covers lastPage) (hr : r ∈ regions) (htype : r.type = 1)
    (hbase : r.base / pageSize ≤ p) (hp : p < lastPage) (hend : (p + 1) * pageSize ≤ r.base + r.len)
    (memSizeKb : Nat) : p < mmapPages memSizeKb (regions.map MmapRegion.entry) := by
  unfold MmapRegion.Covers at hlast
  unfold lastPage pageSize at *
  simp only [htype, true_and] at hlast
  have hmem : r.entry ∈ regions.map MmapRegion.entry := List.mem_map_of_mem hr
  have hmax := le_mmapMaxAddr hmem htype (by unfold MmapRegion.entry; dsimp only; omega)
  unfold mmapPages pageSize
  generalize mmapMaxAddr (regions.map MmapRegion.entry) = maxAddr at hmax ⊢
  unfold MmapRegion.entry u32 at hmax
  dsimp only at hmax
  rw [if_pos (by omega)]
  omega

theorem MmapRegion.Covers.counted (h : r.Covers p) (hlast : ¬ r.Covers lastPage) (hr : r ∈ regions)
    (hp : p < 1048576) (memSizeKb : Nat) :
    p < mmapPages memSizeKb (regions.map MmapRegion.entry) := by
  have hne : p ≠ lastPage := by
    rintro rfl
    exact hlast h
  obtain ⟨htype, hlow, hhigh⟩ := h
  apply lt_mmapPages hlast hr htype _ _ hhigh
  · unfold pageSize at hlow ⊢
    omega
  · unfold lastPage at hne ⊢
    omega

/-! ### The condition -/

/-- What `pmm_init` is for: a page is free when it lies wholly inside usable memory
    from `pmm_start_addr` on, every such page below 4 GB is counted, and the counter is right. -/
structure FreesUsable (regions : List MmapRegion) (s : Pmm) : Prop where
  free : ∀ p, p < s.totalPages →
    (s.test p = false ↔ s.pmmStartAddr ≤ p * pageSize ∧ ∃ r ∈ regions, r.Covers p)
  counted : ∀ r ∈ regions, ∀ p, p < 1048576 → r.Covers p → p < s.totalPages
  used : s.Counted

/-- No usable region reaches up to 4 GB; one that starts inside a page from `startAddr` on ends
    in that page; and no two have a page from `startAddr` on in common. -/
structure PlainMap (startAddr : Nat) (regions : List MmapRegion) : Prop where
  below : ∀ r ∈ regions, ¬ r.Covers lastPage
  aligned : ∀ r ∈ regions, r.type = 1 → startAddr ≤ r.base → r.base / pageSize < lastPage →
    r.base % pageSize = 0 ∨ r.base + r.len < (r.base / pageSize + 1) * pageSize
  apart : regions.Pairwise fun r r' => ∀ p, p < 1048576 → startAddr ≤ p * pageSize →
    ¬ (r.Covers p ∧ r'.Covers p)

theorem freesUsable_iff (kernelEnd : Nat) (mem : Nat → BitVec 32) (memSizeKb : Nat)
    (regions : List MmapRegion) {start : Nat}
    (hstart : (pmmReserved kernelEnd mem
      (mmapPages memSizeKb (regions.map MmapRegion.entry))).pmmStartAddr = start)
    {ps : List Nat}
    (hps : (regions.map MmapRegion.entry).flatMap
      (entryPages start (mmapPages memSizeKb (regions.map MmapRegion.entry))) = ps) :
    (pmmInit kernelEnd mem memSizeKb (some (regions.map MmapRegion.entry))).pmmStartAddr = start ∧
      (pmmInit kernelEnd mem memSizeKb (some (regions.map MmapRegion.entry))).totalPages =
        mmapPages memSizeKb (regions.map MmapRegion.entry) ∧
      (∀ p, p < mmapPages memSizeKb (regions.map MmapRegion.entry) →
        ((pmmInit kernelEnd mem memSizeKb (some (regions.map MmapRegion.entry))).test p = false ↔
          p ∈ ps)) ∧
      (ps.length < 4294967296 →
        ((pmmInit kernelEnd mem memSizeKb (some (regions.map MmapRegion.entry))).Counted ↔
          ps.Nodup)) := by
  have hlt := mmapPages_lt memSizeKb (regions.map MmapRegion.entry)
  rw [pmmInit_some, hstart, hps]
  obtain ⟨htotal, hsame⟩ := foldl_drop_params
    (pmmReserved kernelEnd mem (mmapPages memSizeKb (regions.map MmapRegion.entry))) ps
  refine ⟨hsame.trans hstart, htotal, ?_, ?_⟩
  · intro p hp
    rw [test_foldl_drop, test_pmmReserved hp]
    simp
  · intro hlen
    refine counted_foldl_drop rfl (Nat.lt_trans hlt (by decide)) ?_ ?_ hlen
    · intro q hq
      exact test_pmmReserved hq
    · intro p hp
      rw [← hps, List.mem_flatMap] at hp
      obtain ⟨e, _, he⟩ := hp
      exact (mem_entryPages.mp he).2.2.2.2.2

theorem MmapRegion.Covers.freed (hlast : ¬ r.Covers lastPage) (htotal : totalPages < 1048576)
    (h : r.Covers p) (hstart : startAddr ≤ p * pageSize) (hp : p < totalPages) :
    p ∈ entryPages startAddr totalPages r.entry := by
  rw [mem_entryPages_region hlast htotal]
  obtain ⟨htype, hlow, hhigh⟩ := h
  refine ⟨htype, ?_, ?_, hhigh, hp⟩
  · unfold pageSize at hlow ⊢
    omega
  · unfold pageSize at hstart ⊢
    omega

theorem covers_of_mem_entryPages (hlast : ¬ r.Covers lastPage) (htotal : totalPages < 1048576)
    (hpage : startAddr % pageSize = 0) (hp : p ∈ entryPages startAddr totalPages r.entry)
    (haligned : r.type = 1 → startAddr ≤ r.base → r.base / pageSize < lastPage →
      r.base % pageSize = 0 ∨ r.base + r.len < (r.base / pageSize + 1) * pageSize) :
    startAddr ≤ p * pageSize ∧ r.Covers p := by
  rw [mem_entryPages_region hlast htotal] at hp
  obtain ⟨htype, hbase, hstart, hend, hlt⟩ := hp
  have hinside := haligned htype
  unfold MmapRegion.Covers
  unfold lastPage pageSize at *
  refine ⟨by omega, htype, ?_, hend⟩
  by_cases hle : startAddr ≤ r.base
  · have hcase := hinside hle (by omega)
    omega
  · omega

theorem nodup_entryPages (e : MmapEntry) : (entryPages startAddr totalPages e).Nodup := by
  unfold entryPages
  dsimp only
  generalize (if e.addrLow < startAddr then startAddr else e.addrLow) = start
  split
  · exact List.nodup_range' 1
  · exact List.nodup_nil

theorem length_entryPages_le (e : MmapEntry) :
    (entryPages startAddr totalPages e).length ≤ totalPages := by
  unfold entryPages
  dsimp only
  generalize (if e.addrLow < startAddr then startAddr else e.addrLow) = start
  split
  · rw [List.length_range']
    generalize start / pageSize = q
    split <;> omega
  · exact Nat.zero_le _

theorem nodup_pages_iff :
    ((regions.map MmapRegion.entry).flatMap (entryPages startAddr totalPages)).Nodup ↔
      regions.Pairwise fun r r' => ∀ p, p ∈ entryPages startAddr totalPages r.entry →
        p ∉ entryPages startAddr totalPages r'.entry := by
  rw [List.nodup_flatMap, List.pairwise_map]
  constructor
  · rintro ⟨_, h⟩
    exact h
  · intro h
    exact ⟨fun e _ => nodup_entryPages e, h⟩

theorem length_pages_le :
    ((regions.map MmapRegion.entry).flatMap (entryPages startAddr totalPages)).length ≤
      regions.length * totalPages := by
  induction regions with
  | nil => simp
  | cons r regions ih =>
    have hone : (entryPages startAddr totalPages r.entry).length ≤ totalPages :=
      length_entryPages_le r.entry
    rw [List.map_cons, List.flatMap_cons, List.length_append, List.length_cons, Nat.succ_mul]
    omega

theorem mem_pages_iff :
    p ∈ (regions.map MmapRegion.entry).flatMap (entryPages startAddr totalPages) ↔
      ∃ r ∈ regions, p ∈ entryPages startAddr totalPages r.entry := by
  simp

theorem PlainMap.freesUsable (kernelEnd : Nat) (mem : Nat → BitVec 32) (memSizeKb : Nat)
    (h : PlainMap (pmmInit kernelEnd mem memSizeKb
      (some (regions.map MmapRegion.entry))).pmmStartAddr regions) :
    FreesUsable regions (pmmInit kernelEnd mem memSizeKb (some (regions.map MmapRegion.entry))) := by
  obtain ⟨hstart, htotal, htest, hcount⟩ := freesUsable_iff kernelEnd mem memSizeKb regions rfl rfl
  have hlt := mmapPages_lt memSizeKb (regions.map MmapRegion.entry)
  have hpage := pmmReserved_start kernelEnd mem (mmapPages memSizeKb (regions.map MmapRegion.entry))
  rw [← hstart] at htest hcount hpage
  have hcovers : ∀ r ∈ regions, ∀ p,
      p ∈ entryPages (pmmInit kernelEnd mem memSizeKb
        (some (regions.map MmapRegion.entry))).pmmStartAddr
        (mmapPages memSizeKb (regions.map MmapRegion.entry)) r.entry →
      (pmmInit kernelEnd mem memSizeKb (some (regions.map MmapRegion.entry))).pmmStartAddr ≤
        p * pageSize ∧ r.Covers p := by
    intro r hr p hp
    exact covers_of_mem_entryPages (h.below r hr) hlt hpage hp (h.aligned r hr)
  refine ⟨?_, ?_, ?_⟩
  · intro p hp
    rw [htotal] at hp
    rw [htest p hp, mem_pages_iff]
    constructor
    · rintro ⟨r, hr, hmem⟩
      obtain ⟨hle, hin⟩ := hcovers r hr p hmem
      exact ⟨hle, r, hr, hin⟩
    · rintro ⟨hle, r, hr, hin⟩
      exact ⟨r, hr, hin.freed (h.below r hr) hlt hle hp⟩
  · intro r hr p hp hin
    rw [htotal]
    exact hin.counted (h.below r hr) hr hp memSizeKb
  · have hnodup : ((regions.map MmapRegion.entry).flatMap
        (entryPages (pmmInit kernelEnd mem memSizeKb
          (some (regions.map MmapRegion.entry))).pmmStartAddr
          (mmapPages memSizeKb (regions.map MmapRegion.entry)))).Nodup := by
      rw [nodup_pages_iff]
      refine h.apart.imp_of_mem ?_
      intro r r' hr hr' hapart p hp hp'
      obtain ⟨hle, hin⟩ := hcovers r hr p hp
      obtain ⟨_, hin'⟩ := hcovers r' hr' p hp'
      have hbound := (mem_entryPages.mp hp).2.2.2.2.2
      exact hapart p (Nat.lt_trans hbound hlt) hle ⟨hin, hin'⟩
    refine (hcount ?_).mpr hnodup
    rw [(length_eq_card_toFinset _).mpr hnodup]
    have hsub : ((regions.map MmapRegion.entry).flatMap
        (entryPages (pmmInit kernelEnd mem memSizeKb
          (some (regions.map MmapRegion.entry))).pmmStartAddr
          (mmapPages memSizeKb (regions.map MmapRegion.entry)))).toFinset ⊆
        Finset.range (mmapPages memSizeKb (regions.map MmapRegion.entry)) := by
      intro p hp
      rw [List.mem_toFinset, mem_pages_iff] at hp
      obtain ⟨r, _, hmem⟩ := hp
      exact Finset.mem_range.mpr (mem_entryPages.mp hmem).2.2.2.2.2
    have hcard := Finset.card_le_card hsub
    rw [Finset.card_range] at hcard
    omega

theorem FreesUsable.plainMap {kernelEnd : Nat} {mem : Nat → BitVec 32} {memSizeKb : Nat}
    (hlen : regions.length < 4096)
    (h : FreesUsable regions
      (pmmInit kernelEnd mem memSizeKb (some (regions.map MmapRegion.entry)))) :
    PlainMap (pmmInit kernelEnd mem memSizeKb
      (some (regions.map MmapRegion.entry))).pmmStartAddr regions := by
  obtain ⟨hstart, htotal, htest, hcount⟩ := freesUsable_iff kernelEnd mem memSizeKb regions rfl rfl
  have hlt := mmapPages_lt memSizeKb (regions.map MmapRegion.entry)
  have hpage := pmmReserved_start kernelEnd mem (mmapPages memSizeKb (regions.map MmapRegion.entry))
  rw [← hstart] at htest hcount hpage
  generalize hS : (pmmInit kernelEnd mem memSizeKb
    (some (regions.map MmapRegion.entry))).pmmStartAddr = S at *
  have hlast : ∀ r ∈ regions, ¬ r.Covers lastPage := by
    intro r hr hin
    have hbound := h.counted r hr lastPage (by decide) hin
    rw [htotal] at hbound
    unfold lastPage at hbound
    omega
  have hpages : ((regions.map MmapRegion.entry).flatMap
      (entryPages S (mmapPages memSizeKb (regions.map MmapRegion.entry)))).length ≤
        regions.length * mmapPages memSizeKb (regions.map MmapRegion.entry) := length_pages_le
  have hprod : regions.length * mmapPages memSizeKb (regions.map MmapRegion.entry) ≤
      4095 * 1048575 := Nat.mul_le_mul (by omega) (by omega)
  have hpair := nodup_pages_iff.mp ((hcount (by omega)).mp h.used)
  refine ⟨hlast, ?_, ?_⟩
  · intro r hr htype hle hbelow
    by_contra hinside
    -- The page that the region starts in is freed.
    have hend : (r.base / pageSize + 1) * pageSize ≤ r.base + r.len := by omega
    have hbound := lt_mmapPages (hlast r hr) hr htype (Nat.le_refl _) hbelow hend memSizeKb
    have hfreed : r.base / pageSize ∈
        entryPages S (mmapPages memSizeKb (regions.map MmapRegion.entry)) r.entry := by
      rw [mem_entryPages_region (hlast r hr) hlt]
      exact ⟨htype, Nat.le_refl _, Nat.div_le_div_right hle, hend, hbound⟩
    have hclear := (htest _ hbound).mpr (mem_pages_iff.mpr ⟨r, hr, hfreed⟩)
    obtain ⟨hle', r', hr', hin⟩ := (h.free _ (by rw [htotal]; exact hbound)).mp hclear
    rw [hS] at hle'
    -- A region that has all of this page is another one.
    have hne : r ≠ r' := by
      rintro rfl
      have hlow := hin.2.1
      unfold pageSize at hlow hinside
      omega
    have hsymm : Std.Symm fun r r' : MmapRegion => ∀ p,
        p ∈ entryPages S (mmapPages memSizeKb (regions.map MmapRegion.entry)) r.entry →
          p ∉ entryPages S (mmapPages memSizeKb (regions.map MmapRegion.entry)) r'.entry := by
      constructor
      intro x y hxy p hp hp'
      exact hxy p hp' hp
    have hapart := hpair.forall hr hr' hne
    exact hapart _ hfreed (hin.freed (hlast r' hr') hlt hle' hbound)
  · refine hpair.imp_of_mem ?_
    intro r r' hr hr' hapart p hp hle hboth
    have hbound := hboth.1.counted (hlast r hr) hr hp memSizeKb
    exact hapart p (hboth.1.freed (hlast r hr) hlt hle hbound)
      (hboth.2.freed (hlast r' hr') hlt hle hbound)

theorem pmmInit_start (kernelEnd : Nat) (mem : Nat → BitVec 32) (memSizeKb : Nat)
    (regions : List MmapRegion) :
    (pmmInit kernelEnd mem memSizeKb (some (regions.map MmapRegion.entry))).pmmStartAddr =
      bitmapEnd kernelEnd (mmapPages memSizeKb (regions.map MmapRegion.entry)) :=
  (freesUsable_iff kernelEnd mem memSizeKb regions rfl rfl).1

/-- **`pmm_init` frees exactly the usable memory** of a plain memory map, and of no other map of
    fewer than 4096 entries: with more, the counter can come round to the right value. -/
theorem pmm_init_exact_iff (kernelEnd : Nat) (mem : Nat → BitVec 32) (memSizeKb : Nat)
    (regions : List MmapRegion) :
    (PlainMap (bitmapEnd kernelEnd (mmapPages memSizeKb (regions.map MmapRegion.entry))) regions →
      FreesUsable regions
        (pmmInit kernelEnd mem memSizeKb (some (regions.map MmapRegion.entry)))) ∧
    (regions.length < 4096 →
      FreesUsable regions
        (pmmInit kernelEnd mem memSizeKb (some (regions.map MmapRegion.entry))) →
      PlainMap (bitmapEnd kernelEnd (mmapPages memSizeKb (regions.map MmapRegion.entry)))
        regions) := by
  rw [← pmmInit_start kernelEnd mem memSizeKb regions]
  constructor
  · intro h
    exact h.freesUsable kernelEnd mem memSizeKb
  · intro hlen h
    exact h.plainMap hlen

end

/-- 2 pages from 2 MB on, and a reserved region below: the two pages are free. -/
theorem pmm_init_exact_two_pages :
    FreesUsable [⟨0x200000, 0x2000, 1⟩, ⟨0xF0000, 0x10000, 2⟩]
      (pmmInit 0x100000 (fun _ => 0#32) 0
        (some ([⟨0x200000, 0x2000, 1⟩, ⟨0xF0000, 0x10000, 2⟩].map MmapRegion.entry))) := by
  obtain ⟨hexact, _⟩ := pmm_init_exact_iff 0x100000 (fun _ => 0#32) 0
    [⟨0x200000, 0x2000, 1⟩, ⟨0xF0000, 0x10000, 2⟩]
  refine hexact ⟨?_, ?_, ?_⟩
  · decide
  · intro r hr _ _ _
    left
    rcases List.mem_pair.mp hr with rfl | rfl <;> rfl
  · refine List.pairwise_pair.mpr fun p _ _ h => ?_
    exact absurd h.2.1 (by decide)

/-- A region that starts in the middle of a page: the whole page is freed. -/
theorem pmm_init_partial_page :
    ¬ FreesUsable [⟨0x200800, 0x1800, 1⟩]
      (pmmInit 0x100000 (fun _ => 0#32) 0
        (some ([⟨0x200800, 0x1800, 1⟩].map MmapRegion.entry))) := by
  intro h
  have hclear : (pmmInit 0x100000 (fun _ => 0#32) 0
      (some ([⟨0x200800, 0x1800, 1⟩].map MmapRegion.entry))).test 512 = false := by decide +kernel
  obtain ⟨_, r, hr, hin⟩ := (h.free 512 (by decide +kernel)).mp hclear
  rw [List.mem_singleton.mp hr] at hin
  exact absurd hin (by decide)

end Gemios
