import Gemios.FatGeometry

/-!
# What the FAT routines do on a sound volume

`fatEnt` is the value of a cluster's entry in the first FAT copy.  On a volume with
a sound layout `get_next_cluster` reads it, `set_fat_entry` changes it and no other
entry, and `alloc_free_cluster` marks the first free cluster it scans.  Outside the
FAT copies none of them changes a byte.
-/

namespace Gemios

/-! ### Entries of either width -/

section Entry

variable (fs : FatFs)

/-- Load of a FAT entry from byte `i` on. -/
def entGet (b : Buf) (i : Nat) : Nat :=
  if fs.type = .fat32 then le32 b i % 0x10000000 else le16 b i

/-- Store of a FAT entry at byte `i`; FAT32 keeps the four high bits. -/
def entPut (b : Buf) (i v : Nat) : Buf :=
  if fs.type = .fat32 then put32 b i (le32 b i / 0x10000000 * 0x10000000 + v % 0x10000000)
  else put16 b i (u16 v)

def FatFs.entMod : Nat := if fs.type = .fat32 then 0x10000000 else 65536

theorem entGet_congr {b b' : Buf} {i j : Nat}
    (h : ∀ k, k < fs.entSize → b (i + k) = b' (j + k)) : entGet fs b i = entGet fs b' j := by
  by_cases ht : fs.type = .fat32
  · have h4 : fs.entSize = 4 := if_pos ht
    rw [entGet, entGet, if_pos ht, if_pos ht, le32_congr fun k hk => h k (h4 ▸ hk)]
  · have h2 : fs.entSize = 2 := if_neg ht
    rw [entGet, entGet, if_neg ht, if_neg ht, le16_congr fun k hk => h k (h2 ▸ hk)]

theorem entPut_of_ne {b : Buf} {i v j : Nat} (h : j < i ∨ i + fs.entSize ≤ j) :
    entPut fs b i v j = b j := by
  by_cases ht : fs.type = .fat32
  · have h4 : fs.entSize = 4 := if_pos ht
    rw [entPut, if_pos ht, put32_of_ne (by omega)]
  · have h2 : fs.entSize = 2 := if_neg ht
    rw [entPut, if_neg ht, put16_of_ne (by omega)]

theorem entGet_entPut (b : Buf) (i v : Nat) :
    entGet fs (entPut fs b i v) i = v % fs.entMod := by
  by_cases ht : fs.type = .fat32
  · have hlt := le32_lt b i
    rw [entGet, entPut, FatFs.entMod, if_pos ht, if_pos ht, if_pos ht, le32_put32]
    omega
  · rw [entGet, entPut, FatFs.entMod, if_neg ht, if_neg ht, if_neg ht, le16_put16, u16]
    omega

theorem entPut_shift (b : Buf) (base i v k : Nat) :
    entPut fs (fun j => b (base + j)) i v k = entPut fs b (base + i) v (base + k) := by
  by_cases ht : fs.type = .fat32
  · have hle : le32 (fun j => b (base + j)) i = le32 b (base + i) :=
      le32_congr fun k _ => by simp only [Nat.add_assoc]
    rw [entPut, entPut, if_pos ht, if_pos ht, put32_shift, hle]
  · rw [entPut, entPut, if_neg ht, if_neg ht, put16_shift]

def FatFs.fatEnt (d : Disk) (c : Nat) : Nat := entGet fs d (fs.entAddr c)

theorem FatFs.eofVal_mod : fs.eofVal % fs.entMod = fs.eofVal := by
  unfold FatFs.eofVal FatFs.entMod
  split <;> rfl

theorem FatFs.eofLimit_le_eofVal : fs.eofLimit ≤ fs.eofVal := by
  unfold FatFs.eofVal FatFs.eofLimit
  split <;> omega

theorem FatFs.eofLimit_lt_entMod : fs.eofLimit < fs.entMod := by
  unfold FatFs.entMod FatFs.eofLimit
  split <;> omega

/-- Sector of the first FAT copy that holds the entry of a cluster. -/
def FatFs.entSector (c : Nat) : Nat := fs.fatStartSector + fs.entSize * c / 512

theorem FatFs.entAddr_sector (c : Nat) :
    fs.entSector c * 512 + fs.entSize * c % 512 = fs.entAddr c ∧
      fs.entSize * c % 512 + fs.entSize ≤ 512 := by
  unfold FatFs.entSector FatFs.entAddr
  rcases fs.entSize_cases with h | h <;> rw [h] <;> omega

theorem FatFs.entAddr_ne {c c' : Nat} (h : c ≠ c') :
    fs.entAddr c + fs.entSize ≤ fs.entAddr c' ∨ fs.entAddr c' + fs.entSize ≤ fs.entAddr c := by
  unfold FatFs.entAddr
  rcases fs.entSize_cases with h' | h' <;> rw [h'] <;> omega

/-- Contents of the device after the entry of `c` became `v` in the first copy
    and its sector was copied to the second. -/
def setEnt (d : Disk) (c v : Nat) : Disk := fun a =>
  if fs.numFats > 1 ∧ (fs.entSector c + fs.fatSizeSectors) * 512 ≤ a ∧
      a < (fs.entSector c + fs.fatSizeSectors + 1) * 512 then
    entPut fs d (fs.entAddr c) v (a - fs.fatSizeSectors * 512)
  else entPut fs d (fs.entAddr c) v a

end Entry

theorem blit_entPut (fs : FatFs) (d : Disk) (c v : Nat) :
    d.blit (fs.entSector c) 1
        (entPut fs (fun i => d (fs.entSector c * 512 + i)) (fs.entSize * c % 512) v) =
      entPut fs d (fs.entAddr c) v := by
  obtain ⟨haddr, hfit⟩ := fs.entAddr_sector c
  funext a
  simp only [Disk.blit]
  split
  · next h =>
    rw [entPut_shift, haddr]
    congr 1
    omega
  · next h =>
    refine (entPut_of_ne fs ?_).symm
    omega

/-! ### Where the entries lie -/

section

variable {fs : FatFs} (hs : fs.Sound)

include hs

theorem FatFs.Sound.fatSize_pos : 0 < fs.fatSizeSectors := by
  have h1 := hs.fatRoom
  rcases fs.entSize_cases with h | h <;> rw [h] at h1 <;> omega

theorem FatFs.Sound.fatSize_le : fs.fatStartSector + fs.fatSizeSectors ≤ fs.dataStartSector := by
  have h1 := hs.fatEnd
  have h2 := Nat.le_mul_of_pos_left fs.fatSizeSectors hs.numFats
  omega

theorem FatFs.Sound.entSize_mul_lt {c : Nat} (hc : c < fs.totalClusters + 2) :
    fs.entSize * c + fs.entSize ≤ fs.fatSizeSectors * 512 := by
  have h1 : fs.entSize * (c + 1) ≤ fs.entSize * (fs.totalClusters + 2) :=
    Nat.mul_le_mul_left _ hc
  have h2 := hs.fatRoom
  rw [Nat.mul_comm (fs.totalClusters + 2)] at h2
  rw [Nat.mul_succ] at h1
  omega

theorem FatFs.Sound.entSector_lt {c : Nat} (hc : c < fs.totalClusters + 2) :
    fs.entSector c < fs.fatStartSector + fs.fatSizeSectors := by
  have h1 := hs.entSize_mul_lt hc
  rcases fs.entSize_cases with h | h <;> rw [FatFs.entSector] <;> rw [h] at h1 ⊢ <;> omega

theorem FatFs.Sound.fatEntryPos_eq {c : Nat} (hc : c < fs.totalClusters + 2) :
    fatEntryPos fs fs.entSize c = (fs.entSector c, fs.entSize * c % 512) := by
  have hlim := fs.eofLimit_le
  have hcl := hs.clusters
  have hoff : u32 (c * fs.entSize) = fs.entSize * c := by
    rw [Nat.mul_comm]
    refine u32_of_lt ?_
    rcases fs.entSize_cases with h | h <;> rw [h] <;> omega
  have hsec : u32 (fs.fatStartSector + fs.entSize * c / 512) = fs.entSector c := by
    have h1 := hs.entSector_lt hc
    have h2 := hs.fatSize_le
    have h3 := hs.dataEnd
    unfold FatFs.entSector at h1 ⊢
    refine u32_of_lt ?_
    omega
  simp only [fatEntryPos, hoff, hs.bps, hsec]

theorem FatFs.Sound.entAddr_lt {c : Nat} (hc : c < fs.totalClusters + 2) :
    fs.entAddr c + fs.entSize ≤ (fs.fatStartSector + fs.fatSizeSectors) * 512 := by
  have h1 := hs.entSize_mul_lt hc
  unfold FatFs.entAddr
  omega

/-! ### `get_next_cluster` and `set_fat_entry` -/

variable (env : Env) [env.NoFault]

omit hs in
theorem getNextCluster_at (d : Disk) {c sec off : Nat} (ht : fs.type = .fat16 ∨ fs.type = .fat32)
    (h2 : 2 ≤ c) (hpos : fatEntryPos fs fs.entSize c = (sec, off)) :
    getNextCluster env fs d c =
      let next := entGet fs (fun i => d (sec * 512 + i)) off
      if next < 2 ∨ next ≥ fs.eofLimit ∨ next = c then noCluster else next := by
  have h2 : ¬ c < 2 := Nat.not_lt.mpr h2
  rcases ht with ht | ht
  · have hsz : fs.entSize = 2 := by simp [FatFs.entSize, ht]
    have hlim : fs.eofLimit = 0xFFF8 := by simp [FatFs.eofLimit, ht]
    rw [hsz] at hpos
    simp only [getNextCluster, if_neg h2, ht, hpos, bdevRead_eq, entGet, reduceCtorEq, if_false, hlim]
  · have hsz : fs.entSize = 4 := by simp [FatFs.entSize, ht]
    have hlim : fs.eofLimit = 0x0FFFFFF8 := by simp [FatFs.eofLimit, ht]
    rw [hsz] at hpos
    simp only [getNextCluster, if_neg h2, ht, hpos, bdevRead_eq, entGet, if_true, hlim]

theorem getNextCluster_eq (d : Disk) {c : Nat} (hc : fs.InRange c) :
    getNextCluster env fs d c =
      if fs.fatEnt d c < 2 ∨ fs.fatEnt d c ≥ fs.eofLimit ∨ fs.fatEnt d c = c then noCluster
      else fs.fatEnt d c := by
  have hent : entGet fs (fun i => d (fs.entSector c * 512 + i)) (fs.entSize * c % 512) =
      fs.fatEnt d c :=
    entGet_congr fs fun k _ => by rw [← Nat.add_assoc, (fs.entAddr_sector c).1]
  rw [getNextCluster_at env d hs.type hc.1 (hs.fatEntryPos_eq hc.2), hent]

theorem writeFatSector_eq (d : Disk) {c : Nat} (hc : c < fs.totalClusters + 2) (v : Nat) :
    writeFatSector env fs d (fs.entSector c)
        (entPut fs (fun i => d (fs.entSector c * 512 + i)) (fs.entSize * c % 512) v) =
      (0, setEnt fs d c v) := by
  have h1 := hs.entSector_lt hc
  have hpos := hs.fatSize_pos
  have haddr := (fs.entAddr_sector c).1
  rw [writeFatSector, bdevWrite_eq]
  simp only [blit_entPut, bdevWrite_eq]
  by_cases hn : fs.numFats > 1
  · have hsum : fs.entSector c + fs.fatSizeSectors < 4294967296 := by
      have h2 := hs.fatEnd
      have h3 := hs.dataEnd
      have h4 : 2 * fs.fatSizeSectors ≤ fs.numFats * fs.fatSizeSectors :=
        Nat.mul_le_mul_right _ hn
      omega
    rw [if_pos ⟨hn, hpos⟩, u32_of_lt hsum]
    congr 1
    funext a
    simp only [Disk.blit, setEnt, hn, true_and]
    split
    · next h =>
      rw [entPut_shift, haddr]
      congr 1
      omega
    · rfl
  · rw [if_neg (fun h => hn h.1)]
    congr 1
    funext a
    simp only [setEnt, hn, false_and, if_false]

omit hs in
theorem setFatEntry_at (d : Disk) {c sec off : Nat} (ht : fs.type = .fat16 ∨ fs.type = .fat32)
    (h2 : 2 ≤ c) (hpos : fatEntryPos fs fs.entSize c = (sec, off)) (v : Nat) :
    setFatEntry env fs d c v =
      writeFatSector env fs d sec (entPut fs (fun i => d (sec * 512 + i)) off v) := by
  have h2 : ¬ c < 2 := Nat.not_lt.mpr h2
  rcases ht with ht | ht
  · have hsz : fs.entSize = 2 := by simp [FatFs.entSize, ht]
    rw [hsz] at hpos
    simp only [setFatEntry, if_neg h2, ht, hpos, bdevRead_eq, entPut, reduceCtorEq, if_false]
  · have hsz : fs.entSize = 4 := by simp [FatFs.entSize, ht]
    rw [hsz] at hpos
    simp only [setFatEntry, if_neg h2, ht, hpos, bdevRead_eq, entPut, if_true]

theorem setFatEntry_eq (d : Disk) {c : Nat} (hc : fs.InRange c) (v : Nat) :
    setFatEntry env fs d c v = (0, setEnt fs d c v) := by
  rw [setFatEntry_at env d hs.type hc.1 (hs.fatEntryPos_eq hc.2), writeFatSector_eq hs env d hc.2 v]

/-! ### What changes -/

omit [env.NoFault] in
theorem fatEnt_congr_first {d d' : Disk} {c : Nat} (hc : c < fs.totalClusters + 2)
    (h : ∀ a, fs.fatStartSector * 512 ≤ a →
      a < (fs.fatStartSector + fs.fatSizeSectors) * 512 → d' a = d a) :
    fs.fatEnt d' c = fs.fatEnt d c := by
  have h1 := hs.entAddr_lt hc
  have h2 : fs.fatStartSector * 512 ≤ fs.entAddr c := Nat.le_add_right _ _
  refine entGet_congr fs fun k hk => h _ ?_ ?_ <;> omega

omit hs [env.NoFault] in
theorem fatEnt_entPut (d : Disk) (c c' v : Nat) :
    fs.fatEnt (entPut fs d (fs.entAddr c) v) c' =
      if c' = c then v % fs.entMod else fs.fatEnt d c' := by
  rw [FatFs.fatEnt]
  split
  · next h =>
    rw [h, entGet_entPut]
  · next h =>
    refine entGet_congr fs fun k hk => entPut_of_ne fs ?_
    have := fs.entAddr_ne h
    omega

omit [env.NoFault] in
theorem fatEnt_setEnt (d : Disk) {c c' : Nat} (hc' : c' < fs.totalClusters + 2) (v : Nat) :
    fs.fatEnt (setEnt fs d c v) c' = if c' = c then v % fs.entMod else fs.fatEnt d c' := by
  have hsec : fs.fatStartSector ≤ fs.entSector c := Nat.le_add_right _ _
  rw [← fatEnt_entPut]
  refine fatEnt_congr_first hs hc' fun a _ ha => ?_
  rw [setEnt, if_neg]
  omega

omit [env.NoFault] in
theorem setEnt_frame (d : Disk) {c a : Nat} (hc : c < fs.totalClusters + 2) (v : Nat)
    (ha : a < fs.fatStartSector * 512 ∨ fs.fatEndAddr ≤ a) : setEnt fs d c v a = d a := by
  have h1 := hs.entAddr_lt hc
  have h2 := hs.entSector_lt hc
  have h3 : fs.fatStartSector * 512 ≤ fs.entAddr c := Nat.le_add_right _ _
  have h4 : fs.fatStartSector ≤ fs.entSector c := Nat.le_add_right _ _
  have hone := Nat.le_mul_of_pos_left fs.fatSizeSectors hs.numFats
  unfold FatFs.fatEndAddr at ha
  rw [setEnt, if_neg, entPut_of_ne fs (by omega)]
  rintro ⟨hn, h5, h6⟩
  have htwo : 2 * fs.fatSizeSectors ≤ fs.numFats * fs.fatSizeSectors := Nat.mul_le_mul_right _ hn
  omega

omit [env.NoFault] in
theorem setEnt_data (d : Disk) {c a : Nat} (hc : c < fs.totalClusters + 2) (v : Nat)
    (ha : fs.dataAddr ≤ a) : setEnt fs d c v a = d a :=
  setEnt_frame hs d hc v (Or.inr (Nat.le_trans hs.fatEndAddr_le_dataAddr ha))

omit [env.NoFault] in
theorem fatEnt_congr {d d' : Disk} {c : Nat} (hc : c < fs.totalClusters + 2)
    (h : ∀ a, fs.fatStartSector * 512 ≤ a → a < fs.fatEndAddr → d' a = d a) :
    fs.fatEnt d' c = fs.fatEnt d c := by
  have hone := Nat.le_mul_of_pos_left fs.fatSizeSectors hs.numFats
  have hend : (fs.fatStartSector + fs.fatSizeSectors) * 512 ≤ fs.fatEndAddr :=
    Nat.mul_le_mul_right 512 (by omega)
  exact fatEnt_congr_first hs hc fun a h1 h2 => h a h1 (Nat.lt_of_lt_of_le h2 hend)

omit [env.NoFault] in
theorem fatEnt_setClus (d : Disk) {c c' : Nat} (hc' : c' < fs.totalClusters + 2) (buf : Buf) :
    fs.fatEnt (setClus fs d c buf) c' = fs.fatEnt d c' := by
  refine fatEnt_congr hs hc' fun a _ ha => setClus_of_not fun h => ?_
  have h1 := hs.fatEndAddr_le_dataAddr
  have h2 := fs.dataAddr_le_clusAddr c
  have h3 := h.1
  omega

/-! ### `alloc_free_cluster` -/

def FatFs.scanLimit (fs : FatFs) : Nat :=
  if fs.totalClusters > 0 ∧ fs.totalClusters < 32768 then fs.totalClusters else 32768

omit [env.NoFault] in
theorem FatFs.Sound.scanLimit_le : fs.scanLimit ≤ fs.totalClusters := by
  have := hs.nonempty
  unfold FatFs.scanLimit
  split <;> omega

omit [env.NoFault] in
theorem FatFs.Sound.inRange_of_scan {c : Nat} (hc : c ∈ List.range' 2 fs.scanLimit) :
    fs.InRange c := by
  have := hs.scanLimit_le
  rw [List.mem_range'_1] at hc
  exact ⟨hc.1, by omega⟩

/-- The first free cluster in the scanned part. -/
def FatFs.freeCluster? (fs : FatFs) (d : Disk) : Option Nat :=
  (List.range' 2 fs.scanLimit).find? fun c => fs.fatEnt d c == 0

/-- The scan holds no sector yet, or the contents of one. -/
def FatCache.Holds (st : FatCache) (d : Disk) : Prop :=
  st.curSector = 0xFFFFFFFF ∨ ∀ i, st.sector i = d (st.curSector * 512 + i)

omit hs in
theorem allocTurn_at (d : Disk) {c sec off : Nat} (hpos : fatEntryPos fs fs.entSize c = (sec, off))
    (hsec : sec ≠ 0xFFFFFFFF) {st : FatCache} (hst : st.Holds d) :
    ∃ st', st'.Holds d ∧ allocTurn env fs d fs.entSize c st =
      if entGet fs (fun i => d (sec * 512 + i)) off = 0 then
        .ret (c, (setFatEntry env fs d c fs.eofVal).2)
      else .next st' := by
  have hval : ∀ b : Buf, (∀ i, b i = d (sec * 512 + i)) →
      (if fs.entSize = 2 then le16 b off else le32 b off % 0x10000000) =
        entGet fs (fun i => d (sec * 512 + i)) off := by
    intro b hb
    have hbuf : b = fun i => d (sec * 512 + i) := funext hb
    rw [hbuf]
    by_cases ht : fs.type = .fat32
    · have h4 : ¬ fs.entSize = 2 := by simp [FatFs.entSize, ht]
      rw [if_neg h4, entGet, if_pos ht]
    · have h2 : fs.entSize = 2 := if_neg ht
      rw [if_pos h2, entGet, if_neg ht]
  simp only [allocTurn, hpos, bdevRead_eq]
  by_cases hcur : sec ≠ st.curSector
  · refine ⟨⟨sec, fun i => d (sec * 512 + i)⟩, Or.inr fun i => rfl, ?_⟩
    rw [if_pos hcur]
    simp only [hval (fun i => d (sec * 512 + i)) fun i => rfl]
  · have hcur : sec = st.curSector := not_not.mp hcur
    refine ⟨st, hst, ?_⟩
    have hb : ∀ i, st.sector i = d (sec * 512 + i) := by
      rcases hst with h | h
      · exact absurd (hcur.trans h) hsec
      · rw [hcur]
        exact h
    rw [if_neg (not_not.mpr hcur)]
    simp only [hval st.sector hb]

omit hs in
theorem scan_allocTurn_at (d : Disk) {ent : Nat → Nat} : ∀ (cs : List Nat) (st : FatCache),
    (∀ c ∈ cs, ∃ sec off, fatEntryPos fs fs.entSize c = (sec, off) ∧ sec ≠ 0xFFFFFFFF ∧
      entGet fs (fun i => d (sec * 512 + i)) off = ent c) → st.Holds d →
    (match scan (allocTurn env fs d fs.entSize) cs st with
      | .ret r => r
      | _ => (0, d)) =
      match cs.find? fun c => ent c == 0 with
      | none => (0, d)
      | some c => (c, (setFatEntry env fs d c fs.eofVal).2) := by
  intro cs
  induction cs with
  | nil => intro st _ _; rfl
  | cons c cs ih =>
    intro st hcs hst
    obtain ⟨sec, off, hpos, hsec, hent⟩ := hcs c List.mem_cons_self
    obtain ⟨st', hst', hturn⟩ := allocTurn_at env d hpos hsec hst
    rw [hent] at hturn
    by_cases h0 : ent c = 0
    · rw [if_pos h0] at hturn
      rw [scan_cons_ret hturn, List.find?_cons_of_pos (by simpa using h0)]
    · rw [if_neg h0] at hturn
      rw [scan_cons_next hturn, List.find?_cons_of_neg (by simpa using h0)]
      exact ih st' (fun b hb => hcs b (List.mem_cons_of_mem _ hb)) hst'

omit hs in
theorem allocFreeCluster_at (d : Disk) (ht : fs.type = .fat16 ∨ fs.type = .fat32)
    {ent : Nat → Nat} (hent : ∀ c ∈ List.range' 2 fs.scanLimit, ∃ sec off,
      fatEntryPos fs fs.entSize c = (sec, off) ∧ sec ≠ 0xFFFFFFFF ∧
        entGet fs (fun i => d (sec * 512 + i)) off = ent c) :
    allocFreeCluster env fs d =
      match (List.range' 2 fs.scanLimit).find? fun c => ent c == 0 with
      | none => (0, d)
      | some c => (c, (setFatEntry env fs d c fs.eofVal).2) := by
  rw [← scan_allocTurn_at env d (List.range' 2 fs.scanLimit) ⟨0xFFFFFFFF, fun _ => 0⟩ hent
    (Or.inl rfl)]
  rcases ht with ht | ht
  · have hsz : fs.entSize = 2 := by simp [FatFs.entSize, ht]
    rw [hsz]
    simp only [allocFreeCluster, ht]
    rfl
  · have hsz : fs.entSize = 4 := by simp [FatFs.entSize, ht]
    rw [hsz]
    simp only [allocFreeCluster, ht]
    rfl

theorem allocFreeCluster_eq (d : Disk) :
    allocFreeCluster env fs d =
      match fs.freeCluster? d with
      | none => (0, d)
      | some c => (c, setEnt fs d c fs.eofVal) := by
  rw [@allocFreeCluster_at fs env _ d hs.type (fs.fatEnt d), ← FatFs.freeCluster?]
  · cases hfind : fs.freeCluster? d with
    | none => rfl
    | some c =>
      have hc := hs.inRange_of_scan (List.mem_of_find?_eq_some hfind)
      dsimp only
      rw [setFatEntry_eq hs env d hc]
  · intro c hmem
    have hc := hs.inRange_of_scan hmem
    have hsec := hs.entSector_lt hc.2
    have hle := hs.fatSize_le
    have hend := hs.dataEnd
    have haddr := (fs.entAddr_sector c).1
    refine ⟨_, _, hs.fatEntryPos_eq hc.2, by omega, ?_⟩
    apply entGet_congr
    intro k _
    rw [← Nat.add_assoc, haddr]

omit [env.NoFault] in
theorem freeCluster?_some {d : Disk} {c : Nat} (h : fs.freeCluster? d = some c) :
    fs.InRange c ∧ fs.fatEnt d c = 0 := by
  have hfree := List.find?_some h
  exact ⟨hs.inRange_of_scan (List.mem_of_find?_eq_some h), by simpa using hfree⟩

end

end Gemios
