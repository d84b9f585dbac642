import Gemios.FatTableSpec
import Gemios.MkfsSpec

/-!
# Which clusters are safe to use

The address computations of the driver for one cluster number on a volume that
`fat_mount` has accepted: `is_valid_fat_bpb` checks neither that a sector fits the
512-byte buffers, nor that the FAT is long enough, nor that the sector numbers fit 32
bits, and a directory entry may hold any cluster number.  The scan of `alloc_free_cluster`
runs through the entries by itself, up to the first that is free.
-/

namespace Gemios

/-- The sums of `fat_mount` are as meant: none of them wraps. -/
structure MountSums (fs : FatFs) : Prop where
  fatStart : fs.lbaOffset + fs.reservedSectors < 4294967296
  copies : fs.numFats * fs.fatSizeSectors < 4294967296
  fatEnd : fs.fatStartSector + fs.numFats * fs.fatSizeSectors < 4294967296
  dataStart :
    fs.fatStartSector + fs.numFats * fs.fatSizeSectors + fs.rootDirSectors < 4294967296

/-- The FAT entry of a cluster, `width` bytes wide: `get_next_cluster`,
    `set_fat_entry` (with the mirror) and `alloc_free_cluster` stay inside their sector
    buffer and inside the first FAT copy, and nothing wraps. -/
structure EntrySafe (fs : FatFs) (width c : Nat) : Prop where
  index : (fatEntryPos fs width c).2 + width ≤ 512
  inFat : fs.fatStartSector ≤ (fatEntryPos fs width c).1 ∧
    (fatEntryPos fs width c).1 < fs.fatStartSector + fs.fatSizeSectors
  offset : c * width < 4294967296
  sector : fs.fatStartSector + c * width / fs.bytesPerSector < 4294967296
  mirror : 1 < fs.numFats →
    fs.fatStartSector + c * width / fs.bytesPerSector + fs.fatSizeSectors < 4294967296

/-- The sectors of a cluster: `read_cluster`, `write_cluster` and the directory walks
    stay inside the volume and inside a sector buffer, and nothing wraps. -/
structure DataSafe (fs : FatFs) (totalSectors c : Nat) : Prop where
  inVolume : fs.lbaOffset ≤ clusterSector fs c ∧
    clusterSector fs c + fs.sectorsPerCluster ≤ fs.lbaOffset + totalSectors
  slot : ∀ e, e < fs.bytesPerCluster / 32 → 32 * (e % (fs.bytesPerSector / 32)) + 32 ≤ 512
  offset : (c - 2) * fs.sectorsPerCluster < 4294967296
  sector : ∀ e, e < fs.bytesPerCluster / 32 →
    fs.dataStartSector + (c - 2) * fs.sectorsPerCluster + e * 32 / fs.bytesPerSector < 4294967296

/-- The scan of `alloc_free_cluster` comes to a cluster: it has stopped at none before it. -/
def ScanReaches (env : Env) (fs : FatFs) (d : Disk) (c : Nat) : Prop :=
  ∃ st, scan (allocTurn env fs d fs.entSize) (List.range' 2 (c - 2)) ⟨0xFFFFFFFF, fun _ => 0⟩ = .next st

/-- The scan of `alloc_free_cluster` is safe at every cluster to which it comes, also where it
    finds nothing in the end.  On FAT12 no FAT entry is looked at. -/
def ScanSafe (env : Env) (fs : FatFs) (d : Disk) : Prop :=
  fs.type = .fat16 ∨ fs.type = .fat32 → ∀ c, 2 ≤ c → c < fs.scanLimit + 2 →
    ScanReaches env fs d c → EntrySafe fs fs.entSize c

/-- Everything the driver computes is safe: when it mounts the volume, when it looks for a free
    cluster, and for a cluster number that it has got.  Numbers below 2 are turned away by every
    function. -/
structure ClusterSafe (env : Env) (fs : FatFs) (totalSectors : Nat) (d : Disk) (c : Nat) : Prop where
  sums : MountSums fs
  scan : ScanSafe env fs d
  entry : 2 ≤ c → fs.type = .fat16 ∨ fs.type = .fat32 → EntrySafe fs fs.entSize c
  data : 2 ≤ c → DataSafe fs totalSectors c

/-- The cluster numbers the driver comes by: a newly taken one, the first cluster in
    a directory slot, and the successor of a cluster in the FAT. -/
inductive Obtainable (env : Env) (fs : FatFs) (d : Disk) : Nat → Prop
  | taken : Obtainable env fs d (allocFreeCluster env fs d).1
  | entry (a : Nat) : Obtainable env fs d (slotAt d a).cluster
  | next (c : Nat) : Obtainable env fs d (getNextCluster env fs d c)

/-- The areas in front of the data end below block 2^32. -/
def LayoutFits (fs : FatFs) : Prop :=
  fs.lbaOffset + fs.reservedSectors + fs.numFats * fs.fatSizeSectors + fs.rootDirSectors < 4294967296

instance (fs : FatFs) : Decidable (LayoutFits fs) := inferInstanceAs (Decidable (_ < _))

/-- How many entries the first copy of the FAT holds, as far as the sector buffer reaches. -/
def FatFs.entriesHeld (fs : FatFs) : Nat :=
  if fs.bytesPerSector = 512 then fs.fatSizeSectors * 512 / fs.entSize else 512 / fs.entSize

/-- An entry that stops the scan: it is free, or its sector cannot be read. -/
def StopsScan (env : Env) (fs : FatFs) (d : Disk) (c : Nat) : Prop :=
  let pos := fatEntryPos fs fs.entSize c
  env.readFails pos.1 = true ∨ entGet fs (fun i => d (pos.1 * 512 + i)) pos.2 = 0

/-- The FAT holds an entry for each cluster of the scan, or one that stops it. -/
def ScanFits (env : Env) (fs : FatFs) (d : Disk) : Prop :=
  fs.type = .fat16 ∨ fs.type = .fat32 →
    fs.scanLimit + 2 ≤ fs.entriesHeld ∨ ∃ c, 2 ≤ c ∧ c < fs.entriesHeld ∧ StopsScan env fs d c

/-- When a cluster number is safe, in terms of the header. -/
def FitsVolume (fs : FatFs) (c : Nat) : Prop :=
  fs.bytesPerSector = 512 ∧ c < fs.totalClusters + 2 ∧
  (fs.type = .fat16 ∨ fs.type = .fat32 →
    (c + 1) * fs.entSize ≤ fs.fatSizeSectors * 512 ∧ c * fs.entSize < 4294967296) ∧
  fs.dataStartSector + (c - 1) * fs.sectorsPerCluster ≤ 4294967296

/-! ### What mounting says about the fields -/

/-- The fields of a mounted volume in terms of each other. -/
structure MountedFields (fs : FatFs) (total : Nat) : Prop where
  bps : fs.bytesPerSector = 512 ∨ fs.bytesPerSector = 1024 ∨ fs.bytesPerSector = 2048 ∨
    fs.bytesPerSector = 4096
  spc : 0 < fs.sectorsPerCluster ∧ fs.sectorsPerCluster < 256
  bpc : fs.bytesPerCluster = fs.bytesPerSector * fs.sectorsPerCluster
  numFats : 1 ≤ fs.numFats ∧ fs.numFats ≤ 4
  fatSize : 0 < fs.fatSizeSectors
  lba : fs.lbaOffset < 4294967296
  reserved : 0 < fs.reservedSectors
  fatStart : fs.fatStartSector = u32 (fs.lbaOffset + fs.reservedSectors)
  dataStart : fs.dataStartSector =
    u32 (u32 (fs.fatStartSector + u32 (fs.numFats * fs.fatSizeSectors)) + fs.rootDirSectors)
  rootStart : fs.rootDirSectors ≠ 0 →
    fs.rootDirStartSector = u32 (fs.fatStartSector + u32 (fs.numFats * fs.fatSizeSectors))
  clusters : fs.totalClusters =
    (total - u32 (fs.dataStartSector + 4294967296 - fs.lbaOffset)) / fs.sectorsPerCluster
  type : fs.type = if fs.totalClusters < 4085 then .fat12
    else if fs.totalClusters < 65525 then .fat16 else .fat32

theorem isValidFatBpb_fields {sec : Buf} {total : Nat} (h : isValidFatBpb sec = some total) :
    (le16 sec 11 = 512 ∨ le16 sec 11 = 1024 ∨ le16 sec 11 = 2048 ∨ le16 sec 11 = 4096) ∧
      sec 13 ≠ 0 ∧ le16 sec 14 ≠ 0 ∧ sec 16 ≠ 0 ∧ ¬ sec 16 > 4 := by
  simp only [isValidFatBpb, Option.ite_none_left_eq_some, not_or] at h
  obtain ⟨_, hbps, hspc, hreserved, hfats, _⟩ := h
  exact ⟨by omega, hspc.1, hreserved, hfats.1, hfats.2⟩

theorem mountedFields {bdev lba total : Nat} {sec : Buf} {fs : FatFs}
    (hvalid : isValidFatBpb sec = some total) (hlba : lba < 4294967296)
    (hm : mountAt bdev lba sec total = some fs) : MountedFields fs total := by
  obtain ⟨hbps, hspc, hreserved, hfats0, hfats4⟩ := isValidFatBpb_fields hvalid
  have hspc' : 0 < (sec 13).toNat ∧ (sec 13).toNat < 256 :=
    ⟨Nat.pos_of_ne_zero fun h0 => hspc (UInt8.toNat_inj.mp h0), (sec 13).toNat_lt⟩
  have hf0 : 0 < (sec 16).toNat :=
    Nat.pos_of_ne_zero fun h0 => hfats0 (UInt8.toNat_inj.mp h0)
  have hf4 : (sec 16).toNat ≤ 4 := by
    have := UInt8.not_lt.mp hfats4
    rwa [UInt8.le_iff_toNat_le] at this
  simp only [mountAt, Option.ite_none_left_eq_some, Option.some.injEq, not_or] at hm
  obtain ⟨⟨hsize, _⟩, rfl⟩ := hm
  have hsub : ∀ n : Nat, (if total > n then total - n else 0) = total - n := fun n => by
    split <;> omega
  constructor
  · exact hbps
  · exact hspc'
  · exact u32_of_lt (by
      show le16 sec 11 * (sec 13).toNat < 4294967296
      have := Nat.mul_le_mul (show le16 sec 11 ≤ 4096 by omega) (Nat.le_of_lt hspc'.2)
      omega)
  · exact ⟨hf0, hf4⟩
  · exact Nat.pos_of_ne_zero hsize
  · exact hlba
  · exact Nat.pos_of_ne_zero hreserved
  · rfl
  · dsimp only
    split
    · rfl
    · rw [Nat.add_zero]
      unfold u32
      omega
  · dsimp only
    split
    · intro _
      rfl
    · intro h0
      exact absurd rfl h0
  · dsimp only
    rw [hsub]
  · rfl

theorem findBoot_valid {env : Env} {d : Disk} {lba total : Nat} {sec : Buf}
    (h : findBoot env d = some (lba, sec, total)) :
    isValidFatBpb sec = some total ∧ lba < 4294967296 := by
  unfold findBoot at h
  split at h
  · cases h
  · split at h
    · next hvalid =>
      cases h
      exact ⟨hvalid, by omega⟩
    · split at h
      · obtain ⟨p, _, hp⟩ := List.exists_of_findSome?_eq_some h
        dsimp only at hp
        split at hp
        · split at hp
          · cases hp
          · obtain ⟨t, ht, heq⟩ := Option.map_eq_some_iff.mp hp
            cases heq
            exact ⟨ht, le32_lt _ _⟩
        · cases hp
      · cases h

theorem fatMount_boot {env : Env} {bdev : Nat} {d : Disk} {fs : FatFs}
    (hm : fatMount env bdev d = some fs) : ∃ lba sec total, isValidFatBpb sec = some total ∧
      mountAt bdev lba sec total = some fs ∧ MountedFields fs total := by
  unfold fatMount at hm
  split at hm
  · cases hm
  · next lba sec total hboot =>
    obtain ⟨hvalid, hlba⟩ := findBoot_valid hboot
    exact ⟨lba, sec, total, hvalid, hm, mountedFields hvalid hlba hm⟩

theorem fatMount_fields {env : Env} {bdev : Nat} {d : Disk} {fs : FatFs}
    (hm : fatMount env bdev d = some fs) : fs.bdev = bdev ∧ ∃ total, MountedFields fs total := by
  obtain ⟨lba, sec, total, -, hat, hfields⟩ := fatMount_boot hm
  refine ⟨?_, total, hfields⟩
  simp only [mountAt, Option.ite_none_left_eq_some, Option.some.injEq] at hat
  rw [← hat.2]

/-! ### The equivalence -/

section

variable {fs : FatFs} {total c : Nat} (H : MountedFields fs total) (hc : 2 ≤ c)

include H

theorem MountedFields.bps_of_slot
    (h : ∀ e, e < fs.bytesPerCluster / 32 → 32 * (e % (fs.bytesPerSector / 32)) + 32 ≤ 512) :
    fs.bytesPerSector = 512 := by
  have hbpc := H.bpc
  have hspc := H.spc.1
  have hle : fs.bytesPerSector * 1 ≤ fs.bytesPerSector * fs.sectorsPerCluster :=
    Nat.mul_le_mul_left _ hspc
  rcases H.bps with hb | hb | hb | hb
  · exact hb
  all_goals
    have h16 := h 16 (by omega)
    rw [hb] at h16
    omega

theorem MountedFields.dataStart_eq
    (h : LayoutFits fs) :
    fs.fatStartSector = fs.lbaOffset + fs.reservedSectors ∧
      fs.dataStartSector =
        fs.fatStartSector + fs.numFats * fs.fatSizeSectors + fs.rootDirSectors := by
  unfold LayoutFits at h
  have hstart : fs.fatStartSector = fs.lbaOffset + fs.reservedSectors := by
    rw [H.fatStart, u32_of_lt (by omega)]
  refine ⟨hstart, ?_⟩
  rw [H.dataStart, u32_of_lt (show fs.numFats * fs.fatSizeSectors < 4294967296 by omega),
    u32_of_lt (show fs.fatStartSector + fs.numFats * fs.fatSizeSectors < 4294967296 by omega),
    u32_of_lt (by omega)]

theorem MountedFields.entrySafe_iff
    (h : LayoutFits fs) (hbps : fs.bytesPerSector = 512) :
    EntrySafe fs fs.entSize c ↔
      (c + 1) * fs.entSize ≤ fs.fatSizeSectors * 512 ∧ c * fs.entSize < 4294967296 := by
  obtain ⟨hstart, _⟩ := H.dataStart_eq h
  unfold LayoutFits at h
  have hone : 1 * fs.fatSizeSectors ≤ fs.numFats * fs.fatSizeSectors :=
    Nat.mul_le_mul_right _ H.numFats.1
  have htwo : 1 < fs.numFats → 2 * fs.fatSizeSectors ≤ fs.numFats * fs.fatSizeSectors :=
    fun hn => Nat.mul_le_mul_right _ hn
  have hpos : ∀ w, c * w < 4294967296 → fs.fatStartSector + c * w / 512 < 4294967296 →
      fatEntryPos fs w c = (fs.fatStartSector + c * w / 512, c * w % 512) := by
    intro w h1 h2
    simp only [fatEntryPos, hbps]
    rw [u32_of_lt h1, u32_of_lt h2]
  constructor
  · intro he
    have hsector := he.sector
    rw [hbps] at hsector
    have hin := he.inFat.2
    rw [hpos _ he.offset hsector] at hin
    refine ⟨?_, he.offset⟩
    rcases fs.entSize_cases with hw | hw <;> rw [hw] at hin ⊢ <;> omega
  · rintro ⟨hroom, hoff⟩
    have hsector : fs.fatStartSector + c * fs.entSize / 512 < 4294967296 := by
      rcases fs.entSize_cases with hw | hw <;> rw [hw] at hroom hoff ⊢ <;> omega
    refine ⟨?_, ?_, hoff, by rw [hbps]; exact hsector, fun hn => ?_⟩
    · rw [hpos _ hoff hsector]
      rcases fs.entSize_cases with hw | hw <;> rw [hw] <;> omega
    · rw [hpos _ hoff hsector]
      rcases fs.entSize_cases with hw | hw <;> rw [hw] at hroom ⊢ <;> omega
    · have := htwo hn
      rw [hbps]
      rcases fs.entSize_cases with hw | hw <;> rw [hw] at hroom ⊢ <;> omega

include hc

theorem MountedFields.inVolume_iff
    (h : LayoutFits fs)
    (hsec : clusterSector fs c = fs.dataStartSector + (c - 2) * fs.sectorsPerCluster) :
    (fs.lbaOffset ≤ clusterSector fs c ∧
      clusterSector fs c + fs.sectorsPerCluster ≤ fs.lbaOffset + total) ↔
      c < fs.totalClusters + 2 := by
  obtain ⟨hstart, hdata⟩ := H.dataStart_eq h
  unfold LayoutFits at h
  have hrel : u32 (fs.dataStartSector + 4294967296 - fs.lbaOffset) =
      fs.dataStartSector - fs.lbaOffset := by
    unfold u32
    omega
  have hmul : (c - 1) * fs.sectorsPerCluster = (c - 2) * fs.sectorsPerCluster +
      fs.sectorsPerCluster := by
    rw [show c - 1 = (c - 2) + 1 by omega, Nat.succ_mul]
  have hle : c - 1 ≤ fs.totalClusters ↔
      (c - 1) * fs.sectorsPerCluster ≤ total - (fs.dataStartSector - fs.lbaOffset) := by
    rw [H.clusters, hrel, Nat.le_div_iff_mul_le H.spc.1]
  have hpos := H.spc.1
  rw [hsec]
  constructor
  · rintro ⟨_, hend⟩
    have := hle.mpr (by omega)
    omega
  · intro hlt
    have := hle.mp (by omega)
    omega

theorem MountedFields.sector_iff (hbps : fs.bytesPerSector = 512) :
    (∀ e, e < fs.bytesPerCluster / 32 →
      fs.dataStartSector + (c - 2) * fs.sectorsPerCluster + e * 32 / fs.bytesPerSector <
        4294967296) ↔ fs.dataStartSector + (c - 1) * fs.sectorsPerCluster ≤ 4294967296 := by
  have hmul : (c - 1) * fs.sectorsPerCluster = (c - 2) * fs.sectorsPerCluster +
      fs.sectorsPerCluster := by
    rw [show c - 1 = (c - 2) + 1 by omega, Nat.succ_mul]
  have hbpc := H.bpc
  have hpos := H.spc.1
  rw [hbps] at hbpc ⊢
  rw [hmul]
  constructor
  · intro h
    have := h (fs.bytesPerCluster / 32 - 1) (by omega)
    omega
  · intro h e he
    omega

end

/-! ### The scan -/

section

variable {env : Env} {fs : FatFs} {d : Disk}

def FatCache.Read (st : FatCache) (env : Env) (d : Disk) : Prop :=
  st.curSector = 0xFFFFFFFF ∨
    env.readFails st.curSector = false ∧ st.sector = fun i => d (st.curSector * 512 + i)

theorem entGet_width (b : Buf) (off : Nat) :
    (if fs.entSize = 2 then le16 b off else le32 b off % 0x10000000) = entGet fs b off := by
  by_cases ht : fs.type = .fat32
  · have h4 : ¬ fs.entSize = 2 := by simp [FatFs.entSize, ht]
    rw [if_neg h4, entGet, if_pos ht]
  · have h2 : fs.entSize = 2 := if_neg ht
    rw [if_pos h2, entGet, if_neg ht]

theorem allocTurn_stops {c : Nat} (hsec : (fatEntryPos fs fs.entSize c).1 ≠ 0xFFFFFFFF) {st : FatCache}
    (hst : st.Read env d) :
    (StopsScan env fs d c ∧ ∃ r, allocTurn env fs d fs.entSize c st = .ret r) ∨
      (¬StopsScan env fs d c ∧
        ∃ st', allocTurn env fs d fs.entSize c st = .next st' ∧ st'.Read env d) := by
  unfold allocTurn StopsScan
  generalize fatEntryPos fs fs.entSize c = pos at hsec ⊢
  by_cases hcur : pos.1 ≠ st.curSector
  · simp only [if_pos hcur, bdevRead]
    cases hread : env.readFails pos.1 with
    | true => exact .inl ⟨.inl rfl, _, rfl⟩
    | false =>
      simp only [entGet_width, Bool.false_eq_true, if_false, false_or]
      split
      · exact .inl ⟨‹_›, _, rfl⟩
      · exact .inr ⟨‹_›, _, rfl, .inr ⟨hread, rfl⟩⟩
  · have hcur : pos.1 = st.curSector := not_not.mp hcur
    obtain ⟨hread, hsector⟩ := hst.resolve_left fun h => hsec (hcur.trans h)
    simp only [hcur, ne_eq, not_true_eq_false, if_false, entGet_width, hsector, hread,
      Bool.false_eq_true, false_or]
    split
    · exact .inl ⟨‹_›, _, rfl⟩
    · exact .inr ⟨‹_›, _, rfl, .inr ⟨hread, hsector⟩⟩

theorem scan_allocTurn_next_iff {cs : List Nat}
    (hsec : ∀ c ∈ cs, (fatEntryPos fs fs.entSize c).1 ≠ 0xFFFFFFFF) {st : FatCache}
    (hst : st.Read env d) :
    (∃ st', scan (allocTurn env fs d fs.entSize) cs st = .next st') ↔
      ∀ c ∈ cs, ¬StopsScan env fs d c := by
  induction cs generalizing st with
  | nil => exact ⟨fun _ c hc => absurd hc List.not_mem_nil, fun _ => ⟨st, rfl⟩⟩
  | cons c cs ih =>
    rw [List.forall_mem_cons] at hsec ⊢
    rcases allocTurn_stops hsec.1 hst with ⟨hstop, r, hturn⟩ | ⟨hgo, st', hturn, hst'⟩
    · rw [scan_cons_ret hturn]
      exact ⟨fun ⟨_, h⟩ => by contradiction, fun h => absurd hstop h.1⟩
    · rw [scan_cons_next hturn, ih hsec.2 hst']
      exact ⟨fun h => ⟨hgo, h⟩, And.right⟩

theorem scanReaches_iff {c : Nat}
    (hsec : ∀ c', 2 ≤ c' → c' < c → (fatEntryPos fs fs.entSize c').1 ≠ 0xFFFFFFFF) :
    ScanReaches env fs d c ↔ ∀ c', 2 ≤ c' → c' < c → ¬StopsScan env fs d c' := by
  have hmem : ∀ c', c' ∈ List.range' 2 (c - 2) ↔ 2 ≤ c' ∧ c' < c := by
    intro c'
    rw [List.mem_range'_1]
    omega
  refine (scan_allocTurn_next_iff (fun c' hc' => ?_) (.inl rfl)).trans ?_
  · exact hsec c' ((hmem c').mp hc').1 ((hmem c').mp hc').2
  · simp only [hmem, and_imp]

theorem ScanReaches.of_le {c c' : Nat} (h : ScanReaches env fs d c) (hle : c' ≤ c) :
    ScanReaches env fs d c' := by
  obtain ⟨st, hst⟩ := h
  have hsplit : List.range' 2 (c - 2) =
      List.range' 2 (c' - 2) ++ List.range' (2 + (c' - 2)) (c - 2 - (c' - 2)) := by
    rw [List.range'_append_1]
    congr 1
    omega
  rw [hsplit, scan_append] at hst
  unfold ScanReaches
  split at hst
  · exact ⟨_, ‹_›⟩
  · contradiction
  · contradiction

theorem scanLimit_le (fs : FatFs) : fs.scanLimit ≤ 32768 := by
  unfold FatFs.scanLimit
  split <;> omega

variable {total : Nat} (H : MountedFields fs total) (h : LayoutFits fs)

include H h

theorem MountedFields.entrySafe_of_wide (hbps : fs.bytesPerSector ≠ 512) {c : Nat}
    (hc : c * fs.entSize + fs.entSize ≤ 512) : EntrySafe fs fs.entSize c := by
  obtain ⟨hstart, _⟩ := H.dataStart_eq h
  unfold LayoutFits at h
  have hwide : 1024 ≤ fs.bytesPerSector := by
    have := H.bps
    omega
  have hsize := H.fatSize
  have hone : 1 * fs.fatSizeSectors ≤ fs.numFats * fs.fatSizeSectors :=
    Nat.mul_le_mul_right _ H.numFats.1
  have htwo : 1 < fs.numFats → 2 * fs.fatSizeSectors ≤ fs.numFats * fs.fatSizeSectors :=
    fun hn => Nat.mul_le_mul_right _ hn
  have hdiv : c * fs.entSize / fs.bytesPerSector = 0 := Nat.div_eq_of_lt (by omega)
  have hpos : fatEntryPos fs fs.entSize c = (fs.fatStartSector, c * fs.entSize) := by
    simp only [fatEntryPos]
    rw [u32_of_lt (show c * fs.entSize < 4294967296 by omega), hdiv, Nat.add_zero,
      u32_of_lt (by omega), Nat.mod_eq_of_lt (by omega)]
  refine ⟨by rw [hpos]; exact hc, by rw [hpos]; dsimp only; omega, by omega, by rw [hdiv]; omega,
    fun hn => ?_⟩
  have := htwo hn
  rw [hdiv]
  omega

theorem MountedFields.entrySafe_of_held {c : Nat} (hc : c < fs.entriesHeld) (hlt : c < 32770) :
    EntrySafe fs fs.entSize c := by
  unfold FatFs.entriesHeld at hc
  split at hc
  · rename_i hbps
    refine (H.entrySafe_iff h hbps).mpr ⟨?_, ?_⟩
    · rcases fs.entSize_cases with hw | hw <;> rw [hw] at hc ⊢ <;> omega
    · rcases fs.entSize_cases with hw | hw <;> rw [hw] <;> omega
  · rename_i hbps
    refine H.entrySafe_of_wide h hbps ?_
    rcases fs.entSize_cases with hw | hw <;> rw [hw] at hc ⊢ <;> omega

theorem MountedFields.not_entrySafe_held : ¬EntrySafe fs fs.entSize fs.entriesHeld := by
  unfold FatFs.entriesHeld
  split
  · rename_i hbps
    rw [H.entrySafe_iff h hbps]
    rintro ⟨hroom, -⟩
    rcases fs.entSize_cases with hw | hw <;> rw [hw] at hroom <;> omega
  · rename_i hbps
    intro he
    have hindex := he.index
    have hwide : 1024 ≤ fs.bytesPerSector := by
      have := H.bps
      omega
    have hend : 512 / fs.entSize * fs.entSize = 512 := by
      rcases fs.entSize_cases with hw | hw <;> rw [hw]
    simp only [fatEntryPos, hend] at hindex
    rw [u32_of_lt (by omega), Nat.mod_eq_of_lt (by omega)] at hindex
    rcases fs.entSize_cases with hw | hw <;> rw [hw] at hindex <;> omega

theorem MountedFields.scanSafe_iff : ScanSafe env fs d ↔ ScanFits env fs d := by
  have hlimit := scanLimit_le fs
  have hsec : ∀ c, c < fs.entriesHeld → c < 32770 →
      (fatEntryPos fs fs.entSize c).1 ≠ 0xFFFFFFFF := by
    intro c hc hlt
    have hin := (H.entrySafe_of_held h hc hlt).inFat.2
    have hone : 1 * fs.fatSizeSectors ≤ fs.numFats * fs.fatSizeSectors :=
      Nat.mul_le_mul_right _ H.numFats.1
    have hstart := (H.dataStart_eq h).1
    unfold LayoutFits at h
    omega
  have htwo : 2 ≤ fs.entriesHeld := by
    have hsize := H.fatSize
    unfold FatFs.entriesHeld
    rcases fs.entSize_cases with hw | hw <;> rw [hw] <;> split <;> omega
  refine forall_congr' fun _ => ⟨fun hsafe => ?_, fun hfits c hc hlt hreach => ?_⟩
  · refine or_iff_not_imp_left.mpr fun hlong => ?_
    by_contra hnone
    have hreach : ScanReaches env fs d fs.entriesHeld :=
      (scanReaches_iff fun c _ hc => hsec c hc (by omega)).mpr fun c hc hlt hstop =>
        hnone ⟨c, hc, hlt, hstop⟩
    exact H.not_entrySafe_held h (hsafe _ htwo (by omega) hreach)
  · refine H.entrySafe_of_held h ?_ (by omega)
    rcases hfits with hlong | ⟨x, hx, hheld, hstop⟩
    · omega
    · by_contra hpast
      -- the scan has come past the entry that stops it
      have hpassed := (scanReaches_iff fun c' _ hc' => hsec c' (by omega) (by omega)).mp
        (hreach.of_le (show x + 1 ≤ c by omega))
      exact hpassed x hx (Nat.lt_succ_self x) hstop

end

/-- **Safe cluster numbers.**  On every volume that `fat_mount` accepts, the driver's
    computations for a cluster number are safe exactly when the areas end below block 2^32, the
    scan for a free cluster fits the FAT, and the number fits the volume. -/
theorem clusterSafe_iff {env : Env} {bdev : Nat} {image : Disk} {fs : FatFs} {lba total : Nat}
    {sec : Buf} (hboot : findBoot env image = some (lba, sec, total))
    (hm : fatMount env bdev image = some fs) (d : Disk) (c : Nat) :
    ClusterSafe env fs total d c ↔
      LayoutFits fs ∧ ScanFits env fs d ∧ (c < 2 ∨ FitsVolume fs c) := by
  obtain ⟨hvalid, hlba⟩ := findBoot_valid hboot
  have hat : mountAt bdev lba sec total = some fs := by
    simpa only [fatMount, hboot] using hm
  have H := mountedFields hvalid hlba hat
  have hsec : 2 ≤ c → fs.dataStartSector + (c - 1) * fs.sectorsPerCluster ≤ 4294967296 →
      clusterSector fs c = fs.dataStartSector + (c - 2) * fs.sectorsPerCluster ∧
        (c - 2) * fs.sectorsPerCluster < 4294967296 := by
    intro hc hend
    have hspc := H.spc.1
    have hmul : (c - 1) * fs.sectorsPerCluster = (c - 2) * fs.sectorsPerCluster +
        fs.sectorsPerCluster := by
      rw [show c - 1 = (c - 2) + 1 by omega, Nat.succ_mul]
    have hlt : (c - 2) * fs.sectorsPerCluster < 4294967296 := by omega
    rw [clusterSector, u32_of_lt hlt, u32_of_lt (by omega)]
    exact ⟨rfl, hlt⟩
  constructor
  · rintro ⟨hsums, hscan, hentry, hdata⟩
    have hlayout : LayoutFits fs := by
      have hstart := H.fatStart
      rw [u32_of_lt hsums.fatStart] at hstart
      have := hsums.dataStart
      unfold LayoutFits
      omega
    refine ⟨hlayout, (H.scanSafe_iff hlayout).mp hscan, ?_⟩
    rcases Nat.lt_or_ge c 2 with hc | hc
    · exact .inl hc
    · have hbps := H.bps_of_slot (hdata hc).slot
      have hend := (H.sector_iff hc hbps).mp (hdata hc).sector
      exact .inr ⟨hbps, (H.inVolume_iff hc hlayout (hsec hc hend).1).mp (hdata hc).inVolume,
        fun ht => (H.entrySafe_iff hlayout hbps).mp (hentry hc ht), hend⟩
  · rintro ⟨hlayout, hscan, hc⟩
    obtain ⟨hstart, _⟩ := H.dataStart_eq hlayout
    have hsums := hlayout
    unfold LayoutFits at hsums
    refine ⟨⟨by omega, by omega, by omega, by omega⟩, (H.scanSafe_iff hlayout).mpr hscan,
      fun h2 ht => ?_, fun h2 => ?_⟩
    · obtain ⟨hbps, -, hroom, -⟩ := hc.resolve_left (by omega)
      exact (H.entrySafe_iff hlayout hbps).mpr (hroom ht)
    · obtain ⟨hbps, hlt, -, hend⟩ := hc.resolve_left (by omega)
      refine ⟨(H.inVolume_iff h2 hlayout (hsec h2 hend).1).mpr hlt, fun e _ => ?_, (hsec h2 hend).2,
        (H.sector_iff h2 hbps).mpr hend⟩
      rw [hbps]
      omega

/-- On the small volume the first data cluster is safe. -/
theorem clusterSafe_smallImage : ClusterSafe Env.ideal smallFs 4200 smallImage 2 := by
  obtain ⟨⟨lba, sec, total⟩, hboot⟩ : ∃ r, findBoot Env.ideal smallImage = some r :=
    Option.isSome_iff_exists.mp (by decide +kernel)
  have htotal : (findBoot Env.ideal smallImage).map (·.2.2) = some 4200 := by decide +kernel
  rw [hboot, Option.map_some, Option.some.injEq] at htotal
  subst htotal
  exact (clusterSafe_iff hboot fatMount_smallImage smallImage 2).mpr
    ⟨by decide, fun _ => .inl (by decide), .inr (by unfold FitsVolume; decide)⟩

/-- A header with 1024-byte sectors, and a directory slot that names cluster 256. -/
def wideSectorDisk : Disk := fun a =>
  if a = 0 then 0xEB
  else if a = 12 then 0x04
  else if a = 13 ∨ a = 14 ∨ a = 16 then 0x01
  else if a = 17 then 0x20
  else if a = 19 then 0x88
  else if a = 20 then 0x13
  else if a = 22 then 0x14
  else if a = 510 then 0x55
  else if a = 511 then 0xAA
  else if a = 21 * 512 + 27 then 0x01
  else 0

/-- The driver accepts it and then reads the FAT entry of cluster 256 behind the end of
    its sector buffer. -/
theorem not_clusterSafe_wideSectorDisk : ∃ fs lba sec total c,
    findBoot Env.ideal wideSectorDisk = some (lba, sec, total) ∧
    fatMount Env.ideal 0 wideSectorDisk = some fs ∧
    Obtainable Env.ideal fs wideSectorDisk c ∧
    ¬ ClusterSafe Env.ideal fs total wideSectorDisk c := by
  obtain ⟨fs, hfs⟩ : ∃ fs, fatMount Env.ideal 0 wideSectorDisk = some fs :=
    Option.isSome_iff_exists.mp (by decide +kernel)
  obtain ⟨⟨lba, sec, total⟩, hboot⟩ : ∃ r, findBoot Env.ideal wideSectorDisk = some r :=
    Option.isSome_iff_exists.mp (by decide +kernel)
  refine ⟨fs, lba, sec, total, 256, hboot, hfs, ?_, fun h => ?_⟩
  · have hslot : (slotAt wideSectorDisk (21 * 512)).cluster = 256 := by decide +kernel
    exact hslot ▸ Obtainable.entry (21 * 512)
  · have hcompute : (fatMount Env.ideal 0 wideSectorDisk).map
        (fun fs => (fs.type, (fatEntryPos fs fs.entSize 256).2 + fs.entSize)) =
          some (.fat16, 514) := by decide +kernel
    rw [hfs, Option.map_some] at hcompute
    simp only [Option.some.injEq, Prod.mk.injEq] at hcompute
    have hindex := (h.entry (by omega) (Or.inl hcompute.1)).index
    omega

end Gemios
