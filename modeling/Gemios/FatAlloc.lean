import Gemios.FatBounds
import Gemios.FatTableSpec

/-!
# What `alloc_free_cluster` finds

The entries of a mounted volume of any type, and the cluster taken from them.  The scan of
`alloc_free_cluster` ends at cluster 32769 on every volume and looks at nothing on FAT12; the
tool that fills an image, `allocate_free_cluster`, scans the whole volume.  `fat_mount` does
not check that the FAT is as long as the volume needs, so the second copy of an update may
fall on other entries.
-/

namespace Gemios

/-! ### The entries of a mounted volume -/

namespace FatFs

variable (fs : FatFs)

/-- The first byte of the entry of a cluster, counted from the start of the FAT. -/
def entOffset (c : Nat) : Nat := if fs.type = .fat12 then c + c / 2 else fs.entSize * c

/-- The block that holds a byte of the FAT; block numbers have 32 bits. -/
def tableSec (i : Nat) : Nat := u32 (fs.fatStartSector + i / 512)

def tableBytes (d : Disk) : Buf := fun i => d (fs.tableSec i * 512 + i % 512)

/-- The entry of a cluster: 12, 16 or 28 bits. -/
def tableEnt (d : Disk) (c : Nat) : Nat :=
  if fs.type = .fat12 then
    let val := le16 (fs.tableBytes d) (fs.entOffset c)
    if c % 2 = 1 then val / 16 else val % 4096
  else entGet fs (fs.tableBytes d) (fs.entOffset c)

def eocMark : Nat := if fs.type = .fat12 then 0xFF8 else fs.eofLimit

/-- The entries lie on the device, which counts its blocks in 32 bits. -/
structure TableOnDevice (blocks : Nat) : Prop where
  blocks_lt : blocks < 4294967296
  entry : ∀ c, c < fs.totalClusters + 2 → fs.tableSec (fs.entOffset c) < blocks

end FatFs

/-- What is asked of a cluster allocation: 0 when no cluster is free, and else a free cluster
    which is then marked as the end of a chain, with every other entry as before. -/
structure AllocSpec (fs : FatFs) (d : Disk) (r : Nat × Disk) : Prop where
  none_iff : r.1 = 0 ↔ ∀ c, fs.InRange c → fs.tableEnt d c ≠ 0
  taken : r.1 ≠ 0 → fs.InRange r.1 ∧ fs.tableEnt d r.1 = 0 ∧ fs.eocMark ≤ fs.tableEnt r.2 r.1 ∧
    ∀ c, c < fs.totalClusters + 2 → c ≠ r.1 → fs.tableEnt r.2 c = fs.tableEnt d c

structure FirstFree (fs : FatFs) (d : Disk) (c : Nat) : Prop where
  inRange : fs.InRange c
  free : fs.tableEnt d c = 0
  first : ∀ c', fs.InRange c' → c' < c → fs.tableEnt d c' ≠ 0

/-- The sector of the entry of `c` after `c` was marked. -/
def markedSector (fs : FatFs) (d : Disk) (c : Nat) : Buf :=
  entPut fs (fun i => d (fs.tableSec (fs.entOffset c) * 512 + i)) (fs.entOffset c % 512) fs.eofVal

/-- The second copy of the sector of `c` falls on no entry of the volume, or on entries that
    are the same in both. -/
def MirrorKeeps (fs : FatFs) (d : Disk) (c : Nat) : Prop :=
  1 < fs.numFats → ∀ c', c' < fs.totalClusters + 2 →
    fs.tableSec (fs.entOffset c') = u32 (fs.tableSec (fs.entOffset c) + fs.fatSizeSectors) →
    entGet fs (markedSector fs d c) (fs.entOffset c' % 512) = fs.tableEnt d c'

/-- When the allocation does what is asked: the first free cluster, if there is one, lies
    within the scan, on a volume that is not FAT12, and its mark does no harm elsewhere. -/
def AllocWorks (fs : FatFs) (d : Disk) : Prop :=
  ∀ c, FirstFree fs d c → fs.type ≠ .fat12 ∧ c < 32770 ∧ MirrorKeeps fs d c

theorem FirstFree.unique {fs : FatFs} {d : Disk} {c c' : Nat} (h : FirstFree fs d c)
    (h' : FirstFree fs d c') : c = c' := by
  rcases Nat.lt_trichotomy c c' with hlt | heq | hgt
  · exact absurd h.free (h'.first c h.inRange hlt)
  · exact heq
  · exact absurd h'.free (h.first c' h'.inRange hgt)

theorem FirstFree.exists {fs : FatFs} {d : Disk} {c : Nat} (hc : fs.InRange c)
    (hfree : fs.tableEnt d c = 0) : ∃ c', FirstFree fs d c' ∧ c' ≤ c := by
  have hex : ∃ c, fs.InRange c ∧ fs.tableEnt d c = 0 := ⟨c, hc, hfree⟩
  refine ⟨Nat.find hex, ⟨(Nat.find_spec hex).1, (Nat.find_spec hex).2, ?_⟩,
    Nat.find_min' hex ⟨hc, hfree⟩⟩
  intro c' hc' hlt h0
  exact Nat.find_min hex hlt ⟨hc', h0⟩

theorem fatMount_clusters {env : Env} {bdev : Nat} {d : Disk} {fs : FatFs}
    (hm : fatMount env bdev d = some fs) : fs.totalClusters < 4294967296 ∧
      (0 < fs.fatSizeSectors ∧ fs.fatSizeSectors < 4294967296) ∧
      fs.type = if fs.totalClusters < 4085 then .fat12
        else if fs.totalClusters < 65525 then .fat16 else .fat32 := by
  obtain ⟨lba, sec, total, hvalid, hat, H⟩ := fatMount_boot hm
  have htotal : total < 4294967296 := by
    have h16 := le16_lt sec 19
    have h32 := le32_lt sec 32
    simp only [isValidFatBpb, Option.ite_none_left_eq_some, Option.some.injEq] at hvalid
    obtain ⟨_, _, _, _, _, _, _, rfl⟩ := hvalid
    split <;> omega
  have hsize : fs.fatSizeSectors < 4294967296 := by
    have h16 := le16_lt sec 22
    have h32 := le32_lt sec 36
    simp only [mountAt, Option.ite_none_left_eq_some, Option.some.injEq] at hat
    obtain ⟨_, rfl⟩ := hat
    dsimp only
    split <;> omega
  refine ⟨?_, ⟨H.fatSize, hsize⟩, H.type⟩
  have hdiv := Nat.div_le_self (total - u32 (fs.dataStartSector + 4294967296 - fs.lbaOffset))
    fs.sectorsPerCluster
  rw [H.clusters]
  omega

/-! ### Entries of 16 and 32 bits -/

section

variable {fs : FatFs} (ht : fs.type = .fat16 ∨ fs.type = .fat32)

include ht

theorem not_fat12 : fs.type ≠ .fat12 := by
  rcases ht with ht | ht
  · rw [ht]
    decide
  · rw [ht]
    decide

theorem entOffset_eq (c : Nat) : fs.entOffset c = fs.entSize * c := if_neg (not_fat12 ht)

theorem tableEnt_eq (d : Disk) (c : Nat) : fs.tableEnt d c =
    entGet fs (fun i => d (fs.tableSec (fs.entOffset c) * 512 + i)) (fs.entOffset c % 512) := by
  rw [FatFs.tableEnt, if_neg (not_fat12 ht)]
  apply entGet_congr
  intro k hk
  have hsec : (fs.entOffset c + k) / 512 = fs.entOffset c / 512 ∧
      (fs.entOffset c + k) % 512 = fs.entOffset c % 512 + k := by
    rw [entOffset_eq ht]
    rcases fs.entSize_cases with h | h <;> rw [h] at hk ⊢ <;> omega
  rw [FatFs.tableBytes, FatFs.tableSec, FatFs.tableSec, hsec.1, hsec.2]

theorem fatEntryPos_table (hbps : fs.bytesPerSector = 512) {c : Nat} (hc : c < 1073741824) :
    fatEntryPos fs fs.entSize c = (fs.tableSec (fs.entOffset c), fs.entOffset c % 512) := by
  have hoff : u32 (c * fs.entSize) = fs.entOffset c := by
    rw [entOffset_eq ht, Nat.mul_comm]
    apply u32_of_lt
    rcases fs.entSize_cases with h | h <;> rw [h] <;> omega
  simp only [fatEntryPos, hoff, hbps]
  rfl

theorem entOffset_le (c : Nat) : fs.entOffset c ≤ 4 * c := by
  rw [entOffset_eq ht]
  apply Nat.mul_le_mul_right
  rcases fs.entSize_cases with h | h
  · omega
  · omega

theorem entOffset_apart (htotal : fs.totalClusters < 4294967296) {c c' : Nat}
    (hc : c < fs.totalClusters + 2) (hc' : c' < fs.totalClusters + 2) (hne : c' ≠ c)
    (hsec : fs.tableSec (fs.entOffset c') = fs.tableSec (fs.entOffset c)) :
    fs.entOffset c' % 512 + fs.entSize ≤ fs.entOffset c % 512 ∨
      fs.entOffset c % 512 + fs.entSize ≤ fs.entOffset c' % 512 := by
  have h1 := entOffset_le ht c
  have h2 := entOffset_le ht c'
  have hdiv : fs.entOffset c' / 512 = fs.entOffset c / 512 := by
    unfold FatFs.tableSec u32 at hsec
    omega
  rw [entOffset_eq ht, entOffset_eq ht] at hdiv ⊢
  rcases fs.entSize_cases with h | h <;> rw [h] at hdiv ⊢ <;> omega

theorem tableEnt_blit (d : Disk) (s : Nat) (b : Buf) (c : Nat) :
    fs.tableEnt (d.blit s 1 b) c = if fs.tableSec (fs.entOffset c) = s then
      entGet fs b (fs.entOffset c % 512) else fs.tableEnt d c := by
  have hfit : fs.entOffset c % 512 + fs.entSize ≤ 512 := by
    rw [entOffset_eq ht]
    rcases fs.entSize_cases with h | h <;> rw [h] <;> omega
  rw [tableEnt_eq ht]
  split
  · next hs =>
    apply entGet_congr
    intro k hk
    rw [Disk.blit, if_pos (by omega), hs, Nat.add_sub_cancel_left]
  · next hs =>
    rw [tableEnt_eq ht]
    apply entGet_congr
    intro k hk
    rw [Disk.blit, if_neg (by omega)]

theorem tableEnt_marked (htotal : fs.totalClusters < 4294967296) (d : Disk) {c c' : Nat}
    (hc : c < fs.totalClusters + 2) (hc' : c' < fs.totalClusters + 2)
    (hsec : fs.tableSec (fs.entOffset c') = fs.tableSec (fs.entOffset c)) :
    entGet fs (markedSector fs d c) (fs.entOffset c' % 512) =
      if c' = c then fs.eofVal else fs.tableEnt d c' := by
  unfold markedSector
  split
  · next h =>
    rw [h, entGet_entPut, fs.eofVal_mod]
  · next h =>
    have hapart := entOffset_apart ht htotal hc hc' h hsec
    rw [tableEnt_eq ht d c', hsec]
    apply entGet_congr
    intro k hk
    apply entPut_of_ne
    omega

variable (env : Env) [env.NoFault]

theorem tableEnt_setFatEntry (hbps : fs.bytesPerSector = 512)
    (hsize : 0 < fs.fatSizeSectors ∧ fs.fatSizeSectors < 4294967296)
    (htotal : fs.totalClusters < 4294967296) (d : Disk) {c : Nat} (hc : fs.InRange c)
    (hscan : c < 32770) {c' : Nat} (hc' : c' < fs.totalClusters + 2) :
    fs.tableEnt (setFatEntry env fs d c fs.eofVal).2 c' =
      if 1 < fs.numFats ∧ fs.tableSec (fs.entOffset c') =
          u32 (fs.tableSec (fs.entOffset c) + fs.fatSizeSectors) then
        entGet fs (markedSector fs d c) (fs.entOffset c' % 512)
      else if c' = c then fs.eofVal else fs.tableEnt d c' := by
  have hfirst : fs.tableEnt (d.blit (fs.tableSec (fs.entOffset c)) 1 (markedSector fs d c)) c' =
      if c' = c then fs.eofVal else fs.tableEnt d c' := by
    rw [tableEnt_blit ht]
    split
    · next hsec => exact tableEnt_marked ht htotal d hc.2 hc' hsec
    · next hsec =>
      rw [if_neg]
      rintro rfl
      exact hsec rfl
  rw [setFatEntry_at env d ht hc.1 (fatEntryPos_table ht hbps (by omega)), ← markedSector,
    writeFatSector, bdevWrite_eq]
  by_cases hn : 1 < fs.numFats
  · simp only [bdevWrite_eq, if_pos (show fs.numFats > 1 ∧ fs.fatSizeSectors > 0 from ⟨hn, hsize.1⟩)]
    rw [tableEnt_blit ht, hfirst]
    simp only [hn, true_and]
  · simp only [hn, false_and, if_false]
    exact hfirst

end

/-! ### The allocation -/

section

variable {fs : FatFs} {d : Disk}

theorem allocSpec_zero : AllocSpec fs d (0, d) ↔ ∀ c, fs.InRange c → fs.tableEnt d c ≠ 0 := by
  constructor
  · intro h
    exact h.none_iff.mp rfl
  · intro h
    exact ⟨⟨fun _ => h, fun _ => rfl⟩, fun hne => absurd rfl hne⟩

theorem allocWorks_of_none (h : ∀ c, fs.InRange c → fs.tableEnt d c ≠ 0) : AllocWorks fs d := by
  intro c hc
  exact absurd hc.free (h c hc.inRange)

theorem allocSpec_zero_iff (h : ∀ c, FirstFree fs d c → ¬ (fs.type ≠ .fat12 ∧ c < 32770)) :
    AllocSpec fs d (0, d) ↔ AllocWorks fs d := by
  rw [allocSpec_zero]
  constructor
  · exact allocWorks_of_none
  · intro hworks c hc h0
    obtain ⟨c', hfirst, _⟩ := FirstFree.exists hc h0
    obtain ⟨htype, hlt, _⟩ := hworks c' hfirst
    exact h c' hfirst ⟨htype, hlt⟩

variable (env : Env) [env.NoFault]

theorem allocSpec_taken_iff (ht : fs.type = .fat16 ∨ fs.type = .fat32)
    (hbps : fs.bytesPerSector = 512)
    (hsize : 0 < fs.fatSizeSectors ∧ fs.fatSizeSectors < 4294967296)
    (htotal : fs.totalClusters < 4294967296) {c : Nat} (hc : FirstFree fs d c)
    (hscan : c < 32770) :
    AllocSpec fs d (c, (setFatEntry env fs d c fs.eofVal).2) ↔ AllocWorks fs d := by
  have hent := fun {c'} (hc' : c' < fs.totalClusters + 2) =>
    tableEnt_setFatEntry ht env hbps hsize htotal d hc.inRange hscan hc'
  have hown : fs.tableSec (fs.entOffset c) ≠
      u32 (fs.tableSec (fs.entOffset c) + fs.fatSizeSectors) := by
    have hlt : fs.tableSec (fs.entOffset c) < 4294967296 := Nat.mod_lt _ (by omega)
    unfold u32
    omega
  have hself : fs.tableEnt (setFatEntry env fs d c fs.eofVal).2 c = fs.eofVal := by
    rw [hent hc.inRange.2, if_neg (fun h => hown h.2), if_pos rfl]
  have hne : c ≠ 0 := by
    have := hc.inRange.1
    omega
  constructor
  · intro hspec c' hc'
    rw [hc'.unique hc]
    refine ⟨not_fat12 ht, hscan, ?_⟩
    intro hn x hx hsec
    have hxc : x ≠ c := by
      rintro rfl
      exact hown hsec
    have hkept := (hspec.taken hne).2.2.2 x hx hxc
    rwa [hent hx, if_pos ⟨hn, hsec⟩] at hkept
  · intro hworks
    obtain ⟨_, _, hmirror⟩ := hworks c hc
    constructor
    · exact ⟨fun h => absurd h hne, fun h => absurd hc.free (h c hc.inRange)⟩
    · intro _
      refine ⟨hc.inRange, hc.free, ?_, ?_⟩
      · rw [hself, FatFs.eocMark, if_neg (not_fat12 ht)]
        exact fs.eofLimit_le_eofVal
      · intro x hx hxc
        by_cases h : 1 < fs.numFats ∧ fs.tableSec (fs.entOffset x) =
            u32 (fs.tableSec (fs.entOffset c) + fs.fatSizeSectors)
        · rw [hent hx, if_pos h]
          exact hmirror h.1 x hx h.2
        · rw [hent hx, if_neg h, if_neg hxc]

theorem allocSpec_iff_works {blocks : Nat} (hbps : fs.bytesPerSector = 512)
    (hsize : 0 < fs.fatSizeSectors ∧ fs.fatSizeSectors < 4294967296)
    (htotal : fs.totalClusters < 4294967296)
    (htype : fs.type = if fs.totalClusters < 4085 then .fat12
      else if fs.totalClusters < 65525 then .fat16 else .fat32)
    (hdev : fs.TableOnDevice blocks) :
    AllocSpec fs d (allocFreeCluster env fs d) ↔ AllocWorks fs d := by
  by_cases h12 : fs.totalClusters < 4085
  · rw [if_pos h12] at htype
    have hzero : allocFreeCluster env fs d = (0, d) := by simp only [allocFreeCluster, htype]
    rw [hzero]
    apply allocSpec_zero_iff
    intro c _ h
    exact h.1 htype
  · have ht : fs.type = .fat16 ∨ fs.type = .fat32 := by
      rw [if_neg h12] at htype
      split at htype
      · exact Or.inl htype
      · exact Or.inr htype
    have hlimit : fs.scanLimit ≤ fs.totalClusters ∧ fs.scanLimit ≤ 32768 ∧
        (fs.scanLimit = fs.totalClusters ∨ fs.scanLimit = 32768) := by
      unfold FatFs.scanLimit
      split <;> omega
    rw [@allocFreeCluster_at fs env _ d ht (fs.tableEnt d)]
    · cases hfind : (List.range' 2 fs.scanLimit).find? fun c => fs.tableEnt d c == 0 with
      | none =>
        apply allocSpec_zero_iff
        rintro c hc ⟨_, hlt⟩
        have hmem : c ∈ List.range' 2 fs.scanLimit := by
          have hrange := hc.inRange
          rw [List.mem_range'_1]
          exact ⟨hrange.1, by have := hrange.2; omega⟩
        exact List.find?_eq_none.mp hfind c hmem (beq_iff_eq.mpr hc.free)
      | some c =>
        have hmem := List.mem_range'_1.mp (List.mem_of_find?_eq_some hfind)
        have hfirst : FirstFree fs d c := by
          refine ⟨⟨hmem.1, by omega⟩, by simpa using List.find?_some hfind, ?_⟩
          intro c' hc' hlt h0
          have hbefore := (List.find?_range'_eq_some.mp hfind).2.2 c' hc'.1 hlt
          rw [h0] at hbefore
          cases hbefore
        exact allocSpec_taken_iff env ht hbps hsize htotal hfirst (by omega)
    · intro c hmem
      have hrange := List.mem_range'_1.mp hmem
      have hblock := hdev.entry c (by omega)
      have hblocks := hdev.blocks_lt
      refine ⟨_, _, fatEntryPos_table ht hbps (by omega), by omega, ?_⟩
      exact (tableEnt_eq ht d c).symm

end

/-! ### A volume whose first free cluster is not scanned -/

/-- A FAT16 volume of 40000 sectors on which cluster 32770 alone is free. -/
def nearlyFullDisk : Disk := fun a =>
  if a = 0 then 0xEB
  else if a = 12 then 0x02
  else if a = 13 ∨ a = 14 ∨ a = 16 then 0x01
  else if a = 17 then 0x10
  else if a = 19 then 0x40
  else if a = 20 then 0x9C
  else if a = 22 then 0x9D
  else if a = 510 then 0x55
  else if a = 511 then 0xAA
  else if a < 512 ∨ a = 66052 ∨ a = 66053 then 0
  else 0xFF

def nearlyFullFs : FatFs where
  bdev := 0
  type := .fat16
  lbaOffset := 0
  bytesPerSector := 512
  sectorsPerCluster := 1
  bytesPerCluster := 512
  reservedSectors := 1
  numFats := 1
  fatStartSector := 1
  fatSizeSectors := 157
  rootDirStartSector := 158
  rootDirSectors := 1
  dataStartSector := 159
  totalClusters := 39841
  rootCluster := 0

theorem nearlyFullDisk_table {a : Nat} (ha : 512 ≤ a) :
    nearlyFullDisk a = if a = 66052 ∨ a = 66053 then 0 else 0xFF := by
  have hlt : ∀ b, b < 512 → a ≠ b := fun b hb => by omega
  have hbelow : ¬a < 512 := by omega
  simp only [nearlyFullDisk, hlt 0, hlt 12, hlt 13, hlt 14, hlt 16, hlt 17, hlt 19, hlt 20, hlt 22,
    hlt 510, hlt 511, hbelow, Nat.reduceLT, false_or, or_self, if_false]

theorem nearlyFull_ent {c : Nat} (hc : c < 39843) :
    nearlyFullFs.tableEnt nearlyFullDisk c = if c = 32770 then 0 else 0xFFFF := by
  have hbyte : ∀ i, i < 79686 → nearlyFullFs.tableBytes nearlyFullDisk i =
      if i = 65540 ∨ i = 65541 then 0 else 0xFF := by
    intro i hi
    have haddr : nearlyFullFs.tableSec i * 512 + i % 512 = 512 + i := by
      have hsec : nearlyFullFs.tableSec i = 1 + i / 512 :=
        u32_of_lt (show 1 + i / 512 < 4294967296 by omega)
      rw [hsec]
      omega
    rw [FatFs.tableBytes, haddr, nearlyFullDisk_table (by omega)]
    simp only [show 512 + i = 66052 ↔ i = 65540 by omega, show 512 + i = 66053 ↔ i = 65541 by omega]
  have hent : nearlyFullFs.tableEnt nearlyFullDisk c =
      le16 (nearlyFullFs.tableBytes nearlyFullDisk) (2 * c) := rfl
  rw [hent, le16, hbyte _ (by omega), hbyte _ (by omega)]
  by_cases h : c = 32770
  · rw [if_pos h, if_pos (by omega), if_pos (by omega)]
    rfl
  · rw [if_neg h, if_neg (by omega), if_neg (by omega)]
    rfl

theorem nearlyFull_mount : fatMount Env.ideal 0 nearlyFullDisk = some nearlyFullFs := by
  decide +kernel

theorem nearlyFull_onDevice : nearlyFullFs.TableOnDevice 40000 := by
  refine ⟨by decide, ?_⟩
  intro c hc
  have hsec : nearlyFullFs.tableSec (nearlyFullFs.entOffset c) = u32 (1 + 2 * c / 512) := rfl
  have htotal : nearlyFullFs.totalClusters = 39841 := rfl
  rw [hsec]
  unfold u32
  omega

/-- **Cluster allocation.**  On a mounted volume `alloc_free_cluster` takes a free cluster
    when there is one, marks it and changes no other entry exactly when the volume is not
    FAT12, its first free cluster comes before cluster 32770, and the second copy of the mark
    changes no other entry; with no free cluster it returns 0. -/
theorem alloc_free_cluster_iff (env : Env) [env.NoFault] {fs : FatFs} {bdev blocks : Nat}
    {image : Disk}
    (hm : fatMount env bdev image = some fs) (hbps : fs.bytesPerSector = 512)
    (hdev : fs.TableOnDevice blocks) (d : Disk) :
    AllocSpec fs d (allocFreeCluster env fs d) ↔ AllocWorks fs d := by
  obtain ⟨htotal, hsize, htype⟩ := fatMount_clusters hm
  exact allocSpec_iff_works env hbps hsize htotal htype hdev

/-- Of cluster 32770 on the nearly full volume. -/
theorem alloc_free_cluster_nearlyFull :
    AllocSpec nearlyFullFs nearlyFullDisk
      (allocFreeCluster Env.ideal nearlyFullFs nearlyFullDisk) ↔
        AllocWorks nearlyFullFs nearlyFullDisk :=
  alloc_free_cluster_iff Env.ideal nearlyFull_mount rfl nearlyFull_onDevice nearlyFullDisk

/-- The allocation reports a full volume, and there is room. -/
theorem alloc_free_cluster_misses :
    fatMount Env.ideal 0 nearlyFullDisk = some nearlyFullFs ∧
      ¬ AllocSpec nearlyFullFs nearlyFullDisk
        (allocFreeCluster Env.ideal nearlyFullFs nearlyFullDisk) := by
  refine ⟨nearlyFull_mount, ?_⟩
  rw [allocSpec_iff_works Env.ideal rfl (by decide) (by decide) rfl nearlyFull_onDevice]
  intro hworks
  have hfirst : FirstFree nearlyFullFs nearlyFullDisk 32770 := by
    refine ⟨by decide, ?_, ?_⟩
    · rw [nearlyFull_ent (by omega), if_pos rfl]
    · intro c _ hlt h0
      rw [nearlyFull_ent (by omega), if_neg (by omega)] at h0
      cases h0
  exact absurd (hworks 32770 hfirst).2.1 (Nat.lt_irrefl _)

end Gemios
