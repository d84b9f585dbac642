import Gemios.FatTable
import Mathlib.Tactic.Ring

/-!
# Layout of a sound volume

The layout a mounted FAT16 or FAT32 volume with 512-byte sectors must have for the
driver's address computations to be what they look like: the FAT has room for an
entry of every cluster, the FAT copies, the fixed root area and the data area
follow each other, and the data area ends below the last 32-bit sector number.
-/

namespace Gemios

def FatFs.entSize (fs : FatFs) : Nat := if fs.type = .fat32 then 4 else 2

/-- Layout of a well-formed FAT16 or FAT32 volume with 512-byte sectors. -/
structure FatFs.Sound (fs : FatFs) : Prop where
  type : fs.type = .fat16 ∨ fs.type = .fat32
  bps : fs.bytesPerSector = 512
  spc : 0 < fs.sectorsPerCluster
  bpc : fs.bytesPerCluster = 512 * fs.sectorsPerCluster
  numFats : 1 ≤ fs.numFats
  fatStart : 1 ≤ fs.fatStartSector
  fatRoom : (fs.totalClusters + 2) * fs.entSize ≤ fs.fatSizeSectors * 512
  fatEnd : fs.fatStartSector + fs.numFats * fs.fatSizeSectors ≤ fs.dataStartSector
  root : fs.rootDirSectors ≠ 0 →
    fs.fatStartSector + fs.numFats * fs.fatSizeSectors ≤ fs.rootDirStartSector ∧
      fs.rootDirStartSector + fs.rootDirSectors ≤ fs.dataStartSector
  dataEnd : fs.dataStartSector + fs.totalClusters * fs.sectorsPerCluster < 4294967296
  nonempty : 0 < fs.totalClusters
  clusters : fs.totalClusters + 2 ≤ fs.eofLimit

def FatFs.InRange (fs : FatFs) (c : Nat) : Prop := 2 ≤ c ∧ c < fs.totalClusters + 2

instance (fs : FatFs) (c : Nat) : Decidable (fs.InRange c) :=
  inferInstanceAs (Decidable (_ ∧ _))

namespace FatFs

/-- Byte address of the FAT entry of a cluster, in the first copy. -/
def entAddr (fs : FatFs) (c : Nat) : Nat := fs.fatStartSector * 512 + fs.entSize * c

def clusAddr (fs : FatFs) (c : Nat) : Nat :=
  (fs.dataStartSector + (c - 2) * fs.sectorsPerCluster) * 512

/-- Byte address at which the FAT copies end. -/
def fatEndAddr (fs : FatFs) : Nat :=
  (fs.fatStartSector + fs.numFats * fs.fatSizeSectors) * 512

/-- Byte address at which the data area begins. -/
def dataAddr (fs : FatFs) : Nat := fs.dataStartSector * 512

def InCluster (fs : FatFs) (c a : Nat) : Prop :=
  fs.clusAddr c ≤ a ∧ a < fs.clusAddr c + fs.bytesPerCluster

instance (fs : FatFs) (c a : Nat) : Decidable (fs.InCluster c a) :=
  inferInstanceAs (Decidable (_ ∧ _))

end FatFs

/-- Contents of the device after a cluster was written. -/
def setClus (fs : FatFs) (d : Disk) (c : Nat) (buf : Buf) : Disk := fun a =>
  if fs.InCluster c a then buf (a - fs.clusAddr c) else d a

theorem setClus_of_inCluster {fs : FatFs} {d : Disk} {c a : Nat} {buf : Buf}
    (h : fs.InCluster c a) : setClus fs d c buf a = buf (a - fs.clusAddr c) := if_pos h

theorem setClus_of_not {fs : FatFs} {d : Disk} {c a : Nat} {buf : Buf}
    (h : ¬ fs.InCluster c a) : setClus fs d c buf a = d a := if_neg h

section

variable (fs : FatFs)

theorem FatFs.eofLimit_le : fs.eofLimit ≤ 0x0FFFFFF8 := by
  unfold FatFs.eofLimit
  split <;> omega

theorem FatFs.le_eofLimit : 0xFFF8 ≤ fs.eofLimit := by
  unfold FatFs.eofLimit
  split <;> omega

theorem FatFs.entSize_cases : fs.entSize = 2 ∨ fs.entSize = 4 := by
  unfold FatFs.entSize
  split <;> simp

theorem FatFs.cluster_sectors_le {c : Nat} (hc : fs.InRange c) :
    (c - 2) * fs.sectorsPerCluster + fs.sectorsPerCluster ≤
      fs.totalClusters * fs.sectorsPerCluster := by
  have h : c - 2 + 1 ≤ fs.totalClusters := by
    have := hc.1
    have := hc.2
    omega
  calc (c - 2) * fs.sectorsPerCluster + fs.sectorsPerCluster
      = (c - 2 + 1) * fs.sectorsPerCluster := by ring
    _ ≤ fs.totalClusters * fs.sectorsPerCluster := Nat.mul_le_mul_right _ h

theorem FatFs.clusterSector_of_end {c : Nat} (hc : fs.InRange c) (hspc : 0 < fs.sectorsPerCluster)
    (hend : fs.dataStartSector + fs.totalClusters * fs.sectorsPerCluster < 4294967296) :
    clusterSector fs c = fs.dataStartSector + (c - 2) * fs.sectorsPerCluster := by
  have h1 := fs.cluster_sectors_le hc
  have h2 : u32 ((c - 2) * fs.sectorsPerCluster) = (c - 2) * fs.sectorsPerCluster :=
    u32_of_lt (by omega)
  rw [clusterSector, h2, u32_of_lt (by omega)]

theorem FatFs.not_clusterGuard {c : Nat} (hspc : 0 < fs.sectorsPerCluster) (hc : 2 ≤ c) :
    ¬ (c < 2 ∨ fs.sectorsPerCluster = 0) := by omega

theorem FatFs.dataAddr_le_clusAddr (c : Nat) : fs.dataAddr ≤ fs.clusAddr c :=
  Nat.mul_le_mul_right 512 (Nat.le_add_right _ _)

end

section

variable {fs : FatFs} (hs : fs.Sound)

include hs

theorem FatFs.Sound.bpc_pos : 0 < fs.bytesPerCluster := by
  have := hs.spc
  rw [hs.bpc]
  omega

theorem FatFs.Sound.lt_eofLimit {c : Nat} (hc : fs.InRange c) : c < fs.eofLimit :=
  Nat.lt_of_lt_of_le hc.2 hs.clusters

theorem FatFs.Sound.clusterSector_eq {c : Nat} (hc : fs.InRange c) :
    clusterSector fs c = fs.dataStartSector + (c - 2) * fs.sectorsPerCluster :=
  fs.clusterSector_of_end hc hs.spc hs.dataEnd

theorem FatFs.Sound.clusterSector_addr {c : Nat} (hc : fs.InRange c) :
    clusterSector fs c * 512 = fs.clusAddr c := by
  rw [hs.clusterSector_eq hc, FatFs.clusAddr]

theorem FatFs.Sound.fatEndAddr_le_dataAddr : fs.fatEndAddr ≤ fs.dataAddr :=
  Nat.mul_le_mul_right 512 hs.fatEnd

theorem FatFs.Sound.clusAddr_add_le {c c' : Nat} (hc : fs.InRange c) (h : c < c') :
    fs.clusAddr c + fs.bytesPerCluster ≤ fs.clusAddr c' := by
  have hstep : (c - 2) * fs.sectorsPerCluster + fs.sectorsPerCluster ≤
      (c' - 2) * fs.sectorsPerCluster := by
    have h1 : c - 2 + 1 ≤ c' - 2 := by
      have := hc.1
      omega
    calc (c - 2) * fs.sectorsPerCluster + fs.sectorsPerCluster
        = (c - 2 + 1) * fs.sectorsPerCluster := by ring
      _ ≤ (c' - 2) * fs.sectorsPerCluster := Nat.mul_le_mul_right _ h1
  rw [hs.bpc]
  unfold FatFs.clusAddr
  omega

theorem FatFs.Sound.inCluster_unique {c c' a : Nat} (hc : fs.InRange c) (hc' : fs.InRange c')
    (h : fs.InCluster c a) (h' : fs.InCluster c' a) : c = c' := by
  rcases Nat.lt_trichotomy c c' with hlt | heq | hgt
  · have := hs.clusAddr_add_le hc hlt
    have := h.2
    have := h'.1
    omega
  · exact heq
  · have := hs.clusAddr_add_le hc' hgt
    have := h'.2
    have := h.1
    omega

/-! ### Reading and writing a cluster -/

variable (env : Env) [env.NoFault]

theorem readCluster_eq (d : Disk) {c : Nat} (hc : fs.InRange c) :
    readCluster env fs d c = some fun i => d (fs.clusAddr c + i) := by
  rw [readCluster, if_neg (fs.not_clusterGuard hs.spc hc.1), bdevRead_eq, hs.clusterSector_addr hc]

theorem writeCluster_eq (d : Disk) {c : Nat} (hc : fs.InRange c) (buf : Buf) :
    writeCluster env fs d c buf = (0, setClus fs d c buf) := by
  have haddr := hs.clusterSector_addr hc
  have hend : (clusterSector fs c + fs.sectorsPerCluster) * 512 =
      fs.clusAddr c + fs.bytesPerCluster := by
    rw [Nat.add_mul, haddr, hs.bpc]
    omega
  have hblit : d.blit (clusterSector fs c) fs.sectorsPerCluster buf = setClus fs d c buf := by
    funext a
    simp only [Disk.blit, haddr, hend]
    by_cases h : fs.InCluster c a
    · rw [setClus_of_inCluster h]
      exact if_pos h
    · rw [setClus_of_not h]
      exact if_neg h
  rw [writeCluster, if_neg (fs.not_clusterGuard hs.spc hc.1), bdevWrite_eq, hblit]

end

end Gemios
