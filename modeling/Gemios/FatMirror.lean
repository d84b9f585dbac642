import Gemios.FatChain
import Gemios.FatRemove

/-!
# The copies of the FAT

`set_fat_entry` writes an updated sector to the first copy of the FAT and mirrors it
to the second.  On a volume with at most two copies they stay equal through every
operation, as long as the cluster numbers the driver comes by lie in the volume.
-/

namespace Gemios

/-- All copies of the FAT hold the same bytes. -/
def CopiesEqual (fs : FatFs) (d : Disk) : Prop :=
  ∀ k, k < fs.numFats → ∀ i, i < fs.fatSizeSectors * 512 →
    d ((fs.fatStartSector + k * fs.fatSizeSectors) * 512 + i) = d (fs.fatStartSector * 512 + i)

/-- The sizes that the driver's walks over directories are made for. -/
structure FatFs.Sized (fs : FatFs) : Prop where
  bps : fs.bytesPerSector = 512
  spc : 0 < fs.sectorsPerCluster
  bpc : fs.bytesPerCluster = 512 * fs.sectorsPerCluster

/-- Layout of a volume of any type with 512-byte sectors whose sector numbers fit 32
    bits; a FAT16 or FAT32 has room for an entry of every cluster. -/
structure FatFs.Placed (fs : FatFs) : Prop where
  bps : fs.bytesPerSector = 512
  spc : 0 < fs.sectorsPerCluster
  bpc : fs.bytesPerCluster = 512 * fs.sectorsPerCluster
  numFats : 1 ≤ fs.numFats
  fatStart : 1 ≤ fs.fatStartSector
  fatEnd : fs.fatStartSector + fs.numFats * fs.fatSizeSectors ≤ fs.dataStartSector
  root : fs.rootDirSectors ≠ 0 →
    fs.fatStartSector + fs.numFats * fs.fatSizeSectors ≤ fs.rootDirStartSector ∧
      fs.rootDirStartSector + fs.rootDirSectors ≤ fs.dataStartSector
  dataEnd : fs.dataStartSector + fs.totalClusters * fs.sectorsPerCluster < 4294967296
  table : fs.type = .fat16 ∨ fs.type = .fat32 →
    (fs.totalClusters + 2) * fs.entSize ≤ fs.fatSizeSectors * 512 ∧ 0 < fs.totalClusters ∧
      fs.totalClusters + 2 ≤ fs.eofLimit

/-- Every FAT entry leads to a cluster of the volume or nowhere. -/
def EntriesOk (env : Env) (fs : FatFs) (d : Disk) : Prop :=
  ∀ c, fs.InRange c →
    getNextCluster env fs d c = noCluster ∨ fs.InRange (getNextCluster env fs d c)

structure Mirrored (env : Env) (fs : FatFs) (d : Disk) : Prop where
  copies : CopiesEqual fs d
  entries : EntriesOk env fs d

/-- A volume whose FAT the driver updates has one or two copies of it. -/
def FatFs.TwoCopies (fs : FatFs) : Prop := fs.type = .fat16 ∨ fs.type = .fat32 → fs.numFats ≤ 2

/-- A cluster number that is 0, 1 or in the volume. -/
def ClusOk (fs : FatFs) (c : Nat) : Prop := c < 2 ∨ fs.InRange c

def OutSec (fs : FatFs) (sec : Nat) : Prop :=
  sec < fs.fatStartSector ∨ fs.fatStartSector + fs.numFats * fs.fatSizeSectors ≤ sec

/-- A sector of the fixed root area or of the data area. -/
def DirSec (fs : FatFs) (sec : Nat) : Prop :=
  fs.fatStartSector + fs.numFats * fs.fatSizeSectors ≤ sec ∧
    sec < fs.dataStartSector + fs.totalClusters * fs.sectorsPerCluster

section

variable {fs : FatFs} (hp : fs.Placed) (env : Env) [env.NoFault] {d : Disk}

include hp

theorem FatFs.Placed.sound (ht : fs.type = .fat16 ∨ fs.type = .fat32) : fs.Sound where
  type := ht
  bps := hp.bps
  spc := hp.spc
  bpc := hp.bpc
  numFats := hp.numFats
  fatStart := hp.fatStart
  fatRoom := (hp.table ht).1
  fatEnd := hp.fatEnd
  root := hp.root
  dataEnd := hp.dataEnd
  nonempty := (hp.table ht).2.1
  clusters := (hp.table ht).2.2

omit [env.NoFault] in
theorem FatFs.Placed.sized : fs.Sized := ⟨hp.bps, hp.spc, hp.bpc⟩

omit hp in
theorem FatFs.Sized.readCluster_eq (hz : fs.Sized) {c : Nat} (hc : 2 ≤ c) (d : Disk) :
    readCluster env fs d c = some fun i => d (clusterSector fs c * 512 + i) := by
  rw [readCluster, if_neg (fs.not_clusterGuard hz.spc hc), bdevRead_eq]

theorem FatFs.Placed.clusterSector_eq {c : Nat} (hc : fs.InRange c) :
    clusterSector fs c = fs.dataStartSector + (c - 2) * fs.sectorsPerCluster :=
  fs.clusterSector_of_end hc hp.spc hp.dataEnd

theorem FatFs.Placed.dirSec {c k : Nat} (hc : fs.InRange c) (hk : k < fs.sectorsPerCluster) :
    DirSec fs (fs.dataStartSector + (c - 2) * fs.sectorsPerCluster + k) := by
  have h1 := fs.cluster_sectors_le hc
  have h2 := hp.fatEnd
  constructor <;> omega

omit hp in
theorem DirSec.out {sec : Nat} (h : DirSec fs sec) : OutSec fs sec := Or.inr h.1

/-! ### Elementary writes -/

omit hp [env.NoFault] in
theorem no_table (ht : ¬ (fs.type = .fat16 ∨ fs.type = .fat32)) (d : Disk) :
    (∀ c, getNextCluster env fs d c = noCluster) ∧
      (∀ c v, (setFatEntry env fs d c v).2 = d) ∧ allocFreeCluster env fs d = (0, d) := by
  rw [not_or] at ht
  refine ⟨fun c => ?_, fun c v => ?_, ?_⟩
  · unfold getNextCluster
    split
    · rfl
    · split
      · next h => exact absurd h ht.1
      · next h => exact absurd h ht.2
      · rfl
  · unfold setFatEntry
    split
    · rfl
    · split
      · next h => exact absurd h ht.1
      · next h => exact absurd h ht.2
      · rfl
  · unfold allocFreeCluster
    dsimp only
    split
    · next h => exact absurd h ht.1
    · next h => exact absurd h ht.2
    · rfl

theorem getNextCluster_outside {d' : Disk} {c : Nat} (hc : fs.InRange c)
    (hout : ∀ a, fs.fatStartSector * 512 ≤ a → a < fs.fatEndAddr → d' a = d a) :
    getNextCluster env fs d' c = getNextCluster env fs d c := by
  by_cases ht : fs.type = .fat16 ∨ fs.type = .fat32
  · have hs := hp.sound ht
    rw [getNextCluster_eq hs env d' hc, getNextCluster_eq hs env d hc, fatEnt_congr hs hc.2 hout]
  · rw [(no_table env ht d').1, (no_table env ht d).1]

theorem Mirrored.of_outside {d' : Disk} (h : Mirrored env fs d)
    (hout : ∀ a, fs.fatStartSector * 512 ≤ a → a < fs.fatEndAddr → d' a = d a) :
    Mirrored env fs d' := by
  constructor
  · intro k hk i hi
    have hle : (k + 1) * fs.fatSizeSectors ≤ fs.numFats * fs.fatSizeSectors :=
      Nat.mul_le_mul_right _ hk
    have hone := Nat.le_mul_of_pos_left fs.fatSizeSectors hp.numFats
    rw [Nat.succ_mul] at hle
    have hcopy : fs.fatStartSector * 512 ≤ (fs.fatStartSector + k * fs.fatSizeSectors) * 512 + i ∧
        (fs.fatStartSector + k * fs.fatSizeSectors) * 512 + i < fs.fatEndAddr := by
      unfold FatFs.fatEndAddr
      omega
    have hfirst : fs.fatStartSector * 512 + i < fs.fatEndAddr := by
      unfold FatFs.fatEndAddr
      omega
    rw [hout _ hcopy.1 hcopy.2, hout _ (Nat.le_add_right _ _) hfirst]
    exact h.copies k hk i hi
  · intro c hc
    rw [getNextCluster_outside hp env hc hout]
    exact h.entries c hc

theorem bdevWrite_mirrored {sec : Nat} (hsec : OutSec fs sec) (h : Mirrored env fs d) (buf : Buf) :
    Mirrored env fs (bdevWrite env d sec 1 buf).2 := by
  rw [bdevWrite_eq]
  refine h.of_outside hp env fun a h1 h2 => if_neg ?_
  unfold FatFs.fatEndAddr at h2
  rcases hsec with hs | hs <;> omega

theorem writeCluster_mirrored {c : Nat} (hc : fs.InRange c) (h : Mirrored env fs d) (buf : Buf) :
    (writeCluster env fs d c buf).1 = 0 ∧ Mirrored env fs (writeCluster env fs d c buf).2 := by
  rw [writeCluster, if_neg (fs.not_clusterGuard hp.spc hc.1), bdevWrite_eq, hp.clusterSector_eq hc]
  refine ⟨rfl, h.of_outside hp env fun a _ h2 => if_neg ?_⟩
  have h3 := hp.fatEnd
  unfold FatFs.fatEndAddr at h2
  omega

omit hp in
theorem copiesEqual_setEnt (hs : fs.Sound) (h2 : fs.numFats ≤ 2) {c : Nat} (hc : fs.InRange c)
    (v : Nat) (h : CopiesEqual fs d) : CopiesEqual fs (setEnt fs d c v) := by
  intro k hk i hi
  have hsec := hs.entSector_lt hc.2
  have hge : fs.fatStartSector ≤ fs.entSector c := Nat.le_add_right _ _
  have haddr := fs.entAddr_sector c
  -- the first copy lies before every mirrored sector
  have hfirst : setEnt fs d c v (fs.fatStartSector * 512 + i) =
      entPut fs d (fs.entAddr c) v (fs.fatStartSector * 512 + i) := if_neg (by omega)
  rcases Nat.eq_zero_or_pos k with rfl | hpos
  · rw [Nat.zero_mul, Nat.add_zero]
  · obtain rfl : k = 1 := by omega
    have hcopy := h 1 hk i hi
    rw [Nat.one_mul] at hcopy ⊢
    rw [hfirst]
    by_cases hin : (fs.entSector c + fs.fatSizeSectors) * 512 ≤
        (fs.fatStartSector + fs.fatSizeSectors) * 512 + i ∧
        (fs.fatStartSector + fs.fatSizeSectors) * 512 + i <
          (fs.entSector c + fs.fatSizeSectors + 1) * 512
    · rw [setEnt, if_pos ⟨hk, hin⟩]
      have hshift : (fs.fatStartSector + fs.fatSizeSectors) * 512 + i - fs.fatSizeSectors * 512 =
          fs.fatStartSector * 512 + i := by omega
      rw [hshift]
    · rw [setEnt, if_neg (fun hn => hin hn.2), entPut_of_ne fs (by omega), hcopy,
        entPut_of_ne fs (by omega)]

omit hp in
theorem EntriesOk.put (hs : fs.Sound) (h : EntriesOk env fs d) {c v : Nat}
    (hv : v < 2 ∨ fs.InRange v ∨ v = fs.eofVal) {d' : Disk}
    (hent : ∀ x, fs.InRange x →
      fs.fatEnt d' x = if x = c then v % fs.entMod else fs.fatEnt d x) : EntriesOk env fs d' := by
  intro x hx
  rw [getNextCluster_eq hs env _ hx, hent x hx]
  have hold := h x hx
  rw [getNextCluster_eq hs env _ hx] at hold
  by_cases hxc : x = c
  · rw [if_pos hxc]
    rcases hv with hv | hv | hv
    · have : v % fs.entMod ≤ v := Nat.mod_le _ _
      rw [if_pos (Or.inl (by omega))]
      exact Or.inl rfl
    · have h1 := hs.lt_eofLimit hv
      have h3 := fs.eofLimit_lt_entMod
      rw [Nat.mod_eq_of_lt (by omega)]
      split
      · exact Or.inl rfl
      · exact Or.inr hv
    · rw [hv, fs.eofVal_mod, if_pos (Or.inr (Or.inl fs.eofLimit_le_eofVal))]
      exact Or.inl rfl
  · rw [if_neg hxc]
    exact hold

variable (h2 : fs.TwoCopies)

include h2

theorem setFatEntry_mirrored {c v : Nat} (hc : ClusOk fs c)
    (hv : v < 2 ∨ fs.InRange v ∨ v = fs.eofVal) (h : Mirrored env fs d) :
    Mirrored env fs (setFatEntry env fs d c v).2 := by
  rcases hc with hlt | hc
  · rw [setFatEntry, if_pos hlt]
    exact h
  · by_cases ht : fs.type = .fat16 ∨ fs.type = .fat32
    · have hs := hp.sound ht
      rw [setFatEntry_eq hs env d hc]
      exact ⟨copiesEqual_setEnt hs (h2 ht) hc v h.copies,
        h.entries.put env hs hv fun x hx => fatEnt_setEnt hs d hx.2 v⟩
    · rw [(no_table env ht d).2.1]
      exact h

theorem allocFreeCluster_mirrored (h : Mirrored env fs d) :
    Mirrored env fs (allocFreeCluster env fs d).2 ∧
      ((allocFreeCluster env fs d).1 = 0 ∨ fs.InRange (allocFreeCluster env fs d).1) := by
  by_cases ht : fs.type = .fat16 ∨ fs.type = .fat32
  · have hs := hp.sound ht
    rw [allocFreeCluster_eq hs env]
    cases hfree : fs.freeCluster? d with
    | none => exact ⟨h, Or.inl rfl⟩
    | some n =>
      have hn := (freeCluster?_some hs hfree).1
      have hset := setFatEntry_mirrored hp env h2 (Or.inr hn) (Or.inr (Or.inr rfl)) h
      rw [setFatEntry_eq hs env d hn] at hset
      exact ⟨hset, Or.inr hn⟩
  · rw [(no_table env ht d).2.2]
    exact ⟨h, Or.inl rfl⟩

theorem writeLoop_mirrored (buf : Buf) (len : Nat) : ∀ (fuel : Nat) (d : Disk) (cur written : Nat),
    fs.InRange cur → Mirrored env fs d →
    Mirrored env fs (writeLoop env fs buf len fuel d cur written).2 := by
  intro fuel
  induction fuel with
  | zero =>
    intro d cur written _ h
    exact h
  | succ fuel ih =>
    intro d cur written hcur h
    rw [writeLoop]
    dsimp only
    generalize (written + if min fs.bytesPerCluster (len - written) > 0 then
      min fs.bytesPerCluster (len - written) else fs.bytesPerCluster) = written'
    obtain ⟨_, hw⟩ := writeCluster_mirrored hp env hcur h fun i =>
      if i < min fs.bytesPerCluster (len - written) then buf (written + i) else 0
    generalize writeCluster env fs d cur _ = r at *
    split
    · rename_i d₁ _
      dsimp only at hw
      split
      · exact setFatEntry_mirrored hp env h2 (Or.inr hcur) (Or.inr (Or.inr rfl)) hw
      · split
        · obtain ⟨ha, hc⟩ := allocFreeCluster_mirrored hp env h2 hw
          split
          · next heq =>
            rw [heq] at ha
            exact ha
          · next c d₂ hne heq =>
            rw [heq] at ha hc
            have hc := hc.resolve_left hne
            exact ih _ _ _ hc
              (setFatEntry_mirrored hp env h2 (Or.inr hcur) (Or.inr (Or.inl hc)) ha)
        · next hnext =>
          refine ih _ _ _ ?_ hw
          refine (hw.entries cur hcur).resolve_left fun h0 => ?_
          rw [h0] at hnext
          exact hnext (Or.inr (Nat.not_lt.mp (noCluster_not_lt fs)))
    · exact hw

end

end Gemios
