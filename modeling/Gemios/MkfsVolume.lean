import Gemios.FatTreeRun
import Gemios.FatMirror

/-!
# A formatted image is an empty volume

What `main` of `src/tools/mkfs_fat.c` leaves in the FAT copies and in the root directory, and that
the driver finds an empty tree there: from a formatted image on, every run of calls is a run on a
tree of files.
-/

namespace Gemios

/-! ### What is behind the boot sector -/

namespace ImgFile

variable (f : ImgFile) (buf : Buf)

theorem write_data_of_mem {i : Nat} (hi : i < 512) : (f.write buf).data (f.pos + i) = buf i := by
  rw [write]
  simp only [Nat.le_add_right, Nat.add_lt_add_iff_left, hi, and_self, if_true,
    Nat.add_sub_cancel_left]

theorem writeTimes_zero_data {n a : Nat} (h : f.pos ≤ a) (h' : a < f.pos + 512 * n) :
    (f.writeTimes zeroSector n).data a = 0 := by
  induction n generalizing f with
  | zero => omega
  | succ n ih =>
    rw [writeTimes]
    by_cases hfirst : a < (f.write zeroSector).pos
    · rw [writeTimes_data_of_lt _ _ _ hfirst]
      obtain ⟨i, rfl⟩ := Nat.exists_eq_add_of_le h
      rw [write_pos] at hfirst
      exact write_data_of_mem f zeroSector (by omega)
    · rw [write_pos] at hfirst
      exact ih (f.write zeroSector) (by rw [write_pos]; omega) (by rw [write_pos]; omega)

theorem write_zeros_data {n i : Nat} (hbuf : ∀ j, 512 ≤ j → buf j = 0) (hi : i < 512 * (n + 1)) :
    ((f.write buf).writeTimes zeroSector n).data (f.pos + i) = buf i := by
  by_cases h512 : i < 512
  · rw [writeTimes_data_of_lt _ _ _ (by rw [write_pos]; omega)]
    exact write_data_of_mem f buf h512
  · rw [writeTimes_zero_data _ (by rw [write_pos]; omega) (by rw [write_pos]; omega),
      hbuf i (Nat.le_of_not_lt h512)]

end ImgFile

theorem firstFatSector_of_le (t : FatType) {j : Nat} (hj : 12 ≤ j) : firstFatSector t j = 0 := by
  have hlen : ∀ bytes : List UInt8, bytes.length ≤ 12 → putBytes zeroSector 0 bytes j = 0 := by
    intro bytes hbytes
    rw [putBytes_of_ne (by omega)]
    rfl
  unfold firstFatSector
  split
  · exact hlen _ (by decide)
  · split
    · exact hlen _ (by decide)
    · exact hlen _ (by decide)

theorem writeFatCopy_data (g : MkfsGeometry) (f : ImgFile) {i : Nat} (hi : i < g.fatSize * 512) :
    (writeFatCopy g f).data (f.pos + i) = firstFatSector g.fatType i :=
  f.write_zeros_data _ (fun j hj => firstFatSector_of_le _ (by omega)) (by omega)

/-- The bytes of the root directory: a label entry when a name was given. -/
def rootBytes (volName : Option (List UInt8)) : Buf :=
  match volName with
  | some (c :: cs) =>
    if c = 0 then zeroSector
    else putBytes (putBytes zeroSector 0 (formatVolumeLabel (c :: cs))) 11 [0x08]
  | _ => zeroSector

theorem rootBytes_of_le (volName : Option (List UInt8)) {j : Nat} (hj : 12 ≤ j) :
    rootBytes volName j = 0 := by
  unfold rootBytes
  split
  · next c cs =>
    split
    · rfl
    · have hlen := length_formatVolumeLabel (c :: cs)
      have hone : ([0x08] : List UInt8).length = 1 := rfl
      rw [putBytes_of_ne (by omega), putBytes_of_ne (by omega)]
      rfl
  · rfl

theorem writeRootDir_eq (volName : Option (List UInt8)) {sectors : Nat} (hpos : 0 < sectors)
    (f : ImgFile) : writeRootDir volName sectors f =
      (f.write (rootBytes volName)).writeTimes zeroSector (sectors - 1) := by
  obtain ⟨n, rfl⟩ : ∃ n, sectors = n + 1 := ⟨sectors - 1, by omega⟩
  rcases volName with _ | _ | ⟨c, cs⟩
  · rfl
  · rfl
  · simp only [writeRootDir, rootBytes]
    split <;> rfl

theorem writeRootDir_data (volName : Option (List UInt8)) {sectors : Nat} (f : ImgFile) {i : Nat}
    (hi : i < sectors * 512) : (writeRootDir volName sectors f).data (f.pos + i) = rootBytes volName i := by
  rw [writeRootDir_eq volName (by omega)]
  exact f.write_zeros_data _ (fun j hj => rootBytes_of_le _ (by omega)) (by omega)

def MkfsGeometry.rootSectors (g : MkfsGeometry) : Nat :=
  if g.fatType = .fat32 then g.secPerClus else g.rootDirSectors

/-- **What an image holds after formatting**, behind its boot sector. -/
structure Formatted (g : MkfsGeometry) (volName : Option (List UInt8)) (d : Disk) : Prop where
  fat : ∀ k, k < 2 → ∀ i, i < g.fatSize * 512 →
    d ((g.rsvdSecCnt + k * g.fatSize) * 512 + i) = firstFatSector g.fatType i
  root : ∀ i, i < g.rootSectors * 512 →
    d ((g.rsvdSecCnt + 2 * g.fatSize) * 512 + i) = rootBytes volName i

theorem formatted_of_pos {g : MkfsGeometry} (volName : Option (List UInt8)) {f f' : ImgFile}
    (hf : f.pos = g.rsvdSecCnt * 512) (hf' : f'.pos = (g.rsvdSecCnt + 2 * g.fatSize) * 512)
    (hdata : f'.data = (writeFatCopy g (writeFatCopy g f)).data) (hfat : 0 < g.fatSize)
    (hsectors : 0 < g.rootSectors) :
    Formatted g volName (writeRootDir volName g.rootSectors f').data := by
  have hroot := (writes_writeRootDir volName hsectors f').below
  have hpos := (writes_writeFatCopy g f).pos
  have hsecond := (writes_writeFatCopy g (writeFatCopy g f)).below
  constructor
  · intro k hk i hi
    obtain rfl | rfl : k = 0 ∨ k = 1 := by omega
    · rw [hroot _ (by omega), hdata, hsecond _ (by omega), Nat.zero_mul, Nat.add_zero, ← hf]
      exact writeFatCopy_data g f hi
    · have hat : (g.rsvdSecCnt + 1 * g.fatSize) * 512 + i = (writeFatCopy g f).pos + i := by
        rw [hpos, hf]
        omega
      rw [hroot _ (by omega), hdata, hat]
      exact writeFatCopy_data g _ hi
  · intro i hi
    rw [← hf']
    exact writeRootDir_data volName f' hi

/-- **What the tool writes.** -/
theorem writeVolume_formatted {g : MkfsGeometry} (volId : Nat) (volName : Option (List UInt8))
    (f : ImgFile) (hspc : 0 < g.secPerClus)
    (hrsvd : g.rsvdSecCnt = if g.fatType = .fat32 then 32 else 4)
    (hroot : g.fatType ≠ .fat32 → 0 < g.rootDirSectors) (hfat : 0 < g.fatSize)
    (hwrap : g.rsvdSecCnt + 2 * g.fatSize < 4294967296)
    (htype : g.fatType = .fat16 ∨ g.fatType = .fat32) :
    Formatted g volName (writeVolume g volId volName f).data := by
  unfold writeVolume
  dsimp only
  rcases htype with ht | ht
  · have hne : g.fatType ≠ .fat32 := by rw [ht]; decide
    rw [if_neg hne] at hrsvd
    have hsectors : g.rootSectors = g.rootDirSectors := if_neg hne
    rw [if_pos (Or.inr ht), ← hsectors]
    have hpos : ((f.seek 0).write (makeBpb g volId volName)).pos = 512 := rfl
    have hstart := ImgFile.writeTimes_pos ((f.seek 0).write (makeBpb g volId volName)) zeroSector
      (g.rsvdSecCnt - 1)
    rw [hpos] at hstart
    generalize ((f.seek 0).write (makeBpb g volId volName)).writeTimes zeroSector
      (g.rsvdSecCnt - 1) = f₁ at hstart
    have h1 := (writes_writeFatCopy g f₁).pos
    have h2 := (writes_writeFatCopy g (writeFatCopy g f₁)).pos
    exact formatted_of_pos volName (by omega) (by omega) rfl hfat (by rw [hsectors]; exact hroot hne)
  · have hsectors : g.rootSectors = g.secPerClus := if_pos ht
    have hdouble : u32 (2 * g.fatSize) = 2 * g.fatSize := u32_of_lt (by omega)
    have hwrap' : u32 (g.rsvdSecCnt + 2 * g.fatSize) = g.rsvdSecCnt + 2 * g.fatSize := u32_of_lt hwrap
    rw [if_neg (by rw [ht]; decide), hdouble, hwrap', ← hsectors]
    refine formatted_of_pos volName ?_ rfl (Eq.refl (writeFatCopy g (writeFatCopy g _)).data) hfat ?_
    · rfl
    · rw [hsectors]
      exact hspc

/-! ### The table of a formatted image -/

section

variable {g : MkfsGeometry} {volName : Option (List UInt8)} {d : Disk} {fs : FatFs}
  (hd : Formatted g volName d) (hs : fs.Sound) (htype : fs.type = g.fatType)
  (hstart : fs.fatStartSector = g.rsvdSecCnt) (hsize : fs.fatSizeSectors = g.fatSize)

include hd hs hstart hsize

theorem Formatted.fatEnt {c : Nat} (hc : fs.InRange c) :
    fs.fatEnt d c = entGet fs (firstFatSector g.fatType) (fs.entSize * c) := by
  apply entGet_congr
  intro k hk
  have hroom := hs.fatRoom
  have hmul : fs.entSize * (c + 1) ≤ fs.entSize * (fs.totalClusters + 2) :=
    Nat.mul_le_mul_left _ (Nat.succ_le_of_lt hc.2)
  rw [Nat.mul_succ, Nat.mul_comm fs.entSize (fs.totalClusters + 2)] at hmul
  have hfat := hd.fat 0 (by decide) (fs.entSize * c + k) (by rw [← hsize]; omega)
  rw [Nat.zero_mul, Nat.add_zero, ← hstart, ← Nat.add_assoc] at hfat
  exact hfat

include htype

theorem Formatted.fatEnt_free {c : Nat} (hc : fs.InRange c) (hroot : fs.type = .fat32 → c ≠ 2) :
    fs.fatEnt d c = 0 := by
  rw [hd.fatEnt hs hstart hsize hc]
  have hge := hc.1
  by_cases ht : fs.type = .fat32
  · have h4 : fs.entSize = 4 := if_pos ht
    have hne := hroot ht
    have hzero : le32 (firstFatSector g.fatType) (4 * c) = le32 zeroSector 0 :=
      le32_congr fun k _ => firstFatSector_of_le _ (by omega)
    rw [entGet, if_pos ht, h4, hzero]
    rfl
  · have h2 : fs.entSize = 2 := if_neg ht
    have ht16 : g.fatType = .fat16 := by
      rw [← htype]
      exact hs.type.resolve_right ht
    have hzero : le16 (firstFatSector g.fatType) (2 * c) = le16 zeroSector 0 := by
      apply le16_congr
      intro k hk
      have hlen : ([0xF8, 0xFF, 0xFF, 0xFF] : List UInt8).length = 4 := rfl
      rw [ht16, firstFatSector, if_neg (by decide), if_pos rfl, putBytes_of_ne (by omega)]
      rfl
    rw [entGet, if_neg ht, h2, hzero]
    rfl

theorem Formatted.fatEnt_root (ht : fs.type = .fat32) : fs.fatEnt d 2 = 0x0FFFFFFF := by
  have hpos := hs.nonempty
  rw [hd.fatEnt hs hstart hsize ⟨Nat.le_refl 2, by omega⟩, ← htype, entGet, if_pos ht,
    show fs.entSize = 4 from if_pos ht, ht]
  decide +kernel

theorem Formatted.rootChain (ht : fs.type = .fat32) (hroot : fs.rootCluster = 2) :
    IsChain fs d [fs.rootCluster] := by
  have hpos := hs.nonempty
  have hent := hd.fatEnt_root hs htype hstart hsize ht
  constructor
  · intro c hc
    rw [List.mem_singleton.mp hc, hroot]
    exact ⟨Nat.le_refl 2, by omega⟩
  · exact List.nodup_singleton _
  · have hle := fs.eofLimit_le
    rw [hroot]
    show fs.eofLimit ≤ fs.fatEnt d 2
    omega

end

/-! ### The volume the driver finds -/

theorem clusters_mul_le (total fixed spc : Nat) (hpos : 0 < (total - fixed) / spc) :
    fixed + (total - fixed) / spc * spc ≤ total := by
  have hle := Nat.div_mul_le_self (total - fixed) spc
  have hfix : 0 < total - fixed := by
    apply Nat.pos_of_ne_zero
    intro h0
    rw [h0, Nat.zero_div] at hpos
    omega
  omega

theorem mounted16_sound (bdev : Nat) {total spc z : Nat} (hspc : 0 < spc) (hmax : total < 4294967296)
    (htype : fatTypeOf ((total - (36 + 2 * z)) / spc) = .fat16)
    (hroom : entryEnd .fat16 ((total - (36 + 2 * z)) / spc + 1) ≤ z * 512) :
    (mounted16 bdev total spc z).Sound := by
  obtain ⟨hlow, hhigh⟩ := fatTypeOf_eq_fat16.mp htype
  have hdata := clusters_mul_le total (36 + 2 * z) spc (by omega)
  have hent : (mounted16 bdev total spc z).entSize = 2 := by
    rw [FatFs.entSize, show (mounted16 bdev total spc z).type = .fat16 from htype]
    rfl
  have hend : entryEnd .fat16 ((total - (36 + 2 * z)) / spc + 1) =
      ((total - (36 + 2 * z)) / spc + 2) * 2 := by
    simp only [entryEnd, reduceCtorEq, if_false, if_true]
    omega
  have hlimit := (mounted16 bdev total spc z).le_eofLimit
  rw [hend] at hroom
  constructor
  · exact Or.inl htype
  · rfl
  · exact hspc
  · rfl
  · exact Nat.le_succ 1
  · exact Nat.le_add_left 1 3
  · rw [hent]
    exact hroom
  · show 4 + 2 * z ≤ 36 + 2 * z
    omega
  · intro _
    show 4 + 2 * z ≤ 4 + 2 * z ∧ 4 + 2 * z + 32 ≤ 36 + 2 * z
    omega
  · exact Nat.lt_of_le_of_lt hdata hmax
  · exact Nat.lt_of_lt_of_le (by decide) hlow
  · exact Nat.le_trans (Nat.le_trans (Nat.add_le_add_right (Nat.le_of_lt hhigh) 2) (by decide)) hlimit

theorem mounted32_sound (bdev : Nat) {total spc z : Nat} (hspc : 0 < spc) (hmax : total < 4294967296)
    (htype : fatTypeOf ((total - (32 + 2 * z)) / spc) = .fat32)
    (hroom : entryEnd .fat32 ((total - (32 + 2 * z)) / spc + 1) ≤ z * 512)
    (hfew : (total - (32 + 2 * z)) / spc + 2 ≤ 0x0FFFFFF8) :
    (mounted32 bdev total spc z).Sound := by
  have hpos : 0 < (total - (32 + 2 * z)) / spc := by
    apply Nat.pos_of_ne_zero
    intro h0
    rw [h0] at htype
    cases htype
  have hdata := clusters_mul_le total (32 + 2 * z) spc hpos
  have hent : (mounted32 bdev total spc z).entSize = 4 := by
    rw [FatFs.entSize, show (mounted32 bdev total spc z).type = .fat32 from htype]
    rfl
  have hlimit : (mounted32 bdev total spc z).eofLimit = 0x0FFFFFF8 := if_pos htype
  have hend : entryEnd .fat32 ((total - (32 + 2 * z)) / spc + 1) =
      ((total - (32 + 2 * z)) / spc + 2) * 4 := by
    simp only [entryEnd, reduceCtorEq, if_false]
    omega
  rw [hend] at hroom
  constructor
  · exact Or.inr htype
  · rfl
  · exact hspc
  · rfl
  · exact Nat.le_succ 1
  · exact Nat.le_add_left 1 31
  · rw [hent]
    exact hroom
  · show 32 + 2 * z ≤ 32 + 2 * z
    exact Nat.le_refl _
  · exact fun h => absurd rfl h
  · exact Nat.lt_of_le_of_lt hdata hmax
  · exact hpos
  · rw [hlimit]
    exact hfew

/-- The driver's record of a volume, and the layout it was made with. -/
structure MountedAs (g : MkfsGeometry) (fs : FatFs) : Prop where
  sound : fs.Sound
  type : fs.type = g.fatType
  fatStart : fs.fatStartSector = g.rsvdSecCnt
  fatSize : fs.fatSizeSectors = g.fatSize
  numFats : fs.numFats = 2
  rootCluster : fs.type = .fat32 → fs.rootCluster = 2
  root : (if fs.type = .fat32 then fs.clusAddr 2 else fs.rootDirStartSector * 512) =
    (g.rsvdSecCnt + 2 * g.fatSize) * 512
  rootSectors : (if fs.type = .fat32 then fs.sectorsPerCluster else fs.rootDirSectors) = g.rootSectors

section

variable (env : Env) [env.NoFault] (bdev : Nat) {t : FatType} {total spc : Nat} {d : Disk}
  {volId : Nat} {volName : Option (List UInt8)} (htotal : 1024 ≤ total)
  (hmax : total < 4294967296) (hspc : 0 < spc ∧ spc < 256)
  (hboot : ∀ a, a < 512 → d a = makeBpb (mkfsGeometry t total spc) volId volName a)
  (hfits : Fits t total spc)

include htotal hmax hspc hboot hfits

theorem mount_fat16 (ht : t = .fat16) : ∃ fs, fatMount env bdev d = some fs ∧
    MountedAs (mkfsGeometry t total spc) fs := by
  subst ht
  have hfs : (mkfsGeometry .fat16 total spc).fatSize =
      mkfsFatSize .fat16 (grossClusters .fat16 total spc) := by
    rw [← mkfsGeometry_totalClusters .fat16 spc htotal hmax]
    rfl
  obtain ⟨h0, htype, hu, hroom⟩ := (fits16_iff (Or.inr rfl) hfits.1 hfs).mpr hfits
  have hrsvd : (mkfsGeometry .fat16 total spc).rsvdSecCnt = 4 := rfl
  have hne : (mkfsGeometry .fat16 total spc).fatType ≠ .fat32 := FatType.noConfusion
  have hmount := (fatMount_of_powerOfTwo env bdev hspc.2 (by rw [hrsvd]; decide)
    (Nat.lt_of_lt_of_le (by decide) htotal) hmax hboot hfits.1).trans
      ((bootFields_disk hmax hboot).mountAt_fat16 hspc.2 hspc.1 hne hrsvd rfl h0 bdev)
  rw [hu] at hmount htype hroom
  have hne : ¬ (mounted16 bdev total spc (mkfsGeometry .fat16 total spc).fatSize).type = .fat32 := by
    rw [show (mounted16 bdev total spc _).type = .fat16 from htype]
    decide
  refine ⟨_, hmount, mounted16_sound bdev hspc.1 hmax htype hroom, htype, rfl, rfl, rfl, ?_, ?_, ?_⟩
  · exact fun h => absurd h hne
  · exact if_neg hne
  · exact if_neg hne

theorem mount_fat32 (ht : t = .fat32) (hfew : netClusters t total spc + 2 ≤ 0x0FFFFFF8) :
    ∃ fs, fatMount env bdev d = some fs ∧ MountedAs (mkfsGeometry t total spc) fs := by
  subst ht
  have hfs : (mkfsGeometry .fat32 total spc).fatSize =
      mkfsFatSize .fat32 (grossClusters .fat32 total spc) := by
    rw [← mkfsGeometry_totalClusters .fat32 spc htotal hmax]
    rfl
  have hsec : (mkfsGeometry .fat32 total spc).fatSize = fatSectors .fat32 total spc := by
    rw [hfs, mkfsFatSize_eq (hfits.2.2.2 rfl)]
    rfl
  obtain ⟨h0, htype, hroom⟩ := (fits32_iff hfits.1 hfs).mpr hfits
  have hlt := (mkfsFatSize_le .fat32 (grossClusters .fat32 total spc)).2
  rw [← hfs] at hlt
  have hrsvd : (mkfsGeometry .fat32 total spc).rsvdSecCnt = 32 := rfl
  have hmount := (fatMount_of_powerOfTwo env bdev hspc.2 (by rw [hrsvd]; decide)
    (Nat.lt_of_lt_of_le (by decide) htotal) hmax hboot hfits.1).trans
      ((bootFields_disk hmax hboot).mountAt_fat32 hspc.2 hspc.1 rfl hrsvd hlt bdev)
  rw [if_neg h0] at hmount
  have hpos : (mounted32 bdev total spc (mkfsGeometry .fat32 total spc).fatSize).type = .fat32 := htype
  rw [netClusters, ← hsec] at hfew
  refine ⟨_, hmount, mounted32_sound bdev hspc.1 hmax htype hroom hfew, htype, rfl, rfl, rfl, ?_, ?_, ?_⟩
  · exact fun _ => rfl
  · refine (if_pos hpos).trans ?_
    rw [FatFs.clusAddr, Nat.sub_self, Nat.zero_mul, Nat.add_zero]
    rfl
  · exact if_pos hpos

end

/-! ### The root directory of a formatted image -/

theorem rootAddrs_eq {fs : FatFs} (hfew : fs.rootDirSectors ≤ 1024) :
    rootAddrs fs = slotsFrom (fs.rootDirStartSector * 512) (16 * fs.rootDirSectors) := by
  have hsectors : (if fs.rootDirSectors < 1024 then fs.rootDirSectors else 1024) = fs.rootDirSectors := by
    split <;> omega
  rw [rootAddrs, hsectors]
  induction fs.rootDirSectors with
  | zero => rfl
  | succ n ih =>
    rw [List.range'_1_concat (n := n), List.flatMap_append, ih, Nat.mul_succ 16 n, slotsFrom_add]
    refine congrArg (slotsFrom _ (16 * n) ++ ·) ?_
    simp only [List.flatMap_cons, List.flatMap_nil, List.append_nil, Nat.zero_add]
    refine List.ext_getElem (by simp [slotsFrom]) fun i h1 h2 => ?_
    simp only [slotsFrom, List.getElem_map, List.getElem_range', Nat.one_mul, Nat.zero_add]
    omega

theorem rootBytes_slot (volName : Option (List UInt8)) :
    (slotAt (rootBytes volName) 0).isFree = true ∨ (slotAt (rootBytes volName) 0).Label := by
  have hzero : (slotAt zeroSector 0).isFree = true := by decide
  rcases volName with _ | _ | ⟨c, cs⟩
  · exact Or.inl hzero
  · exact Or.inl hzero
  · by_cases h0 : c = 0
    · rw [rootBytes, if_pos h0]
      exact Or.inl hzero
    · rw [rootBytes, if_neg h0]
      have hattr : slotAt (putBytes (putBytes zeroSector 0 (formatVolumeLabel (c :: cs))) 11 [0x08])
        0 11 = 0x08 := rfl
      generalize slotAt (putBytes (putBytes zeroSector 0 (formatVolumeLabel (c :: cs))) 11 [0x08]) 0 = e
        at hattr ⊢
      cases hfree : e.isFree with
      | true => exact Or.inl rfl
      | false =>
        have hend := not_isEnd_of_not_isFree hfree
        rw [Slot.isFree, hend, Bool.false_or] at hfree
        refine Or.inr ⟨hend, hfree, ?_, ?_⟩
        · rw [Slot.isLfn, Slot.attr, hattr]
          decide
        · rw [Slot.isVolumeId, Slot.attr, hattr]
          decide

section

variable {g : MkfsGeometry} {volName : Option (List UInt8)} {d : Disk} {fs : FatFs}
  (hd : Formatted g volName d) (hm : MountedAs g fs)

include hd

theorem Formatted.slot {e : Nat} (he : e < 16 * g.rootSectors) :
    slotAt d ((g.rsvdSecCnt + 2 * g.fatSize) * 512 + 32 * e) = slotAt (rootBytes volName) (32 * e) := by
  apply slotAt_congr
  intro i hi
  rw [Nat.add_assoc]
  exact hd.root _ (by omega)

include hm

theorem Formatted.root_addrs (hfew : g.rootSectors ≤ 1024) :
    dirAddrs fs d (fatRootDir fs) =
      slotsFrom ((g.rsvdSecCnt + 2 * g.fatSize) * 512) (16 * g.rootSectors) := by
  have hroot := hm.root
  have hsectors := hm.rootSectors
  by_cases ht : fs.type = .fat32
  · have hclus := hm.rootCluster ht
    have hchain := hd.rootChain hm.sound hm.type hm.fatStart hm.fatSize ht hclus
    rw [if_pos ht] at hroot hsectors
    have hslots : fs.bytesPerCluster / 32 = 16 * g.rootSectors := by
      rw [hm.sound.bpc, hsectors]
      omega
    rw [fatRootDir, if_pos ht, dirAddrs, if_neg Bool.false_ne_true, dirClusters,
      chainOf_eq hm.sound hchain, hclus]
    simp only [maxVisits, List.take_succ_cons, List.take_nil, List.flatMap_cons, List.flatMap_nil,
      List.append_nil]
    rw [clusSlots_eq, hroot, hslots]
  · rw [if_neg ht] at hroot hsectors
    rw [fatRootDir, if_neg ht, dirAddrs, if_pos rfl, rootAddrs_eq (by rw [hsectors]; exact hfew),
      hroot, hsectors]

/-- **The root directory is empty**: it has at most a label, in front. -/
theorem Formatted.root_empty (hpos : 0 < g.rootSectors) (hfew : g.rootSectors ≤ 1024) :
    FormatOk fs d (fatRootDir fs) ∧ liveAddrs d (dirAddrs fs d (fatRootDir fs)) = [] := by
  have hslot := fun e (he : e < 16 * g.rootSectors) => hd.slot he
  rw [FormatOk, hd.root_addrs hm hfew]
  generalize (g.rsvdSecCnt + 2 * g.fatSize) * 512 = base at hslot ⊢
  obtain ⟨n, hn⟩ : ∃ n, 16 * g.rootSectors = n + 1 := ⟨16 * g.rootSectors - 1, by omega⟩
  rw [hn, slotsFrom_succ]
  have hfirst := hslot 0 (by omega)
  rw [Nat.mul_zero, Nat.add_zero] at hfirst
  have hrest : ∀ a ∈ slotsFrom (base + 32) n, (slotAt d a).isEnd = true := by
    intro a ha
    obtain ⟨e, he, rfl⟩ := mem_slotsFrom.mp ha
    rw [show base + 32 + 32 * e = base + 32 * (e + 1) by omega, hslot (e + 1) (by omega), Slot.isEnd,
      slotAt_of_lt (by decide), rootBytes_of_le _ (by omega)]
    rfl
  have hfree : ∀ x ∈ (slotsFrom (base + 32) n).map (slotAt d), x.isFree = true := by
    intro x hx
    obtain ⟨a, ha, rfl⟩ := List.mem_map.mp hx
    rw [Slot.isFree, hrest a ha, Bool.true_or]
  constructor
  · rw [List.map_cons, hfirst]
    rcases rootBytes_slot volName with h0 | hlabel
    · apply DirFormat.of_free
      intro x hx
      rcases List.mem_cons.mp hx with rfl | hx
      · exact h0
      · exact hfree x hx
    · exact DirFormat.label hlabel (DirFormat.of_free hfree)
  · rw [List.eq_nil_iff_forall_not_mem]
    intro a ha
    obtain ⟨hmem, hend, hdel, _, hvol⟩ := mem_liveAddrs ha
    rcases List.mem_cons.mp hmem with rfl | hmem
    · rw [hfirst] at hend hdel hvol
      rcases rootBytes_slot volName with h0 | hlabel
      · rw [Slot.isFree, hend, hdel] at h0
        cases h0
      · rw [hlabel.volume] at hvol
        cases hvol
    · rw [hrest a hmem] at hend
      cases hend

/-- **A formatted image holds the empty tree.** -/
theorem Formatted.volume (hpos : 0 < g.rootSectors) (hfew : g.rootSectors ≤ 1024) :
    Volume fs d ∧ treeOf fs d = Function.update (fun _ => none) [] (some .dir) := by
  obtain ⟨hformat, hempty⟩ := hd.root_empty hm hpos hfew
  refine volume_of_empty hm.sound (fun ht => ⟨[], ?_⟩) hformat hempty
  exact hd.rootChain hm.sound hm.type hm.fatStart hm.fatSize ht (hm.rootCluster ht)

end

/-! ### From the tool to the driver -/

/-- The tree with a root directory and nothing in it. -/
def emptyTree : List NameKey → Option (Names.Item (List UInt8)) :=
  Function.update (fun _ => none) [] (some .dir)

/-- Whatever the options, a fresh image whose type, size and cluster size go together is mounted as
    an empty volume. -/
theorem mkfsFat_volume (env : Env) [env.NoFault] (bdev : Nat) (image : Disk) {fileSize : Nat}
    {fatTypeArg : Int} {t : FatType} (secPerClusArg : Int) (volName : Option (List UInt8)) (volId : Nat)
    (hsize : 512 * 1024 ≤ fileSize) (hmax : fileSize < 2199023255552)
    (ht : pickFatType fileSize fatTypeArg = some t) (htype : t = .fat16 ∨ t = .fat32)
    (hfits : Fits t (fileSize / 512) (pickSecPerClus t fileSize secPerClusArg))
    (hfew : t = .fat32 →
      netClusters t (fileSize / 512) (pickSecPerClus t fileSize secPerClusArg) + 2 ≤ 0x0FFFFFF8) :
    ∃ g img fs, mkfsFat image fileSize fatTypeArg secPerClusArg volName volId = .done g img ∧
      img.size = fileSize ∧ fatMount env bdev img.data = some fs ∧ MountedAs g fs ∧
      Formatted g volName img.data ∧ 0 < g.rootSectors ∧ g.rootSectors ≤ 1024 := by
  have hlt := pickSecPerClus_lt t fileSize secPerClusArg
  have h0 : pickSecPerClus t fileSize secPerClusArg ≠ 0 := by
    obtain ⟨k, _, hk⟩ := hfits.1
    rw [hk]
    exact Nat.ne_of_gt (Nat.two_pow_pos k)
  rw [mkfsFat_done hsize hmax ht h0]
  generalize pickSecPerClus t fileSize secPerClusArg = spc at *
  have htotal : 1024 ≤ fileSize / 512 := by omega
  have hmax' : fileSize / 512 < 4294967296 := by omega
  have hspc : 0 < spc ∧ spc < 256 := ⟨Nat.pos_of_ne_zero h0, hlt⟩
  have hgeo := mkfsGeometry_fits (t := t) htotal hmax' hspc
  have hfit := Nat.le_trans (Nat.mul_le_mul_right 512 hgeo) (Nat.div_mul_le_self fileSize 512)
  have hroot : (mkfsGeometry t (fileSize / 512) spc).fatType ≠ .fat32 →
      0 < (mkfsGeometry t (fileSize / 512) spc).rootDirSectors := by
    intro hne
    simp only [mkfsGeometry] at hne ⊢
    rw [if_neg hne]
    omega
  obtain ⟨hboot, hend⟩ := writeVolume_spec volId volName (f := ⟨image, 0, fileSize⟩) hspc.1 rfl hroot
    hfit (by omega) (by rcases htype with h | h <;> simp [mkfsGeometry, h])
  obtain ⟨fs, hmount, hm⟩ : ∃ fs, fatMount env bdev (writeVolume (mkfsGeometry t (fileSize / 512) spc)
      volId volName ⟨image, 0, fileSize⟩).data = some fs ∧
        MountedAs (mkfsGeometry t (fileSize / 512) spc) fs := by
    rcases htype with h | h
    · exact mount_fat16 env bdev htotal hmax' hspc hboot hfits h
    · exact mount_fat32 env bdev htotal hmax' hspc hboot hfits h (hfew h)
  have hfat : 0 < (mkfsGeometry t (fileSize / 512) spc).fatSize := by
    have hroom := hm.sound.fatRoom
    rw [hm.fatSize] at hroom
    have hpos := Nat.mul_le_mul_left 2 (show 1 ≤ fs.entSize by rcases fs.entSize_cases with h | h <;> omega)
    have hle := Nat.mul_le_mul_right fs.entSize (show 2 ≤ fs.totalClusters + 2 by omega)
    omega
  have hformatted := writeVolume_formatted volId volName ⟨image, 0, fileSize⟩ hspc.1
    (show (mkfsGeometry t (fileSize / 512) spc).rsvdSecCnt = _ from rfl) hroot hfat (by omega) htype
  refine ⟨_, _, fs, rfl, hend, hmount, hm, hformatted, ?_⟩
  unfold MkfsGeometry.rootSectors
  rcases htype with rfl | rfl
  · exact (by decide : 0 < 32 ∧ 32 ≤ 1024)
  · exact ⟨hspc.1, by show spc ≤ 1024; omega⟩

/-- **From the tool to the tree of files.**  Whatever the image held before, once it is formatted the
    driver mounts it, finds all its clusters free and both copies of its table equal, and every run of
    successful calls from there on makes the tree that the calls describe, starting from nothing. -/
theorem mkfsFat_treeRun (env : Env) [env.NoFault] (bdev : Nat) (image : Disk) {fileSize : Nat}
    {fatTypeArg : Int} {t : FatType} (secPerClusArg : Int) (volName : Option (List UInt8)) (volId : Nat)
    (hsize : 512 * 1024 ≤ fileSize) (hmax : fileSize < 2199023255552)
    (ht : pickFatType fileSize fatTypeArg = some t) (htype : t = .fat16 ∨ t = .fat32)
    (hfits : Fits t (fileSize / 512) (pickSecPerClus t fileSize secPerClusArg))
    (hfew : t = .fat32 →
      netClusters t (fileSize / 512) (pickSecPerClus t fileSize secPerClusArg) + 2 ≤ 0x0FFFFFF8) :
    ∃ g img fs, mkfsFat image fileSize fatTypeArg secPerClusArg volName volId = .done g img ∧
      fatMount env bdev img.data = some fs ∧
      (∀ c, fs.InRange c → (fs.type = .fat32 → c ≠ fs.rootCluster) → fs.fatEnt img.data c = 0) ∧
      CopiesEqual fs img.data ∧
      ∀ calls d', TreeRun env fs img.data calls d' →
        Shows env fs d' (calls.foldl TreeCall.apply emptyTree) := by
  obtain ⟨g, img, fs, hrun, _, hmount, hm, hd, hpos, hsectors⟩ := mkfsFat_volume env bdev image
    secPerClusArg volName volId hsize hmax ht htype hfits hfew
  obtain ⟨hv, htree⟩ := hd.volume hm hpos hsectors
  refine ⟨g, img, fs, hrun, hmount, fun c hc hne => ?_, fun k hk i hi => ?_, fun calls d' hcalls => ?_⟩
  · exact hd.fatEnt_free hm.sound hm.type hm.fatStart hm.fatSize hc
      fun h32 => hm.rootCluster h32 ▸ hne h32
  · rw [hm.numFats] at hk
    rw [hm.fatSize] at hi
    rw [hm.fatStart, hm.fatSize, hd.fat k hk i hi]
    have hfirst := hd.fat 0 (by decide) i hi
    rw [Nat.zero_mul, Nat.add_zero] at hfirst
    exact hfirst.symm
  · rw [emptyTree, ← htree]
    exact treeRun_shows hv env hcalls

/-- An image of 2 MB, formatted as FAT16 with one sector a cluster. -/
theorem mkfsFat_treeRun_2MB :
    ∃ g img fs, mkfsFat (fun _ => 0xFF) 2150400 16 1 (some [0x61]) 7 = .done g img ∧
      fatMount Env.ideal 0 img.data = some fs ∧
      (∀ c, fs.InRange c → (fs.type = .fat32 → c ≠ fs.rootCluster) → fs.fatEnt img.data c = 0) ∧
      CopiesEqual fs img.data ∧
      ∀ calls d', TreeRun Env.ideal fs img.data calls d' →
        Shows Env.ideal fs d' (calls.foldl TreeCall.apply emptyTree) :=
  mkfsFat_treeRun Env.ideal 0 _ (t := .fat16) 1 _ 7 (by decide) (by decide) (by decide) (Or.inl rfl)
    (by decide) (by decide)

end Gemios
