import Gemios.Mkfs
import Gemios.FatGeometry

/-!
# Which images the driver can use

`mkfs_fat` lays the FAT out for the type it was told to use, the driver goes by the
number of clusters it counts.  The options and image sizes for which the two agree.
-/

namespace Gemios

/-! ### Fields of the boot sector -/

theorem putBytes_of_ne {b : Buf} {i j : Nat} {bytes : List UInt8}
    (h : j < i ∨ i + bytes.length ≤ j) : putBytes b i bytes j = b j := by
  rw [putBytes, if_neg (by omega)]

theorem le16_putBytes_of_ne {b : Buf} {i j : Nat} {bytes : List UInt8}
    (h : j + 2 ≤ i ∨ i + bytes.length ≤ j) : le16 (putBytes b i bytes) j = le16 b j :=
  le16_congr fun k hk => putBytes_of_ne (by omega)

theorem le32_putBytes_of_ne {b : Buf} {i j : Nat} {bytes : List UInt8}
    (h : j + 4 ≤ i ∨ i + bytes.length ≤ j) : le32 (putBytes b i bytes) j = le32 b j :=
  le32_congr fun k hk => putBytes_of_ne (by omega)

theorem le16_put32_of_ne {b : Buf} {i v j : Nat} (h : j + 2 ≤ i ∨ i + 4 ≤ j) :
    le16 (put32 b i v) j = le16 b j :=
  le16_congr fun k hk => put32_of_ne (by omega)

theorem le32_put16_of_ne {b : Buf} {i v j : Nat} (h : j + 4 ≤ i ∨ i + 2 ≤ j) :
    le32 (put16 b i v) j = le32 b j :=
  le32_congr fun k hk => put16_of_ne (by omega)

theorem length_formatVolumeLabel (src : List UInt8) : (formatVolumeLabel src).length = 11 := by
  simp only [formatVolumeLabel, List.length_append, List.length_map, List.length_replicate,
    List.length_take]
  omega

theorem length_fsTypeName (t : FatType) : (fsTypeName t).length = 8 := by
  cases t <;> rfl

/-- The fields of the boot sector that the driver reads. -/
structure BootFields (g : MkfsGeometry) (sec : Buf) : Prop where
  jump : sec 0 = 0xEB
  bps : le16 sec 11 = 512
  spc : sec 13 = UInt8.ofNat g.secPerClus
  rsvd : le16 sec 14 = g.rsvdSecCnt % 65536
  numFats : sec 16 = 2
  rootEnt : le16 sec 17 = g.rootEntCnt % 65536
  total16 : le16 sec 19 =
    if g.fatType = .fat32 ∨ g.totalSectors ≥ 65536 then 0 else g.totalSectors
  total32 : le32 sec 32 =
    if g.fatType = .fat32 ∨ g.totalSectors ≥ 65536 then g.totalSectors else 0
  fatSz16 : le16 sec 22 = if g.fatType = .fat32 then 0 else u16 g.fatSize
  fatSz32 : g.fatType = .fat32 → le32 sec 36 = g.fatSize % 4294967296
  rootClus : g.fatType = .fat32 → le32 sec 44 = 2
  sig0 : sec 510 = 0x55
  sig1 : sec 511 = 0xAA

theorem makeBpb_of_lt (g : MkfsGeometry) (volId : Nat) (volName : Option (List UInt8)) {i : Nat}
    (hi : i < 36) : makeBpb g volId volName i = bpbCommon g i := by
  have hlabel := length_formatVolumeLabel (volName.getD (defaultLabel g.fatType))
  have hname := length_fsTypeName g.fatType
  unfold makeBpb
  split <;> simp (disch := omega) only [putBytes_of_ne, put16_of_ne, put32_of_ne]

theorem bootFields_makeBpb (g : MkfsGeometry) (volId : Nat) (volName : Option (List UInt8))
    (htotal : g.totalSectors < 4294967296) : BootFields g (makeBpb g volId volName) := by
  have hlabel := length_formatVolumeLabel (volName.getD (defaultLabel g.fatType))
  have hname := length_fsTypeName g.fatType
  have hlow : ∀ i, i < 36 → makeBpb g volId volName i = bpbCommon g i := fun i hi =>
    makeBpb_of_lt g volId volName hi
  have h16 : ∀ i, i + 2 ≤ 36 → le16 (makeBpb g volId volName) i = le16 (bpbCommon g) i :=
    fun i hi => le16_congr fun k hk => hlow _ (by omega)
  have h32 : ∀ i, i + 4 ≤ 36 → le32 (makeBpb g volId volName) i = le32 (bpbCommon g) i :=
    fun i hi => le32_congr fun k hk => hlow _ (by omega)
  constructor
  · rw [hlow _ (by omega)]
    simp (disch := simp) only [bpbCommon, putBytes_of_ne, put16_of_ne, put32_of_ne]
    rfl
  · rw [h16 _ (by omega)]
    simp (disch := simp) only [bpbCommon, le16_putBytes_of_ne, le16_put16_of_ne, le16_put32_of_ne,
      le16_put16]
  · rw [hlow _ (by omega)]
    simp (disch := simp) only [bpbCommon, putBytes_of_ne, put16_of_ne, put32_of_ne]
    rfl
  · rw [h16 _ (by omega)]
    simp (disch := simp) only [bpbCommon, le16_putBytes_of_ne, le16_put16_of_ne, le16_put32_of_ne,
      le16_put16]
  · rw [hlow _ (by omega)]
    simp (disch := simp) only [bpbCommon, putBytes_of_ne, put16_of_ne, put32_of_ne]
    rfl
  · rw [h16 _ (by omega)]
    simp (disch := simp) only [bpbCommon, le16_putBytes_of_ne, le16_put16_of_ne, le16_put32_of_ne,
      le16_put16]
  · rw [h16 _ (by omega)]
    simp (disch := simp) only [bpbCommon, le16_putBytes_of_ne, le16_put16_of_ne, le16_put32_of_ne,
      le16_put16]
    split
    · rfl
    · next hsmall => rw [u16, Nat.mod_mod, Nat.mod_eq_of_lt (by omega)]
  · rw [h32 _ (by omega)]
    simp (disch := simp) only [bpbCommon, le32_putBytes_of_ne, le32_put16_of_ne, le32_put32_of_ne,
      le32_put32]
    split
    · exact Nat.mod_eq_of_lt htotal
    · rfl
  · rw [h16 _ (by omega)]
    simp (disch := simp) only [bpbCommon, le16_put16_of_ne, le16_put32_of_ne, le16_put16]
    split
    · rfl
    · rw [u16, Nat.mod_mod]
  · intro ht
    unfold makeBpb
    rw [if_neg (by simp [ht])]
    simp (disch := simp [hlabel, hname]) only [le32_putBytes_of_ne, le32_put16_of_ne,
      le32_put32_of_ne, le32_put32]
  · intro ht
    unfold makeBpb
    rw [if_neg (by simp [ht])]
    simp (disch := simp [hlabel, hname]) only [le32_putBytes_of_ne, le32_put16_of_ne,
      le32_put32_of_ne, le32_put32]
  · unfold makeBpb
    split <;> rfl
  · unfold makeBpb
    split <;> rfl

theorem BootFields.congr {g : MkfsGeometry} {sec sec' : Buf} (h : BootFields g sec)
    (heq : ∀ i, i < 512 → sec' i = sec i) : BootFields g sec' := by
  have h16 : ∀ i, i + 2 ≤ 512 → le16 sec' i = le16 sec i := fun i hi =>
    le16_congr fun k hk => heq _ (by omega)
  have h32 : ∀ i, i + 4 ≤ 512 → le32 sec' i = le32 sec i := fun i hi =>
    le32_congr fun k hk => heq _ (by omega)
  exact
    { jump := by rw [heq _ (by omega), h.jump]
      bps := by rw [h16 _ (by omega), h.bps]
      spc := by rw [heq _ (by omega), h.spc]
      rsvd := by rw [h16 _ (by omega), h.rsvd]
      numFats := by rw [heq _ (by omega), h.numFats]
      rootEnt := by rw [h16 _ (by omega), h.rootEnt]
      total16 := by rw [h16 _ (by omega), h.total16]
      total32 := by rw [h32 _ (by omega), h.total32]
      fatSz16 := by rw [h16 _ (by omega), h.fatSz16]
      fatSz32 := fun ht => by rw [h32 _ (by omega), h.fatSz32 ht]
      rootClus := fun ht => by rw [h32 _ (by omega), h.rootClus ht]
      sig0 := by rw [heq _ (by omega), h.sig0]
      sig1 := by rw [heq _ (by omega), h.sig1] }

/-! ### The image after formatting -/

namespace ImgFile

variable (f : ImgFile) (buf : Buf)

@[simp] theorem write_pos : (f.write buf).pos = f.pos + 512 := rfl

theorem write_data_of_lt {a : Nat} (ha : a < f.pos) : (f.write buf).data a = f.data a :=
  if_neg (by omega)

theorem write_size (h : f.pos + 512 ≤ f.size) : (f.write buf).size = f.size := Nat.max_eq_left h

theorem writeTimes_pos (n : Nat) : (f.writeTimes buf n).pos = f.pos + 512 * n := by
  induction n generalizing f with
  | zero => rfl
  | succ n ih =>
    rw [writeTimes, ih, write_pos]
    omega

theorem writeTimes_data_of_lt (n : Nat) {a : Nat} (ha : a < f.pos) :
    (f.writeTimes buf n).data a = f.data a := by
  induction n generalizing f with
  | zero => rfl
  | succ n ih =>
    have hstep : a < (f.write buf).pos := Nat.lt_add_right 512 ha
    rw [writeTimes, ih _ hstep, write_data_of_lt f buf ha]

theorem writeTimes_size (n : Nat) (h : f.pos + 512 * n ≤ f.size) :
    (f.writeTimes buf n).size = f.size := by
  induction n generalizing f with
  | zero => rfl
  | succ n ih =>
    have hfit : f.pos + 512 ≤ f.size :=
      Nat.le_trans (Nat.add_le_add_left (Nat.le_add_left _ _) _) h
    have hone := write_size f buf hfit
    have hrest : (f.write buf).pos + 512 * n ≤ (f.write buf).size := by
      rw [hone, write_pos]
      omega
    rw [writeTimes, ih _ hrest, hone]

end ImgFile

/-- `f'` is `f` after `n` sectors were written from the file position on. -/
structure Writes (f f' : ImgFile) (n : Nat) : Prop where
  pos : f'.pos = f.pos + 512 * n
  below : ∀ a, a < f.pos → f'.data a = f.data a
  size : f.pos + 512 * n ≤ f.size → f'.size = f.size

theorem Writes.of_eq {f f' : ImgFile} {m n : Nat} (h : Writes f f' m) (hmn : m = n) :
    Writes f f' n := hmn ▸ h

theorem Writes.trans {f f' f'' : ImgFile} {m n : Nat} (h : Writes f f' m) (h' : Writes f' f'' n) :
    Writes f f'' (m + n) where
  pos := by
    rw [h'.pos, h.pos]
    omega
  below a ha := by
    have hpos := h.pos
    rw [h'.below a (by omega), h.below a ha]
  size hle := by
    have hpos := h.pos
    have h1 := h.size (by omega)
    rw [h'.size (by omega), h1]

theorem writes_write (f : ImgFile) (buf : Buf) : Writes f (f.write buf) 1 where
  pos := rfl
  below _ ha := f.write_data_of_lt buf ha
  size h := f.write_size buf h

theorem writes_writeTimes (f : ImgFile) (buf : Buf) (n : Nat) :
    Writes f (f.writeTimes buf n) n where
  pos := f.writeTimes_pos buf n
  below _ ha := f.writeTimes_data_of_lt buf n ha
  size h := f.writeTimes_size buf n h

theorem writes_writeFatCopy (g : MkfsGeometry) (f : ImgFile) :
    Writes f (writeFatCopy g f) (1 + (g.fatSize - 1)) :=
  (writes_write f _).trans (writes_writeTimes _ _ _)

theorem writes_writeRootDir (volName : Option (List UInt8)) {sectors : Nat} (hpos : 0 < sectors)
    (f : ImgFile) : Writes f (writeRootDir volName sectors f) sectors := by
  have hzero := writes_writeTimes f zeroSector sectors
  unfold writeRootDir
  split
  · split
    · exact hzero
    · exact ((writes_write f _).trans (writes_writeTimes _ _ _)).of_eq (by omega)
  · exact hzero

theorem Writes.after_seek {f f' : ImgFile} {p n : Nat} (h : Writes (f.seek p) f' n)
    (hp : 512 ≤ p) (hfit : p + 512 * n ≤ f.size) :
    (∀ a, a < 512 → f'.data a = f.data a) ∧ f'.size = f.size :=
  ⟨fun a ha => h.below a (Nat.lt_of_lt_of_le ha hp), h.size hfit⟩

set_option maxRecDepth 4096 in
/-- **Where the tool writes.**  The boot sector stays in sector 0 behind everything
    that is written after it, and the image does not grow. -/
theorem writeVolume_spec {g : MkfsGeometry} (volId : Nat) (volName : Option (List UInt8))
    {f : ImgFile} (hspc : 0 < g.secPerClus)
    (hrsvd : g.rsvdSecCnt = if g.fatType = .fat32 then 32 else 4)
    (hroot : g.fatType ≠ .fat32 → 0 < g.rootDirSectors)
    (hfit : (g.rsvdSecCnt + 2 * (g.fatSize + 1) + g.rootDirSectors + g.secPerClus) * 512 ≤ f.size)
    (hwrap : g.rsvdSecCnt + 2 * g.fatSize < 4294967296)
    (htype : g.fatType = .fat12 ∨ g.fatType = .fat16 ∨ g.fatType = .fat32) :
    (∀ a, a < 512 → (writeVolume g volId volName f).data a = makeBpb g volId volName a) ∧
      (writeVolume g volId volName f).size = f.size := by
  have hboot := writes_write (f.seek 0) (makeBpb g volId volName)
  have hsize : (f.seek 0).size = f.size := rfl
  have hpos : (f.seek 0).pos = 0 := rfl
  have hdata : ∀ a, a < 512 → ((f.seek 0).write (makeBpb g volId volName)).data a =
      makeBpb g volId volName a := fun a ha => if_pos ⟨Nat.zero_le _, by rw [hpos]; omega⟩
  unfold writeVolume
  dsimp only
  generalize hf₁ : (f.seek 0).write (makeBpb g volId volName) = f₁ at *
  have hpos₁ := hboot.pos
  have hsize₁ := hboot.size (by omega)
  split
  · next h16 =>
    have hne : g.fatType ≠ .fat32 := by
      rcases h16 with h | h <;> rw [h] <;> decide
    have hall := (writes_writeTimes f₁ zeroSector (g.rsvdSecCnt - 1)).trans
      ((writes_writeFatCopy g _).trans ((writes_writeFatCopy g _).trans
        (writes_writeRootDir volName (hroot hne) _)))
    refine ⟨fun a ha => ?_, ?_⟩
    · rw [hall.below a (by omega), hdata a ha]
    · rw [hall.size (by omega), hsize₁, hsize]
  · next h16 =>
    have ht : g.fatType = .fat32 := by
      rcases htype with h | h | h
      · exact absurd (Or.inl h) h16
      · exact absurd (Or.inr h) h16
      · exact h
    rw [if_pos ht] at hrsvd
    have hdouble : u32 (2 * g.fatSize) = 2 * g.fatSize := u32_of_lt (by omega)
    have hroot32 : u32 (g.rsvdSecCnt + 2 * g.fatSize) = g.rsvdSecCnt + 2 * g.fatSize :=
      u32_of_lt hwrap
    have hseek : ∀ q, 0 < q → 512 ≤ q * 512 := fun q hq => Nat.le_mul_of_pos_left 512 hq
    rw [hdouble, hroot32]
    obtain ⟨hd₂, hs₂⟩ := (writes_write (f₁.seek 512) (fsInfoSector g)).after_seek (Nat.le_refl 512)
      (by omega)
    generalize (f₁.seek 512).write (fsInfoSector g) = f₂ at *
    obtain ⟨hd₃, hs₃⟩ := (writes_write (f₂.seek (6 * 512)) (makeBpb g volId volName)).after_seek
      (hseek 6 (by omega)) (by omega)
    generalize (f₂.seek (6 * 512)).write (makeBpb g volId volName) = f₃ at *
    obtain ⟨hd₄, hs₄⟩ := (writes_write (f₃.seek (7 * 512)) (fsInfoSector g)).after_seek
      (hseek 7 (by omega)) (by omega)
    generalize (f₃.seek (7 * 512)).write (fsInfoSector g) = f₄ at *
    obtain ⟨hd₅, hs₅⟩ := ((writes_writeFatCopy g (f₄.seek (g.rsvdSecCnt * 512))).trans
      (writes_writeFatCopy g _)).after_seek (hseek _ (by omega)) (by omega)
    generalize writeFatCopy g (writeFatCopy g (f₄.seek (g.rsvdSecCnt * 512))) = f₅ at *
    obtain ⟨hd₆, hs₆⟩ := (writes_writeRootDir volName hspc
      (f₅.seek ((g.rsvdSecCnt + 2 * g.fatSize) * 512))).after_seek (hseek _ (by omega)) (by omega)
    refine ⟨fun a ha => ?_, by omega⟩
    rw [hd₆ a ha, hd₅ a ha, hd₄ a ha, hd₃ a ha, hd₂ a ha, hdata a ha]

/-! ### What the driver makes of the boot sector -/

def fatTypeOf (clusters : Nat) : FatType :=
  if clusters < 4085 then .fat12 else if clusters < 65525 then .fat16 else .fat32

def PowerOfTwo (secPerClus : Nat) : Prop := ∃ k, k < 8 ∧ secPerClus = 2 ^ k

instance (n : Nat) : Decidable (PowerOfTwo n) :=
  inferInstanceAs (Decidable (∃ k, k < 8 ∧ n = 2 ^ k))

theorem powerOfTwo_iff : ∀ n, n < 256 →
    (PowerOfTwo n ↔ ¬ (UInt8.ofNat n = 0 ∨ UInt8.ofNat n &&& (UInt8.ofNat n - 1) ≠ 0)) := by
  decide +kernel

/-- The volume the driver sees on a FAT12 or FAT16 layout with `z` sectors per FAT. -/
def mounted16 (bdev total spc z : Nat) : FatFs :=
  let clusters := (total - (36 + 2 * z)) / spc
  { bdev := bdev
    type := fatTypeOf clusters
    lbaOffset := 0
    bytesPerSector := 512
    sectorsPerCluster := spc
    bytesPerCluster := 512 * spc
    reservedSectors := 4
    numFats := 2
    fatStartSector := 4
    fatSizeSectors := z
    rootDirStartSector := 4 + 2 * z
    rootDirSectors := 32
    dataStartSector := 36 + 2 * z
    totalClusters := clusters
    rootCluster := if fatTypeOf clusters = .fat32 then 2 else 0 }

/-- The volume the driver sees on a FAT32 layout with `z` sectors per FAT. -/
def mounted32 (bdev total spc z : Nat) : FatFs :=
  let clusters := (total - (32 + 2 * z)) / spc
  { bdev := bdev
    type := fatTypeOf clusters
    lbaOffset := 0
    bytesPerSector := 512
    sectorsPerCluster := spc
    bytesPerCluster := 512 * spc
    reservedSectors := 32
    numFats := 2
    fatStartSector := 32
    fatSizeSectors := z
    rootDirStartSector := 0
    rootDirSectors := 0
    dataStartSector := 32 + 2 * z
    totalClusters := clusters
    rootCluster := 2 }

theorem ite_sub_zero (m n : Nat) : (if m > n then m - n else 0) = m - n := by
  split <;> omega

section

variable {g : MkfsGeometry} {sec : Buf} (hb : BootFields g sec) (hspc : g.secPerClus < 256)

include hb

include hspc in
theorem BootFields.isValidFatBpb (hrsvd : 0 < g.rsvdSecCnt ∧ g.rsvdSecCnt < 65536)
    (htotal : 0 < g.totalSectors) :
    isValidFatBpb sec = if PowerOfTwo g.secPerClus then some g.totalSectors else none := by
  have hpow := powerOfTwo_iff g.secPerClus hspc
  have hcount : (if le16 sec 19 ≠ 0 then le16 sec 19 else le32 sec 32) = g.totalSectors := by
    rw [hb.total16, hb.total32]
    by_cases hlarge : g.fatType = .fat32 ∨ g.totalSectors ≥ 65536
    · simp [hlarge]
    · rw [if_neg hlarge, if_pos (by omega)]
  have hr : ¬ le16 sec 14 = 0 := by
    rw [hb.rsvd, Nat.mod_eq_of_lt hrsvd.2]
    omega
  unfold Gemios.isValidFatBpb
  dsimp only
  rw [hcount, hb.jump, hb.bps, hb.numFats, hb.sig0, hb.sig1, hb.spc, if_neg (by decide),
    if_neg (by decide)]
  by_cases hp : PowerOfTwo g.secPerClus
  · rw [if_pos hp, if_neg (hpow.mp hp), if_neg hr, if_neg (by decide), if_neg (by decide),
      if_neg (by omega)]
  · rw [if_neg hp, if_pos (Decidable.of_not_not fun h => hp (hpow.mpr h))]

theorem BootFields.spc_toNat (h : g.secPerClus < 256) : (sec 13).toNat = g.secPerClus := by
  rw [hb.spc, UInt8.toNat_ofNat']
  omega

include hspc in
theorem BootFields.mountAt_fat16 (hpos : 0 < g.secPerClus) (ht : g.fatType ≠ .fat32)
    (hrsvd : g.rsvdSecCnt = 4) (hroot : g.rootEntCnt = 512) (hz : u16 g.fatSize ≠ 0)
    (bdev : Nat) :
    mountAt bdev 0 sec g.totalSectors =
      some (mounted16 bdev g.totalSectors g.secPerClus (u16 g.fatSize)) := by
  have hzlt : u16 g.fatSize < 65536 := Nat.mod_lt _ (by omega)
  have hspc' := hb.spc_toNat hspc
  have hsz := hb.fatSz16
  rw [if_neg ht] at hsz
  have hrs := hb.rsvd
  rw [hrsvd] at hrs
  have hre := hb.rootEnt
  rw [hroot] at hre
  have hnf : (sec 16).toNat = 2 := by
    rw [hb.numFats]
    rfl
  have h1 : u32 (2 * u16 g.fatSize) = 2 * u16 g.fatSize := u32_of_lt (by omega)
  have h2 : u32 (4 + 2 * u16 g.fatSize) = 4 + 2 * u16 g.fatSize := u32_of_lt (by omega)
  have h3 : u32 (4 + 2 * u16 g.fatSize + 32) = 36 + 2 * u16 g.fatSize := by
    rw [u32_of_lt (by omega)]
    omega
  have h4 : u32 (512 * g.secPerClus) = 512 * g.secPerClus := u32_of_lt (by omega)
  have h5 : u32 (36 + 2 * u16 g.fatSize + 4294967296 - 0) = 36 + 2 * u16 g.fatSize := by
    unfold u32
    omega
  have h6 : u32 (0 + 4) = 4 := rfl
  have h7 : u32 (512 * 32 + (512 - 1)) / 512 = 32 := rfl
  unfold mountAt
  dsimp only
  rw [hsz, hrs, hre, hnf, hspc', hb.bps]
  simp only [if_pos hz, Nat.reduceMod, h1, h2, h3, h4, h5, h6, h7, ite_sub_zero]
  rw [if_neg (by omega)]
  simp only [Nat.zero_lt_two, and_true]
  rfl

omit hb in
theorem mountAt_root (hz : le16 sec 22 = 0) (bdev total : Nat) :
    ∀ fs, mountAt bdev 0 sec total = some fs → fs.rootDirStartSector = 0 := by
  intro fs h
  simp only [mountAt, hz, ne_eq, not_true, if_false, Option.ite_none_left_eq_some,
    Option.some.injEq] at h
  obtain ⟨_, rfl⟩ := h
  rfl

include hspc in
theorem BootFields.mountAt_fat32 (hpos : 0 < g.secPerClus) (ht : g.fatType = .fat32)
    (hrsvd : g.rsvdSecCnt = 32) (hz : g.fatSize < 16777216) (bdev : Nat) :
    mountAt bdev 0 sec g.totalSectors =
      if g.fatSize = 0 then none
      else some (mounted32 bdev g.totalSectors g.secPerClus g.fatSize) := by
  have hspc' := hb.spc_toNat hspc
  have hsz := hb.fatSz16
  rw [if_pos ht] at hsz
  have hsz32 := hb.fatSz32 ht
  rw [Nat.mod_eq_of_lt (by omega)] at hsz32
  have hrs := hb.rsvd
  rw [hrsvd] at hrs
  have hnf : (sec 16).toNat = 2 := by
    rw [hb.numFats]
    rfl
  have h1 : u32 (2 * g.fatSize) = 2 * g.fatSize := u32_of_lt (by omega)
  have h2 : u32 (32 + 2 * g.fatSize) = 32 + 2 * g.fatSize := u32_of_lt (by omega)
  have h3 : u32 (512 * g.secPerClus) = 512 * g.secPerClus := u32_of_lt (by omega)
  have h4 : u32 (32 + 2 * g.fatSize + 4294967296 - 0) = 32 + 2 * g.fatSize := by
    unfold u32
    omega
  have h5 : u32 (0 + 32) = 32 := rfl
  unfold mountAt
  dsimp only
  rw [hsz, hrs, hnf, hspc', hb.bps, hsz32, hb.rootClus ht]
  simp only [ne_eq, not_true, if_false, Nat.reduceMod, h1, h2, h3, h4, h5, ite_sub_zero,
    show ¬ 2 < 2 by omega, and_false]
  by_cases h0 : g.fatSize = 0
  · rw [if_pos (Or.inl h0), if_pos h0]
  · rw [if_neg (by omega), if_neg h0]
    rfl

end

/-! ### Layout and mounted volume -/

/-- Byte behind the FAT entry of cluster `c`. -/
def entryEnd (t : FatType) (c : Nat) : Nat :=
  if t = .fat12 then c + c / 2 + 2 else if t = .fat16 then 2 * c + 2 else 4 * c + 4

/-- The mounted volume is the one that was laid out. -/
structure Agrees (g : MkfsGeometry) (fs : FatFs) : Prop where
  type : fs.type = g.fatType
  fatStart : fs.fatStartSector = g.rsvdSecCnt
  root : if g.fatType = .fat32 then
      clusterSector fs fs.rootCluster = g.rsvdSecCnt + 2 * g.fatSize
    else fs.rootDirStartSector = g.rsvdSecCnt + 2 * g.fatSize ∧ fs.rootDirSectors = g.rootDirSectors
  dataStart : fs.dataStartSector = g.rsvdSecCnt + 2 * g.fatSize + g.rootDirSectors
  room : ∀ c, c ≤ fs.totalClusters + 1 → entryEnd fs.type c ≤ fs.fatSizeSectors * 512

/-- A run of the tool is good: it does not divide by zero, and what it formats stays
    inside the image and is mounted as it was laid out. -/
def MkfsSound (env : Env) (bdev : Nat) (fileSize : Nat) : MkfsResult → Prop
  | .error => True
  | .divByZero => False
  | .done g img => img.size = fileSize ∧ ∃ fs, fatMount env bdev img.data = some fs ∧ Agrees g fs

/-- Sectors of a layout that hold neither FAT nor data. -/
def fixedSectors (t : FatType) : Nat := if t = .fat32 then 32 else 36

/-- Clusters before the room for the FATs is taken off. -/
def grossClusters (t : FatType) (total spc : Nat) : Nat := (total - fixedSectors t) / spc

/-- Bytes of a FAT with `n` entries, as the tool counts them. -/
def fatBytes (t : FatType) (n : Nat) : Nat :=
  if t = .fat12 then n * 3 / 2 else if t = .fat16 then n * 2 else n * 4

/-- Sectors of a FAT with entries for that many clusters. -/
def fatSectors (t : FatType) (total spc : Nat) : Nat :=
  (fatBytes t (grossClusters t total spc + 2) + 511) / 512

def netClusters (t : FatType) (total spc : Nat) : Nat :=
  (total - (fixedSectors t + 2 * fatSectors t total spc)) / spc

/-- Type, size and cluster size go together: the cluster size is a power of two, and
    the clusters that are left are as many as the type is for.  The last FAT12 entry
    must not straddle the end of the FAT, and the size of a FAT32 must not overflow. -/
def Fits (t : FatType) (total spc : Nat) : Prop :=
  PowerOfTwo spc ∧ fatTypeOf (netClusters t total spc) = t ∧
    (t = .fat12 → netClusters t total spc = grossClusters t total spc →
      3 * (grossClusters t total spc + 2) % 1024 ≠ 1) ∧
    (t = .fat32 → grossClusters t total spc + 2 ≤ 1073741696)

instance (t : FatType) (total spc : Nat) : Decidable (Fits t total spc) :=
  inferInstanceAs (Decidable (_ ∧ _))

theorem fatTypeOf_eq_fat12 {n : Nat} : fatTypeOf n = .fat12 ↔ n < 4085 := by
  unfold fatTypeOf
  split
  · simp only [true_iff]
    omega
  · split
    · simp only [reduceCtorEq, false_iff]
      omega
    · simp only [reduceCtorEq, false_iff]
      omega

theorem fatTypeOf_eq_fat16 {n : Nat} : fatTypeOf n = .fat16 ↔ 4085 ≤ n ∧ n < 65525 := by
  unfold fatTypeOf
  split
  · simp only [reduceCtorEq, false_iff]
    omega
  · split
    · simp only [true_iff]
      omega
    · simp only [reduceCtorEq, false_iff]
      omega

theorem entryEnd_mono (t : FatType) {c c' : Nat} (h : c ≤ c') : entryEnd t c ≤ entryEnd t c' := by
  unfold entryEnd
  split
  · omega
  · split <;> omega

section

variable {t : FatType} {total spc : Nat}

theorem mkfsGeometry_totalClusters (t : FatType) (spc : Nat) (htotal : 1024 ≤ total) (hmax : total < 4294967296) :
    (mkfsGeometry t total spc).totalClusters = grossClusters t total spc := by
  have h : ∀ n, n ≤ 36 → u32 (total + 4294967296 - n) = total - n := by
    intro n hn
    unfold u32
    omega
  simp only [mkfsGeometry, grossClusters, fixedSectors]
  by_cases ht : t = .fat32
  · simp only [if_pos ht]
    rw [h _ (by omega)]
  · simp only [if_neg ht]
    rw [h _ (by omega)]

theorem mkfsFatSize_le (t : FatType) (n : Nat) :
    mkfsFatSize t n ≤ (fatBytes t (n + 2) + 511) / 512 ∧ mkfsFatSize t n < 16777216 := by
  have hle : ∀ m, u32 m ≤ m := fun m => Nat.mod_le _ _
  have h0 := hle (n + 2)
  have hmain : ∀ b, b ≤ fatBytes t (n + 2) →
      u32 (b + 511) / 512 ≤ (fatBytes t (n + 2) + 511) / 512 ∧ u32 (b + 511) / 512 < 16777216 := by
    intro b hb
    have h1 := hle (b + 511)
    have h2 := u32_lt (b + 511)
    omega
  unfold mkfsFatSize
  dsimp only
  refine hmain _ ?_
  unfold fatBytes
  split
  · have := hle (u32 (n + 2) * 3)
    omega
  · split
    · have := hle (u32 (n + 2) * 2)
      omega
    · have := hle (u32 (n + 2) * 4)
      omega

theorem mkfsFatSize_eq {n : Nat} (h : n + 2 ≤ 1073741696) :
    mkfsFatSize t n = (fatBytes t (n + 2) + 511) / 512 := by
  unfold mkfsFatSize fatBytes
  dsimp only
  rw [u32_of_lt (show n + 2 < 4294967296 by omega)]
  split
  · rw [u32_of_lt (show (n + 2) * 3 < 4294967296 by omega), u32_of_lt (by omega)]
  · split
    · rw [u32_of_lt (show (n + 2) * 2 < 4294967296 by omega), u32_of_lt (by omega)]
    · rw [u32_of_lt (show (n + 2) * 4 < 4294967296 by omega), u32_of_lt (by omega)]

theorem mkfsFatSize_wrap {n : Nat} (h : 1073741696 < n + 2) :
    mkfsFatSize .fat32 n * 512 + 4294967296 ≤ (n + 2) * 4 + 511 := by
  unfold mkfsFatSize u32
  simp only [reduceCtorEq, if_false]
  omega

theorem PowerOfTwo.cases (h : PowerOfTwo spc) : spc = 1 ∨ spc = 2 ∨ spc = 4 ∨ spc = 8 ∨
    spc = 16 ∨ spc = 32 ∨ spc = 64 ∨ spc = 128 := by
  obtain ⟨k, hk, rfl⟩ := h
  have : k = 0 ∨ k = 1 ∨ k = 2 ∨ k = 3 ∨ k = 4 ∨ k = 5 ∨ k = 6 ∨ k = 7 := by omega
  rcases this with rfl | rfl | rfl | rfl | rfl | rfl | rfl | rfl <;> decide

theorem gross_of_net {z : Nat} (hp : PowerOfTwo spc)
    (hz : 256 * z ≤ (total - 36) / spc + 1000 ∨ z < 65536)
    (hn : (total - (36 + 2 * z)) / spc < 65525) : (total - 36) / spc ≤ 200000 := by
  rcases hp.cases with rfl | rfl | rfl | rfl | rfl | rfl | rfl | rfl <;> omega

theorem fatBytes_le (ht : t = .fat12 ∨ t = .fat16) (n : Nat) : fatBytes t n ≤ n * 2 := by
  unfold fatBytes
  rcases ht with rfl | rfl
  · simp only [if_true]
    omega
  · simp only [reduceCtorEq, if_true, if_false]
    omega

theorem room_iff (ht : t = .fat12 ∨ t = .fat16) {m n : Nat} (hnm : n ≤ m) :
    entryEnd t (n + 1) ≤ (fatBytes t (m + 2) + 511) / 512 * 512 ↔
      (t = .fat12 → n = m → 3 * (m + 2) % 1024 ≠ 1) := by
  unfold entryEnd fatBytes
  rcases ht with rfl | rfl
  · simp only [if_true, true_imp_iff]
    rcases Nat.eq_or_lt_of_le hnm with rfl | hlt
    · constructor
      · intro h _
        omega
      · intro h
        have h1 := h rfl
        have h2 : (n + 2) * 3 / 2 ≤ ((n + 2) * 3 / 2 + 511) / 512 * 512 := by omega
        by_contra hbig
        have h3 : (n + 2) * 3 = 1024 * (((n + 2) * 3 / 2 + 511) / 512) + 1 := by omega
        omega
    · refine ⟨fun _ h => absurd h (by omega), fun _ => by omega⟩
  · simp only [reduceCtorEq, if_true, if_false, false_imp_iff, iff_true]
    omega

/-- **FAT12 and FAT16 layouts.** -/
theorem fits16_iff (ht : t = .fat12 ∨ t = .fat16) (hp : PowerOfTwo spc) {z' : Nat}
    (hz' : z' = mkfsFatSize t (grossClusters t total spc)) :
    (u16 z' ≠ 0 ∧ fatTypeOf ((total - (36 + 2 * u16 z')) / spc) = t ∧ u16 z' = z' ∧
      entryEnd t ((total - (36 + 2 * u16 z')) / spc + 1) ≤ u16 z' * 512) ↔ Fits t total spc := by
  have hfix : fixedSectors t = 36 := by
    rcases ht with rfl | rfl <;> rfl
  have hgross : grossClusters t total spc = (total - 36) / spc := by
    rw [grossClusters, hfix]
  have hne : t ≠ .fat32 := by
    rcases ht with rfl | rfl <;> decide
  have hrange : ∀ n, fatTypeOf n = t → n < 65525 := by
    intro n hn
    rcases ht with rfl | rfl
    · have := fatTypeOf_eq_fat12.mp hn
      omega
    · exact (fatTypeOf_eq_fat16.mp hn).2
  have hle : ∀ x, (total - (36 + x)) / spc ≤ (total - 36) / spc := fun x =>
    Nat.div_le_div_right (by omega)
  have hsec : fatSectors t total spc = (fatBytes t ((total - 36) / spc + 2) + 511) / 512 := by
    rw [fatSectors, hgross]
  have hnet : netClusters t total spc = (total - (36 + 2 * fatSectors t total spc)) / spc := by
    rw [netClusters, hfix]
  have hroom := room_iff ht (hle (2 * fatSectors t total spc))
  rw [← hsec] at hroom
  constructor
  · rintro ⟨h0, htype, heq, hend⟩
    have hsmall := gross_of_net hp (Or.inr (Nat.mod_lt z' (by omega))) (hrange _ htype)
    have hz : z' = fatSectors t total spc := by
      rw [hz', hgross, mkfsFatSize_eq (by omega), hsec]
    rw [heq, hz] at htype hend
    refine ⟨hp, by rw [hnet]; exact htype, ?_, fun h => absurd h hne⟩
    rw [hnet, hgross]
    exact hroom.mp hend
  · rintro ⟨_, htype, hlast, _⟩
    rw [hnet] at htype hlast
    rw [hgross] at hlast
    have hbytes := fatBytes_le ht ((total - 36) / spc + 2)
    have hsmall := gross_of_net hp (Or.inl (by omega)) (hrange _ htype)
    have hz : z' = fatSectors t total spc := by
      rw [hz', hgross, mkfsFatSize_eq (by omega), hsec]
    have hpos : 0 < fatBytes t ((total - 36) / spc + 2) := by
      unfold fatBytes
      rcases ht with rfl | rfl
      · simp only [if_true]
        omega
      · simp only [reduceCtorEq, if_true, if_false]
        omega
    have hu : u16 z' = fatSectors t total spc := by
      rw [hz, u16_of_lt (by omega)]
    rw [hu]
    exact ⟨by omega, htype, hz.symm, hroom.mpr hlast⟩

/-- **FAT32 layouts.** -/
theorem fits32_iff (hp : PowerOfTwo spc) {z : Nat}
    (hz : z = mkfsFatSize .fat32 (grossClusters .fat32 total spc)) :
    (z ≠ 0 ∧ fatTypeOf ((total - (32 + 2 * z)) / spc) = .fat32 ∧
      entryEnd .fat32 ((total - (32 + 2 * z)) / spc + 1) ≤ z * 512) ↔ Fits .fat32 total spc := by
  have hgross : grossClusters .fat32 total spc = (total - 32) / spc := rfl
  have hsec : fatSectors .fat32 total spc = (((total - 32) / spc + 2) * 4 + 511) / 512 := rfl
  have hnet : netClusters .fat32 total spc = (total - (32 + 2 * fatSectors .fat32 total spc)) / spc :=
    rfl
  have hend : ∀ n, entryEnd .fat32 (n + 1) = 4 * (n + 2) := fun n => by
    simp only [entryEnd, reduceCtorEq, if_false]
    omega
  have hlt := (mkfsFatSize_le .fat32 (grossClusters .fat32 total spc)).2
  rw [hgross] at hlt hz
  rw [hend]
  constructor
  · rintro ⟨h0, htype, hroom⟩
    -- overflow would leave room for 2^30 entries less than there are clusters
    have hsmall : (total - 32) / spc + 2 ≤ 1073741696 := by
      by_contra hbig
      have hwrap := mkfsFatSize_wrap (Nat.lt_of_not_le hbig)
      rw [← hz] at hwrap hlt
      rcases hp.cases with rfl | rfl | rfl | rfl | rfl | rfl | rfl | rfl <;> omega
    have hz' : z = fatSectors .fat32 total spc := by
      rw [hz, mkfsFatSize_eq hsmall]
      rfl
    rw [hz'] at htype
    exact ⟨hp, htype, (fun h => by simp at h), fun _ => hsmall⟩
  · rintro ⟨_, htype, _, hsmall⟩
    have hz' : z = fatSectors .fat32 total spc := by
      have h := hsmall rfl
      rw [hgross] at h
      rw [hz, mkfsFatSize_eq h]
      rfl
    have hle : (total - (32 + 2 * fatSectors .fat32 total spc)) / spc ≤ (total - 32) / spc :=
      Nat.div_le_div_right (by omega)
    rw [hz']
    exact ⟨by omega, htype, by omega⟩

end

/-! ### The tool and the driver -/

theorem makeBpb_of_mid (g : MkfsGeometry) (volId : Nat) (volName : Option (List UInt8)) {i : Nat}
    (h1 : 90 ≤ i) (h2 : i < 510) : makeBpb g volId volName i = 0 := by
  have hlabel := length_formatVolumeLabel (volName.getD (defaultLabel g.fatType))
  have hname := length_fsTypeName g.fatType
  have hcommon : bpbCommon g i = 0 := by
    unfold bpbCommon
    simp (disch := first | omega | (simp only [List.length_cons, List.length_nil]; omega)) only
      [putBytes_of_ne, put16_of_ne, put32_of_ne]
    rfl
  unfold makeBpb
  split <;>
    simp (disch := first | omega | (simp only [List.length_cons, List.length_nil]; omega)) only
      [putBytes_of_ne, put16_of_ne, put32_of_ne, hcommon]

section

variable (env : Env) [env.NoFault] (bdev : Nat) {g : MkfsGeometry} {d : Disk}
  (hspc : g.secPerClus < 256) (hrsvd : 0 < g.rsvdSecCnt ∧ g.rsvdSecCnt < 65536)
  (htotal : 0 < g.totalSectors) (hmax : g.totalSectors < 4294967296)
  {volId : Nat} {volName : Option (List UInt8)}
  (hboot : ∀ a, a < 512 → d a = makeBpb g volId volName a)

include hmax hboot in
theorem bootFields_disk : BootFields g fun i => d (0 * 512 + i) :=
  (bootFields_makeBpb g volId volName hmax).congr fun i hi => by
    rw [Nat.zero_mul, Nat.zero_add]
    exact hboot i hi

include hspc hrsvd htotal hmax hboot

theorem fatMount_of_powerOfTwo (hp : PowerOfTwo g.secPerClus) :
    fatMount env bdev d = mountAt bdev 0 (fun i => d (0 * 512 + i)) g.totalSectors := by
  have hvalid := (bootFields_disk hmax hboot).isValidFatBpb hspc hrsvd htotal
  rw [if_pos hp] at hvalid
  simp only [fatMount, findBoot, bdevRead_eq, hvalid]

theorem fatMount_of_not_powerOfTwo (hp : ¬ PowerOfTwo g.secPerClus) :
    fatMount env bdev d = none := by
  have hvalid := (bootFields_disk hmax hboot).isValidFatBpb hspc hrsvd htotal
  rw [if_neg hp] at hvalid
  have hpart : findPartition env d (fun i => d (0 * 512 + i)) = none := by
    unfold findPartition
    rw [List.findSome?_eq_none_iff]
    intro p hp
    rw [List.mem_range'_1] at hp
    have hstart : le32 (fun i => d (0 * 512 + i)) (0x1BE + p * 16 + 8) = le32 zeroSector 0 :=
      le32_congr fun k hk => by
        rw [Nat.zero_mul, Nat.zero_add, hboot _ (by omega), makeBpb_of_mid _ _ _ (by omega)
          (by omega)]
        rfl
    have hzero : le32 zeroSector 0 = 0 := rfl
    simp only [hstart, hzero, Nat.lt_irrefl, gt_iff_lt, false_and, if_false]
  simp only [fatMount, findBoot, bdevRead_eq, hvalid, hpart, ite_self]

end

theorem mkfsGeometry_fits {t : FatType} {total spc : Nat} (htotal : 1024 ≤ total)
    (hmax : total < 4294967296) (hspc : 0 < spc ∧ spc < 256) :
    (mkfsGeometry t total spc).rsvdSecCnt + 2 * ((mkfsGeometry t total spc).fatSize + 1) +
      (mkfsGeometry t total spc).rootDirSectors + (mkfsGeometry t total spc).secPerClus ≤ total := by
  have hclus := mkfsGeometry_totalClusters t spc htotal hmax
  have hsize : (mkfsGeometry t total spc).fatSize =
      mkfsFatSize t (mkfsGeometry t total spc).totalClusters := rfl
  have hle := (mkfsFatSize_le t (grossClusters t total spc)).1
  have hgross : grossClusters t total spc ≤ total :=
    Nat.le_trans (Nat.div_le_self _ _) (Nat.sub_le _ _)
  have hbytes : fatBytes t (grossClusters t total spc + 2) ≤ (grossClusters t total spc + 2) * 4 := by
    unfold fatBytes
    split
    · omega
    · split <;> omega
  have hfix : (mkfsGeometry t total spc).rsvdSecCnt + (mkfsGeometry t total spc).rootDirSectors ≤
      36 := by
    simp only [mkfsGeometry]
    split <;> omega
  have hs : (mkfsGeometry t total spc).secPerClus = spc := rfl
  rw [hsize, hclus, hs]
  omega

theorem mkfsFat_done {image : Disk} {fileSize : Nat} {fatTypeArg secPerClusArg : Int}
    {volName : Option (List UInt8)} {volId : Nat} {t : FatType} (hsize : 512 * 1024 ≤ fileSize)
    (hmax : fileSize < 2199023255552) (ht : pickFatType fileSize fatTypeArg = some t)
    (hspc : pickSecPerClus t fileSize secPerClusArg ≠ 0) :
    mkfsFat image fileSize fatTypeArg secPerClusArg volName volId =
      .done (mkfsGeometry t (fileSize / 512) (pickSecPerClus t fileSize secPerClusArg))
        (writeVolume (mkfsGeometry t (fileSize / 512) (pickSecPerClus t fileSize secPerClusArg))
          volId volName ⟨image, 0, fileSize⟩) := by
  rw [mkfsFat, if_neg (by omega), ht]
  dsimp only
  rw [if_neg hspc, u32_of_lt (by omega)]

theorem checkFatType_known {n : Int} {t : FatType} (h : checkFatType n = some t) :
    t = .fat12 ∨ t = .fat16 ∨ t = .fat32 := by
  unfold checkFatType at h
  split at h
  · cases h
    exact Or.inl rfl
  · split at h
    · cases h
      exact Or.inr (Or.inl rfl)
    · split at h
      · cases h
        exact Or.inr (Or.inr rfl)
      · cases h

theorem pickSecPerClus_lt (t : FatType) (fileSize : Nat) (arg : Int) :
    pickSecPerClus t fileSize arg < 256 := by
  unfold pickSecPerClus
  split
  · omega
  · split
    · omega
    · split
      · split
        · omega
        · split
          · omega
          · split
            · omega
            · split <;> omega
      · split
        · omega
        · split
          · omega
          · split <;> omega

section

variable (env : Env) [env.NoFault] (bdev : Nat) {t : FatType} {total spc : Nat} {d : Disk}
  {volId : Nat} {volName : Option (List UInt8)} (htotal : 1024 ≤ total)
  (hmax : total < 4294967296) (hspc : 0 < spc ∧ spc < 256)
  (hboot : ∀ a, a < 512 → d a = makeBpb (mkfsGeometry t total spc) volId volName a)

include htotal hmax hspc hboot

theorem agrees16_iff (ht : t = .fat12 ∨ t = .fat16) :
    (∃ fs, fatMount env bdev d = some fs ∧ Agrees (mkfsGeometry t total spc) fs) ↔
      Fits t total spc := by
  have hne : t ≠ .fat32 := by
    rcases ht with rfl | rfl <;> decide
  have hrsvd : (mkfsGeometry t total spc).rsvdSecCnt = 4 := if_neg hne
  have hroot : (mkfsGeometry t total spc).rootEntCnt = 512 := if_neg hne
  have hrootSec : (mkfsGeometry t total spc).rootDirSectors = 32 := by
    rw [show (mkfsGeometry t total spc).rootDirSectors =
      ((mkfsGeometry t total spc).rootEntCnt * 32 + 511) / 512 from rfl, hroot]
  have htype : (mkfsGeometry t total spc).fatType = t := rfl
  have hsp : (mkfsGeometry t total spc).secPerClus = spc := rfl
  have htot : (mkfsGeometry t total spc).totalSectors = total := rfl
  have hfs : (mkfsGeometry t total spc).fatSize = mkfsFatSize t (grossClusters t total spc) := by
    rw [← mkfsGeometry_totalClusters t spc htotal hmax]
    rfl
  have hb := bootFields_disk (by rw [htot]; exact hmax) hboot
  have hfits := fun hp => fits16_iff ht hp hfs
  generalize mkfsGeometry t total spc = g at *
  by_cases hp : PowerOfTwo spc
  · have hmount := fatMount_of_powerOfTwo env bdev (by rw [hsp]; exact hspc.2)
      (by rw [hrsvd]; omega) (by omega) (by omega) hboot (by rw [hsp]; exact hp)
    rw [← hfits hp]
    by_cases hz : u16 g.fatSize = 0
    · have hsz : le16 (fun i => d (0 * 512 + i)) 22 = 0 := by
        rw [hb.fatSz16, htype, if_neg hne, hz]
      constructor
      · rintro ⟨fs, hfs', hag⟩
        have hr := hag.root
        rw [htype, if_neg hne, mountAt_root hsz _ _ fs (hmount ▸ hfs')] at hr
        omega
      · rintro ⟨h0, _⟩
        exact absurd hz h0
    · rw [hmount, hb.mountAt_fat16 (by rw [hsp]; exact hspc.2) (by rw [hsp]; exact hspc.1)
        (by rw [htype]; exact hne) hrsvd hroot hz, htot, hsp]
      constructor
      · rintro ⟨fs, hfs', hag⟩
        obtain rfl := Option.some.inj hfs'
        have hdata := hag.dataStart
        rw [hrsvd, hrootSec] at hdata
        have hdata' : 36 + 2 * u16 g.fatSize = 4 + 2 * g.fatSize + 32 := hdata
        have h1 : fatTypeOf ((total - (36 + 2 * u16 g.fatSize)) / spc) = t := hag.type.trans htype
        have h2 := hag.room _ (Nat.le_refl _)
        rw [hag.type, htype] at h2
        exact ⟨hz, h1, by omega, h2⟩
      · rintro ⟨_, h1, h2, h3⟩
        refine ⟨_, rfl, h1.trans htype.symm, hrsvd.symm, ?_, ?_, fun c hc => ?_⟩
        · rw [htype, if_neg hne, hrsvd, hrootSec]
          exact ⟨congrArg (4 + 2 * ·) h2, rfl⟩
        · rw [hrsvd, hrootSec]
          have : 36 + 2 * u16 g.fatSize = 4 + 2 * g.fatSize + 32 := by omega
          exact this
        · have hmono := entryEnd_mono t hc
          rw [show (mounted16 bdev total spc (u16 g.fatSize)).type = t from h1]
          exact Nat.le_trans hmono h3
  · have hmount := fatMount_of_not_powerOfTwo env bdev (by rw [hsp]; exact hspc.2)
      (by rw [hrsvd]; omega) (by omega) (by omega) hboot (by rw [hsp]; exact hp)
    rw [hmount]
    constructor
    · rintro ⟨fs, h, _⟩
      cases h
    · exact fun h => absurd h.1 hp

theorem agrees32_iff (ht : t = .fat32) :
    (∃ fs, fatMount env bdev d = some fs ∧ Agrees (mkfsGeometry t total spc) fs) ↔
      Fits t total spc := by
  have hrsvd : (mkfsGeometry t total spc).rsvdSecCnt = 32 := if_pos ht
  have hrootSec : (mkfsGeometry t total spc).rootDirSectors = 0 := by
    rw [show (mkfsGeometry t total spc).rootDirSectors =
      ((mkfsGeometry t total spc).rootEntCnt * 32 + 511) / 512 from rfl,
      show (mkfsGeometry t total spc).rootEntCnt = 0 from if_pos ht]
  have htype : (mkfsGeometry t total spc).fatType = .fat32 := ht
  have hsp : (mkfsGeometry t total spc).secPerClus = spc := rfl
  have htot : (mkfsGeometry t total spc).totalSectors = total := rfl
  have hfs : (mkfsGeometry t total spc).fatSize = mkfsFatSize t (grossClusters t total spc) := by
    rw [← mkfsGeometry_totalClusters t spc htotal hmax]
    rfl
  have hlt := (mkfsFatSize_le t (grossClusters t total spc)).2
  rw [← hfs] at hlt
  have hb := bootFields_disk (by rw [htot]; exact hmax) hboot
  generalize mkfsGeometry t total spc = g at *
  subst ht
  have hfits := fun hp => fits32_iff hp hfs
  by_cases hp : PowerOfTwo spc
  · rw [fatMount_of_powerOfTwo env bdev (by rw [hsp]; exact hspc.2) (by rw [hrsvd]; omega)
      (by omega) (by omega) hboot (by rw [hsp]; exact hp), ← hfits hp,
      hb.mountAt_fat32 (by rw [hsp]; exact hspc.2) (by rw [hsp]; exact hspc.1) htype hrsvd hlt,
      htot, hsp]
    by_cases hz : g.fatSize = 0
    · rw [if_pos hz]
      constructor
      · rintro ⟨fs, h, _⟩
        cases h
      · exact fun h => absurd hz h.1
    · rw [if_neg hz]
      constructor
      · rintro ⟨fs, hfs', hag⟩
        obtain rfl := Option.some.inj hfs'
        have h1 : fatTypeOf ((total - (32 + 2 * g.fatSize)) / spc) = .fat32 := hag.type.trans htype
        have h2 := hag.room _ (Nat.le_refl _)
        rw [hag.type, htype] at h2
        exact ⟨hz, h1, h2⟩
      · rintro ⟨_, h1, h3⟩
        refine ⟨_, rfl, h1.trans htype.symm, hrsvd.symm, ?_, ?_, fun c hc => ?_⟩
        · rw [htype, if_pos rfl, hrsvd]
          simp only [mounted32, clusterSector, Nat.sub_self, Nat.zero_mul]
          rw [u32_of_lt (show 0 < 4294967296 by omega), Nat.add_zero, u32_of_lt (by omega)]
        · rw [hrsvd, hrootSec, Nat.add_zero]
          rfl
        · have hmono := entryEnd_mono .fat32 hc
          rw [show (mounted32 bdev total spc g.fatSize).type = .fat32 from h1]
          exact Nat.le_trans hmono h3
  · have hmount := fatMount_of_not_powerOfTwo env bdev (by rw [hsp]; exact hspc.2)
      (by rw [hrsvd]; omega) (by omega) (by omega) hboot (by rw [hsp]; exact hp)
    rw [hmount]
    constructor
    · rintro ⟨fs, h, _⟩
      cases h
    · exact fun h => absurd h.1 hp

end

/-- **Images the driver can use.**  For every image size from 512 KB to 2 TB and all
    options the tool accepts, a run of the tool is good exactly when type, size and
    cluster size go together. -/
theorem mkfsSound_iff (env : Env) [env.NoFault] (bdev : Nat) (image : Disk) {fileSize : Nat}
    {fatTypeArg : Int} {t : FatType} (secPerClusArg : Int) (volName : Option (List UInt8))
    (volId : Nat) (hsize : 512 * 1024 ≤ fileSize) (hmax : fileSize < 2199023255552)
    (ht : pickFatType fileSize fatTypeArg = some t) :
    MkfsSound env bdev fileSize (mkfsFat image fileSize fatTypeArg secPerClusArg volName volId) ↔
      Fits t (fileSize / 512) (pickSecPerClus t fileSize secPerClusArg) := by
  have hlt := pickSecPerClus_lt t fileSize secPerClusArg
  have hknown := checkFatType_known ht
  by_cases h0 : pickSecPerClus t fileSize secPerClusArg = 0
  · rw [mkfsFat, if_neg (by omega), ht]
    dsimp only
    rw [if_pos h0, h0]
    refine ⟨fun h => h.elim, fun h => ?_⟩
    obtain ⟨k, _, hk⟩ := h.1
    exact absurd hk (Nat.ne_of_lt (Nat.two_pow_pos k))
  · rw [mkfsFat_done hsize hmax ht h0, MkfsSound]
    generalize pickSecPerClus t fileSize secPerClusArg = spc at *
    have htotal : 1024 ≤ fileSize / 512 := by omega
    have hmax' : fileSize / 512 < 4294967296 := by omega
    have hgeo := mkfsGeometry_fits (t := t) htotal hmax' ⟨Nat.pos_of_ne_zero h0, hlt⟩
    have hfit := Nat.le_trans (Nat.mul_le_mul_right 512 hgeo) (Nat.div_mul_le_self fileSize 512)
    have hroot : (mkfsGeometry t (fileSize / 512) spc).fatType ≠ .fat32 →
        0 < (mkfsGeometry t (fileSize / 512) spc).rootDirSectors := by
      intro hne
      simp only [mkfsGeometry] at hne ⊢
      rw [if_neg hne]
      omega
    obtain ⟨hdata, hend⟩ := writeVolume_spec volId volName (f := ⟨image, 0, fileSize⟩)
      (Nat.pos_of_ne_zero h0) rfl hroot hfit (by omega) hknown
    have hagrees : (∃ fs, fatMount env bdev (writeVolume (mkfsGeometry t (fileSize / 512) spc) volId
        volName ⟨image, 0, fileSize⟩).data = some fs ∧
          Agrees (mkfsGeometry t (fileSize / 512) spc) fs) ↔ Fits t (fileSize / 512) spc := by
      rcases hknown with h | h | h
      · exact agrees16_iff env bdev htotal hmax' ⟨Nat.pos_of_ne_zero h0, hlt⟩ hdata
          (Or.inl h)
      · exact agrees16_iff env bdev htotal hmax' ⟨Nat.pos_of_ne_zero h0, hlt⟩ hdata
          (Or.inr h)
      · exact agrees32_iff env bdev htotal hmax' ⟨Nat.pos_of_ne_zero h0, hlt⟩ hdata h
    rw [← hagrees]
    exact ⟨fun h => h.2, fun h => ⟨hend, h⟩⟩

/-- A 16 MB image formatted as FAT16 is a good one. -/
theorem mkfsSound_16MB : MkfsSound Env.ideal 0 16777216
    (mkfsFat (fun _ => 0) 16777216 16 0 none 0) :=
  (mkfsSound_iff Env.ideal 0 (fun _ => 0) (t := .fat16) 0 none 0 (by decide) (by decide)
    (by decide)).mpr (by decide)

/-- The same image formatted with `-F 32` has too few clusters: the driver takes the
    volume for FAT16 and reads 16-bit entries from a FAT of 32-bit ones. -/
theorem not_mkfsSound_small_fat32 : ¬ MkfsSound Env.ideal 0 16777216
    (mkfsFat (fun _ => 0) 16777216 32 0 none 0) := by
  have hrun : mkfsFat (fun _ => 0) 16777216 32 0 none 0 = .done _ _ :=
    mkfsFat_done (t := .fat32) (by decide) (by decide) (by decide) (by decide)
  rw [hrun]
  rintro ⟨_, fs, hfs, hag⟩
  have htype : (fatMount Env.ideal 0 (writeVolume (mkfsGeometry .fat32 (16777216 / 512)
      (pickSecPerClus .fat32 16777216 0)) 0 none ⟨fun _ => 0, 0, 16777216⟩).data).map (·.type) =
        some .fat16 := by decide +kernel
  rw [hfs, Option.map_some, hag.type] at htype
  cases htype

/-! ### A small volume -/

/-- A FAT16 image of 4200 sectors with one sector per cluster. -/
def smallImage : Disk :=
  (writeVolume (mkfsGeometry .fat16 4200 1) 0 none ⟨fun _ => 0, 0, 4200 * 512⟩).data

def smallFs : FatFs := mounted16 0 4200 1 17

theorem fatMount_smallImage : fatMount Env.ideal 0 smallImage = some smallFs := by decide +kernel

theorem smallFs_sound : smallFs.Sound := by
  constructor <;> decide

end Gemios
