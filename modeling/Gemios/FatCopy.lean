import Gemios.FatReadThrough
import Gemios.FatNewFile

/-!
# What `fat_copy_file` stores

The copy writes as many bytes as the read gave it.  Where the directory of the destination and
the file to be replaced are sound, and with no failing read from the write on, the destination
then holds the source's bytes exactly when the source was read through.
-/

namespace Gemios

/-! ### Chains of a sound volume -/

section

variable {fs : FatFs} (hs : fs.Sound)

include hs

theorem FatFs.Sound.tableEnt_eq_fatEnt (d : Disk) {c : Nat} (hc : fs.InRange c) :
    fs.tableEnt d c = fs.fatEnt d c := by
  have hoff := entOffset_eq hs.type c
  have hsec : fs.tableSec (fs.entOffset c) = fs.fatStartSector + fs.entSize * c / 512 := by
    have h1 := hs.entSector_lt hc.2
    have h2 := hs.fatSize_le
    have h3 := hs.dataEnd
    rw [FatFs.tableSec, hoff]
    unfold FatFs.entSector at h1
    exact u32_of_lt (by omega)
  rw [tableEnt_eq hs.type, FatFs.fatEnt]
  refine entGet_congr fs fun k _ => congrArg d ?_
  rw [hsec, hoff, FatFs.entAddr]
  omega

theorem FatFs.Sound.dataCluster {c : Nat} (hc : fs.InRange c) : fs.DataCluster c := by
  refine ⟨hc, ?_⟩
  rw [FatFs.eocMark, if_neg (not_fat12 hs.type)]
  exact hs.lt_eofLimit hc

theorem clusterData_eq (d : Disk) {c : Nat} (hc : fs.InRange c) :
    clusterData fs d c = clusBytes fs d c := by
  rw [clusterData, clusBytes, hs.clusterSector_addr hc]

theorem chained_of_isChain {d : Disk} : ∀ {L : List Nat} {c : Nat}, IsChain fs d (c :: L) →
    Chained fs d c (c :: L) := by
  intro L
  induction L with
  | nil =>
    intro c h
    exact ⟨rfl, hs.dataCluster h.head_inRange, trivial⟩
  | cons c' L ih =>
    intro c h
    refine ⟨rfl, hs.dataCluster h.head_inRange, ?_⟩
    have hlink : fs.fatEnt d c = c' := h.linked.1
    rw [hs.tableEnt_eq_fatEnt d h.head_inRange, hlink]
    exact ih h.tail

theorem chainHolds_of_isChain {d : Disk} {c : Nat} {L : List Nat} {bs : List UInt8}
    (h : IsChain fs d (c :: L)) (hbs : bs <+: chainBytes fs d (c :: L)) :
    ChainHolds fs d c bs := by
  refine ⟨c :: L, chained_of_isChain hs h, ?_⟩
  have hdata : (c :: L).flatMap (clusterData fs d) = chainBytes fs d (c :: L) := by
    refine List.flatMap_congr fun x hx => ?_
    exact clusterData_eq hs d (h.inRange x hx)
  rw [hdata]
  exact hbs

end

/-- What `fat_copy_file` is to leave: the directory the destination path leads to holds a file
    under its name, with the size of the source and the bytes of its chain. -/
def Copied (env : Env) (srcFs : FatFs) (srcPath : List UInt8) (dstFs : FatFs)
    (dstPath : List UInt8) (w w' : Devs) : Prop :=
  ∃ src dir name dst bs, fatLookup env srcFs (w srcFs.bdev) srcPath = some src ∧
    fatResolveParentAndName env dstFs (w dstFs.bdev) dstPath = some (dir, name) ∧
    fatDirFindEntry env dstFs (w' dstFs.bdev) dir name = some dst ∧
    dst.entry.isDirectory = false ∧ dst.entry.fileSize = src.entry.fileSize ∧
    bs.length = src.entry.fileSize ∧
    ChainHolds srcFs (w srcFs.bdev) src.entry.cluster bs ∧
    ChainHolds dstFs (w' dstFs.bdev) dst.entry.cluster bs

namespace Faulty

/-! ### The source -/

/-- The two lookups of the source path can be relied on, and the file is no longer than the memory
    that `kmalloc` gives for it: above 2^32 - 8 bytes the rounding wraps to 0. -/
structure SourceReliable (env : Env) (fs : FatFs) (path : List UInt8) (w : Flaky Disk) :
    Prop where
  stat : Reliable fs path w
  read : ∀ loc, Gemios.fatLookup env fs w.dev path = some loc → loc.entry.fileSize ≠ 0 →
    Reliable fs path ((fatStat fs path).flaky w).2.asked
  size : ∀ loc, Gemios.fatLookup env fs w.dev path = some loc → loc.entry.fileSize ≤ 4294967288

/-- The source's device when the copy comes to the clusters of the source. -/
def copyReads (fs : FatFs) (path : List UInt8) (w : Flaky Disk) : Flaky Disk :=
  ((fatLookup fs path).flaky ((fatStat fs path).flaky w).2.asked).2

theorem readOnly_copySource (srcFs : FatFs) (srcPath : List UInt8) :
    (copySource srcFs srcPath).ReadOnly := by
  refine ((readOnly_fatStat srcFs srcPath).lift srcFs.bdev).bind fun r => ?_
  cases r with
  | none => exact Prog.readOnly_pure _
  | some p =>
    refine Prog.ReadOnly.ite (Prog.readOnly_pure _) ?_
    refine Prog.ReadOnly.ite (Prog.readOnly_pure _) ?_
    refine Prog.readOnly_alloc.bind fun ok => ?_
    refine Prog.ReadOnly.ite (Prog.readOnly_pure _) ?_
    refine ((readOnly_fatReadFile srcFs srcPath p.1).lift srcFs.bdev).bind fun r => ?_
    cases r with
    | none => exact Prog.readOnly_pure _
    | some bytes => exact Prog.readOnly_pure _

theorem copySource_error (srcFs : FatFs) (srcPath : List UInt8) :
    (copySource srcFs srcPath).Returns fun r => r ≠ .error 0 := by
  have herror : ∀ r : Int, r ≠ 0 →
      (pure (.error r) : DevsProg (Except Int (List UInt8))).Returns fun r => r ≠ .error 0 :=
    fun r hr heq => hr (Except.error.inj heq)
  have hok : ∀ bytes : List UInt8,
      (pure (.ok bytes) : DevsProg (Except Int (List UInt8))).Returns fun r => r ≠ .error 0 :=
    fun bytes heq => by cases heq
  refine Prog.returns_bind _ fun r => ?_
  cases r with
  | none => exact herror (-1) (by decide)
  | some p =>
    refine Prog.Returns.ite (herror (-2) (by decide)) ?_
    refine Prog.Returns.ite (hok []) ?_
    refine Prog.returns_bind _ fun granted => ?_
    refine Prog.Returns.ite (herror (-3) (by decide)) ?_
    refine Prog.returns_bind _ fun r => ?_
    cases r with
    | none => exact herror (-1) (by decide)
    | some bytes => exact hok bytes

section

variable {srcFs : FatFs} {srcPath : List UInt8}

theorem copySource_steps {w : Flaky Devs} {bytes : List UInt8}
    (h : ((copySource srcFs srcPath).flaky w).1 = .ok bytes) :
    ∃ loc, ((fatLookup srcFs srcPath).flaky (w.one srcFs.bdev)).1 = some loc ∧
      ((loc.entry.fileSize = 0 ∧ bytes = []) ∨ (loc.entry.fileSize ≠ 0 ∧
        ((fatReadFile srcFs srcPath loc.entry.fileSize).flaky
          ((fatStat srcFs srcPath).flaky (w.one srcFs.bdev)).2.asked).1 = some bytes)) := by
  rw [copySource, Prog.flaky_bind, upon, Prog.flaky_lift] at h
  dsimp only at h
  cases hstat : ((fatStat srcFs srcPath).flaky (w.one srcFs.bdev)).1 with
  | none =>
    rw [hstat] at h
    cases h
  | some p =>
    obtain ⟨size, attr⟩ := p
    rw [hstat] at h
    dsimp only at h
    -- the root is not a file
    have hfound : attr &&& 0x10 = 0 → ∃ loc,
        ((fatLookup srcFs srcPath).flaky (w.one srcFs.bdev)).1 = some loc ∧
          loc.entry.fileSize = size := by
      intro hattr
      unfold fatStat at hstat
      split at hstat
      · cases hstat
        exact absurd hattr (by decide)
      · rw [Prog.flaky_map] at hstat
        obtain ⟨loc, hloc, heq⟩ := Option.map_eq_some_iff.mp hstat
        exact ⟨loc, hloc, congrArg Prod.fst heq⟩
    split at h
    · cases h
    · next hattr =>
      obtain ⟨loc, hloc, hsize⟩ := hfound (by simpa using hattr)
      subst hsize
      refine ⟨loc, hloc, ?_⟩
      split at h
      · next hzero =>
        cases h
        exact Or.inl ⟨hzero, rfl⟩
      · next hzero =>
        rw [Prog.flaky_bind, Prog.flaky_alloc] at h
        dsimp only at h
        split at h
        · cases h
        · rw [Prog.flaky_bind, upon, Prog.flaky_lift] at h
          have hone : (w.back srcFs.bdev ((fatStat srcFs srcPath).flaky
              (w.one srcFs.bdev)).2).asked.one srcFs.bdev =
                ((fatStat srcFs srcPath).flaky (w.one srcFs.bdev)).2.asked :=
            congrArg Flaky.asked (w.one_back srcFs.bdev _)
          rw [hone] at h
          dsimp only at h
          cases hread : ((fatReadFile srcFs srcPath loc.entry.fileSize).flaky
              ((fatStat srcFs srcPath).flaky (w.one srcFs.bdev)).2.asked).1 with
          | none =>
            rw [hread] at h
            cases h
          | some bs =>
            rw [hread] at h
            cases h
            exact Or.inr ⟨hzero, rfl⟩

variable (hbps : srcFs.bytesPerSector = 512) (hspc : 0 < srcFs.sectorsPerCluster)
  (hbpc : 0 < srcFs.bytesPerCluster)
  (htype : srcFs.type = .fat12 ∨ srcFs.type = .fat16 ∨ srcFs.type = .fat32)

include hbps hspc hbpc htype

/-- **The source.**  The copy has all bytes of the file that the path names exactly when they
    are read through. -/
theorem copySource_spec (env : Env) [env.NoFault] {w : Flaky Devs} {bytes : List UInt8}
    (hrel : SourceReliable env srcFs srcPath (w.one srcFs.bdev))
    (h : ((copySource srcFs srcPath).flaky w).1 = .ok bytes) :
    ∃ loc, Gemios.fatLookup env srcFs (w.dev srcFs.bdev) srcPath = some loc ∧
      bytes.length ≤ loc.entry.fileSize ∧
      (ReadsThrough srcFs (copyReads srcFs srcPath (w.one srcFs.bdev)) loc.entry.cluster
          loc.entry.fileSize →
        bytes.length = loc.entry.fileSize ∧
          ChainHolds srcFs (w.dev srcFs.bdev) loc.entry.cluster bytes) ∧
      ∀ full, ChainHolds srcFs (w.dev srcFs.bdev) loc.entry.cluster full →
        full.length = loc.entry.fileSize → bytes.length = loc.entry.fileSize →
        ReadsThrough srcFs (copyReads srcFs srcPath (w.one srcFs.bdev)) loc.entry.cluster
          loc.entry.fileSize := by
  obtain ⟨loc, hloc, hcase⟩ := copySource_steps h
  have hplain : Gemios.fatLookup env srcFs (w.dev srcFs.bdev) srcPath = some loc :=
    hrel.stat.lookup env srcFs hloc
  refine ⟨loc, hplain, ?_⟩
  rcases hcase with ⟨hzero, rfl⟩ | ⟨hzero, hread⟩
  · rw [hzero]
    exact ⟨Nat.le_refl 0, fun _ => ⟨rfl, chainHolds_nil _ _⟩, fun _ _ _ _ => Or.inl rfl⟩
  · have hdev : ((fatStat srcFs srcPath).flaky (w.one srcFs.bdev)).2.asked.dev =
        w.dev srcFs.bdev := (readOnly_fatStat srcFs srcPath).flaky_dev (w.one srcFs.bdev)
    rw [fatReadFile, Prog.flaky_bind] at hread
    cases hlook : ((fatLookup srcFs srcPath).flaky
        ((fatStat srcFs srcPath).flaky (w.one srcFs.bdev)).2.asked).1 with
    | none =>
      rw [hlook] at hread
      cases hread
    | some loc' =>
      have hagain := (hrel.read loc hplain hzero).lookup env srcFs hlook
      rw [hdev, hplain] at hagain
      obtain rfl := Option.some.inj hagain
      rw [hlook] at hread
      have hcontents : ((readContents srcFs loc.entry loc.entry.fileSize).flaky
          (copyReads srcFs srcPath (w.one srcFs.bdev))).1 = some bytes := hread
      have hdev' : (copyReads srcFs srcPath (w.one srcFs.bdev)).dev = w.dev srcFs.bdev :=
        ((readOnly_fatLookup srcFs srcPath).flaky_dev _).trans hdev
      have hmin := Nat.min_self loc.entry.fileSize
      have hle := length_readContents_le hcontents
      have hcomplete := readContents_complete_iff hbps hspc hbpc htype hcontents
      rw [hmin] at hle
      rw [Complete, hmin, hdev'] at hcomplete
      refine ⟨hle, hcomplete.mpr, fun full hfull hlen hbytes => ?_⟩
      have hlength := readContents_length_iff hbps hspc hbpc htype (hdev'.symm ▸ hfull)
        (hlen.trans hmin.symm) hcontents
      rw [hmin] at hlength
      exact hlength.mp hbytes

end

/-! ### The destination -/

/-- The destination stores what is written: the directory that the path leads to and the file of
    that name are sound, a new name can be found again, and during the write no read fails and no
    request for memory is denied. -/
structure DestOk (env : Env) (fs : FatFs) (path : List UInt8) (bytes : List UInt8)
    (w : Flaky Disk) : Prop where
  sound : fs.Sound
  target : ∀ dir name, Gemios.fatResolveParentAndName env fs w.dev path = some (dir, name) →
    TargetOk env fs w.dev dir name
  served : (copyWrite env.afterShort fs path bytes).Served w
  granted : w.Granted

/-- **The destination.**  A write that reports success stores the bytes. -/
theorem copyWrite_found (env : Env) [env.NoFault] {fs : FatFs} {path bytes : List UInt8}
    {w : Flaky Disk} (hok : DestOk env fs path bytes w) (hlen : bytes.length < 4294967296)
    (h : ((copyWrite env.afterShort fs path bytes).flaky w).1 = 0) :
    ∃ dir name loc, Gemios.fatResolveParentAndName env fs w.dev path = some (dir, name) ∧
      HoldsFile env fs ((copyWrite env.afterShort fs path bytes).flaky w).2.dev dir name loc
        bytes := by
  have hgrants : w.grants = granted := funext hok.granted
  obtain ⟨hres, hdev⟩ := Prog.flaky_of_served _ hok.served
  have hplain := fatWriteFile_granted env hok.sound w.dev path
    (fun i => bytes.getD i 0) bytes.length
  rw [hgrants] at hres hdev
  rw [copyWrite, hplain] at hres hdev
  have hrun : Gemios.fatWriteFile env fs w.dev path (fun i => bytes.getD i 0) bytes.length =
      (0, ((copyWrite env.afterShort fs path bytes).flaky w).2.dev) :=
    Prod.ext (hres.symm.trans h) hdev.symm
  cases hparent : Gemios.fatResolveParentAndName env fs w.dev path with
  | none =>
    rw [Gemios.fatWriteFile, hparent] at hrun
    cases hrun
  | some p =>
    obtain ⟨dir, name⟩ := p
    obtain ⟨loc, hloc⟩ := fatWriteFile_found hok.sound env hparent
      (hok.target dir name hparent) hlen hrun
    rw [bufBytes_getD] at hloc
    exact ⟨dir, name, loc, rfl, hloc⟩

/-! ### The copy -/

/-- **Copying.**  When `fat_copy_file` reports success and the destination stores what is
    written, the destination is the source exactly when the source was read through. -/
theorem copied_iff {srcFs dstFs : FatFs} {srcPath dstPath : List UInt8}
    (hbps : srcFs.bytesPerSector = 512) (hspc : 0 < srcFs.sectorsPerCluster)
    (hbpc : 0 < srcFs.bytesPerCluster)
    (htype : srcFs.type = .fat12 ∨ srcFs.type = .fat16 ∨ srcFs.type = .fat32) (env : Env)
    [env.NoFault] {w : Flaky Devs} (hrel : SourceReliable env srcFs srcPath (w.one srcFs.bdev))
    (hdst : ∀ bytes, ((copySource srcFs srcPath).flaky w).1 = .ok bytes →
      DestOk env dstFs dstPath bytes (((copySource srcFs srcPath).flaky w).2.one dstFs.bdev))
    (h : ((fatCopyFile env.afterShort srcFs srcPath dstFs dstPath).flaky w).1 = 0) :
    Copied env srcFs srcPath dstFs dstPath w.dev
        ((fatCopyFile env.afterShort srcFs srcPath dstFs dstPath).flaky w).2.dev ↔
      ∃ src, Gemios.fatLookup env srcFs (w.dev srcFs.bdev) srcPath = some src ∧
        ReadsThrough srcFs (copyReads srcFs srcPath (w.one srcFs.bdev)) src.entry.cluster
          src.entry.fileSize := by
  have hdev := (readOnly_copySource srcFs srcPath).flaky_dev w
  have hsource := (copySource_error srcFs srcPath).flaky w
  rw [fatCopyFile, Prog.flaky_bind] at h ⊢
  cases hbytes : ((copySource srcFs srcPath).flaky w).1 with
  | error r =>
    rw [hbytes] at h hsource
    exact absurd (congrArg Except.error h) hsource
  | ok bytes =>
    rw [hbytes] at h
    dsimp only at h ⊢
    have hok := hdst bytes hbytes
    rw [upon, Prog.flaky_lift] at h ⊢
    generalize ((copySource srcFs srcPath).flaky w).2 = u at *
    have hone : (u.one dstFs.bdev).dev = w.dev dstFs.bdev := congrFun hdev dstFs.bdev
    obtain ⟨src, hsrc, hle, hthrough, hback⟩ :=
      copySource_spec hbps hspc hbpc htype env hrel hbytes
    have hlen : bytes.length < 4294967296 := Nat.lt_of_le_of_lt hle (le32_lt src.entry 28)
    obtain ⟨dir, name, dst, hparent, hholds⟩ := copyWrite_found env hok hlen h
    rw [hone] at hparent
    have hafter : (u.back dstFs.bdev ((copyWrite env.afterShort dstFs dstPath bytes).flaky
        (u.one dstFs.bdev)).2).dev dstFs.bdev =
          ((copyWrite env.afterShort dstFs dstPath bytes).flaky (u.one dstFs.bdev)).2.dev :=
      congrArg Flaky.dev (u.one_back dstFs.bdev _)
    constructor
    · rintro ⟨src', dir', name', dst', full, hsrc', hparent', hfind', _, hsize', hfull, hchain, _⟩
      rw [hsrc, Option.some.injEq] at hsrc'
      rw [hparent, Option.some.injEq, Prod.mk.injEq] at hparent'
      obtain ⟨rfl, rfl⟩ := hparent'
      rw [hafter, hholds.found, Option.some.injEq] at hfind'
      rw [← hfind', hholds.size, ← hsrc'] at hsize'
      rw [← hsrc'] at hfull hchain
      exact ⟨src, hsrc, hback full hchain hfull hsize'⟩
    · rintro ⟨src', hsrc', hread⟩
      rw [hsrc, Option.some.injEq] at hsrc'
      rw [← hsrc'] at hread
      obtain ⟨hfull, hchain⟩ := hthrough hread
      obtain ⟨L, hL, hprefix⟩ := hholds.data
      refine ⟨src, dir, name, dst, bytes, hsrc, hparent, ?_, hholds.file, ?_, hfull, hchain, ?_⟩
      · rw [hafter]
        exact hholds.found
      · rw [hholds.size, hfull]
      · rw [hafter]
        exact chainHolds_of_isChain hok.sound hL hprefix

/-- The small volume with a file `A` of three bytes in cluster 2, on device 1. -/
def threeByteDisk : Disk :=
  putSlot (Gemios.setFatEntry Env.ideal smallFs smallImage 2 0xFFFF).2
    (smallFs.rootDirStartSector * 512) ((Slot.fresh 0x20 2 3).withName (toFat83Name [0x41]))

def threeByteFs : FatFs := mounted16 1 4200 1 17

/-- Device 1 with the file, and device 0 with an empty file of that name. -/
def twoDevs : Devs := fun i => if i = 1 then threeByteDisk else smallDiskWithFile

/-- Every read succeeds and all memory is granted. -/
def calm {δ : Type} (d : δ) : Flaky δ := ⟨d, fun _ => false, granted⟩

@[simp] theorem calm_dev {δ : Type} (d : δ) : (calm d).dev = d := rfl

theorem readsThrough_threeBytes {loc : EntryLoc} (hcluster : loc.entry.cluster = 2)
    (hsize : loc.entry.fileSize = 3) {w : Flaky Disk} (hfails : ∀ n, w.fails n = false) :
    ReadsThrough threeByteFs w loc.entry.cluster loc.entry.fileSize := by
  rw [hcluster, hsize]
  refine Or.inr ⟨[2], ⟨rfl, by decide, trivial⟩, by decide, by decide, ?_⟩
  exact (readsOk_singleton w.fails 2).mpr (hfails 0)

theorem targetOk_smallDiskWithFile :
    TargetOk Env.ideal smallFs smallDiskWithFile (fatRootDir smallFs) [0x41] := by
  have hfound : (Gemios.fatDirFindEntry Env.ideal smallFs smallDiskWithFile (fatRootDir smallFs)
      [0x41]).map (fun loc => loc.entry.cluster) = some 0 := by decide +kernel
  refine ⟨Or.inl rfl, fun loc hloc => ?_, fun _ _ hfix => ?_, fun hnone => ?_⟩
  · rw [hloc, Option.map_some, Option.some.injEq] at hfound
    exact Or.inl (by omega)
  · cases hfix
  · rw [hnone] at hfound
    cases hfound

theorem destOk_threeBytes (bytes : List UInt8) {w : Flaky Disk} (hdev : w.dev = smallDiskWithFile)
    (hfails : ∀ n, w.fails n = false) (hgrants : w.Granted) :
    DestOk Env.ideal smallFs [0x41] bytes w where
  sound := smallFs_sound
  target := by
    intro dir name hparent
    rw [hdev] at hparent ⊢
    have hroot : Gemios.fatResolveParentAndName Env.ideal smallFs smallDiskWithFile [0x41] =
        some (fatRootDir smallFs, [0x41]) := rfl
    rw [hroot, Option.some.injEq, Prod.mk.injEq] at hparent
    obtain ⟨rfl, rfl⟩ := hparent
    exact targetOk_smallDiskWithFile
  served := Prog.served_of_never _ hfails
  granted := hgrants

/-- A FAT12 volume of 100 sectors: a file `A` of 600 bytes in clusters 2 and 3. -/
def twoClusterDisk : Disk :=
  putSlot (fun a =>
    if a = 0 then 0xEB
    else if a = 12 then 0x02
    else if a = 13 ∨ a = 14 ∨ a = 16 ∨ a = 22 then 0x01
    else if a = 17 then 0x10
    else if a = 19 then 0x64
    else if a = 510 then 0x55
    else if a = 511 then 0xAA
    -- the links of clusters 2 and 3: 0x003 and 0xFFF
    else if a = 515 then 0x03
    else if a = 516 then 0xF0
    else if a = 517 then 0xFF
    else 0) 1024 ((Slot.fresh 0x20 2 600).withName (toFat83Name [0x41]))

def fat12Fs : FatFs where
  bdev := 0
  type := .fat12
  lbaOffset := 0
  bytesPerSector := 512
  sectorsPerCluster := 1
  bytesPerCluster := 512
  reservedSectors := 1
  numFats := 1
  fatStartSector := 1
  fatSizeSectors := 1
  rootDirStartSector := 2
  rootDirSectors := 1
  dataStartSector := 3
  totalClusters := 97
  rootCluster := 0

end Faulty

end Gemios
