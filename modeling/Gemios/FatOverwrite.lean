import Gemios.FatVolume
import Gemios.MkfsSpec

/-!
# Overwriting a file

Two devices on which every reachable directory has the same slots up to the data
of file entries resolve every path alike.

`fat_write_file` on a path that names a regular file: what it leaves on the device,
and that `fat_read_file` gives the data back while every other path keeps its entry
and its contents.
-/

namespace Gemios

/-- The second device has the reachable directories of the first, in the same
    places, with the same names and kinds of entries, and the same directory
    entries. -/
structure SameTree (fs : FatFs) (d d' : Disk) : Prop where
  dir : ∀ dir, LiveDir fs d dir → IsDir fs d' dir ∧ dirAddrs fs d' dir = dirAddrs fs d dir
  alike : ∀ dir, LiveDir fs d dir → ∀ a ∈ dirAddrs fs d dir,
    Slot.Alike (slotAt d a) (slotAt d' a)
  subdir : ∀ dir, LiveDir fs d dir → ∀ a ∈ dirAddrs fs d dir,
    (slotAt d a).isDirectory = true → slotAt d' a = slotAt d a
  file : ∀ dir, LiveDir fs d dir → ∀ a ∈ dirAddrs fs d dir,
    (slotAt d a).isDirectory = false → (slotAt d' a).isDirectory = false

section

variable {fs : FatFs} {d d' : Disk} (hw : WellFormed fs d) (ht : SameTree fs d d')
  (env : Env) [env.NoFault]

include hw ht

theorem SameTree.find {dir : FatDir} (hdir : LiveDir fs d dir) (name : List UInt8) :
    fatDirFindEntry env fs d' dir name =
      (fatDirFindEntry env fs d dir name).map (·.refresh d') := by
  obtain ⟨hdir', haddrs⟩ := ht.dir dir hdir
  rw [fatDirFindEntry_eq hw.sound env hdir', fatDirFindEntry_eq hw.sound env (hw.isDir hdir),
    haddrs]
  exact findIn_alike (dirAddrs_aligned fs d dir) (ht.alike dir hdir) name

theorem SameTree.refresh_subdir {dir : FatDir} (hdir : LiveDir fs d dir) {name : List UInt8}
    {loc : EntryLoc} (h : fatDirFindEntry env fs d dir name = some loc)
    (hsub : loc.entry.isDirectory = true) : (loc.refresh d').entry = loc.entry := by
  obtain ⟨hlive, hentry⟩ := hw.find_live env hdir h
  rw [hentry] at hsub ⊢
  exact ht.subdir dir hdir _ (mem_liveAddrs hlive).1 hsub

theorem SameTree.refresh_file {dir : FatDir} (hdir : LiveDir fs d dir) {name : List UInt8}
    {loc : EntryLoc} (h : fatDirFindEntry env fs d dir name = some loc)
    (hfile : loc.entry.isDirectory = false) : (loc.refresh d').entry.isDirectory = false := by
  obtain ⟨hlive, hentry⟩ := hw.find_live env hdir h
  rw [hentry] at hfile
  exact ht.file dir hdir _ (mem_liveAddrs hlive).1 hfile

theorem SameTree.parentDir {dir : FatDir} (hdir : LiveDir fs d dir) :
    parentDir env fs d' dir = parentDir env fs d dir := by
  unfold Gemios.parentDir
  split
  · rfl
  · next hroot =>
    have hne := ne_fatRootDir_of_not_atRoot hroot
    obtain ⟨hfix, hch, parent, hparent, hdots⟩ := hw.dots hdir hne
    obtain ⟨rest, hrest⟩ := hw.dirAddrs_head hfix hch
    obtain ⟨loc, hfind, _, hentry⟩ := hdots.findIn_dotdot rest
    have hfound : fatDirFindEntry env fs d dir [0x2E, 0x2E] = some loc := by
      rw [fatDirFindEntry_eq hw.sound env (hw.isDir hdir), hrest, hfind]
    have hkeep := ht.refresh_subdir hw env hdir hfound (by rw [hentry, hdots.dotdot.directory])
    rw [ht.find hw env hdir, hfound]
    simp only [Option.map_some, hkeep]

theorem SameTree.resolveStep {dir : FatDir} (hdir : LiveDir fs d dir) (comp : List UInt8) :
    resolveStep env fs d' dir comp = resolveStep env fs d dir comp := by
  unfold Gemios.resolveStep
  split
  · rfl
  · split
    · rw [ht.parentDir hw env hdir]
    · rw [ht.find hw env hdir]
      cases hfind : fatDirFindEntry env fs d dir comp with
      | none => rfl
      | some loc =>
        dsimp only [Option.map_some]
        cases hsub : loc.entry.isDirectory with
        | true => rw [ht.refresh_subdir hw env hdir hfind hsub, hsub]
        | false => simp [ht.refresh_file hw env hdir hfind hsub]

theorem SameTree.resolveFrom (comps : List (List UInt8)) {dir : FatDir} (hdir : LiveDir fs d dir) :
    resolveFrom env fs d' dir comps = resolveFrom env fs d dir comps := by
  induction comps generalizing dir with
  | nil => rfl
  | cons comp comps ih =>
    rw [Gemios.resolveFrom, Gemios.resolveFrom, ht.resolveStep hw env hdir]
    cases hstep : Gemios.resolveStep env fs d dir comp with
    | none => rfl
    | some dir₁ => exact ih (hw.resolveStep_live env hdir hstep)

theorem SameTree.resolveDir (path : List UInt8) :
    fatResolveDir env fs d' path = fatResolveDir env fs d path :=
  ht.resolveFrom hw env _ LiveDir.root

theorem SameTree.resolveParent (path : List UInt8) :
    fatResolveParentAndName env fs d' path = fatResolveParentAndName env fs d path := by
  simp only [fatResolveParentAndName, ht.resolveDir hw env]

/-- **Paths name the same slots.** -/
theorem SameTree.lookup (path : List UInt8) :
    fatLookup env fs d' path = (fatLookup env fs d path).map (·.refresh d') := by
  unfold fatLookup
  rw [ht.resolveParent hw env]
  cases hres : fatResolveParentAndName env fs d path with
  | none => rfl
  | some r => exact ht.find hw env (hw.resolveParent_live env hres) r.2

end

/-! ### A directory entry rewritten in place -/

section Rewritten

variable (e : Slot) (c size : Nat)

theorem Slot.rewritten_name {i : Nat} (hi : i < 11) : e.rewritten c size i = e i := by
  rw [Slot.rewritten, put32_of_ne (by omega), Slot.setCluster, put16_of_ne (by omega),
    put16_of_ne (by omega), if_neg (by omega)]

theorem Slot.rewritten_attr : (e.rewritten c size).attr = 0x20 := by
  rw [Slot.attr, Slot.rewritten, put32_of_ne (by omega), Slot.setCluster, put16_of_ne (by omega),
    put16_of_ne (by omega), if_pos rfl]

theorem Slot.rewritten_fileSize (hsize : size < 4294967296) :
    (e.rewritten c size).fileSize = size := by
  rw [Slot.fileSize, Slot.rewritten, le32_put32, Nat.mod_eq_of_lt hsize]

theorem Slot.cluster_setCluster (s : Slot) {c : Nat} (hc : c < 4294967296) :
    (s.setCluster c).cluster = c := by
  rw [Slot.cluster, Slot.fstClusHi, Slot.fstClusLo, Slot.setCluster, le16_put16,
    le16_put16_of_ne (by omega), le16_put16]
  unfold u16
  omega

theorem Slot.rewritten_cluster (hc : c < 4294967296) : (e.rewritten c size).cluster = c := by
  have h : ∀ j, j + 2 ≤ 28 → le16 (e.rewritten c size) j =
      le16 (Slot.setCluster (fun i => if i = 11 then 0x20 else e i) c) j := fun j hj =>
    le16_congr fun k hk => put32_of_ne (by omega)
  rw [Slot.cluster, Slot.fstClusHi, Slot.fstClusLo, h 20 (by omega), h 26 (by omega)]
  exact Slot.cluster_setCluster _ hc

theorem Slot.rewritten_of_ge {i : Nat} (hi : 32 ≤ i) : e.rewritten c size i = e i := by
  rw [Slot.rewritten, put32_of_ne (by omega), Slot.setCluster, put16_of_ne (by omega),
    put16_of_ne (by omega), if_neg (by omega)]

theorem Slot.alike_rewritten {e : Slot} (hl : e.isLfn = false) (hv : e.isVolumeId = false) :
    Slot.Alike e (e.rewritten c size) where
  name i hi := Slot.rewritten_name e c size hi
  lfn := by
    rw [hl, Slot.isLfn, Slot.rewritten_attr]
    decide
  volume := by
    rw [hv, Slot.isVolumeId, Slot.rewritten_attr]
    decide
  same h := by rw [hl] at h; cases h

end Rewritten

/-! ### What overwriting leaves on the device -/

/-- The device after a file with first cluster `old` and its entry at `a` was
    overwritten: the data lies in the chain `W`, which consists of clusters of the
    old chain and of free ones. -/
structure Overwritten (fs : FatFs) (buf : Buf) (len : Nat) (d d' : Disk) (a old : Nat)
    (W : List Nat) : Prop where
  chain : IsChain fs d' W
  reused : W <+: chainOf fs d old ∨ chainOf fs d old <+: W
  fresh : ∀ x ∈ W, x ∉ chainOf fs d old → fs.fatEnt d x = 0 ∧ x < fs.scanLimit + 2
  fat : ∀ x, fs.InRange x → x ∉ W → fs.fatEnt d' x = fs.fatEnt d x
  bytes : chainBytes fs d' W =
    (List.range' 0 (W.length * fs.bytesPerCluster)).map fun j => if j < len then buf j else 0
  enough : len ≤ W.length * fs.bytesPerCluster
  tight : (W.length - 1) * fs.bytesPerCluster < len ∨ W.length = 1
  slot : ∃ c L, W = c :: L ∧ slotAt d' a = (slotAt d a).rewritten c (u32 len)
  frame : ∀ x, x < fs.fatStartSector * 512 ∨ fs.fatEndAddr ≤ x →
    (∀ y ∈ W, ¬ fs.InCluster y x) → x < a ∨ a + 32 ≤ x → d' x = d x

section

variable {fs : FatFs} (hs : fs.Sound) {d : Disk} (env : Env) [env.NoFault]

include hs

theorem firstCluster_spec {old c : Nat} {d₀ : Disk} (hold : old < 2 ∨ HasChain fs d old)
    (h : firstCluster env fs d old = (c, d₀)) (hc : c ≠ 0) :
    ∃ L, IsChain fs d₀ (c :: L) ∧
      (∀ x, fs.InRange x → x ≠ c → fs.fatEnt d₀ x = fs.fatEnt d x) ∧
      (∀ a, a < fs.fatStartSector * 512 ∨ fs.fatEndAddr ≤ a → d₀ a = d a) ∧
      ((chainOf fs d old = c :: L ∧ fs.fatEnt d₀ c = fs.fatEnt d c) ∨
        (chainOf fs d old = [] ∧ L = [] ∧ fs.fatEnt d c = 0 ∧ c < fs.scanLimit + 2)) := by
  unfold firstCluster at h
  split at h
  · next hlt =>
    rw [allocFreeCluster_eq hs env] at h
    cases hfree : fs.freeCluster? d with
    | none =>
      rw [hfree] at h
      exact absurd (congrArg Prod.fst h).symm hc
    | some n =>
      rw [hfree] at h
      simp only [Prod.mk.injEq] at h
      obtain ⟨rfl, rfl⟩ := h
      obtain ⟨hn, hn0⟩ := freeCluster?_some hs hfree
      have hscan : n < fs.scanLimit + 2 := by
        have := List.mem_of_find?_eq_some hfree
        rw [List.mem_range'_1] at this
        omega
      refine ⟨[], ⟨fun x hx => List.mem_singleton.mp hx ▸ hn, List.nodup_singleton n, ?_⟩,
        fun x hx hne => ?_, fun a ha => setEnt_frame hs d hn.2 _ ha,
        Or.inr ⟨chainOf_of_lt hlt, rfl, hn0, hscan⟩⟩
      · rw [linked_singleton, fatEnt_setEnt hs d hn.2, if_pos rfl, fs.eofVal_mod]
        exact fs.eofLimit_le_eofVal
      · rw [fatEnt_setEnt hs d hx.2, if_neg hne]
  · next hlt =>
    simp only [Prod.mk.injEq] at h
    obtain ⟨rfl, rfl⟩ := h
    obtain ⟨L, hL⟩ := hold.resolve_left hlt
    exact ⟨L, hL, fun _ _ _ => rfl, fun _ _ => rfl, Or.inl ⟨chainOf_eq hs hL, rfl⟩⟩

omit [env.NoFault] in
theorem fatEnt_putSlot {a c : Nat} (ha : fs.fatEndAddr ≤ a) (hc : fs.InRange c) (s : Slot) :
    fs.fatEnt (putSlot d a s) c = fs.fatEnt d c :=
  fatEnt_congr hs hc.2 fun _ _ hx => putSlot_of_not (by omega)

omit [env.NoFault] in
theorem overwritten_of_filled {a old c len : Nat} {buf : Buf} {d₀ d₁ : Disk} {L W : List Nat}
    (harea : fs.fatEndAddr ≤ a)
    (hsep : ∀ x, fs.InRange x → x ∈ chainOf fs d old ∨ fs.fatEnt d x = 0 →
      ∀ i, i < 32 → ¬ fs.InCluster x (a + i))
    (hfat₀ : ∀ x, fs.InRange x → x ≠ c → fs.fatEnt d₀ x = fs.fatEnt d x)
    (hframe₀ : ∀ x, x < fs.fatStartSector * 512 ∨ fs.fatEndAddr ≤ x → d₀ x = d x)
    (hcase : (chainOf fs d old = c :: L ∧ fs.fatEnt d₀ c = fs.fatEnt d c) ∨
      (chainOf fs d old = [] ∧ L = [] ∧ fs.fatEnt d c = 0 ∧ c < fs.scanLimit + 2))
    (hF : Filled fs buf len 0 d₀ d₁ (c :: L) (c :: W)) :
    Overwritten fs buf len d (putSlot d₁ a ((slotAt d₁ a).rewritten c (u32 len))) a old
      (c :: W) := by
  -- every cluster of the chain was in the old chain or free
  have hfresh : ∀ x ∈ c :: W, x ∉ chainOf fs d old → fs.fatEnt d x = 0 ∧ x < fs.scanLimit + 2 := by
    intro x hx hnot
    by_cases hxL : x ∈ c :: L
    · rcases hcase with ⟨hold, _⟩ | ⟨_, rfl, hfree⟩
      · exact absurd (hold ▸ hxL) hnot
      · rw [List.mem_singleton.mp hxL]
        exact hfree
    · obtain ⟨h0, hlim⟩ := hF.fresh x hx hxL
      have hne : x ≠ c := fun heq => hxL (by simp [heq])
      exact ⟨hfat₀ x (hF.chain.inRange x hx) hne ▸ h0, hlim⟩
  have hout : ∀ x ∈ c :: W, ∀ i, i < 32 → ¬ fs.InCluster x (a + i) := by
    intro x hx
    refine hsep x (hF.chain.inRange x hx) ?_
    by_cases hmem : x ∈ chainOf fs d old
    · exact Or.inl hmem
    · exact Or.inr (hfresh x hx hmem).1
  have hdata : ∀ x ∈ c :: W, ∀ y, fs.InCluster x y →
      putSlot d₁ a ((slotAt d₁ a).rewritten c (u32 len)) y = d₁ y := by
    intro x hx y hy
    refine putSlot_of_not ?_
    by_contra hin
    obtain ⟨i, rfl⟩ : ∃ i, y = a + i := ⟨y - a, by omega⟩
    exact hout x hx i (by omega) hy
  have hslot : slotAt d₁ a = slotAt d a := slotAt_congr fun i hi => by
    rw [hF.frame _ (Or.inr (by omega)) fun x hx => hout x hx i hi, hframe₀ _ (Or.inr (by omega))]
  refine
    { chain := hF.chain.congr fun x hx => fatEnt_putSlot hs harea (hF.chain.inRange x hx) _
      reused := ?_
      fresh := hfresh
      fat := fun x hx hnot => ?_
      bytes := by rw [chainBytes_congr hdata, hF.bytes]
      enough := by simpa using hF.enough
      tight := by simpa using hF.tight
      slot := ⟨c, W, rfl, ?_⟩
      frame := fun x harea' hcl hx => ?_ }
  · rcases hcase with ⟨hold, _⟩ | ⟨hold, _, _⟩
    · rw [hold]
      exact hF.reused
    · rw [hold]
      exact Or.inr List.nil_prefix
  · have hne : x ≠ c := fun heq => hnot (by simp [heq])
    rw [fatEnt_putSlot hs harea hx, hF.fat x hx hnot, hfat₀ x hx hne]
  · rw [slotAt_putSlot_self, hslot]
    intro i hi
    rw [Slot.rewritten_of_ge _ _ _ hi, slotAt, if_neg (by omega)]
  · rw [putSlot_of_not hx, hF.frame x harea' hcl, hframe₀ x harea']

/-- **Effect of overwriting.**  `fat_write_file` on an existing file that reports
    success, when the entry's slot lies outside the FAT and outside the clusters
    that are written. -/
theorem overwriteFile_spec {loc : EntryLoc} {buf : Buf} {len : Nat} {d' : Disk}
    (hslot : loc.slot < 16)
    (hold : loc.entry.cluster < 2 ∨ HasChain fs d loc.entry.cluster)
    (harea : fs.fatEndAddr ≤ loc.addr)
    (hsep : ∀ x, fs.InRange x → x ∈ chainOf fs d loc.entry.cluster ∨ fs.fatEnt d x = 0 →
      ∀ i, i < 32 → ¬ fs.InCluster x (loc.addr + i))
    (h : overwriteFile env fs d loc buf len = (0, d')) :
    ∃ W, Overwritten fs buf len d d' loc.addr loc.entry.cluster W := by
  unfold overwriteFile at h
  split at h
  · cases h
  · cases hfirst : firstCluster env fs d loc.entry.cluster with
    | mk c d₀ =>
      rw [hfirst] at h
      by_cases hc : c = 0
      · subst hc
        cases h
      · obtain ⟨n, rfl⟩ : ∃ n, c = n + 1 := ⟨c - 1, by omega⟩
        obtain ⟨L, hL, hfat₀, hframe₀, hcase⟩ := firstCluster_spec hs env hold hfirst hc
        dsimp only at h
        simp only [kmallocOk_eq, Bool.not_true, Bool.false_eq_true, if_false] at h
        cases hloop : writeLoop env fs buf len (len + 1) d₀ (n + 1) 0 with
        | mk r d₁ =>
          rw [hloop] at h
          by_cases hr : r = 0
          · subst hr
            obtain ⟨W, hF⟩ := writeLoop_filled hs env buf len _ d₀ (n + 1) L 0 d₁ hL hloop
            simp only [bdevRead_eq, bdevWrite_eq, Prod.mk.injEq, true_and] at h
            rw [blit_putSlot d₁ loc.sector loc.slot hslot] at h
            rw [slotAt_shift] at h
            obtain rfl := h
            exact ⟨(n + 1) :: W, overwritten_of_filled hs harea hsep hfat₀ hframe₀ hcase hF⟩
          · exfalso
            revert h
            split
            · next heq => exact fun _ => hr (Prod.mk.inj heq).1
            · intro h
              cases h

end

/-! ### What the rest of the volume sees -/

section

variable {fs : FatFs} {d d' : Disk} (hw : WellFormed fs d) {dir₀ : FatDir} {a₀ : Nat}
  (hdir₀ : LiveDir fs d dir₀) (ha₀ : a₀ ∈ childAddrs fs d dir₀)
  (hfile : (slotAt d a₀).isDirectory = false) {buf : Buf} {len : Nat} {W : List Nat}
  (ho : Overwritten fs buf len d d' a₀ (slotAt d a₀).cluster W)

include hw hdir₀ ha₀ ho

theorem Overwritten.not_mem_entry {dir : FatDir} {a : Nat} (hdir : LiveDir fs d dir)
    (ha : a ∈ childAddrs fs d dir) (hne : a ≠ a₀) (hch : HasChain fs d (slotAt d a).cluster) :
    ∀ x ∈ chainOf fs d (slotAt d a).cluster, x ∉ W := by
  intro x hx hxW
  have h1 := hw.disjoint dir hdir a ha dir₀ hdir₀ a₀ ha₀ hne x hx
  obtain ⟨L, hL⟩ := hch
  rw [chainOf_eq hw.sound hL] at hx
  exact hL.fatEnt_ne_zero x hx (ho.fresh x hxW h1).1

include hfile

theorem Overwritten.not_mem_dir {dir : FatDir} (hdir : LiveDir fs d dir)
    (hfix : dir.isRootFixed = false) : ∀ x ∈ chainOf fs d dir.cluster, x ∉ W := by
  intro x hx hxW
  have h1 := hw.dir_file_disjoint hdir hfix hdir₀ ha₀ hfile hx
  exact hw.dir_not_free hdir hfix hx (ho.fresh x hxW h1).1

theorem Overwritten.slot_eq {dir : FatDir} {a : Nat} (hdir : LiveDir fs d dir)
    (ha : a ∈ dirAddrs fs d dir) (hne : a ≠ a₀) : slotAt d' a = slotAt d a := by
  have h32 := dirAddrs_aligned fs d dir a ha
  have h32₀ := dirAddrs_aligned fs d dir₀ a₀ (mem_liveAddrs (mem_childAddrs.mp ha₀).1).1
  have harea := dirAddrs_area hw.sound ha
  refine slotAt_congr fun i hi => ho.frame _ (Or.inr (by omega)) ?_ (by omega)
  intro x hx
  refine hw.slot_outside hdir ha (ho.chain.inRange x hx) ?_ i hi
  exact fun hfix hmem => ho.not_mem_dir hw hdir₀ ha₀ hfile hdir hfix x hmem hx

theorem Overwritten.sameTree : SameTree fs d d' := by
  have hlive₀ := mem_liveAddrs (mem_childAddrs.mp ha₀).1
  obtain ⟨c, L, _, hslot⟩ := ho.slot
  refine ⟨fun dir hdir => ?_, fun dir hdir a ha => ?_, fun dir hdir a ha hsub => ?_,
    fun dir hdir a ha hsub => ?_⟩
  · cases hfix : dir.isRootFixed with
    | true => exact ⟨Or.inl hfix, by rw [dirAddrs, dirAddrs, hfix]; rfl⟩
    | false =>
      obtain ⟨M, hM⟩ := hw.dir_chain hdir hfix
      have hM' : IsChain fs d' (dir.cluster :: M) := hM.congr fun x hx => by
        refine ho.fat x (hM.inRange x hx) ?_
        exact ho.not_mem_dir hw hdir₀ ha₀ hfile hdir hfix x (chainOf_eq hw.sound hM ▸ hx)
      exact ⟨Or.inr ⟨M, hM'⟩, by
        rw [dirAddrs_of_chain hw.sound hfix hM, dirAddrs_of_chain hw.sound hfix hM']⟩
  · by_cases hne : a = a₀
    · rw [hne, hslot]
      exact Slot.alike_rewritten _ _ hlive₀.2.2.2.1 hlive₀.2.2.2.2
    · rw [ho.slot_eq hw hdir₀ ha₀ hfile hdir ha hne]
      exact Slot.Alike.refl _
  · refine ho.slot_eq hw hdir₀ ha₀ hfile hdir ha ?_
    rintro rfl
    rw [hfile] at hsub
    cases hsub
  · by_cases hne : a = a₀
    · rw [hne, hslot, Slot.isDirectory, Slot.rewritten_attr]
      decide
    · rw [ho.slot_eq hw hdir₀ ha₀ hfile hdir ha hne]
      exact hsub

variable (env : Env) [env.NoFault]

omit hfile in
theorem Overwritten.readContents_other {dir : FatDir} {a : Nat} (hdir : LiveDir fs d dir)
    (ha : a ∈ childAddrs fs d dir) (hne : a ≠ a₀) (maxLen : Nat) :
    readContents env fs d' (slotAt d a) maxLen = readContents env fs d (slotAt d a) maxLen := by
  cases hsub : (slotAt d a).isDirectory with
  | true => rw [readContents, readContents, if_pos hsub, if_pos hsub]
  | false =>
    have hch := hw.file dir hdir a ha hsub
    have hout : ∀ x ∈ chainOf fs d (slotAt d a).cluster, fs.InRange x ∧ x ∉ W := by
      rcases hch with hlt | ⟨L, hL⟩
      · rw [chainOf_of_lt hlt]
        intro x hx
        cases hx
      · intro x hx
        exact ⟨hL.inRange x (chainOf_eq hw.sound hL ▸ hx),
          ho.not_mem_entry hw hdir₀ ha₀ hdir ha hne ⟨L, hL⟩ x hx⟩
    have hfat : ∀ x ∈ chainOf fs d (slotAt d a).cluster, fs.fatEnt d' x = fs.fatEnt d x :=
      fun x hx => ho.fat x (hout x hx).1 (hout x hx).2
    have hdata : ∀ x ∈ chainOf fs d (slotAt d a).cluster, ∀ y, fs.InCluster x y → d' y = d y := by
      intro x hx y hy
      have h1 := fs.dataAddr_le_clusAddr x
      have h2 := hw.sound.fatEndAddr_le_dataAddr
      refine ho.frame y (Or.inr (by have := hy.1; omega)) ?_ ?_
      · intro z hz hyz
        have heq := hw.sound.inCluster_unique (ho.chain.inRange z hz) (hout x hx).1 hyz hy
        exact (hout x hx).2 (heq ▸ hz)
      · by_contra hin
        obtain ⟨i, rfl⟩ : ∃ i, y = a₀ + i := ⟨y - a₀, by omega⟩
        refine hw.slot_outside hdir₀ (mem_liveAddrs (mem_childAddrs.mp ha₀).1).1 (hout x hx).1 ?_ i
          (by omega) hy
        exact fun hfix hmem => hw.dir_file_disjoint hdir₀ hfix hdir ha hsub hmem hx
    exact readContents_congr hw.sound env hsub hch hfat hdata maxLen

omit hw hdir₀ ha₀ hfile in
theorem Overwritten.readContents_self (hs : fs.Sound) (hlen : len < 4294967296)
    (hwalk : len ≤ maxVisits * fs.bytesPerCluster) {maxLen : Nat} (hmax : len ≤ maxLen) :
    readContents env fs d' (slotAt d' a₀) maxLen = some ((List.range' 0 len).map buf) := by
  obtain ⟨c, L, rfl, hslot⟩ := ho.slot
  have hc : c < 4294967296 := by
    have h1 := hs.lt_eofLimit ho.chain.head_inRange
    have h2 := fs.eofLimit_le
    omega
  have hu : u32 len = len := u32_of_lt hlen
  have hcluster : (slotAt d' a₀).cluster = c := by
    rw [hslot, Slot.rewritten_cluster _ _ _ hc]
  have hsize : (slotAt d' a₀).fileSize = len := by
    rw [hslot, hu, Slot.rewritten_fileSize _ _ _ hlen]
  have hdir : (slotAt d' a₀).isDirectory = false := by
    rw [hslot, Slot.isDirectory, Slot.rewritten_attr]
    decide
  -- the chain is not longer than the reader walks
  have hvisits : (c :: L).length ≤ maxVisits := by
    rcases ho.tight with h | h
    · have := Nat.lt_of_mul_lt_mul_right (Nat.lt_of_lt_of_le h hwalk)
      omega
    · rw [h]
      decide
  rw [readContents_eq hs env hdir (Or.inr ⟨L, hcluster ▸ ho.chain⟩), hcluster, hsize,
    chainOf_eq hs ho.chain, List.take_of_length_le hvisits, ho.bytes, Nat.min_eq_left hmax,
    ← List.map_take, List.take_range'_of_length_ge ho.enough]
  refine congrArg some (List.map_congr_left fun j hj => ?_)
  rw [List.mem_range'_1] at hj
  exact if_pos (by omega)

end

/-- **Overwrite and read back.**  On a well-formed volume, a successful
    `fat_write_file` on a path that names a regular file leaves exactly the new data
    under that path, and every other entry and its contents as they were. -/
theorem fatWriteFile_overwrite {fs : FatFs} {d d' : Disk} (hw : WellFormed fs d) (env : Env)
    [env.NoFault] {path : List UInt8} {size len : Nat} {attr : UInt8} {buf : Buf}
    (hstat : fatStat env fs d path = some (size, attr)) (hfile : attr &&& 0x10 = 0)
    (hlen : len < 4294967296) (hwalk : len ≤ 65536 * fs.bytesPerCluster)
    (h : fatWriteFile env fs d path buf len = (0, d')) :
    (∀ maxLen, len ≤ maxLen →
      fatReadFile env fs d' path maxLen = some ((List.range' 0 len).map buf)) ∧
    fatStat env fs d' path = some (len, 0x20) ∧
    ∀ q loc, fatLookup env fs d q = some loc →
      (fatLookup env fs d path).map EntryLoc.addr ≠ some loc.addr →
      fatLookup env fs d' q = some loc ∧
        ∀ maxLen, fatReadFile env fs d' q maxLen = fatReadFile env fs d q maxLen := by
  -- the path is looked up, so it is not one of the names of the root
  have hlookup : ¬ (path = [] ∨ path = [0x2F] ∨ path = [0x5C]) ∧
      ∃ loc, fatLookup env fs d path = some loc ∧ loc.entry.isDirectory = false := by
    unfold fatStat at hstat
    split at hstat
    · cases hstat
      cases hfile
    · next hpath =>
      obtain ⟨loc, hloc, heq⟩ := Option.map_eq_some_iff.mp hstat
      have hattr : loc.entry.attr = attr := congrArg Prod.snd heq
      exact ⟨hpath, loc, hloc, by simp [Slot.isDirectory, hattr, hfile]⟩
  obtain ⟨hpath, loc₀, hloc₀, hfile₀⟩ := hlookup
  obtain ⟨dir, name, hres, hdir, hfind⟩ := hw.lookup_live env hloc₀
  have hentry := (hw.find_live env hdir hfind).2
  have hchild := hw.find_file env hdir hfind hfile₀
  have hslots := (mem_liveAddrs (mem_childAddrs.mp hchild).1).1
  rw [hentry] at hfile₀
  have hsep : ∀ x, fs.InRange x → x ∈ chainOf fs d loc₀.entry.cluster ∨ fs.fatEnt d x = 0 →
      ∀ i, i < 32 → ¬ fs.InCluster x (loc₀.addr + i) := by
    intro x hx hor
    refine hw.slot_outside hdir hslots hx fun hfix hmem => ?_
    rcases hor with hx' | h0
    · exact hw.dir_file_disjoint hdir hfix hdir hchild hfile₀ hmem (hentry ▸ hx')
    · exact hw.dir_not_free hdir hfix hmem h0
  have hover : overwriteFile env fs d loc₀ buf len = (0, d') := by
    simpa only [fatWriteFile, hres, fatDirFindOrAllocLfnSlots, hfind] using h
  obtain ⟨W, ho⟩ := overwriteFile_spec hw.sound env (hw.find_slot_lt env hdir hfind)
    (hentry ▸ hw.file dir hdir _ hchild hfile₀) (dirAddrs_area hw.sound hslots) hsep hover
  rw [hentry] at ho
  have ht := ho.sameTree hw hdir hchild hfile₀
  have hself : fatLookup env fs d' path = some (loc₀.refresh d') := by
    rw [ht.lookup hw env, hloc₀, Option.map_some]
  refine ⟨fun maxLen hmax => ?_, ?_, fun q loc hq hne => ?_⟩
  · rw [fatReadFile, hself]
    exact ho.readContents_self env hw.sound hlen hwalk hmax
  · obtain ⟨c, L, _, hslot⟩ := ho.slot
    have hsize : (slotAt d' loc₀.addr).fileSize = len := by
      rw [hslot, u32_of_lt hlen, Slot.rewritten_fileSize _ _ _ hlen]
    have hattr : (slotAt d' loc₀.addr).attr = 0x20 := by
      rw [hslot, Slot.rewritten_attr]
    rw [fatStat, if_neg hpath, hself, Option.map_some, EntryLoc.refresh, hsize, hattr]
  · obtain ⟨dirq, nameq, _, hdirq, hfindq⟩ := hw.lookup_live env hq
    have hliveq := hw.find_live env hdirq hfindq
    have hne' : loc.addr ≠ loc₀.addr := by
      rw [hloc₀, Option.map_some] at hne
      exact fun heq => hne (by rw [heq])
    have hslot := ho.slot_eq hw hdir hchild hfile₀ hdirq (mem_liveAddrs hliveq.1).1 hne'
    have hrefresh : loc.refresh d' = loc := by
      unfold EntryLoc.refresh
      rw [hslot, ← hliveq.2]
    have hlook : fatLookup env fs d' q = some loc := by
      rw [ht.lookup hw env, hq, Option.map_some, hrefresh]
    refine ⟨hlook, fun maxLen => ?_⟩
    rw [fatReadFile, fatReadFile, hlook, hq]
    dsimp only
    cases hsub : loc.entry.isDirectory with
    | true => rw [readContents, readContents, if_pos hsub, if_pos hsub]
    | false =>
      have hchildq := hw.find_file env hdirq hfindq hsub
      rw [hliveq.2]
      exact ho.readContents_other hw hdir hchild env hdirq hchildq hne' maxLen

/-- The small volume with an empty file `A` in its root directory. -/
def smallDiskWithFile : Disk :=
  putSlot smallImage (smallFs.rootDirStartSector * 512)
    ((Slot.fresh 0x20 0 0).withName (toFat83Name [0x41]))

theorem wellFormed_smallDiskWithFile : WellFormed smallFs smallDiskWithFile := by
  have hchildren : childAddrs smallFs smallDiskWithFile (fatRootDir smallFs) =
      [smallFs.rootDirStartSector * 512] := by decide +kernel
  refine wellFormed_of_empty_files smallFs_sound (by decide) fun a ha => ?_
  rw [hchildren, List.mem_singleton] at ha
  subst ha
  decide +kernel

/-- Three bytes written to the empty file of the small volume are read back. -/
theorem fatWriteFile_overwrite_small : ∃ d',
    fatWriteFile Env.ideal smallFs smallDiskWithFile [0x2F, 0x41] UInt8.ofNat 3 = (0, d') ∧
      fatReadFile Env.ideal smallFs d' [0x2F, 0x41] 10 = some [0, 1, 2] := by
  have hstat : fatStat Env.ideal smallFs smallDiskWithFile [0x2F, 0x41] = some (0, 0x20) := by
    decide +kernel
  obtain ⟨d', hrun⟩ : ∃ d',
      fatWriteFile Env.ideal smallFs smallDiskWithFile [0x2F, 0x41] UInt8.ofNat 3 = (0, d') :=
    ⟨_, Prod.ext (by decide +kernel) rfl⟩
  exact ⟨d', hrun, (fatWriteFile_overwrite wellFormed_smallDiskWithFile Env.ideal hstat (by decide)
    (by decide) (by decide) hrun).1 10 (by decide)⟩

end Gemios
