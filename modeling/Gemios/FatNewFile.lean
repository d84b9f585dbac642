import Gemios.FatCreate

/-!
# A file that was written is found

`fat_write_file` on a well-formed volume, for a name that is there and for one that is not:
when it reports success, a lookup of the name in the same directory finds an entry with the
size and the data.
-/

namespace Gemios

/-- The place the slot search finds for `n` slots: a run of free slots that lies together on
    the device, or a new cluster, and no slot before it ends the directory. -/
def PlaceOk (fs : FatFs) (d : Disk) (dir : FatDir) (n : Nat) : Prop :=
  match findRun d n (dirAddrs fs d dir) 0 0 with
  | some a => ∃ pre post, dirAddrs fs d dir = pre ++ slotsFrom a n ++ post ∧ Seen d pre
  | none => dir.isRootFixed = false → Seen d (dirAddrs fs d dir) ∧
      n ≤ fs.bytesPerCluster / 32 ∧ (chainOf fs d dir.cluster).length < maxVisits

theorem PlaceOk.roomOk {fs : FatFs} {d : Disk} {dir : FatDir} {n : Nat}
    (h : PlaceOk fs d dir n) : RoomOk fs d dir n := by
  unfold PlaceOk at h
  unfold RoomOk
  cases hrun : findRun d n (dirAddrs fs d dir) 0 0 with
  | some a =>
    rw [hrun] at h
    obtain ⟨pre, post, haddrs, _⟩ := h
    exact ⟨pre, post, haddrs⟩
  | none =>
    rw [hrun] at h
    exact fun hfix => (h hfix).2

/-- The entry that a lookup of the name finds is a file with these bytes. -/
structure HoldsFile (env : Env) (fs : FatFs) (d : Disk) (dir : FatDir) (name : List UInt8)
    (loc : EntryLoc) (bs : List UInt8) : Prop where
  found : fatDirFindEntry env fs d dir name = some loc
  file : loc.entry.isDirectory = false
  size : loc.entry.fileSize = bs.length
  data : ∃ L, IsChain fs d (loc.entry.cluster :: L) ∧
    bs <+: chainBytes fs d (loc.entry.cluster :: L)

def bufBytes (buf : Buf) (len : Nat) : List UInt8 := (List.range' 0 len).map buf

theorem length_bufBytes (buf : Buf) (len : Nat) : (bufBytes buf len).length = len := by
  simp [bufBytes]

theorem bufBytes_getD (bytes : List UInt8) :
    bufBytes (fun i => bytes.getD i 0) bytes.length = bytes := by
  refine List.ext_getElem (length_bufBytes _ _) fun i h1 h2 => ?_
  simp only [bufBytes, List.getElem_map, List.getElem_range', Nat.zero_add, Nat.one_mul]
  exact List.getD_eq_getElem _ _ h2

theorem bufBytes_prefix (buf : Buf) {len n : Nat} (h : len ≤ n) :
    bufBytes buf len <+: (List.range' 0 n).map fun j => if j < len then buf j else 0 := by
  have htake : ((List.range' 0 n).map fun j => if j < len then buf j else 0).take len =
      bufBytes buf len := by
    rw [← List.map_take, List.take_range'_of_length_ge h]
    refine List.map_congr_left fun j hj => ?_
    rw [List.mem_range'_1] at hj
    exact if_pos (by omega)
  rw [← htake]
  exact List.take_prefix _ _

/-! ### A new name -/

section

variable {fs : FatFs} {d d₀ : Disk} (env : Env) [env.NoFault] {dir : FatDir} {n a : Nat}
  {pre post : List Nat} {grow : Option (Nat × Nat)} (hplace : PlaceOk fs d dir n)
  (h : HasRoom fs d d₀ dir n a pre post grow)

include hplace h

/-- After the slot search the directory is as good as before, and lookups in it find what they
    found. -/
theorem HasRoom.settled (hs : fs.Sound) (hdir : IsDir fs d dir) (hfmt : FormatOk fs d dir)
    (hn : 0 < n) : IsDir fs d₀ dir ∧ FormatOk fs d₀ dir ∧ Seen d₀ pre ∧
      ∀ x, fatDirFindEntry env fs d₀ dir x = fatDirFindEntry env fs d dir x := by
  unfold PlaceOk at hplace
  cases hgrow : grow with
  | none =>
    obtain ⟨rfl, hrun⟩ := h.same hgrow
    rw [hrun] at hplace
    obtain ⟨pre', post', haddrs, hseen⟩ := hplace
    refine ⟨hdir, hfmt, ?_, fun _ => rfl⟩
    -- the place is where the search found it
    obtain ⟨m, rfl⟩ : ∃ m, n = m + 1 := ⟨n - 1, by omega⟩
    have hnodup := nodup_dirAddrs hs hdir
    have heq := h.addrs
    rw [haddrs, slotsFrom_succ] at heq
    rw [haddrs, slotsFrom_succ] at hnodup
    simp only [List.append_assoc, List.cons_append] at heq hnodup
    rw [List.nodup_append, List.nodup_cons] at hnodup
    have hpre := (List.append_cons_inj_of_notMem
      (fun hmem => hnodup.2.2 a hmem a List.mem_cons_self rfl) hnodup.2.1.1).mp heq
    rw [← hpre.1]
    exact hseen
  | some g =>
    obtain ⟨hgrown, hpre, _, hrun⟩ := h.grown g.1 g.2 hgrow
    rw [hrun] at hplace
    obtain ⟨hseen, _, hlen⟩ := hplace hgrown.chained
    refine ⟨hgrown.isDir_self, hgrown.format_self hs hdir hlen hfmt, ?_, fun x => ?_⟩
    · rw [hpre]
      intro b hb
      rw [hgrown.slot_keep hs hdir hb]
      exact hseen b hb
    · rw [fatDirFindEntry_eq hs env hgrown.isDir_self, fatDirFindEntry_eq hs env hdir,
        hgrown.find_self hs hdir hlen hfmt]

end

section

variable {fs : FatFs} {d : Disk} (hs : fs.Sound) (env : Env) [env.NoFault] {dir : FatDir}
  (hdir : IsDir fs d dir)

include hs

include hdir in
omit [env.NoFault] in
theorem dirAddrs_lt {a : Nat}
    (ha : a ∈ dirAddrs fs d dir) : a + 32 ≤ 2199023255552 := by
  have hend := hs.dataEnd
  cases hfix : dir.isRootFixed with
  | true =>
    rw [dirAddrs, hfix] at ha
    have harea := (rootAddrs_area hs ha).2
    unfold FatFs.dataAddr at harea
    omega
  | false =>
    obtain ⟨L, hL⟩ : HasChain fs d dir.cluster := by simpa [IsDir, hfix] using hdir
    obtain ⟨c, hc, hslot⟩ := exists_cluster_of_mem_dirAddrs hfix ha
    have hr : fs.InRange c := hL.inRange c (chainOf_eq hs hL ▸ hc)
    obtain ⟨e, he, rfl⟩ := mem_clusSlots.mp hslot
    have hsectors := fs.cluster_sectors_le hr
    have hbpc := hs.bpc
    unfold FatFs.clusAddr
    omega

omit hs [env.NoFault] in
theorem createFile_steps {env : Env} (hk : env.kmallocFails fs.bytesPerCluster = false)
    {dir : FatDir} {name : List UInt8} {sec slot : Nat} {buf : Buf} {len : Nat} {d' : Disk}
    (h : createFile env fs d dir name sec slot buf len = (0, d')) :
    ∃ c d₁ d₂, c ≠ 0 ∧ allocFreeCluster env fs d = (c, d₁) ∧
      writeLoop env fs buf len (len + 1) d₁ c 0 = (0, d₂) ∧
      fatWriteLfnAndShortEntry env fs d₂ sec slot name (chooseShortName env fs d₂ dir name)
        (Slot.fresh 0x20 c (u32 len)) = (0, d') := by
  unfold createFile kmallocOk at h
  rw [hk] at h
  split at h
  · cases h
  · next c d₁ hc halloc =>
    rw [Bool.not_false, Bool.not_true, if_neg Bool.false_ne_true] at h
    split at h
    · next d₂ hloop => exact ⟨c, d₁, d₂, fun h0 => hc h0, halloc, hloop, h⟩
    · cases h

include hdir

theorem Stored.found_name (hfmt : FormatOk fs d dir)
    {name : List UInt8} (hname : NameText name)
    (hnone : fatDirFindEntry env fs d dir name = none) {short11 : List UInt8}
    (hshort : ShortOk short11) {attr : UInt8} (hattr : EntryAttr attr) {c size : Nat}
    (hmatch : ∀ start p, entryMatches (nameParser name short11 (newEntry attr c size short11) start p)
      (newEntry attr c size short11) name = true)
    {d' : Disk} {a : Nat} {pre post C : List Nat}
    (h : Stored fs d d' dir a (nameSlots name short11 (Slot.fresh attr c size)) pre post C)
    (hseen : Seen d pre) :
    ∃ loc, fatDirFindEntry env fs d' dir name = some loc ∧
      loc.entry = newEntry attr c size short11 := by
  have hslots := h.slots
  obtain ⟨hfind', hfind⟩ := h.find_seen hs hdir hfmt hseen name
  rw [length_nameSlots] at hslots hfind'
  rw [fatDirFindEntry_eq hs env hdir, hfind] at hnone
  have hpre : findIn d name pre = none := (Option.or_eq_none_iff.mp hnone).1
  have hnew := scan_nameSlots hname.nul hname.length hshort hattr c size hslots name lfnParserReset
  dsimp only at hnew
  rw [hmatch, if_pos rfl] at hnew
  rw [fatDirFindEntry_eq hs env (h.dirAddrs_isDir hs hdir).1, hfind', hpre, Option.none_or, findIn, hnew]
  exact ⟨_, rfl, rfl⟩

/-- **Creating a file.**  Its entry is found under its name. -/
theorem createFile_found (hfmt : FormatOk fs d dir)
    {name : List UInt8} (hname : NameText name) (hok : NameOk name)
    (hnone : fatDirFindEntry env fs d dir name = none) {a : Nat} {pre post : List Nat}
    (haddrs : dirAddrs fs d dir = pre ++ slotsFrom a (numLfnSlots name + 1) ++ post)
    (hfree : ∀ b ∈ slotsFrom a (numLfnSlots name + 1), (slotAt d b).isFree = true)
    (hseen : Seen d pre) {buf : Buf} {len : Nat} (hlen : len < 4294967296) {d' : Disk}
    (h : createFile env fs d dir name (a / 512) (a % 512 / 32) buf len = (0, d')) :
    ∃ loc, HoldsFile env fs d' dir name loc (bufBytes buf len) := by
  have hmem : ∀ b ∈ slotsFrom a (numLfnSlots name + 1), b ∈ dirAddrs fs d dir := by
    intro b hb
    rw [haddrs]
    exact List.mem_append_left _ (List.mem_append_right _ hb)
  have ha32 : a % 32 = 0 := dirAddrs_aligned fs d dir a
    (hmem a (mem_slotsFrom.mpr ⟨0, Nat.succ_pos _, rfl⟩))
  have hlast := dirAddrs_lt hs hdir
    (hmem (a + 32 * numLfnSlots name) (mem_slotsFrom.mpr ⟨_, Nat.lt_succ_self _, rfl⟩))
  obtain ⟨c, d₁, d₂, hc0, halloc, hloop, hwrite⟩ :=
    createFile_steps (Env.NoFault.kmalloc fs.bytesPerCluster) h
  have hst₁ := allocFreeCluster_stocked hs env halloc hc0
  obtain ⟨W, hst, hF⟩ := hst₁.fill hs env hloop
  have hshort := shortOk_chooseShortName hok hname.ne hname.nul hname.slash env fs d₂ dir
  have hmatch := entryMatches_name hok hname.ne hname.nul hname.slash env fs d₂ dir 0x20 c (u32 len)
  have hgroup := hname.slotGroup env fs d₂ dir (Or.inl rfl : EntryAttr 0x20) c (u32 len)
  generalize chooseShortName env fs d₂ dir name = short11 at hshort hmatch hgroup hwrite
  have hglen := length_nameSlots name short11 (Slot.fresh 0x20 c (u32 len))
  rw [fatWriteLfnAndShortEntry_eq hs.bps env d₂ (by omega) name short11 _ (by omega),
    Prod.mk.injEq] at hwrite
  have hplace : a / 512 * 512 + 32 * (a % 512 / 32) = a := by omega
  rw [hplace] at hwrite
  obtain ⟨_, rfl⟩ := hwrite
  generalize hg : nameSlots name short11 (Slot.fresh 0x20 c (u32 len)) = g at *
  have hend : g.getLast? = some (newEntry 0x20 c (u32 len) short11) := by
    rw [← hg, nameSlots, List.getLast?_append]
    rfl
  have hc32 : c < 4294967296 := by
    have h1 := hs.lt_eofLimit hst.chain.head_inRange
    have h2 := fs.eofLimit_le
    omega
  have hcluster := newEntry_cluster 0x20 c (u32 len) short11 hc32
  have hfile : (newEntry 0x20 c (u32 len) short11).isDirectory = false := by
    rw [newEntry_isDirectory]
    decide
  rw [← hglen] at haddrs hfree hmem
  have hstored : Stored fs d (putSlots d₂ a g) dir a g pre post (c :: W) := by
    refine hst.stored hs hdir haddrs hfree hgroup ?_ (fun e he _ => ?_) fun e he _ hsub => ?_
    · rw [← hg]
      exact nameSlots_proper name short11 (Slot.fresh_proper 0x20 c (u32 len))
    · rw [hend, Option.some.injEq] at he
      rw [← he, hcluster]
      rfl
    · rw [hend, Option.some.injEq] at he
      rw [← he, hfile] at hsub
      cases hsub
  -- the slots lie outside the data
  have hbytes : chainBytes fs (putSlots d₂ a g) (c :: W) = chainBytes fs d₂ (c :: W) :=
    chainBytes_congr fun x hx y hy => putSlots_of_not (hst.apart hs hdir hmem x hx y hy)
  have hchain := hstored.chain
  rw [← hg] at hstored
  obtain ⟨loc, hfound, hentry⟩ := hstored.found_name hs env hdir hfmt hname hnone hshort
    (Or.inl rfl) hmatch hseen
  rw [hg] at hfound
  refine ⟨loc, hfound, ?_, ?_, W, ?_, ?_⟩
  · rw [hentry, hfile]
  · rw [hentry, u32_of_lt hlen, newEntry_fileSize 0x20 c len short11 hlen, length_bufBytes]
  · rw [hentry, hcluster]
    exact hchain
  · rw [hentry, hcluster, hbytes, hF.bytes]
    exact bufBytes_prefix buf hF.enough

/-! ### A name that is there -/

include hs in
omit [env.NoFault] in
theorem IsDir.entry_apart {a old : Nat} (ha : a ∈ dirAddrs fs d dir)
    (hapart : dir.isRootFixed = false →
      ∀ x ∈ chainOf fs d dir.cluster, x ∉ chainOf fs d old) :
    ∀ x, fs.InRange x → x ∈ chainOf fs d old ∨ fs.fatEnt d x = 0 →
      ∀ i, i < 32 → ¬ fs.InCluster x (a + i) := by
  intro x hx hor
  refine hdir.slot_outside hs ha hx fun hfix hmem => ?_
  rcases hor with hold | hfree
  · exact hapart hfix x hmem hold
  · exact hdir.not_free hs hfix hmem hfree

/-- **Overwriting a file.**  Its entry is found as before, with the new size and data. -/
theorem overwriteFile_found {name : List UInt8} {loc : EntryLoc}
    (hfind : fatDirFindEntry env fs d dir name = some loc)
    (hold : loc.entry.cluster < 2 ∨ HasChain fs d loc.entry.cluster)
    (hapart : dir.isRootFixed = false →
      ∀ x ∈ chainOf fs d dir.cluster, x ∉ chainOf fs d loc.entry.cluster)
    {buf : Buf} {len : Nat} (hlen : len < 4294967296) {d' : Disk}
    (h : overwriteFile env fs d loc buf len = (0, d')) :
    ∃ loc', HoldsFile env fs d' dir name loc' (bufBytes buf len) := by
  obtain ⟨hlive, hentry⟩ := hdir.find_live hs env hfind
  obtain ⟨hslots, _, _, hlfn, hvol⟩ := mem_liveAddrs hlive
  obtain ⟨W, ho⟩ := overwriteFile_spec hs env (hdir.find_slot_lt hs env hfind) hold
    (dirAddrs_area hs hslots) (hdir.entry_apart hs hslots hapart) h
  -- the directory keeps its clusters, and only the slot of the entry changes in it
  have houtside : ∀ x ∈ W, dir.isRootFixed = false → x ∉ chainOf fs d dir.cluster := by
    intro x hx hfix hmem
    exact hdir.not_free hs hfix hmem (ho.fresh x hx (hapart hfix x hmem)).1
  have hfat : dir.isRootFixed = false → ∀ x ∈ chainOf fs d dir.cluster,
      fs.fatEnt d' x = fs.fatEnt d x := by
    intro hfix x hx
    obtain ⟨M, hM⟩ := hdir.chain hfix
    exact ho.fat x (hM.inRange x (chainOf_eq hs hM ▸ hx)) fun hW => houtside x hW hfix hx
  obtain ⟨hdir', haddrs⟩ := hdir.dirAddrs_congr hs hfat
  obtain ⟨c, L, rfl, hslot⟩ := ho.slot
  have halike : ∀ b ∈ dirAddrs fs d dir, Slot.Alike (slotAt d b) (slotAt d' b) := by
    intro b hb
    by_cases hba : b = loc.addr
    · rw [hba, hslot]
      exact Slot.alike_rewritten _ _ hlfn hvol
    · have h32 := dirAddrs_aligned fs d dir b hb
      have h32₀ := dirAddrs_aligned fs d dir loc.addr hslots
      have harea := dirAddrs_area hs hb
      have hsame : slotAt d' b = slotAt d b := slotAt_congr fun i hi =>
        ho.frame _ (Or.inr (by omega)) (fun x hx =>
          hdir.slot_outside hs hb (ho.chain.inRange x hx) (houtside x hx) i hi) (by omega)
      rw [hsame]
      exact Slot.Alike.refl _
  have hc32 : c < 4294967296 := by
    have h1 := hs.lt_eofLimit ho.chain.head_inRange
    have h2 := fs.eofLimit_le
    omega
  have hcluster : (loc.refresh d').entry.cluster = c := by
    rw [EntryLoc.refresh, hslot, Slot.rewritten_cluster _ _ _ hc32]
  refine ⟨loc.refresh d', ?_, ?_, ?_, L, ?_, ?_⟩
  · rw [fatDirFindEntry_eq hs env hdir', haddrs, findIn_alike (dirAddrs_aligned fs d dir) halike,
      ← fatDirFindEntry_eq hs env hdir, hfind]
    rfl
  · rw [EntryLoc.refresh, hslot, Slot.isDirectory, Slot.rewritten_attr]
    decide
  · rw [EntryLoc.refresh, hslot, u32_of_lt hlen, Slot.rewritten_fileSize _ _ _ hlen, length_bufBytes]
  · rw [hcluster]
    exact ho.chain
  · rw [hcluster, ho.bytes]
    exact bufBytes_prefix buf ho.enough

end

/-! ### The call -/

/-- A name that is new in the directory: the driver finds its entry again. -/
structure NewNameOk (fs : FatFs) (d : Disk) (dir : FatDir) (name : List UInt8) : Prop where
  text : NameText name
  ok : NameOk name
  format : FormatOk fs d dir
  place : PlaceOk fs d dir (numLfnSlots name + 1)

theorem slots_ne_existing (env : Env) {fs : FatFs} {d d' : Disk} {dir : FatDir} {name : List UInt8}
    {n : Nat} {loc : EntryLoc} (hfind : fatDirFindEntry env fs d dir name = none) :
    fatDirFindOrAllocLfnSlots env fs d dir name n ≠ (some (.existing loc), d') := by
  unfold fatDirFindOrAllocLfnSlots
  rw [hfind]
  dsimp only
  intro h
  split at h
  · split at h <;> cases h
  · split at h
    · cases h
    · split at h
      · cases h
      · split at h
        · cases h
        all_goals
          split at h <;> cases h

/-- The directory a path leads to, and the file of the name in it, are sound: the directory lies
    in a chain of its own, and so does the file where it has clusters. -/
structure TargetOk (env : Env) (fs : FatFs) (d : Disk) (dir : FatDir) (name : List UInt8) :
    Prop where
  directory : IsDir fs d dir
  file : ∀ loc, fatDirFindEntry env fs d dir name = some loc →
    loc.entry.cluster < 2 ∨ HasChain fs d loc.entry.cluster
  apart : ∀ loc, fatDirFindEntry env fs d dir name = some loc → dir.isRootFixed = false →
    ∀ x ∈ chainOf fs d dir.cluster, x ∉ chainOf fs d loc.entry.cluster
  newName : fatDirFindEntry env fs d dir name = none → NewNameOk fs d dir name

/-- **Writing a file.**  When `fat_write_file` reports success, the directory the path leads to
    holds the file under its name, whatever the rest of the volume is like. -/
theorem fatWriteFile_found {fs : FatFs} {d d' : Disk} (hs : fs.Sound) (env : Env)
    [env.NoFault] {path : List UInt8} {dir : FatDir} {name : List UInt8}
    (hres : fatResolveParentAndName env fs d path = some (dir, name))
    (hok : TargetOk env fs d dir name) {buf : Buf}
    {len : Nat} (hlen : len < 4294967296) (h : fatWriteFile env fs d path buf len = (0, d')) :
    ∃ loc, HoldsFile env fs d' dir name loc (bufBytes buf len) := by
  unfold fatWriteFile at h
  rw [hres] at h
  dsimp only at h
  cases hfind : fatDirFindEntry env fs d dir name with
  | some loc =>
    have hslots : fatDirFindOrAllocLfnSlots env fs d dir name (numLfnSlots name + 1) =
        (some (.existing loc), d) := by
      rw [fatDirFindOrAllocLfnSlots, hfind]
    rw [hslots] at h
    exact overwriteFile_found hs env hok.directory hfind (hok.file loc hfind) (hok.apart loc hfind) hlen h
  | none =>
    obtain ⟨htext, hname, hfmt, hplace⟩ := hok.newName hfind
    cases hslots : fatDirFindOrAllocLfnSlots env fs d dir name (numLfnSlots name + 1) with
    | mk ref d₀ =>
      rw [hslots] at h
      cases ref with
      | none => cases h
      | some ref =>
        cases ref with
        | existing loc => exact absurd hslots (slots_ne_existing env hfind)
        | place sec slot =>
          obtain ⟨_, a, pre, post, grow, rfl, rfl, hroom⟩ := fatDirFindOrAllocLfnSlots_place
            hs env hok.directory (Nat.succ_pos _) hplace.roomOk hslots
          obtain ⟨hdir₀, hfmt₀, hseen, hsame⟩ :=
            hroom.settled env hplace hs hok.directory hfmt (Nat.succ_pos _)
          exact createFile_found hs env hdir₀ hfmt₀ htext hname ((hsame name).trans hfind)
            hroom.addrs hroom.free hseen hlen h

end Gemios
