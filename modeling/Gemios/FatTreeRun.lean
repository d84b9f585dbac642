import Gemios.FatTreeEdit

/-!
# Runs of writes and new directories

`fat_write_file` and `fat_mkdir` on a volume, call after call: after every successful call the tree
of the volume differs from the one before it at the path of the call alone.
-/

namespace Gemios

open Function

/-! ### The first cluster of a new directory -/

theorem LiveDir.of_fixed {fs : FatFs} {d : Disk} {dir : FatDir} (hdir : LiveDir fs d dir)
    (hfix : dir.isRootFixed = true) : dir = fatRootDir fs := by
  cases hdir with
  | root => rfl
  | sub _ _ _ => cases hfix

theorem parentOf_parentCluster {fs : FatFs} {d : Disk} (hw : WellFormed fs d) {dir : FatDir}
    (hdir : LiveDir fs d dir) :
    parentCluster fs dir < 4294967296 ∧ parentOf fs (parentCluster fs dir) = dir := by
  cases hfix : dir.isRootFixed with
  | true =>
    have hroot := hdir.of_fixed hfix
    have hzero : parentCluster fs dir = 0 := by
      unfold parentCluster
      rw [hfix]
      simp
    rw [hzero]
    exact ⟨by omega, by rw [parentOf, if_pos (Or.inl rfl), hroot]⟩
  | false =>
    obtain ⟨L, hL⟩ := hw.dir_chain hdir hfix
    have hrange := hL.head_inRange
    have h1 := hw.sound.lt_eofLimit hrange
    have h2 := fs.eofLimit_le
    have hdir' : dir = ⟨false, dir.cluster⟩ := by
      cases dir
      simp only at hfix
      rw [hfix]
    unfold parentCluster
    rw [hfix]
    simp only [Bool.false_eq_true, if_false]
    by_cases hroot : fs.type = .fat32 ∧ dir.cluster = fs.rootCluster
    · rw [if_pos hroot]
      refine ⟨by omega, ?_⟩
      rw [parentOf, if_pos (Or.inl rfl), fatRootDir, if_pos hroot.1, ← hroot.2]
      exact hdir'.symm
    · rw [if_neg hroot]
      have hge := hrange.1
      refine ⟨by omega, ?_⟩
      rw [parentOf, if_neg (by
        rintro (h0 | h32)
        · omega
        · exact hroot h32)]
      exact hdir'.symm

theorem isDotSlot_newEntry (c : Nat) (nm : List UInt8) :
    IsDotSlot (newEntry 0x10 c 0 (padTo 11 (0x2E :: nm))) (0x2E :: nm) := by
  have hshort : ShortOk (padTo 11 (0x2E :: nm)) := by
    have hhead : (padTo 11 (0x2E :: nm)).getD 0 0 = 0x2E := getD_padTo_zero (by omega)
    exact ⟨length_padTo 11 _, by rw [hhead]; decide, by rw [hhead]; decide⟩
  obtain ⟨_, _, hlfn, hvol⟩ := newEntry_kind c 0 (Or.inr rfl) hshort
  refine ⟨Slot.withName_name _ hshort.length, hlfn, hvol, ?_⟩
  rw [newEntry_isDirectory]
  decide

theorem slotAt_setClus (fs : FatFs) (d : Disk) (c : Nat) (buf : Buf) {e : Nat}
    (he : e < fs.bytesPerCluster / 32) :
    slotAt (setClus fs d c buf) (fs.clusAddr c + 32 * e) = slotAt buf (32 * e) := by
  refine slotAt_congr fun i hi => ?_
  have hin : fs.InCluster c (fs.clusAddr c + 32 * e + i) := by
    constructor <;> omega
  rw [setClus_of_inCluster hin]
  congr 1
  omega

/-- **The first cluster of a new directory** holds the two dot entries, and free slots. -/
theorem dotSlots_dotEntries {fs : FatFs} {d : Disk} (hw : WellFormed fs d) {dir : FatDir}
    (hdir : LiveDir fs d dir) (d₁ : Disk) (c : Nat) :
    DotSlots fs (setClus fs d₁ c (dotEntries c (parentCluster fs dir))) c dir ∧
      ∀ b ∈ clusSlots fs c, b ≠ fs.clusAddr c → b ≠ fs.clusAddr c + 32 →
        (slotAt (setClus fs d₁ c (dotEntries c (parentCluster fs dir))) b).isFree = true := by
  obtain ⟨hlt, hparent⟩ := parentOf_parentCluster hw hdir
  generalize parentCluster fs dir = p at hlt hparent ⊢
  have hbuf : dotEntries c p = putSlot (putSlot (fun _ => 0) 0 (newEntry 0x10 c 0 (padTo 11 [0x2E]))) 32
      (newEntry 0x10 p 0 (padTo 11 [0x2E, 0x2E])) := rfl
  have hproper : ∀ c nm, ∀ i, 32 ≤ i → newEntry 0x10 c 0 nm i = 0 := by
    intro c nm i hi
    rw [newEntry, Slot.withName_of_ge _ _ (by omega)]
    exact Slot.fresh_proper 0x10 c 0 i hi
  have h0 : slotAt (dotEntries c p) 0 = newEntry 0x10 c 0 (padTo 11 [0x2E]) := by
    rw [hbuf, slotAt_congr fun i hi => putSlot_of_not (by omega)]
    exact slotAt_putSlot_self (hproper c _)
  have h1 : slotAt (dotEntries c p) 32 = newEntry 0x10 p 0 (padTo 11 [0x2E, 0x2E]) := by
    rw [hbuf]
    exact slotAt_putSlot_self (hproper p _)
  have hspc := hw.sound.spc
  have hbpc := hw.sound.bpc
  have hdot := slotAt_setClus fs d₁ c (dotEntries c p) (show 0 < fs.bytesPerCluster / 32 by omega)
  have hdotdot := slotAt_setClus fs d₁ c (dotEntries c p)
    (show 1 < fs.bytesPerCluster / 32 by omega)
  simp only [Nat.mul_zero, Nat.add_zero, Nat.mul_one] at hdot hdotdot
  rw [h0] at hdot
  rw [h1] at hdotdot
  refine ⟨⟨?_, ?_, ?_⟩, fun b hb hb0 hb1 => ?_⟩
  · rw [hdot]
    exact isDotSlot_newEntry c []
  · rw [hdotdot]
    exact isDotSlot_newEntry p [0x2E]
  · rw [hdotdot, newEntry_cluster _ _ _ _ hlt]
    exact hparent
  · obtain ⟨e, he, rfl⟩ := mem_clusSlots.mp hb
    have hzero : slotAt (dotEntries c p) (32 * e) 0 = 0 := by
      rw [slotAt_of_lt (by omega), hbuf, putSlot_of_not (by omega), putSlot_of_not (by omega)]
    rw [slotAt_setClus fs d₁ c _ he, Slot.isFree, Slot.isEnd, hzero]
    rfl

/-! ### A name is created -/

theorem Stocked.entry_stored {fs : FatFs} {d d₂ d' : Disk} (hv : Volume fs d) (env : Env) [env.NoFault]
    {dir : FatDir} (hdir : LiveDir fs d dir) {n : FileName} (hnew : look fs d dir n.key = none) {a : Nat}
    {pre post : List Nat} (haddrs : dirAddrs fs d dir = pre ++ slotsFrom a (numLfnSlots n.chars + 1) ++ post)
    (hfree : ∀ b ∈ slotsFrom a (numLfnSlots n.chars + 1), (slotAt d b).isFree = true)
    (hseen : Seen d pre) {c : Nat} {L : List Nat} (hst : Stocked fs d d₂ (c :: L)) {attr : UInt8}
    (hattr : EntryAttr attr) {size : Nat} (hsize : size < 4294967296)
    (hfull : attr &&& 0x10 = 0 → size ≤ ((c :: L).take maxVisits).length * fs.bytesPerCluster)
    (hsub : attr &&& 0x10 ≠ 0 → DotSlots fs d₂ c dir ∧ L = [] ∧
      ∀ b ∈ clusSlots fs c, b ≠ fs.clusAddr c → b ≠ fs.clusAddr c + 32 → (slotAt d₂ b).isFree = true)
    (hwrite : fatWriteLfnAndShortEntry env fs d₂ (a / 512) (a % 512 / 32) n.chars
      (chooseShortName env fs d₂ dir n.chars) (Slot.fresh attr c size) = (0, d')) :
    ∃ short11, NewEntry fs d d' dir n short11 attr c size a pre post (c :: L) ∧
      (newEntry attr c size short11).cluster = c ∧ (newEntry attr c size short11).fileSize = size ∧
      (newEntry attr c size short11).isDirectory = (attr &&& 0x10 != 0) ∧
      ∀ x ∈ c :: L, ∀ y, fs.InCluster x y → d' y = d₂ y := by
  have hmem : ∀ b ∈ slotsFrom a (numLfnSlots n.chars + 1), b ∈ dirAddrs fs d dir := by
    intro b hb
    rw [haddrs]
    exact List.mem_append_left _ (List.mem_append_right _ hb)
  have ha32 : a % 32 = 0 := dirAddrs_aligned fs d dir a
    (hmem a (mem_slotsFrom.mpr ⟨0, Nat.succ_pos _, rfl⟩))
  have hlast := dirAddrs_lt hv.wf.sound (hv.wf.isDir hdir)
    (hmem (a + 32 * numLfnSlots n.chars) (mem_slotsFrom.mpr ⟨_, Nat.lt_succ_self _, rfl⟩))
  have hok := n.nameOk
  have hshort := shortOk_chooseShortName hok n.text.ne n.text.nul n.text.slash env fs d₂ dir
  have hfound := fun (x : FileName) start => entryMatches_iff n x env fs d₂ dir hattr c size start
  have hgroup := n.text.slotGroup env fs d₂ dir hattr c size
  generalize chooseShortName env fs d₂ dir n.chars = short11 at hshort hfound hgroup hwrite
  have hglen := length_nameSlots n.chars short11 (Slot.fresh attr c size)
  rw [fatWriteLfnAndShortEntry_eq hv.wf.sound.bps env d₂ (by omega) n.chars short11 _ (by omega),
    Prod.mk.injEq] at hwrite
  have hplace : a / 512 * 512 + 32 * (a % 512 / 32) = a := by omega
  rw [hplace] at hwrite
  obtain ⟨_, rfl⟩ := hwrite
  have hc32 : c < 4294967296 := by
    have h1 := hv.wf.sound.lt_eofLimit hst.chain.head_inRange
    have h2 := fs.eofLimit_le
    omega
  have hcluster := newEntry_cluster attr c size short11 hc32
  have hisDir : (newEntry attr c size short11).isDirectory = (attr &&& 0x10 != 0) :=
    newEntry_isDirectory c size
  rw [← hglen] at haddrs hfree hmem
  have hstored : Stored fs d (putSlots d₂ a (nameSlots n.chars short11 (Slot.fresh attr c size))) dir a
      (nameSlots n.chars short11 (Slot.fresh attr c size)) pre post (c :: L) := by
    refine hst.stored hv.wf.sound (hv.wf.isDir hdir) haddrs hfree hgroup
      (nameSlots_proper n.chars short11 (Slot.fresh_proper attr c size)) (fun e he _ => ?_)
      fun e he _ hesub => ?_
    · rw [getLast_nameSlots, Option.some.injEq] at he
      rw [← he, hcluster]
      rfl
    · rw [getLast_nameSlots, Option.some.injEq] at he
      subst he
      rw [hisDir] at hesub
      rw [hcluster]
      obtain ⟨hdots, rfl, hrest⟩ := hsub (by simpa using hesub)
      exact ⟨hdots, rfl, hrest⟩
  refine ⟨short11, ⟨hdir, hnew, hseen, hstored, hattr, hshort, hfound, fun hfile => ?_⟩, hcluster,
    newEntry_fileSize attr c size short11 hsize, hisDir, fun x hx y hy => ?_⟩
  · rw [newEntry_fileSize attr c size short11 hsize]
    rw [hisDir] at hfile
    exact hfull (by simpa using hfile)
  · exact putSlots_of_not (hst.apart hv.wf.sound (hv.wf.isDir hdir) hmem x hx y hy)

/-- What a call has done: the volume is one again, and its tree has one new item, at a path below a
    directory and in no directory's place. -/
structure Wrote (fs : FatFs) (d d' : Disk) (path : FilePath) (item : Names.Item (List UInt8)) : Prop where
  volume : Volume fs d'
  tree : treeOf fs d' = update (treeOf fs d) path.keys (some item)
  parent : treeOf fs d (path.dirs.map FileName.key) = some .dir
  noDir : treeOf fs d path.keys ≠ some .dir

theorem Volume.wrote {fs : FatFs} {d d₀ d' : Disk} (hv : Volume fs d) {path : FilePath} {D : FatDir}
    (hwalk : (look fs d).walk (fatRootDir fs) (path.dirs.map FileName.key) = some D)
    {new : Names.Node FatDir (List UInt8)} (hv' : Volume fs d')
    (hsame : ∀ E, LiveDir fs d E → LiveDir fs d₀ E ∧ ∀ k, look fs d₀ E k = look fs d E k)
    (he : (look fs d₀).Edited (look fs d') (LiveDir fs d₀) D path.name.key new) :
    Wrote fs d d' path new.item := by
  have hD := hv.isTree.walk_mem hwalk
  have hedit : (look fs d).Edited (look fs d') (LiveDir fs d) D path.name.key new := by
    refine ⟨he.here, fun {E k} hE hne => ?_, fun {C} hC => ?_, he.empty⟩
    · rw [he.there (hsame E hE).1 hne, (hsame E hE).2]
    · rw [← (hsame D hD).2] at hC
      exact he.wasNoDir hC
  refine ⟨hv', hv.isTree.itemAt_edited hedit hwalk, ?_, ?_⟩
  · exact (Names.itemAt_eq_dir _ _ _).mpr ⟨D, hwalk⟩
  · rw [treeOf, FilePath.keys, Names.itemAt_concat, Names.nodeAt, hwalk, Option.bind_some]
    intro hdir
    rw [Option.map_eq_some_iff] at hdir
    obtain ⟨node, hnode, hitem⟩ := hdir
    cases node with
    | sub C => exact hedit.wasNoDir hnode
    | file data => cases hitem

/-- The place for a name that is new in its directory. -/
def HasPlace (fs : FatFs) (d : Disk) (path : FilePath) : Prop :=
  ∀ D, (look fs d).walk (fatRootDir fs) (path.dirs.map FileName.key) = some D →
    look fs d D path.name.key = none → PlaceOk fs d D (numLfnSlots path.name.chars + 1)

theorem createDir_steps {env : Env} {fs : FatFs} (hk : env.kmallocFails fs.bytesPerCluster = false)
    {d d' : Disk} {dir : FatDir} {name : List UInt8} {sec slot : Nat}
    (h : createDir env fs d dir name sec slot = (0, d')) :
    ∃ c d₁ d₂, c ≠ 0 ∧ allocFreeCluster env fs d = (c, d₁) ∧
      writeCluster env fs d₁ c (dotEntries c (parentCluster fs dir)) = (0, d₂) ∧
      fatWriteLfnAndShortEntry env fs d₂ sec slot name (chooseShortName env fs d₂ dir name)
        (Slot.fresh 0x10 c 0) = (0, d') := by
  unfold createDir kmallocOk at h
  rw [hk] at h
  split at h
  · cases h
  · next c d₁ hc halloc =>
    rw [Bool.not_false, Bool.not_true, if_neg Bool.false_ne_true] at h
    split at h
    · next d₂ hdir => exact ⟨c, d₁, d₂, fun h0 => hc h0, halloc, hdir, h⟩
    · cases h

section

variable {fs : FatFs} {d d' : Disk} (hv : Volume fs d) (env : Env) [env.NoFault] {path : FilePath}

include hv

/-- **Creating a file.** -/
theorem createFile_wrote {D : FatDir}
    (hwalk : (look fs d).walk (fatRootDir fs) (path.dirs.map FileName.key) = some D) {d₀ : Disk}
    (hv₀ : Volume fs d₀)
    (hsame : ∀ E, LiveDir fs d E → LiveDir fs d₀ E ∧ ∀ k, look fs d₀ E k = look fs d E k)
    (hnew : look fs d D path.name.key = none) {a : Nat} {pre post : List Nat}
    (haddrs : dirAddrs fs d₀ D = pre ++ slotsFrom a (numLfnSlots path.name.chars + 1) ++ post)
    (hfree : ∀ b ∈ slotsFrom a (numLfnSlots path.name.chars + 1), (slotAt d₀ b).isFree = true)
    (hseen : Seen d₀ pre) {buf : Buf} {len : Nat} (hlen : len < 4294967296)
    (hwalks : len ≤ maxVisits * fs.bytesPerCluster)
    (h : createFile env fs d₀ D path.name.chars (a / 512) (a % 512 / 32) buf len = (0, d')) :
    Wrote fs d d' path (.file (bufBytes buf len)) := by
  have hD := hv.isTree.walk_mem hwalk
  obtain ⟨hD₀, hlook⟩ := hsame D hD
  obtain ⟨c, d₁, d₂, hc0, halloc, hloop, hwrite⟩ :=
    createFile_steps (Env.NoFault.kmalloc fs.bytesPerCluster) h
  obtain ⟨W, hst, hF⟩ := (allocFreeCluster_stocked hv₀.wf.sound env halloc hc0).fill hv₀.wf.sound env hloop
  rw [u32_of_lt hlen] at hwrite
  -- the chain is not longer than it is followed
  have hvisits : (c :: W).length ≤ maxVisits := by
    rcases hF.tight with htight | hone
    · have := Nat.lt_of_mul_lt_mul_right (Nat.lt_of_lt_of_le htight (Nat.le_trans (Nat.sub_le _ _) hwalks))
      omega
    · rw [hone]
      decide
  have henough : len ≤ (c :: W).length * fs.bytesPerCluster := hF.enough
  have hfull : len ≤ ((c :: W).take maxVisits).length * fs.bytesPerCluster := by
    rw [List.take_of_length_le hvisits]
    exact henough
  obtain ⟨short11, hentry, hcluster, hsize, hisDir, hdata⟩ := hst.entry_stored hv₀ env hD₀
    ((hlook _).trans hnew) haddrs hfree hseen (Or.inl rfl) hlen (fun _ => hfull)
    (fun hne => absurd rfl hne) hwrite
  have hnode : entryNode fs d' (newEntry 0x20 c len short11) = .file (bufBytes buf len) := by
    obtain ⟨_, _, hchain⟩ := hentry.chain hv₀
    rw [entryNode, hisDir, fileBytes, hchain, hsize, List.take_of_length_le hvisits,
      chainBytes_congr hdata, hF.bytes]
    obtain ⟨rest, hrest⟩ := bufBytes_prefix buf henough
    rw [← hrest, List.take_left' (length_bufBytes buf len)]
    rfl
  have hedit := hentry.edited hv₀
  rw [hnode] at hedit
  exact hv.wrote hwalk (hentry.volume hv₀) hsame hedit

/-- **Creating a directory.** -/
theorem createDir_wrote {D : FatDir}
    (hwalk : (look fs d).walk (fatRootDir fs) (path.dirs.map FileName.key) = some D) {d₀ : Disk}
    (hv₀ : Volume fs d₀)
    (hsame : ∀ E, LiveDir fs d E → LiveDir fs d₀ E ∧ ∀ k, look fs d₀ E k = look fs d E k)
    (hnew : look fs d D path.name.key = none) {a : Nat} {pre post : List Nat}
    (haddrs : dirAddrs fs d₀ D = pre ++ slotsFrom a (numLfnSlots path.name.chars + 1) ++ post)
    (hfree : ∀ b ∈ slotsFrom a (numLfnSlots path.name.chars + 1), (slotAt d₀ b).isFree = true)
    (hseen : Seen d₀ pre)
    (h : createDir env fs d₀ D path.name.chars (a / 512) (a % 512 / 32) = (0, d')) :
    Wrote fs d d' path .dir := by
  have hD := hv.isTree.walk_mem hwalk
  obtain ⟨hD₀, hlook⟩ := hsame D hD
  obtain ⟨c, d₁, d₂, hc0, halloc, hdir, hwrite⟩ :=
    createDir_steps (Env.NoFault.kmalloc fs.bytesPerCluster) h
  have hst := allocFreeCluster_stocked hv₀.wf.sound env halloc hc0
  rw [writeCluster_eq hv₀.wf.sound env d₁ hst.chain.head_inRange] at hdir
  obtain rfl := (Prod.mk.inj hdir).2
  have hst₂ := hst.setClus hv₀.wf.sound (dotEntries c (parentCluster fs D))
  obtain ⟨hdots, hrest⟩ := dotSlots_dotEntries hv₀.wf hD₀ d₁ c
  obtain ⟨short11, hentry, hcluster, _, hisDir, _⟩ := hst₂.entry_stored hv₀ env hD₀ ((hlook _).trans hnew)
    haddrs hfree hseen (Or.inr rfl) (by omega) (fun h0 => absurd h0 (by decide))
    (fun _ => ⟨hdots, rfl, hrest⟩) hwrite
  obtain ⟨_, hnode, _⟩ := hentry.newDir hv₀ (by rw [hisDir]; decide)
  have hedit := hentry.edited hv₀
  rw [hnode] at hedit
  exact hv.wrote hwalk (hentry.volume hv₀) hsame hedit

end

/-! ### The slot search -/

theorem HasRoom.volume {fs : FatFs} {d d₀ : Disk} (hv : Volume fs d) {D : FatDir} (hD : LiveDir fs d D)
    {n a : Nat} (hplace : PlaceOk fs d D n) {pre post : List Nat} {grow : Option (Nat × Nat)}
    (h : HasRoom fs d d₀ D n a pre post grow) :
    Volume fs d₀ ∧ ∀ E, LiveDir fs d E → LiveDir fs d₀ E ∧ ∀ k, look fs d₀ E k = look fs d E k := by
  cases hgrow : grow with
  | none =>
    obtain ⟨rfl, _⟩ := h.same hgrow
    exact ⟨hv, fun E hE => ⟨hE, fun _ => rfl⟩⟩
  | some g =>
    obtain ⟨hgrown, _, _, hrun⟩ := h.grown g.1 g.2 hgrow
    unfold PlaceOk at hplace
    rw [hrun] at hplace
    obtain ⟨_, _, hlen⟩ := hplace hgrown.chained
    exact ⟨hgrown.volume hv hD hlen, fun E hE => ⟨hgrown.live_of hv.wf hD hlen hE,
      fun k => hgrown.look_eq hv hD hlen hE k⟩⟩

section

variable {fs : FatFs} {d d' : Disk} (hv : Volume fs d) (env : Env) [env.NoFault] {path : FilePath}
  (hplace : HasPlace fs d path)

include hv hplace

/-- **Writing a file**, new or not. -/
theorem fatWriteFile_wrote {buf : Buf} {len : Nat} (hlen : len < 4294967296)
    (hwalks : len ≤ maxVisits * fs.bytesPerCluster)
    (h : fatWriteFile env fs d path.bytes buf len = (0, d')) :
    Wrote fs d d' path (.file (bufBytes buf len)) := by
  unfold fatWriteFile at h
  rw [path.resolveParent, hv.resolveFrom env path.dirs LiveDir.root] at h
  cases hwalk : (look fs d).walk (fatRootDir fs) (path.dirs.map FileName.key) with
  | none =>
    rw [hwalk] at h
    cases h
  | some D =>
    rw [hwalk] at h
    dsimp only [Option.map_some] at h
    have hD := hv.isTree.walk_mem hwalk
    have hlookup := fatDirFindEntry_eq hv.wf.sound env (hv.wf.isDir hD) path.name.chars
    cases hfind : findIn d path.name.chars (dirAddrs fs d D) with
    | some loc =>
      rw [hfind] at hlookup
      have hslots : fatDirFindOrAllocLfnSlots env fs d D path.name.chars
          (numLfnSlots path.name.chars + 1) = (some (.existing loc), d) := by
        rw [fatDirFindOrAllocLfnSlots, hlookup]
      rw [hslots] at h
      dsimp only at h
      obtain ⟨hmem, hentry⟩ := hv.wf.find_name hD path.name hfind
      have hfile : loc.entry.isDirectory = false := by
        by_contra hsub
        rw [Bool.not_eq_false] at hsub
        rw [overwriteFile, if_pos hsub] at h
        cases h
      have hslot := hv.wf.find_slot_lt env hD hlookup
      have haddrs := (mem_liveAddrs (mem_childAddrs.mp hmem).1).1
      rw [hentry] at hfile
      have hsep : ∀ x, fs.InRange x → x ∈ chainOf fs d loc.entry.cluster ∨ fs.fatEnt d x = 0 →
          ∀ i, i < 32 → ¬ fs.InCluster x (loc.addr + i) := by
        intro x hx hor
        refine hv.wf.slot_outside hD haddrs hx fun hfix hin => ?_
        rcases hor with hx' | h0
        · exact hv.wf.dir_file_disjoint hD hfix hD hmem hfile hin (hentry ▸ hx')
        · exact hv.wf.dir_not_free hD hfix hin h0
      obtain ⟨W, ho⟩ := overwriteFile_spec hv.wf.sound env hslot
        (hentry ▸ hv.wf.file D hD _ hmem hfile) (dirAddrs_area hv.wf.sound haddrs) hsep h
      rw [hentry] at ho
      exact hv.wrote hwalk (ho.volume hv hD hmem hfile hlen hwalks) (fun E hE => ⟨hE, fun _ => rfl⟩)
        (ho.edited hv hD hmem hfile hlen hwalks hfind rfl)
    | none =>
      have hnew : look fs d D path.name.key = none := by
        rw [look_key, hfind]
        rfl
      have hroomOk := hplace D hwalk hnew
      cases hslots : fatDirFindOrAllocLfnSlots env fs d D path.name.chars
          (numLfnSlots path.name.chars + 1) with
      | mk ref d₀ =>
        rw [hslots] at h
        cases ref with
        | none => cases h
        | some ref =>
          cases ref with
          | existing loc => exact absurd hslots (slots_ne_existing env (hlookup.trans hfind))
          | place sec slot =>
            obtain ⟨_, a, pre, post, grow, rfl, rfl, hroom⟩ := fatDirFindOrAllocLfnSlots_place
              hv.wf.sound env (hv.wf.isDir hD) (Nat.succ_pos _) hroomOk.roomOk hslots
            obtain ⟨_, _, hseen, _⟩ := hroom.settled env hroomOk hv.wf.sound (hv.wf.isDir hD)
              (hv.format D hD) (Nat.succ_pos _)
            obtain ⟨hv₀, hsame⟩ := hroom.volume hv hD hroomOk
            exact createFile_wrote hv env hwalk hv₀ hsame hnew hroom.addrs hroom.free hseen hlen hwalks h

/-- **Making a directory**, at a path that leads nowhere. -/
theorem fatMkdir_wrote (h : fatMkdir env fs d path.bytes = (0, d')) :
    Wrote fs d d' path .dir ∧ treeOf fs d path.keys = none := by
  unfold fatMkdir at h
  rw [path.resolveParent, hv.resolveFrom env path.dirs LiveDir.root] at h
  cases hwalk : (look fs d).walk (fatRootDir fs) (path.dirs.map FileName.key) with
  | none =>
    rw [hwalk] at h
    cases h
  | some D =>
    rw [hwalk] at h
    dsimp only [Option.map_some] at h
    have hD := hv.isTree.walk_mem hwalk
    have hlookup := fatDirFindEntry_eq hv.wf.sound env (hv.wf.isDir hD) path.name.chars
    rw [if_neg (by
      rintro (h0 | h1 | h2)
      · exact path.name.text.ne h0
      · exact path.name.ne_dots.1 h1
      · exact path.name.ne_dots.2 h2)] at h
    cases hslots : fatDirFindOrAllocLfnSlots env fs d D path.name.chars
        (numLfnSlots path.name.chars + 1) with
    | mk ref d₀ =>
      rw [hslots] at h
      cases ref with
      | none => cases h
      | some ref =>
        cases ref with
        | existing loc => cases h
        | place sec slot =>
          -- a place is only looked for under a new name
          have hfind : findIn d path.name.chars (dirAddrs fs d D) = none := by
            rw [← hlookup]
            cases hloc : fatDirFindEntry env fs d D path.name.chars with
            | none => rfl
            | some loc =>
              rw [fatDirFindOrAllocLfnSlots, hloc] at hslots
              cases hslots
          have hnew : look fs d D path.name.key = none := by
            rw [look_key, hfind]
            rfl
          have hroomOk := hplace D hwalk hnew
          obtain ⟨_, a, pre, post, grow, rfl, rfl, hroom⟩ := fatDirFindOrAllocLfnSlots_place
            hv.wf.sound env (hv.wf.isDir hD) (Nat.succ_pos _) hroomOk.roomOk hslots
          obtain ⟨_, _, hseen, _⟩ := hroom.settled env hroomOk hv.wf.sound (hv.wf.isDir hD)
            (hv.format D hD) (Nat.succ_pos _)
          obtain ⟨hv₀, hsame⟩ := hroom.volume hv hD hroomOk
          refine ⟨createDir_wrote hv env hwalk hv₀ hsame hnew hroom.addrs hroom.free hseen h, ?_⟩
          rw [treeOf, FilePath.keys, Names.itemAt_concat, Names.nodeAt, hwalk, Option.bind_some, hnew]
          rfl

end

/-! ### Names without long-name slots -/

theorem findRun_one (d : Disk) (as : List Nat) : ∀ start,
    findRun d 1 as 0 start = as.find? fun a => (slotAt d a).isFree := by
  induction as with
  | nil =>
    intro start
    rfl
  | cons a as ih =>
    intro start
    cases hfree : (slotAt d a).isFree with
    | true => simp [findRun, hfree]
    | false => simp [findRun, hfree, ih]

/-- **A single slot always has a place**, where chains are not longer than they are followed. -/
theorem placeOk_one {fs : FatFs} {d : Disk} (hw : WellFormed fs d) (hfew : fs.totalClusters < maxVisits)
    {D : FatDir} (hD : LiveDir fs d D) : PlaceOk fs d D 1 := by
  have hspc := hw.sound.spc
  have hbpc := hw.sound.bpc
  unfold PlaceOk
  rw [findRun_one]
  cases hfind : (dirAddrs fs d D).find? fun a => (slotAt d a).isFree with
  | some a =>
    obtain ⟨_, pre, post, haddrs, hpre⟩ := List.find?_eq_some_iff_append.mp hfind
    refine ⟨pre, post, by rw [haddrs, slotsFrom_succ, slotsFrom, List.range'_zero]; simp, ?_⟩
    intro b hb
    have hnot := hpre b hb
    simp only [Bool.not_eq_true'] at hnot
    exact not_isEnd_of_not_isFree hnot
  | none =>
    rw [List.find?_eq_none] at hfind
    intro hfix
    obtain ⟨L, hL⟩ := hw.dir_chain hD hfix
    refine ⟨fun b hb => not_isEnd_of_not_isFree (by simpa using hfind b hb), by omega, ?_⟩
    rw [chainOf_eq hw.sound hL]
    exact Nat.lt_of_le_of_lt hL.length_le hfew

theorem Volume.hasPlace {fs : FatFs} {d : Disk} (hv : Volume fs d) (hfew : fs.totalClusters < maxVisits)
    {path : FilePath} (hshort : fatNeedsLfn path.name.chars = false) : HasPlace fs d path := by
  intro D hwalk _
  rw [numLfnSlots, hshort]
  exact placeOk_one hv.wf hfew (hv.isTree.walk_mem hwalk)

/-! ### Runs -/

inductive TreeCall
  | write (path : FilePath) (data : List UInt8)
  | mkdir (path : FilePath)

namespace TreeCall

def path : TreeCall → FilePath
  | .write path _ => path
  | .mkdir path => path

def item : TreeCall → Names.Item (List UInt8)
  | .write _ data => .file data
  | .mkdir _ => .dir

def run (env : Env) (fs : FatFs) (d : Disk) : TreeCall → Int × Disk
  | .write path data => fatWriteFile env fs d path.bytes (fun i => data.getD i 0) data.length
  | .mkdir path => fatMkdir env fs d path.bytes

def size : TreeCall → Nat
  | .write _ data => data.length
  | .mkdir _ => 0

def apply (T : List NameKey → Option (Names.Item (List UInt8))) (call : TreeCall) :
    List NameKey → Option (Names.Item (List UInt8)) :=
  update T call.path.keys (some call.item)

/-- There is a place for a new name, and a chain for the data is followed to its end. -/
structure Fits (fs : FatFs) (d : Disk) (call : TreeCall) : Prop where
  place : HasPlace fs d call.path
  word : call.size < 4294967296
  size : call.size ≤ maxVisits * fs.bytesPerCluster

end TreeCall

/-- Calls one after the other, each of which succeeds. -/
inductive TreeRun (env : Env) (fs : FatFs) : Disk → List TreeCall → Disk → Prop
  | nil {d : Disk} : TreeRun env fs d [] d
  | cons {d d₁ d' : Disk} {call : TreeCall} {calls : List TreeCall} (hfits : call.Fits fs d)
      (hcall : call.run env fs d = (0, d₁)) (hrest : TreeRun env fs d₁ calls d') :
      TreeRun env fs d (call :: calls) d'

section

variable {fs : FatFs} {d d' : Disk} (hv : Volume fs d) (env : Env) [env.NoFault]

include hv

theorem TreeCall.run_wrote {call : TreeCall} (hfits : call.Fits fs d)
    (h : call.run env fs d = (0, d')) : Wrote fs d d' call.path call.item := by
  cases call with
  | write path data =>
    have hwrote : Wrote fs d d' path (.file (bufBytes (fun i => data.getD i 0) data.length)) :=
      fatWriteFile_wrote hv env hfits.place hfits.word hfits.size h
    rw [bufBytes_getD] at hwrote
    exact hwrote
  | mkdir path => exact (fatMkdir_wrote hv env hfits.place h).1

/-- **Runs of calls.**  The volume stays one, and its tree is the one it had with the items of the
    calls put in, one after the other. -/
theorem TreeRun.tree {calls : List TreeCall} (h : TreeRun env fs d calls d') :
    Volume fs d' ∧ treeOf fs d' = calls.foldl TreeCall.apply (treeOf fs d) := by
  induction h with
  | nil => exact ⟨hv, rfl⟩
  | cons hfits hcall _ ih =>
    have hwrote := TreeCall.run_wrote hv env hfits hcall
    obtain ⟨hv', htree⟩ := ih hwrote.volume
    refine ⟨hv', ?_⟩
    rw [htree, hwrote.tree]
    rfl

end

/-- **The driver as a tree of files.**  After any run of successful calls, every path reads, stats and
    resolves as in the tree that the calls make of the one there was. -/
theorem treeRun_shows {fs : FatFs} {d d' : Disk} (hv : Volume fs d) (env : Env) [env.NoFault]
    {calls : List TreeCall} (h : TreeRun env fs d calls d') :
    Shows env fs d' (calls.foldl TreeCall.apply (treeOf fs d)) := by
  obtain ⟨hv', htree⟩ := h.tree hv env
  rw [← htree]
  exact hv'.shows env

/-! ### An empty volume -/

theorem volume_of_empty {fs : FatFs} {d : Disk} (hs : fs.Sound)
    (hroot : fs.type = .fat32 → HasChain fs d fs.rootCluster) (hformat : FormatOk fs d (fatRootDir fs))
    (hempty : liveAddrs d (dirAddrs fs d (fatRootDir fs)) = []) :
    Volume fs d ∧ treeOf fs d = update (fun _ => none) [] (some .dir) := by
  have hchild : ∀ a, a ∉ childAddrs fs d (fatRootDir fs) := by
    intro a ha
    have hlive := (mem_childAddrs.mp ha).1
    rw [hempty] at hlive
    cases hlive
  have honly : ∀ {D}, LiveDir fs d D → D = fatRootDir fs :=
    fun hD => hD.eq_root fun a ha => absurd ha (hchild a)
  have hnone : ∀ {D}, LiveDir fs d D → ∀ a, a ∉ childAddrs fs d D := by
    intro D hD
    rw [honly hD]
    exact hchild
  have hw : WellFormed fs d :=
    { sound := hs
      rootChain := hroot
      subdir := fun D hD a ha => absurd ha (hnone hD a)
      file := fun D hD a ha => absurd ha (hnone hD a)
      disjoint := fun D hD a ha => absurd ha (hnone hD a)
      rootDisjoint := fun _ D hD a ha => absurd ha (hnone hD a) }
  have hmiss : ∀ x : FileName, findIn d x.chars (dirAddrs fs d (fatRootDir fs)) = none := by
    intro x
    cases hfind : findIn d x.chars (dirAddrs fs d (fatRootDir fs)) with
    | none => rfl
    | some loc => exact absurd (hw.find_name LiveDir.root x hfind).1 (hchild _)
  refine ⟨⟨hw, fun D hD => ?_, fun D hD k l loc loc' hk => ?_, fun D hD a ha => absurd ha (hnone hD a)⟩, ?_⟩
  · rw [honly hD]
    exact hformat
  · rw [honly hD, hmiss k.toFileName] at hk
    cases hk
  · funext p
    rw [update_apply]
    have hlook : ∀ k, look fs d (fatRootDir fs) k = none := by
      intro k
      rw [look, hmiss k.toFileName]
      rfl
    cases p with
    | nil => rfl
    | cons k p =>
      rw [if_neg (by simp)]
      have hstep : ∀ p, (look fs d).walk (fatRootDir fs) (k :: p) = none := by
        intro p
        rw [Names.walk, Names.step, hlook]
        rfl
      cases p using List.reverseRecOn with
      | nil =>
        have hitem := Names.itemAt_concat (look fs d) (fatRootDir fs) [] k
        rw [List.nil_append] at hitem
        rw [treeOf, hitem, Names.nodeAt, Names.walk_nil, Option.bind_some, hlook]
        rfl
      | append_singleton p l =>
        have hitem := Names.itemAt_concat (look fs d) (fatRootDir fs) (k :: p) l
        rw [List.cons_append] at hitem
        rw [treeOf, hitem, Names.nodeAt, hstep]
        rfl

theorem volume_smallImage : Volume smallFs smallImage ∧
    treeOf smallFs smallImage = update (fun _ => none) [] (some .dir) := by
  have hfree : ∀ a ∈ dirAddrs smallFs smallImage (fatRootDir smallFs),
      (slotAt smallImage a).isFree = true := by decide +kernel
  refine volume_of_empty smallFs_sound (fun h => absurd h (by decide)) ?_ (liveAddrs_free hfree)
  apply DirFormat.of_free
  intro e he
  obtain ⟨a, ha, rfl⟩ := List.mem_map.mp he
  exact hfree a ha

def nameA : FileName :=
  ⟨[0x41], ⟨by decide, by decide, by simp [isSlash], by decide⟩, by decide, by decide, by constructor <;> decide⟩

def pathA : FilePath := ⟨[0x2F, 0x41], [], nameA, by decide, by decide⟩

def pathAA : FilePath := ⟨[0x2F, 0x41, 0x2F, 0x41], [nameA], nameA, by decide, by decide⟩

/-- A directory and a file in it on the small volume. -/
theorem treeRun_shows_small :
    ∃ d', Shows Env.ideal smallFs d' ([TreeCall.mkdir pathA, .write pathAA [1, 2, 3]].foldl
      TreeCall.apply (treeOf smallFs smallImage)) := by
  have hv := volume_smallImage.1
  have hdir : TreeCall.Fits smallFs smallImage (.mkdir pathA) :=
    ⟨hv.hasPlace (by decide) (by decide), by decide, by decide⟩
  obtain ⟨d₁, hmkdir⟩ : ∃ d₁, TreeCall.run Env.ideal smallFs smallImage (.mkdir pathA) = (0, d₁) :=
    ⟨_, Prod.ext (by decide +kernel) rfl⟩
  have hv₁ := (TreeCall.run_wrote hv Env.ideal hdir hmkdir).volume
  have hfile : TreeCall.Fits smallFs d₁ (.write pathAA [1, 2, 3]) :=
    ⟨hv₁.hasPlace (by decide) (by decide), by decide, by decide⟩
  obtain ⟨d', hwrite⟩ : ∃ d', TreeCall.run Env.ideal smallFs d₁ (.write pathAA [1, 2, 3]) = (0, d') := by
    have hd₁ : d₁ = (TreeCall.run Env.ideal smallFs smallImage (.mkdir pathA)).2 := by rw [hmkdir]
    refine ⟨_, Prod.ext ?_ rfl⟩
    rw [hd₁]
    decide +kernel
  exact ⟨d', treeRun_shows hv Env.ideal (.cons hdir hmkdir (.cons hfile hwrite .nil))⟩

end Gemios
