import Gemios.FatVolume
import Gemios.FatDirFormat

/-!
# A directory that got a cluster

Every chain of a well-formed volume belongs to the root or to one entry of a reachable
directory.  An edit of the volume that gives fresh clusters to one owner only leaves it
well formed.

When `fat_dir_find_or_alloc_lfn_slots` finds no room it links a cleared cluster behind
the directory's last one.  The volume stays well formed, every directory keeps its format
and its entries, and every lookup finds what it found.
-/

namespace Gemios

/-- The first cluster of an owner: of the root, or of the entry at an address. -/
def firstAt (fs : FatFs) (d : Disk) : Option Nat → Nat
  | none => if fs.type = .fat32 then fs.rootCluster else 0
  | some a => (slotAt d a).cluster

def chainAt (fs : FatFs) (d : Disk) (o : Option Nat) : List Nat := chainOf fs d (firstAt fs d o)

/-- The owners of chains: the root, and the entries of the reachable directories. -/
inductive Owner (fs : FatFs) (d : Disk) : Option Nat → Prop
  | root : Owner fs d none
  | child {dir : FatDir} {a : Nat} (hdir : LiveDir fs d dir) (ha : a ∈ childAddrs fs d dir) :
      Owner fs d (some a)

section

variable {fs : FatFs} {d : Disk} (hw : WellFormed fs d)

include hw

theorem WellFormed.entry_chain {dir : FatDir} {a : Nat} (hdir : LiveDir fs d dir)
    (ha : a ∈ childAddrs fs d dir) :
    (slotAt d a).cluster < 2 ∨ HasChain fs d (slotAt d a).cluster := by
  cases hsub : (slotAt d a).isDirectory with
  | true => exact Or.inr (hw.subdir dir hdir a ha hsub).1
  | false => exact hw.file dir hdir a ha hsub

theorem WellFormed.owner_first {o : Option Nat} (ho : Owner fs d o) :
    firstAt fs d o < 2 ∨ HasChain fs d (firstAt fs d o) := by
  cases ho with
  | root =>
    rw [firstAt]
    split
    · next ht => exact Or.inr (hw.rootChain ht)
    · exact Or.inl (by omega)
  | child hdir ha => exact hw.entry_chain hdir ha

theorem WellFormed.isChain_chainAt {o : Option Nat} (ho : Owner fs d o) :
    IsChain fs d (chainAt fs d o) := by
  rw [chainAt]
  rcases hw.owner_first ho with hlt | ⟨L, hL⟩
  · rw [chainOf_of_lt hlt]
    exact ⟨fun _ h => absurd h (by simp), List.nodup_nil, trivial⟩
  · rw [chainOf_eq hw.sound hL]
    exact hL

theorem WellFormed.owner_disjoint {o o' : Option Nat} (ho : Owner fs d o) (ho' : Owner fs d o')
    (hne : o ≠ o') : ∀ x ∈ chainAt fs d o, x ∉ chainAt fs d o' := by
  have hroot : ∀ {dir : FatDir} {a : Nat}, LiveDir fs d dir → a ∈ childAddrs fs d dir →
      ∀ x ∈ chainAt fs d none, x ∉ chainAt fs d (some a) := by
    intro dir a hdir ha x hx
    rw [chainAt, firstAt] at hx
    split at hx
    · next ht => exact hw.rootDisjoint ht dir hdir a ha x hx
    · rw [chainOf_of_lt (by omega)] at hx
      cases hx
  cases ho with
  | root =>
    cases ho' with
    | root => exact absurd rfl hne
    | child hdir ha => exact hroot hdir ha
  | child hdir ha =>
    cases ho' with
    | root => exact fun x hx hx' => hroot hdir ha x hx' hx
    | child hdir' ha' =>
      exact hw.disjoint _ hdir _ ha _ hdir' _ ha' fun heq => hne (congrArg some heq)

omit hw in
theorem LiveDir.owner {dir : FatDir} (hdir : LiveDir fs d dir) (hfix : dir.isRootFixed = false) :
    ∃ o, Owner fs d o ∧ firstAt fs d o = dir.cluster := by
  cases hdir with
  | root =>
    have ht : fs.type = .fat32 := by
      by_contra ht
      rw [fatRootDir_fixed ht] at hfix
      cases hfix
    refine ⟨none, Owner.root, ?_⟩
    rw [firstAt, if_pos ht, fatRootDir, if_pos ht]
  | @sub dir' a hdir' ha _ => exact ⟨some a, Owner.child hdir' ha, rfl⟩

theorem WellFormed.dir_chains_disjoint {dir dir' : FatDir} (hdir : LiveDir fs d dir)
    (hdir' : LiveDir fs d dir') (hfix : dir.isRootFixed = false)
    (hfix' : dir'.isRootFixed = false) (hne : dir ≠ dir') :
    ∀ x ∈ chainOf fs d dir.cluster, x ∉ chainOf fs d dir'.cluster := by
  obtain ⟨o, ho, hc⟩ := hdir.owner hfix
  obtain ⟨o', ho', hc'⟩ := hdir'.owner hfix'
  rw [← hc, ← hc']
  refine hw.owner_disjoint ho ho' ?_
  rintro rfl
  refine hne ?_
  cases dir
  cases dir'
  simp only at hfix hfix' hc hc'
  rw [hfix, hfix', ← hc, ← hc']

theorem WellFormed.dirs_disjoint {dir dir' : FatDir} (hdir : LiveDir fs d dir)
    (hdir' : LiveDir fs d dir') (hne : dir ≠ dir') {a : Nat} (ha : a ∈ dirAddrs fs d dir) :
    a ∉ dirAddrs fs d dir' := by
  have hfixed : ∀ {D : FatDir}, LiveDir fs d D → D.isRootFixed = true → D = fatRootDir fs := by
    intro D hD hfix
    cases hD with
    | root => rfl
    | sub _ _ _ => cases hfix
  -- a slot of a chained directory against one of another directory
  have hcase : ∀ {D D' : FatDir}, LiveDir fs d D → LiveDir fs d D' → D ≠ D' →
      D'.isRootFixed = false → a ∈ dirAddrs fs d D → a ∉ dirAddrs fs d D' := by
    intro D D' hD hD' hne hfix' ha ha'
    obtain ⟨c, hc, hac⟩ := exists_cluster_of_mem_dirAddrs hfix' ha'
    obtain ⟨L, hL⟩ := hw.dir_chain hD' hfix'
    have hcr : fs.InRange c := hL.inRange c (chainOf_eq hw.sound hL ▸ hc)
    refine hw.slot_outside hD ha hcr (fun hfix hmem => ?_) 0 (by omega)
      (inCluster_of_mem_clusSlots hac (by omega))
    exact hw.dir_chains_disjoint hD hD' hfix hfix' hne c hmem hc
  intro ha'
  cases hfix' : dir'.isRootFixed with
  | false => exact hcase hdir hdir' hne hfix' ha ha'
  | true =>
    cases hfix : dir.isRootFixed with
    | false => exact hcase hdir' hdir hne.symm hfix ha' ha
    | true => exact hne ((hfixed hdir hfix).trans (hfixed hdir' hfix').symm)

/-- **Edits keep a volume well formed** when the chains afterwards consist of clusters
    their owners had, and of free ones that went to one owner. -/
theorem WellFormed.edit {d' : Disk} (own : Option Nat)
    (hroot : fs.type = .fat32 → HasChain fs d' fs.rootCluster)
    (hsub : ∀ dir, LiveDir fs d' dir → ∀ a ∈ childAddrs fs d' dir,
      (slotAt d' a).isDirectory = true →
      HasChain fs d' (slotAt d' a).cluster ∧ DotSlots fs d' (slotAt d' a).cluster dir)
    (hfile : ∀ dir, LiveDir fs d' dir → ∀ a ∈ childAddrs fs d' dir,
      (slotAt d' a).isDirectory = false →
      (slotAt d' a).cluster < 2 ∨ HasChain fs d' (slotAt d' a).cluster)
    (hchain : ∀ o, Owner fs d' o → ∀ x ∈ chainAt fs d' o,
      (Owner fs d o ∧ x ∈ chainAt fs d o) ∨ (fs.fatEnt d x = 0 ∧ o = own)) : WellFormed fs d' := by
  have hdisj : ∀ o o', Owner fs d' o → Owner fs d' o' → o ≠ o' →
      ∀ x ∈ chainAt fs d' o, x ∉ chainAt fs d' o' := by
    intro o o' ho ho' hne x hx hx'
    rcases hchain o ho x hx with ⟨h1, h2⟩ | ⟨h1, h2⟩
    · rcases hchain o' ho' x hx' with ⟨h3, h4⟩ | ⟨h3, h4⟩
      · exact hw.owner_disjoint h1 h3 hne x h2 h4
      · exact (hw.isChain_chainAt h1).fatEnt_ne_zero x h2 h3
    · rcases hchain o' ho' x hx' with ⟨h3, h4⟩ | ⟨h3, h4⟩
      · exact (hw.isChain_chainAt h3).fatEnt_ne_zero x h4 h1
      · exact hne (h2.trans h4.symm)
  refine ⟨hw.sound, hroot, hsub, hfile, ?_, ?_⟩
  · intro dir hdir a ha dir' hdir' a' ha' hne
    exact hdisj (some a) (some a') (Owner.child hdir ha) (Owner.child hdir' ha')
      fun heq => hne (Option.some.inj heq)
  · intro ht dir hdir a ha
    have h := hdisj none (some a) Owner.root (Owner.child hdir ha) (by simp)
    rwa [chainAt, firstAt, if_pos ht] at h

end

theorem LiveDir.of_edit {fs : FatFs} {d d' : Disk} {N : FatDir → Prop}
    (hkeep : ∀ dir, LiveDir fs d dir → ∀ a ∈ childAddrs fs d' dir,
      (slotAt d' a).isDirectory = true →
      (a ∈ childAddrs fs d dir ∧ (slotAt d a).isDirectory = true ∧
        (slotAt d' a).cluster = (slotAt d a).cluster) ∨ N ⟨false, (slotAt d' a).cluster⟩)
    (hnew : ∀ dir, N dir → ∀ a ∈ childAddrs fs d' dir, (slotAt d' a).isDirectory = false)
    {dir : FatDir} (hdir : LiveDir fs d' dir) : LiveDir fs d dir ∨ N dir := by
  induction hdir with
  | root => exact Or.inl LiveDir.root
  | @sub dir a _ ha hsub ih =>
    rcases ih with hold | hn
    · rcases hkeep dir hold a ha hsub with ⟨h1, h2, h3⟩ | h
      · rw [h3]
        exact Or.inl (LiveDir.sub hold h1 h2)
      · exact Or.inr h
    · rw [hnew dir hn a ha] at hsub
      cases hsub

theorem chainOf_congr {fs : FatFs} (hs : fs.Sound) {d d' : Disk} {c : Nat}
    (hc : c < 2 ∨ HasChain fs d c) (hfat : ∀ x ∈ chainOf fs d c, fs.fatEnt d' x = fs.fatEnt d x) :
    (c < 2 ∨ HasChain fs d' c) ∧ chainOf fs d' c = chainOf fs d c := by
  rcases hc with hlt | ⟨L, hL⟩
  · exact ⟨Or.inl hlt, by rw [chainOf_of_lt hlt, chainOf_of_lt hlt]⟩
  · rw [chainOf_eq hs hL] at hfat ⊢
    have hL' : IsChain fs d' (c :: L) := hL.congr hfat
    exact ⟨Or.inr ⟨L, hL'⟩, chainOf_eq hs hL'⟩

theorem hasChain_congr {fs : FatFs} (hs : fs.Sound) {d d' : Disk} {c : Nat}
    (hc : HasChain fs d c) (hfat : ∀ x ∈ chainOf fs d c, fs.fatEnt d' x = fs.fatEnt d x) :
    HasChain fs d' c ∧ chainOf fs d' c = chainOf fs d c := by
  obtain ⟨hor, heq⟩ := chainOf_congr hs (Or.inr hc) hfat
  obtain ⟨L, hL⟩ := hc
  exact ⟨hor.resolve_left (Nat.not_lt.mpr hL.head_inRange.1), heq⟩

theorem IsDir.dirAddrs_congr {fs : FatFs} {d d' : Disk} {dir : FatDir} (hdir : IsDir fs d dir)
    (hs : fs.Sound) (hfat : dir.isRootFixed = false → ∀ x ∈ chainOf fs d dir.cluster,
      fs.fatEnt d' x = fs.fatEnt d x) :
    IsDir fs d' dir ∧ dirAddrs fs d' dir = dirAddrs fs d dir := by
  cases hfix : dir.isRootFixed with
  | true => exact ⟨Or.inl hfix, by rw [dirAddrs, dirAddrs, hfix]; rfl⟩
  | false =>
    obtain ⟨hch, heq⟩ := hasChain_congr hs (hdir.chain hfix) (hfat hfix)
    exact ⟨Or.inr hch, by rw [dirAddrs, dirAddrs, dirClusters, dirClusters, heq]⟩

section

variable {fs : FatFs} {d : Disk} (hw : WellFormed fs d)

include hw

theorem WellFormed.dirAddrs_congr {d' : Disk} {dir : FatDir} (hdir : LiveDir fs d dir)
    (hfat : dir.isRootFixed = false → ∀ x ∈ chainOf fs d dir.cluster,
      fs.fatEnt d' x = fs.fatEnt d x) :
    IsDir fs d' dir ∧ dirAddrs fs d' dir = dirAddrs fs d dir :=
  (hw.isDir hdir).dirAddrs_congr hw.sound hfat

theorem WellFormed.owner_unique {o o' : Option Nat} (ho : Owner fs d o) (ho' : Owner fs d o')
    (hch : HasChain fs d (firstAt fs d o)) (heq : firstAt fs d o' = firstAt fs d o) : o' = o := by
  by_contra hne
  obtain ⟨L, hL⟩ := hch
  have hmem : firstAt fs d o ∈ chainAt fs d o := by
    rw [chainAt, chainOf_eq hw.sound hL]
    exact List.mem_cons_self
  exact hw.owner_disjoint ho ho' (Ne.symm hne) _ hmem (by rw [chainAt, heq]; exact hmem)

end

/-! ### Slots behind a directory that were never used -/

section

variable {d d' : Disk} {as zs : List Nat} (has : ∀ a ∈ as, slotAt d' a = slotAt d a)
  (hzs : ∀ a ∈ zs, (slotAt d' a).isFree = true)

include has hzs

theorem liveAddrs_append_free : liveAddrs d' (as ++ zs) = liveAddrs d as := by
  by_cases hend : ∃ a ∈ as, (slotAt d' a).isEnd = true
  · rw [liveAddrs_append_of_end hend, liveAddrs_congr has]
  · have hnot : ∀ a ∈ as, (slotAt d' a).isEnd = false := by
      intro a ha
      rw [← Bool.not_eq_true]
      exact fun h => hend ⟨a, ha, h⟩
    rw [liveAddrs_append hnot, liveAddrs_free hzs, List.append_nil, liveAddrs_congr has]

theorem findIn_append_free (hfmt : DirFormat (as.map (slotAt d))) (x : List UInt8) :
    findIn d' x (as ++ zs) = findIn d x as := by
  by_cases hend : ∃ a ∈ as, (slotAt d' a).isEnd = true
  · rw [findIn_append_of_end x hend, findIn_congr x has]
  · have hnot : ∀ a ∈ as, (slotAt d' a).isEnd = false := by
      intro a ha
      rw [← Bool.not_eq_true]
      exact fun h => hend ⟨a, ha, h⟩
    have hmap : as.map (slotAt d') = as.map (slotAt d) := List.map_congr_left has
    rw [findIn_append x (by rw [hmap]; exact hfmt) hnot, findIn_free x hzs, Option.or_none,
      findIn_congr x has]

end

def FormatOk (fs : FatFs) (d : Disk) (dir : FatDir) : Prop :=
  DirFormat ((dirAddrs fs d dir).map (slotAt d))

/-! ### The grown directory -/

section

variable {fs : FatFs} {d d' : Disk} (hs : fs.Sound) {dir : FatDir} {last g : Nat}
  (hdir : IsDir fs d dir) (h : Grown fs d d' dir last g)

include hs h

theorem Grown.slot_keep {D : FatDir} (hD : IsDir fs d D) {a : Nat} (ha : a ∈ dirAddrs fs d D) :
    slotAt d' a = slotAt d a := by
  have harea := dirAddrs_area hs ha
  refine slotAt_congr fun i hi => h.frame _ (Or.inr (by omega)) ?_
  refine hD.slot_outside hs ha h.inRange (fun hfix hmem => ?_) i hi
  exact hD.not_free hs hfix hmem h.free

omit hs in
theorem Grown.isDir_self : IsDir fs d' dir := by
  obtain ⟨L, _, hL'⟩ := h.isChain
  exact Or.inr ⟨_, hL'⟩

variable (hlen : (chainOf fs d dir.cluster).length < maxVisits)

include hlen

theorem Grown.slots_self : dirAddrs fs d' dir = dirAddrs fs d dir ++ clusSlots fs g ∧
    ∀ a ∈ clusSlots fs g, (slotAt d' a).isFree = true := by
  refine ⟨h.dirAddrs_eq hs hlen, fun a ha => ?_⟩
  have hzero := h.zero _ (inCluster_of_mem_clusSlots ha (i := 0) (by omega))
  rw [Slot.isFree, Slot.isEnd, slotAt_of_lt (by omega), hzero]
  rfl

include hdir

variable (hfmt : FormatOk fs d dir)

include hfmt

theorem Grown.format_self : FormatOk fs d' dir := by
  obtain ⟨heq, hfree⟩ := h.slots_self hs hlen
  rw [FormatOk, heq, List.map_append, List.map_congr_left fun a ha => h.slot_keep hs hdir ha]
  refine DirFormat.append_free hfmt fun e he => ?_
  obtain ⟨a, ha, rfl⟩ := List.mem_map.mp he
  exact hfree a ha

theorem Grown.find_self (x : List UInt8) :
    findIn d' x (dirAddrs fs d' dir) = findIn d x (dirAddrs fs d dir) := by
  obtain ⟨heq, hfree⟩ := h.slots_self hs hlen
  rw [heq, findIn_append_free (fun a ha => h.slot_keep hs hdir ha) hfree hfmt]

end

/-! ### The grown volume -/

section

variable {fs : FatFs} {d d' : Disk} (hw : WellFormed fs d) {dir : FatDir} {last g : Nat}
  (hdir : LiveDir fs d dir) (h : Grown fs d d' dir last g)

include hw h

theorem Grown.slot_eq {D : FatDir} (hD : LiveDir fs d D) {a : Nat} (ha : a ∈ dirAddrs fs d D) :
    slotAt d' a = slotAt d a := h.slot_keep hw.sound (hw.isDir hD) ha

omit hw in
theorem Grown.last_mem (hs : fs.Sound) : last ∈ chainOf fs d dir.cluster := by
  obtain ⟨L, M, hL, heq⟩ := h.chain
  rw [chainOf_eq hs hL, heq]
  simp

include hdir

theorem Grown.fatEnt_other {D : FatDir} (hD : LiveDir fs d D) (hne : D ≠ dir)
    (hfix : D.isRootFixed = false) : ∀ x ∈ chainOf fs d D.cluster,
      fs.fatEnt d' x = fs.fatEnt d x := by
  intro x hx
  obtain ⟨L, hL⟩ := hw.dir_chain hD hfix
  have hr : fs.InRange x := hL.inRange x (chainOf_eq hw.sound hL ▸ hx)
  have h1 : x ≠ last := by
    rintro rfl
    exact hw.dir_chains_disjoint hD hdir hfix h.chained hne x hx (h.last_mem hw.sound)
  have h2 : x ≠ g := by
    rintro rfl
    exact hw.dir_not_free hD hfix hx h.free
  rw [h.fat x hr, if_neg h1, if_neg h2]

variable (hlen : (chainOf fs d dir.cluster).length < maxVisits)

include hlen

theorem Grown.slots {D : FatDir} (hD : LiveDir fs d D) :
    ∃ zs, dirAddrs fs d' D = dirAddrs fs d D ++ zs ∧
      ∀ a ∈ zs, (slotAt d' a).isFree = true := by
  by_cases hne : D = dir
  · rw [hne]
    exact ⟨_, h.slots_self hw.sound hlen⟩
  · refine ⟨[], ?_, by simp⟩
    rw [(hw.dirAddrs_congr hD fun hfix => h.fatEnt_other hw hdir hD hne hfix).2, List.append_nil]

theorem Grown.format {D : FatDir} (hD : LiveDir fs d D) (hfmt : FormatOk fs d D) :
    FormatOk fs d' D := by
  obtain ⟨zs, heq, hzs⟩ := h.slots hw hdir hlen hD
  rw [FormatOk, heq, List.map_append, List.map_congr_left fun a ha => h.slot_eq hw hD ha]
  refine DirFormat.append_free hfmt fun e he => ?_
  obtain ⟨a, ha, rfl⟩ := List.mem_map.mp he
  exact hzs a ha

theorem Grown.find {D : FatDir} (hD : LiveDir fs d D) (hfmt : FormatOk fs d D)
    (x : List UInt8) :
    findIn d' x (dirAddrs fs d' D) = findIn d x (dirAddrs fs d D) := by
  obtain ⟨zs, heq, hzs⟩ := h.slots hw hdir hlen hD
  rw [heq, findIn_append_free (fun a ha => h.slot_eq hw hD ha) hzs hfmt]

theorem Grown.children {D : FatDir} (hD : LiveDir fs d D) :
    childAddrs fs d' D = childAddrs fs d D := by
  obtain ⟨zs, heq, hzs⟩ := h.slots hw hdir hlen hD
  rw [childAddrs, childAddrs, heq, liveAddrs_append_free (fun a ha => h.slot_eq hw hD ha) hzs]

omit hdir hlen in
theorem Grown.child_slot {D : FatDir} (hD : LiveDir fs d D) {a : Nat}
    (ha : a ∈ childAddrs fs d D) : slotAt d' a = slotAt d a :=
  h.slot_eq hw hD (mem_liveAddrs (mem_childAddrs.mp ha).1).1

theorem Grown.live {D : FatDir} (hD : LiveDir fs d' D) : LiveDir fs d D := by
  refine (LiveDir.of_edit (N := fun _ => False) (fun E hE a ha hsub => ?_)
    (fun _ hF => hF.elim) hD).resolve_right id
  rw [h.children hw hdir hlen hE] at ha
  have hslot := h.child_slot hw hE ha
  rw [hslot] at hsub ⊢
  exact Or.inl ⟨ha, hsub, rfl⟩

theorem Grown.live_of {D : FatDir} (hD : LiveDir fs d D) : LiveDir fs d' D := by
  refine hD.carry fun E a hE ha => ⟨?_, h.child_slot hw hE ha⟩
  rw [h.children hw hdir hlen hE]
  exact ha

theorem Grown.owner {o : Option Nat} (ho : Owner fs d' o) :
    Owner fs d o ∧ firstAt fs d' o = firstAt fs d o := by
  cases ho with
  | root => exact ⟨Owner.root, rfl⟩
  | child hD ha =>
    have hD' := h.live hw hdir hlen hD
    rw [h.children hw hdir hlen hD'] at ha
    exact ⟨Owner.child hD' ha, by rw [firstAt, firstAt, h.child_slot hw hD' ha]⟩

omit hdir hlen in
theorem Grown.fatEnt_owner {own o : Option Nat} (hown : Owner fs d own)
    (hfirst : firstAt fs d own = dir.cluster) (ho : Owner fs d o) (hne : o ≠ own) :
    ∀ x ∈ chainAt fs d o, fs.fatEnt d' x = fs.fatEnt d x := by
  intro x hx
  have hr := (hw.isChain_chainAt ho).inRange x hx
  have h1 : x ≠ last := by
    rintro rfl
    refine hw.owner_disjoint ho hown hne x hx ?_
    rw [chainAt, hfirst]
    exact h.last_mem hw.sound
  have h2 : x ≠ g := by
    rintro rfl
    exact (hw.isChain_chainAt ho).fatEnt_ne_zero x hx h.free
  rw [h.fat x hr, if_neg h1, if_neg h2]

omit hdir hlen in
theorem Grown.owner_chain {own o : Option Nat} (hown : Owner fs d own)
    (hfirst : firstAt fs d own = dir.cluster) (ho : Owner fs d o) :
    (firstAt fs d o < 2 ∨ HasChain fs d' (firstAt fs d o)) ∧
      chainOf fs d' (firstAt fs d o) =
        if o = own then chainAt fs d o ++ [g] else chainAt fs d o := by
  by_cases heq : o = own
  · obtain ⟨L, hL, hL'⟩ := h.isChain
    rw [if_pos heq, heq, hfirst, chainAt, hfirst, chainOf_eq hw.sound hL, chainOf_eq hw.sound hL']
    exact ⟨Or.inr ⟨_, hL'⟩, rfl⟩
  · rw [if_neg heq]
    exact chainOf_congr hw.sound (hw.owner_first ho) (h.fatEnt_owner hw hown hfirst ho heq)

omit hlen in
theorem Grown.hasChain {o : Option Nat} (ho : Owner fs d o) (hch : HasChain fs d (firstAt fs d o)) :
    HasChain fs d' (firstAt fs d o) := by
  obtain ⟨own, hown, hfirst⟩ := hdir.owner h.chained
  obtain ⟨L, hL⟩ := hch
  exact (h.owner_chain hw hown hfirst ho).1.resolve_left
    (Nat.not_lt.mpr hL.head_inRange.1)

/-- **A grown volume is well formed.** -/
theorem Grown.wellFormed : WellFormed fs d' := by
  obtain ⟨own, hown, hfirst⟩ := hdir.owner h.chained
  refine hw.edit own (fun ht => ?_) (fun D hD a ha hsub => ?_) (fun D hD a ha hsub => ?_)
    fun o ho x hx => ?_
  · have hroot : firstAt fs d none = fs.rootCluster := if_pos ht
    have := h.hasChain hw hdir Owner.root (by rw [hroot]; exact hw.rootChain ht)
    rwa [hroot] at this
  · have hD' := h.live hw hdir hlen hD
    rw [h.children hw hdir hlen hD'] at ha
    rw [h.child_slot hw hD' ha] at hsub ⊢
    obtain ⟨hch, hdots⟩ := hw.subdir D hD' a ha hsub
    refine ⟨h.hasChain hw hdir (Owner.child hD' ha) hch, ?_⟩
    -- the dot slots are slots of a directory
    have hE : LiveDir fs d ⟨false, (slotAt d a).cluster⟩ := LiveDir.sub hD' ha hsub
    obtain ⟨rest, hrest⟩ : ∃ rest, dirAddrs fs d ⟨false, (slotAt d a).cluster⟩ =
        fs.clusAddr (slotAt d a).cluster :: (fs.clusAddr (slotAt d a).cluster + 32) :: rest :=
      hw.dirAddrs_head rfl hch
    have h1 := h.slot_eq hw hE (a := fs.clusAddr (slotAt d a).cluster) (by rw [hrest]; simp)
    have h2 := h.slot_eq hw hE (a := fs.clusAddr (slotAt d a).cluster + 32) (by rw [hrest]; simp)
    exact ⟨by rw [h1]; exact hdots.dot, by rw [h2]; exact hdots.dotdot,
      by rw [h2]; exact hdots.parent⟩
  · have hD' := h.live hw hdir hlen hD
    rw [h.children hw hdir hlen hD'] at ha
    rw [h.child_slot hw hD' ha] at hsub ⊢
    exact (h.owner_chain hw hown hfirst (Owner.child hD' ha)).1
  · obtain ⟨ho', heq⟩ := h.owner hw hdir hlen ho
    rw [chainAt, heq, (h.owner_chain hw hown hfirst ho').2] at hx
    split at hx
    · next hself =>
      rcases List.mem_append.mp hx with hx | hx
      · exact Or.inl ⟨ho', hx⟩
      · rw [List.mem_singleton.mp hx]
        exact Or.inr ⟨h.free, hself⟩
    · exact Or.inl ⟨ho', hx⟩

end

end Gemios
