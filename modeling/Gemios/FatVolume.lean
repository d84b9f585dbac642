import Gemios.FatDirSpec
import Mathlib.Data.List.TakeWhile

/-!
# Well-formed volumes

The directories reachable from the root, and what a well-formed volume asks of
them: every entry leads to a well-formed chain, the chains of different entries
are disjoint, and every subdirectory starts with `.` and `..` entries that lead to
itself and to its parent.  On such a volume path resolution stays among the
reachable directories.
-/

namespace Gemios

/-- The slots of a directory that hold entries of its own: all short entries of the
    root, all but the first two slots of another directory. -/
def childAddrs (fs : FatFs) (d : Disk) (dir : FatDir) : List Nat :=
  (liveAddrs d (dirAddrs fs d dir)).filter fun a =>
    decide (dir = fatRootDir fs) ||
      (a != fs.clusAddr dir.cluster && a != fs.clusAddr dir.cluster + 32)

inductive LiveDir (fs : FatFs) (d : Disk) : FatDir → Prop
  | root : LiveDir fs d (fatRootDir fs)
  | sub {dir : FatDir} {a : Nat} (hdir : LiveDir fs d dir) (ha : a ∈ childAddrs fs d dir)
      (hsub : (slotAt d a).isDirectory = true) : LiveDir fs d ⟨false, (slotAt d a).cluster⟩

theorem LiveDir.carry {fs : FatFs} {d d' : Disk}
    (hkeep : ∀ E a, LiveDir fs d E → a ∈ childAddrs fs d E →
      a ∈ childAddrs fs d' E ∧ slotAt d' a = slotAt d a)
    {D : FatDir} (hD : LiveDir fs d D) : LiveDir fs d' D := by
  induction hD with
  | root => exact LiveDir.root
  | @sub E a hE ha hsub ih =>
    obtain ⟨ha', hslot⟩ := hkeep E a hE ha
    rw [← hslot] at hsub ⊢
    exact LiveDir.sub ih ha' hsub

structure IsDotSlot (e : Slot) (nm : List UInt8) : Prop where
  name : e.name = padTo 11 nm
  lfn : e.isLfn = false
  volume : e.isVolumeId = false
  directory : e.isDirectory = true

/-- The directory the `..` entry with this cluster number leads to. -/
def parentOf (fs : FatFs) (pclus : Nat) : FatDir :=
  if pclus = 0 ∨ (fs.type = .fat32 ∧ pclus = fs.rootCluster) then fatRootDir fs else ⟨false, pclus⟩

structure DotSlots (fs : FatFs) (d : Disk) (c : Nat) (parent : FatDir) : Prop where
  dot : IsDotSlot (slotAt d (fs.clusAddr c)) [0x2E]
  dotdot : IsDotSlot (slotAt d (fs.clusAddr c + 32)) [0x2E, 0x2E]
  parent : parentOf fs (slotAt d (fs.clusAddr c + 32)).cluster = parent

structure WellFormed (fs : FatFs) (d : Disk) : Prop where
  sound : fs.Sound
  rootChain : fs.type = .fat32 → HasChain fs d fs.rootCluster
  subdir : ∀ dir, LiveDir fs d dir → ∀ a ∈ childAddrs fs d dir, (slotAt d a).isDirectory = true →
    HasChain fs d (slotAt d a).cluster ∧ DotSlots fs d (slotAt d a).cluster dir
  file : ∀ dir, LiveDir fs d dir → ∀ a ∈ childAddrs fs d dir, (slotAt d a).isDirectory = false →
    (slotAt d a).cluster < 2 ∨ HasChain fs d (slotAt d a).cluster
  disjoint : ∀ dir, LiveDir fs d dir → ∀ a ∈ childAddrs fs d dir,
    ∀ dir', LiveDir fs d dir' → ∀ a' ∈ childAddrs fs d dir', a ≠ a' →
    ∀ x ∈ chainOf fs d (slotAt d a).cluster, x ∉ chainOf fs d (slotAt d a').cluster
  rootDisjoint : fs.type = .fat32 → ∀ dir, LiveDir fs d dir → ∀ a ∈ childAddrs fs d dir,
    ∀ x ∈ chainOf fs d fs.rootCluster, x ∉ chainOf fs d (slotAt d a).cluster

theorem mem_liveAddrs {d : Disk} {addrs : List Nat} {a : Nat} (h : a ∈ liveAddrs d addrs) :
    a ∈ addrs ∧ (slotAt d a).isEnd = false ∧ (slotAt d a).isDeleted = false ∧
      (slotAt d a).isLfn = false ∧ (slotAt d a).isVolumeId = false := by
  obtain ⟨h1, h2⟩ := List.mem_filter.mp h
  have h3 : a ∈ addrs := List.takeWhile_subset _ h1
  have h4 := List.mem_takeWhile_imp h1
  simp only [Bool.and_eq_true, Bool.not_eq_true'] at h2 h4
  exact ⟨h3, h4, h2.1.1, h2.1.2, h2.2⟩

theorem mem_childAddrs {fs : FatFs} {d : Disk} {dir : FatDir} {a : Nat} :
    a ∈ childAddrs fs d dir ↔ a ∈ liveAddrs d (dirAddrs fs d dir) ∧
      (dir ≠ fatRootDir fs → a ≠ fs.clusAddr dir.cluster ∧ a ≠ fs.clusAddr dir.cluster + 32) := by
  rw [childAddrs, List.mem_filter]
  by_cases h : dir = fatRootDir fs <;> simp [h]

theorem fatRootDir_fixed {fs : FatFs} (h : fs.type ≠ .fat32) :
    (fatRootDir fs).isRootFixed = true := by
  simp [fatRootDir, h]

theorem ne_fatRootDir_of_not_atRoot {fs : FatFs} {dir : FatDir} (h : ¬ atRoot fs dir = true) :
    dir ≠ fatRootDir fs := by
  rintro rfl
  refine h ?_
  by_cases ht : fs.type = .fat32
  · simp [atRoot, fatRootDir, ht]
  · simp [atRoot, fatRootDir, ht]

theorem dirAddrs_aligned (fs : FatFs) (d : Disk) (dir : FatDir) :
    ∀ a ∈ dirAddrs fs d dir, a % 32 = 0 := by
  intro a ha
  unfold dirAddrs at ha
  split at ha
  · simp only [rootAddrs, List.mem_flatMap, List.mem_map] at ha
    obtain ⟨s, _, e, _, rfl⟩ := ha
    omega
  · simp only [clusSlots, List.mem_flatMap, List.mem_map] at ha
    obtain ⟨c, _, e, _, rfl⟩ := ha
    unfold FatFs.clusAddr
    omega

section

variable {fs : FatFs} {d : Disk} (hw : WellFormed fs d)

include hw

theorem WellFormed.isDir {dir : FatDir} (hdir : LiveDir fs d dir) : IsDir fs d dir := by
  cases hdir with
  | root =>
    by_cases ht : fs.type = .fat32
    · right
      simpa [fatRootDir, ht] using hw.rootChain ht
    · exact Or.inl (fatRootDir_fixed ht)
  | sub hdir ha hsub => exact Or.inr (hw.subdir _ hdir _ ha hsub).1

theorem WellFormed.dirAddrs_head {dir : FatDir} (hfix : dir.isRootFixed = false)
    (hch : HasChain fs d dir.cluster) :
    ∃ rest, dirAddrs fs d dir =
      fs.clusAddr dir.cluster :: (fs.clusAddr dir.cluster + 32) :: rest := by
  obtain ⟨L, hL⟩ := hch
  have hbpc := hw.sound.bpc
  have hspc := hw.sound.spc
  obtain ⟨n, hn⟩ : ∃ n, fs.bytesPerCluster / 32 = n + 2 := ⟨fs.bytesPerCluster / 32 - 2, by omega⟩
  have hslots : clusSlots fs dir.cluster = fs.clusAddr dir.cluster ::
      (fs.clusAddr dir.cluster + 32) ::
        (List.range' 2 n).map fun e => fs.clusAddr dir.cluster + 32 * e := by
    simp [clusSlots, hn, List.range'_succ]
  rw [dirAddrs_of_chain hw.sound hfix hL, show maxVisits = 65535 + 1 from rfl, List.take_succ_cons,
    List.flatMap_cons, hslots]
  exact ⟨_, rfl⟩

end

/-! ### The dot entries in a lookup -/

theorem toUpperChar_eq_dot {c : UInt8} : toUpperChar c = 0x2E ↔ c = 0x2E := by
  constructor
  · intro h
    unfold toUpperChar at h
    split at h
    · next hc =>
      -- a letter becomes a letter
      obtain ⟨h1, h2⟩ := hc
      have h3 := congrArg UInt8.toNat h
      rw [UInt8.le_iff_toNat_le] at h1 h2
      simp only [UInt8.toNat_add, UInt8.toNat_sub, UInt8.reduceToNat] at h1 h2 h3
      omega
    · exact h
  · rintro rfl
    rfl

theorem fatNameEquals_dot {name : List UInt8} :
    fatNameEquals [0x2E] name = true ↔ name = [0x2E] := by
  have hup : toUpperChar 0x2E = 0x2E := rfl
  match name with
  | [] => simp [fatNameEquals]
  | [c] =>
    simp only [fatNameEquals, hup, bne_iff_ne, ne_eq, List.cons.injEq, and_true]
    rw [← toUpperChar_eq_dot (c := c)]
    by_cases h : toUpperChar c = 0x2E
    · simp [h]
    · simp [h, Ne.symm h]
  | c :: c' :: cs => simp [fatNameEquals]

theorem fatNameEquals_dotdot {name : List UInt8} :
    fatNameEquals [0x2E, 0x2E] name = true ↔ name = [0x2E, 0x2E] := by
  have hup : toUpperChar 0x2E = 0x2E := rfl
  cases name with
  | nil => simp [fatNameEquals]
  | cons c cs =>
    rw [fatNameEquals, hup]
    by_cases h : toUpperChar c = 0x2E
    · simp [fatNameEquals_dot, toUpperChar_eq_dot.mp h, hup]
    · have hc : c ≠ 0x2E := fun heq => h (toUpperChar_eq_dot.mpr heq)
      simp [hc, Ne.symm h]

theorem lfnParserFeed_reset {e : Slot} (hend : e.isEnd = false) (hdel : e.isDeleted = false)
    (hl : e.isLfn = false) (sec slot : Nat) :
    lfnParserFeed lfnParserReset e sec slot = lfnParserReset := by
  simp [lfnParserFeed, hend, hdel, hl, lfnParserReset]

theorem IsDotSlot.bytes {e : Slot} {nm : List UInt8} (h : IsDotSlot e nm) {i : Nat} (hi : i < 11) :
    e i = (padTo 11 nm).getD i 0 := by
  rw [← h.name, Slot.name, List.getD_eq_getElem?_getD, List.getElem?_map,
    List.getElem?_range' (by omega)]
  simp

theorem IsDotSlot.format_dot {e : Slot} (h : IsDotSlot e [0x2E]) : formatFatName e = [0x2E] := by
  have h0 : e 0 = 0x2E := h.bytes (by omega)
  have h1 : e 1 = 0x20 := h.bytes (by omega)
  simp [formatFatName, h0, h1]

theorem IsDotSlot.format_dotdot {e : Slot} (h : IsDotSlot e [0x2E, 0x2E]) :
    formatFatName e = [0x2E, 0x2E] := by
  have h0 : e 0 = 0x2E := h.bytes (by omega)
  have h1 : e 1 = 0x2E := h.bytes (by omega)
  have h2 : e 2 = 0x20 := h.bytes (by omega)
  simp [formatFatName, h0, h1, h2]

theorem IsDotSlot.findBody {e : Slot} {nm : List UInt8} (h : IsDotSlot e nm) (h0 : e 0 = 0x2E)
    (hcstr : cstr (formatFatName e) = nm) (name : List UInt8) (sec slot : Nat) :
    findBody name sec slot e lfnParserReset =
      if fatNameEquals nm name then .ret (some (entryLoc lfnParserReset e sec slot))
      else .next lfnParserReset := by
  have hend : e.isEnd = false := by simp [Slot.isEnd, h0]
  have hdel : e.isDeleted = false := by simp [Slot.isDeleted, h0]
  simp only [Gemios.findBody, hend, hdel, Bool.false_eq_true, if_false,
    lfnParserFeed_reset hend hdel h.lfn, h.lfn, h.volume, Bool.or_self, entryMatches, hcstr]
  simp [LfnParser.named, lfnParserReset]

section

variable {fs : FatFs} {d : Disk} {c : Nat} {parent : FatDir} (h : DotSlots fs d c parent)

include h

theorem DotSlots.first (name : List UInt8) :
    ∃ loc : EntryLoc, atAddr d (findBody name) (fs.clusAddr c) lfnParserReset =
      if fatNameEquals [0x2E] name then .ret (some loc) else .next lfnParserReset :=
  ⟨_, h.dot.findBody (h.dot.bytes (by omega)) (by rw [h.dot.format_dot]; rfl) name _ _⟩

theorem DotSlots.second (name : List UInt8) :
    ∃ loc : EntryLoc, loc.addr = fs.clusAddr c + 32 ∧ loc.entry = slotAt d (fs.clusAddr c + 32) ∧
      atAddr d (findBody name) (fs.clusAddr c + 32) lfnParserReset =
        if fatNameEquals [0x2E, 0x2E] name then .ret (some loc) else .next lfnParserReset := by
  refine ⟨_, ?_, ?_, h.dotdot.findBody (h.dotdot.bytes (by omega))
    (by rw [h.dotdot.format_dotdot]; rfl) name _ _⟩
  · simp only [entryLoc, EntryLoc.addr, FatFs.clusAddr]
    omega
  · rfl

theorem DotSlots.findIn_dotdot (rest : List Nat) :
    ∃ loc, findIn d [0x2E, 0x2E] (fs.clusAddr c :: (fs.clusAddr c + 32) :: rest) = some loc ∧
      loc.addr = fs.clusAddr c + 32 ∧ loc.entry = slotAt d (fs.clusAddr c + 32) := by
  obtain ⟨_, h1⟩ := h.first [0x2E, 0x2E]
  obtain ⟨loc, haddr, hentry, h2⟩ := h.second [0x2E, 0x2E]
  rw [if_neg (by rw [fatNameEquals_dot]; decide)] at h1
  rw [if_pos (by rw [fatNameEquals_dotdot])] at h2
  exact ⟨loc, by rw [findIn, scan_cons_next h1, scan_cons_ret h2, Ctl.found], haddr, hentry⟩

theorem DotSlots.findIn_other {name : List UInt8} (hn : name ≠ [0x2E] ∧ name ≠ [0x2E, 0x2E])
    (rest : List Nat) :
    findIn d name (fs.clusAddr c :: (fs.clusAddr c + 32) :: rest) = findIn d name rest := by
  obtain ⟨_, h1⟩ := h.first name
  obtain ⟨_, _, _, h2⟩ := h.second name
  rw [if_neg (by rw [fatNameEquals_dot]; exact hn.1)] at h1
  rw [if_neg (by rw [fatNameEquals_dotdot]; exact hn.2)] at h2
  rw [findIn, findIn, scan_cons_next h1, scan_cons_next h2]

end

/-! ### Slots do not overlap -/

theorem mem_clusSlots {fs : FatFs} {c a : Nat} :
    a ∈ clusSlots fs c ↔ ∃ e, e < fs.bytesPerCluster / 32 ∧ a = fs.clusAddr c + 32 * e := by
  simp only [clusSlots, List.mem_map, List.mem_range'_1, Nat.zero_le, true_and, Nat.zero_add]
  constructor
  · rintro ⟨e, he, rfl⟩
    exact ⟨e, he, rfl⟩
  · rintro ⟨e, he, rfl⟩
    exact ⟨e, he, rfl⟩

theorem inCluster_of_mem_clusSlots {fs : FatFs} {c a i : Nat} (ha : a ∈ clusSlots fs c)
    (hi : i < 32) : fs.InCluster c (a + i) := by
  obtain ⟨e, he, rfl⟩ := mem_clusSlots.mp ha
  constructor <;> omega

theorem nodup_clusSlots (fs : FatFs) (c : Nat) : (clusSlots fs c).Nodup := by
  refine List.Nodup.map_on (fun x _ y _ hxy => by omega) List.nodup_range'

theorem nodup_rootAddrs (fs : FatFs) : (rootAddrs fs).Nodup := by
  refine List.nodup_flatMap.mpr ⟨fun s _ => ?_, ?_⟩
  · exact List.Nodup.map_on (fun x _ y _ hxy => by omega) List.nodup_range'
  · refine List.Pairwise.imp_of_mem ?_ List.nodup_range'
    intro s s' _ _ hne
    rw [Function.onFun, List.disjoint_left]
    intro a ha ha'
    simp only [List.mem_map, List.mem_range'_1] at ha ha'
    obtain ⟨e, he, rfl⟩ := ha
    obtain ⟨e', he', heq⟩ := ha'
    omega

theorem nodup_flatMap_clusSlots {fs : FatFs} (hs : fs.Sound) {L : List Nat}
    (hr : ∀ c ∈ L, fs.InRange c) (hn : L.Nodup) : (L.flatMap (clusSlots fs)).Nodup := by
  refine List.nodup_flatMap.mpr ⟨fun c _ => nodup_clusSlots fs c, ?_⟩
  refine List.Pairwise.imp_of_mem ?_ hn
  intro c c' hc hc' hne
  rw [Function.onFun, List.disjoint_left]
  intro a ha ha'
  have h1 := inCluster_of_mem_clusSlots ha (i := 0) (by omega)
  have h2 := inCluster_of_mem_clusSlots ha' (i := 0) (by omega)
  exact hne (hs.inCluster_unique (hr c hc) (hr c' hc') h1 h2)

theorem nodup_dirAddrs {fs : FatFs} (hs : fs.Sound) {d : Disk} {dir : FatDir}
    (hdir : IsDir fs d dir) : (dirAddrs fs d dir).Nodup := by
  cases hfix : dir.isRootFixed with
  | true =>
    rw [dirAddrs, hfix]
    exact nodup_rootAddrs fs
  | false =>
    obtain ⟨L, hL⟩ : HasChain fs d dir.cluster := by simpa [IsDir, hfix] using hdir
    rw [dirAddrs_of_chain hs hfix hL]
    refine nodup_flatMap_clusSlots hs (fun c hc => hL.inRange c (List.mem_of_mem_take hc)) ?_
    exact hL.nodup.sublist (List.take_sublist _ _)

/-! ### Where slots lie -/

theorem rootAddrs_area {fs : FatFs} (hs : fs.Sound) {a : Nat} (ha : a ∈ rootAddrs fs) :
    fs.fatEndAddr ≤ a ∧ a + 32 ≤ fs.dataAddr := by
  simp only [rootAddrs, List.mem_flatMap, List.mem_map, List.mem_range'_1] at ha
  obtain ⟨s, hsec, e, he, rfl⟩ := ha
  have hlt : s < fs.rootDirSectors := by
    have := hsec.2
    split at this <;> omega
  have hroot := hs.root (by omega)
  unfold FatFs.fatEndAddr FatFs.dataAddr
  omega

theorem exists_cluster_of_mem_dirAddrs {fs : FatFs} {d : Disk} {dir : FatDir} {a : Nat}
    (hfix : dir.isRootFixed = false) (ha : a ∈ dirAddrs fs d dir) :
    ∃ c ∈ chainOf fs d dir.cluster, a ∈ clusSlots fs c := by
  rw [dirAddrs, hfix] at ha
  simp only [Bool.false_eq_true, if_false, List.mem_flatMap] at ha
  obtain ⟨c, hc, hac⟩ := ha
  exact ⟨c, List.mem_of_mem_take hc, hac⟩

theorem dirAddrs_area {fs : FatFs} (hs : fs.Sound) {d : Disk} {dir : FatDir} {a : Nat}
    (ha : a ∈ dirAddrs fs d dir) : fs.fatEndAddr ≤ a := by
  cases hfix : dir.isRootFixed with
  | true =>
    rw [dirAddrs, hfix] at ha
    exact (rootAddrs_area hs ha).1
  | false =>
    obtain ⟨c, _, hac⟩ := exists_cluster_of_mem_dirAddrs hfix ha
    have h1 := (inCluster_of_mem_clusSlots hac (i := 0) (by omega)).1
    have h2 := fs.dataAddr_le_clusAddr c
    have h3 := hs.fatEndAddr_le_dataAddr
    omega

/-! ### The clusters of one directory -/

section

variable {fs : FatFs} {d : Disk} {dir : FatDir} (hdir : IsDir fs d dir)

include hdir

theorem IsDir.chain (hfix : dir.isRootFixed = false) : HasChain fs d dir.cluster := by
  simpa [IsDir, hfix] using hdir

variable (hs : fs.Sound)

include hs

theorem IsDir.not_free {x : Nat} (hfix : dir.isRootFixed = false)
    (hx : x ∈ chainOf fs d dir.cluster) : fs.fatEnt d x ≠ 0 := by
  obtain ⟨L, hL⟩ := hdir.chain hfix
  rw [chainOf_eq hs hL] at hx
  exact hL.fatEnt_ne_zero x hx

theorem IsDir.slot_outside {a x : Nat} (ha : a ∈ dirAddrs fs d dir) (hx : fs.InRange x)
    (hnot : dir.isRootFixed = false → x ∉ chainOf fs d dir.cluster) :
    ∀ i, i < 32 → ¬ fs.InCluster x (a + i) := by
  intro i hi hin
  cases hfix : dir.isRootFixed with
  | true =>
    rw [dirAddrs, hfix] at ha
    have h1 := (rootAddrs_area hs ha).2
    have h2 := fs.dataAddr_le_clusAddr x
    have h3 := hin.1
    omega
  | false =>
    obtain ⟨L, hL⟩ := hdir.chain hfix
    obtain ⟨c, hc, hac⟩ := exists_cluster_of_mem_dirAddrs hfix ha
    have hcr : fs.InRange c := hL.inRange c (chainOf_eq hs hL ▸ hc)
    have heq := hs.inCluster_unique hcr hx (inCluster_of_mem_clusSlots hac hi) hin
    exact hnot hfix (heq ▸ hc)

end

section

variable {fs : FatFs} {d : Disk} (hw : WellFormed fs d)

include hw

theorem WellFormed.dir_file_disjoint {dir dir₀ : FatDir} {a₀ x : Nat} (hdir : LiveDir fs d dir)
    (hfix : dir.isRootFixed = false) (hdir₀ : LiveDir fs d dir₀) (ha₀ : a₀ ∈ childAddrs fs d dir₀)
    (hfile : (slotAt d a₀).isDirectory = false) (hx : x ∈ chainOf fs d dir.cluster) :
    x ∉ chainOf fs d (slotAt d a₀).cluster := by
  cases hdir with
  | root =>
    by_cases ht : fs.type = .fat32
    · have hc : (fatRootDir fs).cluster = fs.rootCluster := by simp [fatRootDir, ht]
      rw [hc] at hx
      exact hw.rootDisjoint ht dir₀ hdir₀ a₀ ha₀ x hx
    · rw [fatRootDir_fixed ht] at hfix
      cases hfix
  | sub hdir ha hsub =>
    refine hw.disjoint _ hdir _ ha dir₀ hdir₀ a₀ ha₀ ?_ x hx
    rintro rfl
    rw [hfile] at hsub
    cases hsub

theorem WellFormed.dir_chain {dir : FatDir} (hdir : LiveDir fs d dir)
    (hfix : dir.isRootFixed = false) : HasChain fs d dir.cluster := (hw.isDir hdir).chain hfix

theorem WellFormed.dir_not_free {dir : FatDir} {x : Nat} (hdir : LiveDir fs d dir)
    (hfix : dir.isRootFixed = false) (hx : x ∈ chainOf fs d dir.cluster) :
    fs.fatEnt d x ≠ 0 := (hw.isDir hdir).not_free hw.sound hfix hx

theorem WellFormed.slot_outside {dir : FatDir} {a x : Nat} (hdir : LiveDir fs d dir)
    (ha : a ∈ dirAddrs fs d dir) (hx : fs.InRange x)
    (hnot : dir.isRootFixed = false → x ∉ chainOf fs d dir.cluster) :
    ∀ i, i < 32 → ¬ fs.InCluster x (a + i) :=
  (hw.isDir hdir).slot_outside hw.sound ha hx hnot

end

/-! ### Path resolution stays among the live directories -/

theorem findIn_addr {d : Disk} {name : List UInt8} {addrs : List Nat} {loc : EntryLoc}
    (h32 : ∀ a ∈ addrs, a % 32 = 0) (h : findIn d name addrs = some loc) :
    loc.addr ∈ liveAddrs d addrs ∧ loc.entry = slotAt d loc.addr := by
  obtain ⟨pre, a, post, p, hsplit, _, ha, _, rfl⟩ := findIn_some h
  have haddr : a / 512 * 512 + 32 * (a % 512 / 32) = a := by
    have := h32 a (mem_liveAddrs ha).1
    omega
  simp only [entryLoc, EntryLoc.addr, haddr]
  exact ⟨ha, trivial⟩

theorem findIn_slot_lt {d : Disk} {name : List UInt8} {addrs : List Nat} {loc : EntryLoc}
    (h : findIn d name addrs = some loc) : loc.slot < 16 := by
  obtain ⟨pre, a, post, p, _, _, _, _, rfl⟩ := findIn_some h
  simp only [entryLoc]
  omega

section

variable {fs : FatFs} {d : Disk} {dir : FatDir} (hdir : IsDir fs d dir) (hs : fs.Sound)
  (env : Env) [env.NoFault] {name : List UInt8} {loc : EntryLoc}

include hdir hs

theorem IsDir.find_live (h : fatDirFindEntry env fs d dir name = some loc) :
    loc.addr ∈ liveAddrs d (dirAddrs fs d dir) ∧ loc.entry = slotAt d loc.addr := by
  rw [fatDirFindEntry_eq hs env hdir] at h
  exact findIn_addr (dirAddrs_aligned fs d dir) h

theorem IsDir.find_slot_lt (h : fatDirFindEntry env fs d dir name = some loc) : loc.slot < 16 := by
  rw [fatDirFindEntry_eq hs env hdir] at h
  exact findIn_slot_lt h

end

section

variable {fs : FatFs} {d : Disk} (hw : WellFormed fs d) (env : Env) [env.NoFault]

include hw

theorem WellFormed.dots {dir : FatDir} (hdir : LiveDir fs d dir) (hne : dir ≠ fatRootDir fs) :
    dir.isRootFixed = false ∧ HasChain fs d dir.cluster ∧
      ∃ parent, LiveDir fs d parent ∧ DotSlots fs d dir.cluster parent := by
  cases hdir with
  | root => exact absurd rfl hne
  | sub hdir ha hsub =>
    obtain ⟨hch, hdots⟩ := hw.subdir _ hdir _ ha hsub
    exact ⟨rfl, hch, _, hdir, hdots⟩

theorem WellFormed.find_live {dir : FatDir} (hdir : LiveDir fs d dir) {name : List UInt8}
    {loc : EntryLoc} (h : fatDirFindEntry env fs d dir name = some loc) :
    loc.addr ∈ liveAddrs d (dirAddrs fs d dir) ∧ loc.entry = slotAt d loc.addr :=
  (hw.isDir hdir).find_live hw.sound env h

theorem WellFormed.find_slot_lt {dir : FatDir} (hdir : LiveDir fs d dir) {name : List UInt8}
    {loc : EntryLoc} (h : fatDirFindEntry env fs d dir name = some loc) : loc.slot < 16 :=
  (hw.isDir hdir).find_slot_lt hw.sound env h

theorem WellFormed.find_file {dir : FatDir} (hdir : LiveDir fs d dir) {name : List UInt8}
    {loc : EntryLoc} (h : fatDirFindEntry env fs d dir name = some loc)
    (hfile : loc.entry.isDirectory = false) : loc.addr ∈ childAddrs fs d dir := by
  obtain ⟨hlive, hentry⟩ := hw.find_live env hdir h
  refine mem_childAddrs.mpr ⟨hlive, fun hne => ?_⟩
  obtain ⟨_, _, parent, _, hdots⟩ := hw.dots hdir hne
  rw [hentry] at hfile
  constructor
  · intro heq
    rw [heq, hdots.dot.directory] at hfile
    cases hfile
  · intro heq
    rw [heq, hdots.dotdot.directory] at hfile
    cases hfile

theorem WellFormed.find_child {dir : FatDir} (hdir : LiveDir fs d dir) {name : List UInt8}
    (hn : name ≠ [0x2E] ∧ name ≠ [0x2E, 0x2E]) {loc : EntryLoc}
    (h : fatDirFindEntry env fs d dir name = some loc) : loc.addr ∈ childAddrs fs d dir := by
  refine mem_childAddrs.mpr ⟨(hw.find_live env hdir h).1, fun hne => ?_⟩
  obtain ⟨hfix, hch, parent, _, hdots⟩ := hw.dots hdir hne
  obtain ⟨rest, hrest⟩ := hw.dirAddrs_head hfix hch
  have hnodup := nodup_dirAddrs hw.sound (hw.isDir hdir)
  have halign := dirAddrs_aligned fs d dir
  rw [fatDirFindEntry_eq hw.sound env (hw.isDir hdir), hrest, hdots.findIn_other hn] at h
  rw [hrest] at hnodup halign
  have hmem := (mem_liveAddrs (findIn_addr (fun a ha => halign a (by simp [ha])) h).1).1
  simp only [List.nodup_cons, List.mem_cons, not_or] at hnodup
  constructor
  · intro heq
    exact hnodup.1.2 (heq ▸ hmem)
  · intro heq
    exact hnodup.2.1 (heq ▸ hmem)

theorem WellFormed.parentDir_live {dir : FatDir} (hdir : LiveDir fs d dir) :
    LiveDir fs d (parentDir env fs d dir) := by
  unfold parentDir
  split
  · exact LiveDir.root
  · next hroot =>
    have hne := ne_fatRootDir_of_not_atRoot hroot
    obtain ⟨hfix, hch, parent, hparent, hdots⟩ := hw.dots hdir hne
    obtain ⟨rest, hrest⟩ := hw.dirAddrs_head hfix hch
    obtain ⟨loc, hfind, _, hentry⟩ := hdots.findIn_dotdot rest
    rw [fatDirFindEntry_eq hw.sound env (hw.isDir hdir), hrest, hfind]
    have hp := hdots.parent
    unfold parentOf at hp
    simp only [hentry, hp]
    exact hparent

theorem WellFormed.resolveStep_live {dir dir' : FatDir} (hdir : LiveDir fs d dir)
    {comp : List UInt8} (h : resolveStep env fs d dir comp = some dir') : LiveDir fs d dir' := by
  unfold resolveStep at h
  split at h
  · cases h
    exact hdir
  · next h1 =>
    split at h
    · cases h
      exact hw.parentDir_live env hdir
    · next h2 =>
      cases hfind : fatDirFindEntry env fs d dir comp with
      | none => rw [hfind] at h; cases h
      | some loc =>
        rw [hfind] at h
        dsimp only at h
        split at h
        · next hsub =>
          have hchild := hw.find_child env hdir ⟨h1, h2⟩ hfind
          have hentry := (hw.find_live env hdir hfind).2
          rw [hentry] at h hsub
          obtain ⟨L, hL⟩ := (hw.subdir _ hdir _ hchild hsub).1
          rw [dirOfCluster, if_neg (Nat.not_lt.mpr hL.head_inRange.1)] at h
          cases h
          exact LiveDir.sub hdir hchild hsub
        · cases h

theorem WellFormed.resolveFrom_live {comps : List (List UInt8)} {dir dir' : FatDir}
    (hdir : LiveDir fs d dir) (h : resolveFrom env fs d dir comps = some dir') :
    LiveDir fs d dir' := by
  induction comps generalizing dir with
  | nil =>
    cases h
    exact hdir
  | cons comp comps ih =>
    rw [resolveFrom] at h
    cases hstep : resolveStep env fs d dir comp with
    | none => rw [hstep] at h; cases h
    | some dir₁ =>
      rw [hstep] at h
      exact ih (hw.resolveStep_live env hdir hstep) h

theorem WellFormed.resolveParent_live {path : List UInt8} {dir : FatDir} {name : List UInt8}
    (h : fatResolveParentAndName env fs d path = some (dir, name)) : LiveDir fs d dir := by
  unfold fatResolveParentAndName at h
  split at h
  · cases h
  · dsimp only at h
    split at h
    · cases h
      exact LiveDir.root
    · cases h
      exact LiveDir.root
    · split at h
      · cases h
      · next hres =>
        cases h
        exact hw.resolveFrom_live env LiveDir.root hres

theorem WellFormed.lookup_live {path : List UInt8} {loc : EntryLoc}
    (h : fatLookup env fs d path = some loc) :
    ∃ dir name, fatResolveParentAndName env fs d path = some (dir, name) ∧ LiveDir fs d dir ∧
      fatDirFindEntry env fs d dir name = some loc := by
  unfold fatLookup at h
  cases hres : fatResolveParentAndName env fs d path with
  | none =>
    rw [hres] at h
    cases h
  | some r =>
    rw [hres] at h
    exact ⟨r.1, r.2, rfl, hw.resolveParent_live env hres, h⟩

end

/-! ### Volumes without subdirectories -/

theorem LiveDir.eq_root {fs : FatFs} {d : Disk}
    (h : ∀ a ∈ childAddrs fs d (fatRootDir fs), (slotAt d a).isDirectory = false) {dir : FatDir}
    (hdir : LiveDir fs d dir) : dir = fatRootDir fs := by
  induction hdir with
  | root => rfl
  | sub _ ha hsub ih =>
    subst ih
    rw [h _ ha] at hsub
    cases hsub

theorem wellFormed_of_empty_files {fs : FatFs} (hs : fs.Sound) (ht : fs.type ≠ .fat32) {d : Disk}
    (h : ∀ a ∈ childAddrs fs d (fatRootDir fs),
      (slotAt d a).isDirectory = false ∧ (slotAt d a).cluster < 2) : WellFormed fs d := by
  have hroot : ∀ {dir}, LiveDir fs d dir → dir = fatRootDir fs :=
    fun hdir => hdir.eq_root fun a ha => (h a ha).1
  refine ⟨hs, fun h32 => absurd h32 ht, ?_, ?_, ?_, fun h32 => absurd h32 ht⟩
  · intro dir hdir a ha hsub
    rw [hroot hdir] at ha
    rw [(h a ha).1] at hsub
    cases hsub
  · intro dir hdir a ha _
    rw [hroot hdir] at ha
    exact Or.inl (h a ha).2
  · intro dir hdir a ha dir' _ a' _ _ x hx
    rw [hroot hdir] at ha
    rw [chainOf_of_lt (h a ha).2] at hx
    cases hx

end Gemios
