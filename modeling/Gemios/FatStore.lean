import Gemios.FatGrow
import Gemios.FatShortSpec

/-!
# An entry stored over free slots

What `fat_write_file` and `fat_mkdir` do once they have room for a name: fresh clusters
are filled, and the slots of the name replace a run of free ones.
-/

namespace Gemios

/-- The slots `g` of an entry stand at `a` in the directory, where free ones stood, and the
    clusters `C` it leads to were free. -/
structure Stored (fs : FatFs) (d d' : Disk) (dir : FatDir) (a : Nat) (g : List Slot)
    (pre post C : List Nat) : Prop where
  addrs : dirAddrs fs d dir = pre ++ slotsFrom a g.length ++ post
  free : ∀ b ∈ slotsFrom a g.length, (slotAt d b).isFree = true
  group : SlotGroup g
  slots : (slotsFrom a g.length).map (slotAt d') = g
  chain : IsChain fs d' C
  fresh : ∀ x ∈ C, fs.fatEnt d x = 0
  fat : ∀ x, fs.InRange x → x ∉ C → fs.fatEnt d' x = fs.fatEnt d x
  frame : ∀ x, x < fs.fatStartSector * 512 ∨ fs.fatEndAddr ≤ x → (∀ y ∈ C, ¬ fs.InCluster y x) →
    x < a ∨ a + 32 * g.length ≤ x → d' x = d x
  first : ∀ e, g.getLast? = some e → e.isDeleted = false → C.head? = some e.cluster
  subdir : ∀ e, g.getLast? = some e → e.isDeleted = false → e.isDirectory = true →
    DotSlots fs d' e.cluster dir ∧ C = [e.cluster] ∧
      ∀ b ∈ clusSlots fs e.cluster, b ≠ fs.clusAddr e.cluster → b ≠ fs.clusAddr e.cluster + 32 →
        (slotAt d' b).isFree = true

/-- None of these slots ends the directory, so the walks come to what follows. -/
def Seen (d : Disk) (pre : List Nat) : Prop := ∀ b ∈ pre, (slotAt d b).isEnd = false

theorem not_seen {d : Disk} {pre : List Nat} (h : ¬ Seen d pre) :
    ∃ b ∈ pre, (slotAt d b).isEnd = true := by
  by_contra hnot
  refine h fun b hb => ?_
  rw [← Bool.not_eq_true]
  exact fun hend => hnot ⟨b, hb, hend⟩

theorem SlotGroup.ne_nil {g : List Slot} (hg : SlotGroup g) : g ≠ [] := by
  cases hg <;> simp

theorem slotsFrom_ne_nil {a : Nat} {g : List Slot} (hg : SlotGroup g) :
    slotsFrom a g.length ≠ [] := by
  intro h
  have hlen := congrArg List.length h
  rw [length_slotsFrom] at hlen
  exact hg.ne_nil (List.length_eq_zero_iff.mp hlen)

theorem getLast_slotsFrom (a : Nat) {g : List Slot} (hg : SlotGroup g) :
    (slotsFrom a g.length).getLast? = some (a + 32 * (g.length - 1)) := by
  obtain ⟨n, hn⟩ : ∃ n, g.length = n + 1 :=
    ⟨g.length - 1, by have := List.length_pos_iff.mpr hg.ne_nil; omega⟩
  rw [hn, slotsFrom_append, List.getLast?_append]
  rfl

/-! ### One directory -/

section

variable {fs : FatFs} {d d' : Disk} (hs : fs.Sound) {dir : FatDir} {a : Nat} {g : List Slot}
  {pre post C : List Nat} (h : Stored fs d d' dir a g pre post C)

include hs h

theorem Stored.not_mem_isDir {D : FatDir} (hD : IsDir fs d D) (hfix : D.isRootFixed = false) :
    ∀ x ∈ chainOf fs d D.cluster, x ∉ C := fun _ hx hC =>
  hD.not_free hs hfix hx (h.fresh _ hC)

theorem Stored.dirAddrs_isDir {D : FatDir} (hD : IsDir fs d D) :
    IsDir fs d' D ∧ dirAddrs fs d' D = dirAddrs fs d D := by
  refine hD.dirAddrs_congr hs fun hfix x hx => ?_
  obtain ⟨L, hL⟩ := hD.chain hfix
  exact h.fat x (hL.inRange x (chainOf_eq hs hL ▸ hx)) (h.not_mem_isDir hs hD hfix x hx)

theorem Stored.slot_keep {D : FatDir} (hD : IsDir fs d D) {b : Nat} (hb : b ∈ dirAddrs fs d D)
    (hout : b ∉ slotsFrom a g.length) : slotAt d' b = slotAt d b := by
  have harea := dirAddrs_area hs hb
  have hb32 := dirAddrs_aligned fs d D b hb
  have ha32 : a % 32 = 0 := by
    obtain ⟨s, ss, hss⟩ := List.exists_cons_of_ne_nil h.group.ne_nil
    refine dirAddrs_aligned fs d dir a ?_
    rw [h.addrs, hss, List.length_cons, slotsFrom_succ]
    simp
  -- a slot outside of the run does not touch it
  have hsep : b + 32 ≤ a ∨ a + 32 * g.length ≤ b := by
    by_contra hin
    refine hout (mem_slotsFrom.mpr ⟨(b - a) / 32, ?_, ?_⟩) <;> omega
  refine slotAt_congr fun i hi => h.frame _ (Or.inr (by omega)) (fun x hx => ?_) (by omega)
  exact hD.slot_outside hs hb (h.chain.inRange x hx)
    (fun hfix hmem => h.not_mem_isDir hs hD hfix x hmem hx) i hi

variable (hdir : IsDir fs d dir)

include hdir

theorem Stored.parts : (∀ b ∈ pre, slotAt d' b = slotAt d b) ∧
    (∀ b ∈ post, slotAt d' b = slotAt d b) := by
  have hnodup := nodup_dirAddrs hs hdir
  rw [h.addrs, List.append_assoc, List.nodup_append] at hnodup
  obtain ⟨_, hrest, hpre⟩ := hnodup
  rw [List.nodup_append] at hrest
  constructor
  · intro b hb
    refine h.slot_keep hs hdir (by rw [h.addrs]; simp [hb]) fun hmem => ?_
    exact hpre b hb b (List.mem_append_left _ hmem) rfl
  · intro b hb
    refine h.slot_keep hs hdir (by rw [h.addrs]; simp [hb]) fun hmem => ?_
    exact hrest.2.2 b hmem b hb rfl

theorem Stored.find_seen (hfmt : FormatOk fs d dir) (hseen : Seen d pre) (x : List UInt8) :
    findIn d' x (dirAddrs fs d' dir) =
        (findIn d x pre).or ((findIn d' x (slotsFrom a g.length)).or (findIn d x post)) ∧
      findIn d x (dirAddrs fs d dir) = (findIn d x pre).or (findIn d x post) := by
  obtain ⟨hpre, hpost⟩ := h.parts hs hdir
  rw [(h.dirAddrs_isDir hs hdir).2, h.addrs]
  rw [FormatOk, h.addrs] at hfmt
  have hne : slotsFrom a g.length ≠ [] := slotsFrom_ne_nil h.group
  exact ⟨findIn_store hfmt hne h.free hpre hpost h.group h.slots hseen x,
    findIn_free_run hfmt hne h.free hseen x⟩

end

/-! ### The volume -/

section

variable {fs : FatFs} {d d' : Disk} (hw : WellFormed fs d) {dir : FatDir} {a : Nat}
  {g : List Slot} {pre post C : List Nat} (hdir : LiveDir fs d dir)
  (h : Stored fs d d' dir a g pre post C)

include hw h

theorem Stored.not_mem_owner {o : Option Nat} (ho : Owner fs d o) :
    ∀ x ∈ chainAt fs d o, x ∉ C := fun x hx hC =>
  (hw.isChain_chainAt ho).fatEnt_ne_zero x hx (h.fresh x hC)

theorem Stored.owner_chain {o : Option Nat} (ho : Owner fs d o) :
    (firstAt fs d o < 2 ∨ HasChain fs d' (firstAt fs d o)) ∧
      chainOf fs d' (firstAt fs d o) = chainAt fs d o := by
  refine chainOf_congr hw.sound (hw.owner_first ho) fun x hx => ?_
  exact h.fat x ((hw.isChain_chainAt ho).inRange x hx) (h.not_mem_owner hw ho x hx)

theorem Stored.hasChain {o : Option Nat} (ho : Owner fs d o)
    (hch : HasChain fs d (firstAt fs d o)) : HasChain fs d' (firstAt fs d o) := by
  obtain ⟨L, hL⟩ := hch
  exact (h.owner_chain hw ho).1.resolve_left (Nat.not_lt.mpr hL.head_inRange.1)

theorem Stored.dirAddrs_eq {D : FatDir} (hD : LiveDir fs d D) :
    IsDir fs d' D ∧ dirAddrs fs d' D = dirAddrs fs d D :=
  h.dirAddrs_isDir hw.sound (hw.isDir hD)

theorem Stored.slot_eq {D : FatDir} (hD : LiveDir fs d D) {b : Nat} (hb : b ∈ dirAddrs fs d D)
    (hout : b ∉ slotsFrom a g.length) : slotAt d' b = slotAt d b :=
  h.slot_keep hw.sound (hw.isDir hD) hb hout

theorem Stored.slot_eq_of_byte {D : FatDir} (hD : LiveDir fs d D) {b : Nat}
    (hb : b ∈ dirAddrs fs d D) (h0 : slotAt d b 0 = 0x2E) : slotAt d' b = slotAt d b := by
  refine h.slot_eq hw hD hb fun hmem => ?_
  have hfree := h.free b hmem
  rw [Slot.isFree, Slot.isEnd, Slot.isDeleted, h0] at hfree
  cases hfree

include hdir

theorem Stored.slot_eq_other {D : FatDir} (hD : LiveDir fs d D) (hne : D ≠ dir) {b : Nat}
    (hb : b ∈ dirAddrs fs d D) : slotAt d' b = slotAt d b := by
  refine h.slot_eq hw hD hb fun hmem => ?_
  refine hw.dirs_disjoint hD hdir hne hb ?_
  rw [h.addrs]
  simp [hmem]

theorem Stored.format_other {D : FatDir} (hD : LiveDir fs d D) (hne : D ≠ dir)
    (hfmt : FormatOk fs d D) : FormatOk fs d' D := by
  rw [FormatOk, (h.dirAddrs_eq hw hD).2,
    List.map_congr_left fun b hb => h.slot_eq_other hw hdir hD hne hb]
  exact hfmt

theorem Stored.find_other {D : FatDir} (hD : LiveDir fs d D) (hne : D ≠ dir) (x : List UInt8) :
    findIn d' x (dirAddrs fs d' D) = findIn d x (dirAddrs fs d D) := by
  rw [(h.dirAddrs_eq hw hD).2]
  exact findIn_congr x fun b hb => h.slot_eq_other hw hdir hD hne hb

theorem Stored.children_other {D : FatDir} (hD : LiveDir fs d D) (hne : D ≠ dir) :
    childAddrs fs d' D = childAddrs fs d D := by
  rw [childAddrs, childAddrs, (h.dirAddrs_eq hw hD).2,
    liveAddrs_congr fun b hb => h.slot_eq_other hw hdir hD hne hb]

/-! ### The directory itself -/

theorem Stored.live_hidden (hseen : ¬ Seen d pre) :
    liveAddrs d' (dirAddrs fs d' dir) = liveAddrs d (dirAddrs fs d dir) := by
  rw [(h.dirAddrs_eq hw hdir).2, h.addrs]
  exact liveAddrs_store_hidden (h.parts hw.sound (hw.isDir hdir)).1 (not_seen hseen)

variable (hfmt : FormatOk fs d dir)

include hfmt

theorem Stored.live_seen (hseen : Seen d pre) :
    liveAddrs d' (dirAddrs fs d' dir) =
        liveAddrs d pre ++ (liveAddrs d' (slotsFrom a g.length) ++ liveAddrs d post) ∧
      liveAddrs d (dirAddrs fs d dir) = liveAddrs d pre ++ liveAddrs d post := by
  obtain ⟨hpre, hpost⟩ := h.parts hw.sound (hw.isDir hdir)
  rw [(h.dirAddrs_eq hw hdir).2, h.addrs]
  rw [FormatOk, h.addrs] at hfmt
  exact ⟨liveAddrs_store hpre hpost h.group h.slots hseen,
    liveAddrs_free_run hfmt (slotsFrom_ne_nil h.group) h.free hseen⟩

theorem Stored.mem_children {D : FatDir} (hD : LiveDir fs d D) {b : Nat}
    (hb : b ∈ childAddrs fs d' D) : (b ∈ childAddrs fs d D ∧ slotAt d' b = slotAt d b) ∨
      (D = dir ∧ g.getLast? = some (slotAt d' b) ∧ (slotAt d' b).isDeleted = false ∧
        b = a + 32 * (g.length - 1)) := by
  by_cases hne : D = dir
  · subst hne
    obtain ⟨hpre, hpost⟩ := h.parts hw.sound (hw.isDir hdir)
    rw [mem_childAddrs] at hb
    by_cases hseen : Seen d pre
    · obtain ⟨hlive', hlive⟩ := h.live_seen hw hdir hfmt hseen
      rw [hlive'] at hb
      rw [mem_childAddrs, hlive]
      rcases List.mem_append.mp hb.1 with hmem | hmem
      · exact Or.inl ⟨⟨List.mem_append_left _ hmem, hb.2⟩, hpre b (mem_liveAddrs hmem).1⟩
      · rcases List.mem_append.mp hmem with hmem | hmem
        · obtain ⟨hlast, hrun⟩ := (h.group.live h.slots).2 b hmem
          rw [getLast_slotsFrom a h.group, Option.some.injEq] at hrun
          exact Or.inr ⟨rfl, hlast, (mem_liveAddrs hmem).2.2.1, hrun.symm⟩
        · exact Or.inl ⟨⟨List.mem_append_right _ hmem, hb.2⟩, hpost b (mem_liveAddrs hmem).1⟩
    · rw [h.live_hidden hw hdir hseen] at hb
      refine Or.inl ⟨mem_childAddrs.mpr hb, ?_⟩
      obtain ⟨hmem, hend, hdel, _⟩ := mem_liveAddrs hb.1
      refine h.slot_eq hw hdir hmem fun hrun => ?_
      have hfree := h.free b hrun
      rw [Slot.isFree, hend, hdel] at hfree
      cases hfree
  · rw [h.children_other hw hdir hD hne] at hb
    exact Or.inl ⟨hb, h.slot_eq_other hw hdir hD hne (mem_liveAddrs (mem_childAddrs.mp hb).1).1⟩

theorem Stored.children_keep {D : FatDir} (hD : LiveDir fs d D) {b : Nat}
    (hb : b ∈ childAddrs fs d D) : b ∈ childAddrs fs d' D ∧ slotAt d' b = slotAt d b := by
  obtain ⟨hlive, hdots⟩ := mem_childAddrs.mp hb
  obtain ⟨hmem, hend, hdel, _⟩ := mem_liveAddrs hlive
  refine ⟨?_, h.slot_eq hw hD hmem fun hrun => ?_⟩
  · by_cases hne : D = dir
    · subst hne
      refine mem_childAddrs.mpr ⟨?_, hdots⟩
      by_cases hseen : Seen d pre
      · obtain ⟨hlive', hlive₀⟩ := h.live_seen hw hdir hfmt hseen
        rw [hlive₀, List.mem_append] at hlive
        rw [hlive', List.mem_append, List.mem_append]
        exact hlive.imp_right Or.inr
      · rw [h.live_hidden hw hdir hseen]
        exact hlive
    · rw [h.children_other hw hdir hD hne]
      exact hb
  · have hfree := h.free b hrun
    rw [Slot.isFree, hend, hdel] at hfree
    cases hfree

theorem Stored.live_of {D : FatDir} (hD : LiveDir fs d D) : LiveDir fs d' D :=
  hD.carry fun _ _ hE hb => h.children_keep hw hdir hfmt hE hb

omit hdir hfmt in
theorem Stored.new_children {e : Slot} (hlast : g.getLast? = some e) (hdel : e.isDeleted = false)
    (hsub : e.isDirectory = true) : childAddrs fs d' ⟨false, e.cluster⟩ = [] := by
  obtain ⟨_, hC, hfree⟩ := h.subdir e hlast hdel hsub
  have hch : IsChain fs d' (e.cluster :: []) := hC ▸ h.chain
  have haddrs : dirAddrs fs d' ⟨false, e.cluster⟩ = clusSlots fs e.cluster := by
    rw [dirAddrs_of_chain hw.sound rfl hch]
    simp [maxVisits]
  rw [List.eq_nil_iff_forall_not_mem]
  intro b hb
  obtain ⟨hlive, hdots⟩ := mem_childAddrs.mp hb
  -- the root has a chain of its own
  have hne : (⟨false, e.cluster⟩ : FatDir) ≠ fatRootDir fs := by
    intro heq
    have hfix : (fatRootDir fs).isRootFixed = false := by rw [← heq]
    refine hw.dir_not_free LiveDir.root hfix (x := e.cluster) ?_ (h.fresh _ (by simp [hC]))
    obtain ⟨L, hL⟩ := hw.dir_chain LiveDir.root hfix
    rw [chainOf_eq hw.sound hL, ← heq]
    simp
  obtain ⟨hmem, hend, hdel', _⟩ := mem_liveAddrs hlive
  rw [haddrs] at hmem
  have := hfree b hmem (hdots hne).1 (hdots hne).2
  rw [Slot.isFree, hend, hdel'] at this
  cases this

theorem Stored.live {D : FatDir} (hD : LiveDir fs d' D) : LiveDir fs d D ∨
    ∃ e, g.getLast? = some e ∧ e.isDeleted = false ∧ e.isDirectory = true ∧
      D = ⟨false, e.cluster⟩ := by
  refine LiveDir.of_edit (N := fun D => ∃ e, g.getLast? = some e ∧ e.isDeleted = false ∧
    e.isDirectory = true ∧ D = ⟨false, e.cluster⟩) (fun E hE b hb hsub => ?_) ?_ hD
  · rcases h.mem_children hw hdir hfmt hE hb with ⟨hold, hslot⟩ | ⟨_, hlast, hdel, _⟩
    · rw [hslot] at hsub ⊢
      exact Or.inl ⟨hold, hsub, rfl⟩
    · exact Or.inr ⟨_, hlast, hdel, hsub, rfl⟩
  · rintro E ⟨e, hlast, hdel, hsub, rfl⟩ b hb
    rw [h.new_children hw hlast hdel hsub] at hb
    cases hb

theorem Stored.child_cases {D : FatDir} (hD : LiveDir fs d' D) {b : Nat}
    (hb : b ∈ childAddrs fs d' D) : LiveDir fs d D ∧
      ((b ∈ childAddrs fs d D ∧ slotAt d' b = slotAt d b) ∨
        (D = dir ∧ g.getLast? = some (slotAt d' b) ∧ (slotAt d' b).isDeleted = false ∧
          b = a + 32 * (g.length - 1))) := by
  rcases h.live hw hdir hfmt hD with hold | ⟨e, hlast, hdel, hsub, rfl⟩
  · exact ⟨hold, h.mem_children hw hdir hfmt hold hb⟩
  · rw [h.new_children hw hlast hdel hsub] at hb
    cases hb

/-- **The volume stays well formed.** -/
theorem Stored.wellFormed : WellFormed fs d' := by
  -- what the new entry leads to
  have hnew : ∀ {b}, g.getLast? = some (slotAt d' b) → (slotAt d' b).isDeleted = false →
      ∃ L, C = (slotAt d' b).cluster :: L := by
    intro b hlast hdel
    have := h.first _ hlast hdel
    exact ⟨C.tail, (List.cons_head?_tail this).symm⟩
  refine hw.edit (some (a + 32 * (g.length - 1))) (fun ht => ?_) (fun D hD b hb hsub => ?_)
    (fun D hD b hb hsub => ?_) fun o ho x hx => ?_
  · have hroot : firstAt fs d none = fs.rootCluster := if_pos ht
    have := h.hasChain hw Owner.root (by rw [hroot]; exact hw.rootChain ht)
    rwa [hroot] at this
  · obtain ⟨hD', ⟨hb', hslot⟩ | ⟨rfl, hlast, hdel, -⟩⟩ := h.child_cases hw hdir hfmt hD hb
    · rw [hslot] at hsub ⊢
      obtain ⟨hch, hdots⟩ := hw.subdir D hD' b hb' hsub
      refine ⟨h.hasChain hw (Owner.child hD' hb') hch, ?_⟩
      -- the dot slots are slots of a directory, and not free
      have hE : LiveDir fs d ⟨false, (slotAt d b).cluster⟩ := LiveDir.sub hD' hb' hsub
      obtain ⟨rest, hrest⟩ : ∃ rest, dirAddrs fs d ⟨false, (slotAt d b).cluster⟩ =
          fs.clusAddr (slotAt d b).cluster :: (fs.clusAddr (slotAt d b).cluster + 32) :: rest :=
        hw.dirAddrs_head rfl hch
      have h1 := h.slot_eq_of_byte hw hE (b := fs.clusAddr (slotAt d b).cluster)
        (by rw [hrest]; simp) (hdots.dot.bytes (by omega))
      have h2 := h.slot_eq_of_byte hw hE (b := fs.clusAddr (slotAt d b).cluster + 32)
        (by rw [hrest]; simp) (hdots.dotdot.bytes (by omega))
      exact ⟨by rw [h1]; exact hdots.dot, by rw [h2]; exact hdots.dotdot,
        by rw [h2]; exact hdots.parent⟩
    · obtain ⟨hdots, hC, _⟩ := h.subdir _ hlast hdel hsub
      exact ⟨⟨[], hC ▸ h.chain⟩, hdots⟩
  · obtain ⟨hD', ⟨hb', hslot⟩ | ⟨rfl, hlast, hdel, -⟩⟩ := h.child_cases hw hdir hfmt hD hb
    · rw [hslot]
      exact (h.owner_chain hw (Owner.child hD' hb')).1
    · obtain ⟨L, hL⟩ := hnew hlast hdel
      exact Or.inr ⟨L, hL ▸ h.chain⟩
  · cases ho with
    | root =>
      refine Or.inl ⟨Owner.root, ?_⟩
      rw [← (h.owner_chain hw Owner.root).2]
      exact hx
    | @child D b hD hb =>
      obtain ⟨hD', ⟨hb', hslot⟩ | ⟨rfl, hlast, hdel, hb'⟩⟩ := h.child_cases hw hdir hfmt hD hb
      · have ho' : Owner fs d (some b) := Owner.child hD' hb'
        refine Or.inl ⟨ho', ?_⟩
        rw [← (h.owner_chain hw ho').2]
        rw [chainAt, firstAt, hslot] at hx
        exact hx
      · obtain ⟨L, hL⟩ := hnew hlast hdel
        rw [chainAt, firstAt, chainOf_eq hw.sound (hL ▸ h.chain), ← hL] at hx
        exact Or.inr ⟨h.fresh x hx, by rw [hb']⟩

/-! ### Format and lookups -/

/-- **The directory keeps its format** when the new slots are seen. -/
theorem Stored.format (hseen : Seen d pre) : FormatOk fs d' dir := by
  obtain ⟨hpre, hpost⟩ := h.parts hw.sound (hw.isDir hdir)
  rw [FormatOk, h.addrs, List.map_append, List.map_append] at hfmt
  rw [FormatOk, (h.dirAddrs_eq hw hdir).2, h.addrs, List.map_append, List.map_append, h.slots,
    List.map_congr_left hpre, List.map_congr_left hpost]
  refine hfmt.store ?_ (fun f hf => ?_) (fun f hf => ?_) h.group
  · rw [ne_eq, List.map_eq_nil_iff]
    exact slotsFrom_ne_nil h.group
  · obtain ⟨b, hb, rfl⟩ := List.mem_map.mp hf
    exact h.free b hb
  · obtain ⟨b, hb, rfl⟩ := List.mem_map.mp hf
    exact hseen b hb

end

end Gemios
