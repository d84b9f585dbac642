import Gemios.FatStore
import Gemios.FatOverwrite

/-!
# Creating files and directories

`fat_write_file` and `fat_mkdir` on a name that is not there: the entry they store, and
what the device looks like behind them.
-/

namespace Gemios

/-! ### Names -/

/-- A last path component: not empty, no separator, no NUL, at most 255 bytes. -/
structure NameText (name : List UInt8) : Prop where
  ne : name ≠ []
  nul : (0 : UInt8) ∉ name
  slash : ∀ c ∈ name, isSlash c = false
  length : name.length ≤ 255

theorem NameText.numLfn_le {name : List UInt8} (h : NameText name) : numLfnSlots name ≤ 20 := by
  have := h.length
  unfold numLfnSlots
  split <;> omega

theorem NameText.numLfn_pos {name : List UInt8} (h : NameText name) :
    0 < numLfnSlots name ↔ fatNeedsLfn name = true := by
  have hpos := List.length_pos_iff.mpr h.ne
  unfold numLfnSlots
  split
  · next hl => exact ⟨fun _ => hl, fun _ => by omega⟩
  · next hl => exact ⟨fun h => absurd h (Nat.lt_irrefl 0), fun h => absurd h hl⟩

theorem NameText.chooseShortName {name : List UInt8} (h : NameText name) (env : Env) (fs : FatFs)
    (d : Disk) (dir : FatDir) :
    ShortOk (chooseShortName env fs d dir name) ∨
      (numLfnSlots name = 0 ∧ name.head? = some 0xE5 ∧
        (Gemios.chooseShortName env fs d dir name).length = 11 ∧
        (Gemios.chooseShortName env fs d dir name).getD 0 0 = 0xE5) := by
  unfold Gemios.chooseShortName
  split
  · exact Or.inl (shortOk_chooseAlias env fs d dir name)
  · next hnum =>
    have hlfn : fatNeedsLfn name = false := by
      rw [← Bool.not_eq_true]
      exact fun hl => hnum (h.numLfn_pos.mpr hl)
    obtain ⟨hlen, hhead⟩ := toFat83Name_head h.ne h.slash hlfn
    by_cases he5 : (toFat83Name name).getD 0 0 = 0xE5
    · exact Or.inr ⟨by omega, by rw [hhead, he5], hlen, he5⟩
    · refine Or.inl ⟨hlen, fun heq => ?_, he5⟩
      rw [heq] at hhead
      exact h.nul (List.mem_of_mem_head? hhead)

theorem NameText.slotGroup {name : List UInt8} (h : NameText name) (env : Env) (fs : FatFs)
    (d : Disk) (dir : FatDir) {attr : UInt8} (hattr : EntryAttr attr) (c size : Nat) :
    SlotGroup (nameSlots name (Gemios.chooseShortName env fs d dir name)
      (Slot.fresh attr c size)) := by
  rcases h.chooseShortName env fs d dir with hok | ⟨hnum, _, _, he5⟩
  · obtain ⟨hend, hdel, hlfn, hvol⟩ := newEntry_kind c size hattr hok
    have hrun := lfnRun_lfnSlots name
      (fatLfnChecksum (Gemios.chooseShortName env fs d dir name)) h.numLfn_le
    refine SlotGroup.entry ?_ ⟨hend, hdel, hlfn, hvol⟩
    rw [Slot.withName_name _ hok.length]
    exact hrun
  · rw [nameSlots, hnum, lfnSlots, List.nil_append]
    refine SlotGroup.deleted ?_
    rw [Slot.isDeleted, Slot.withName_of_lt _ _ (by omega), he5]
    rfl

/-! ### Data in fresh clusters -/

/-- Free clusters `C` were linked and filled; nothing else changed. -/
structure Stocked (fs : FatFs) (d d' : Disk) (C : List Nat) : Prop where
  chain : IsChain fs d' C
  fresh : ∀ x ∈ C, fs.fatEnt d x = 0 ∧ x < fs.scanLimit + 2
  fat : ∀ x, fs.InRange x → x ∉ C → fs.fatEnt d' x = fs.fatEnt d x
  frame : ∀ x, x < fs.fatStartSector * 512 ∨ fs.fatEndAddr ≤ x → (∀ y ∈ C, ¬ fs.InCluster y x) →
    d' x = d x

section

variable {fs : FatFs} {d : Disk} (hs : fs.Sound) (env : Env) [env.NoFault]

include hs

theorem allocFreeCluster_stocked {c : Nat} {d₀ : Disk} (h : allocFreeCluster env fs d = (c, d₀))
    (hc : c ≠ 0) : Stocked fs d d₀ [c] := by
  obtain ⟨L, hch, hfat, hframe, ⟨hold, _⟩ | ⟨_, rfl, h0, hscan⟩⟩ :=
    firstCluster_spec hs env (Or.inl (show 0 < 2 by omega)) h hc
  · rw [chainOf_of_lt (by omega)] at hold
    cases hold
  · refine ⟨hch, fun x hx => ?_, fun x hx hne => hfat x hx (by simpa using hne),
      fun x hx _ => hframe x hx⟩
    rw [List.mem_singleton.mp hx]
    exact ⟨h0, hscan⟩

theorem Stocked.fill {c len : Nat} {buf : Buf} {d₀ d₁ : Disk} (h : Stocked fs d d₀ [c])
    (hrun : writeLoop env fs buf len (len + 1) d₀ c 0 = (0, d₁)) :
    ∃ W, Stocked fs d d₁ (c :: W) ∧ Filled fs buf len 0 d₀ d₁ [c] (c :: W) := by
  obtain ⟨W, hF⟩ := writeLoop_filled hs env buf len (len + 1) d₀ c [] 0 d₁ h.chain hrun
  have hc := h.chain.head_inRange
  refine ⟨W, ⟨hF.chain, fun x hx => ?_, fun x hx hne => ?_, fun x hx hout => ?_⟩, hF⟩
  · by_cases hxc : x ∈ [c]
    · exact h.fresh x hxc
    · obtain ⟨h0, hscan⟩ := hF.fresh x hx hxc
      rw [h.fat x (hF.chain.inRange x hx) hxc] at h0
      exact ⟨h0, hscan⟩
  · rw [hF.fat x hx hne]
    exact h.fat x hx fun hmem => hne (by simp [List.mem_singleton.mp hmem])
  · rw [hF.frame x hx hout]
    exact h.frame x hx fun y hy => hout y (by simp [List.mem_singleton.mp hy])

omit [env.NoFault] in
theorem Stocked.setClus {c : Nat} {d₀ : Disk} (h : Stocked fs d d₀ [c]) (buf : Buf) :
    Stocked fs d (setClus fs d₀ c buf) [c] := by
  have hc := h.chain.head_inRange
  refine ⟨h.chain.congr fun x hx => fatEnt_setClus hs d₀ (h.chain.inRange x hx).2 buf, h.fresh,
    fun x hx hne => ?_, fun x hx hout => ?_⟩
  · rw [fatEnt_setClus hs d₀ hx.2]
    exact h.fat x hx hne
  · rw [setClus_of_not (hout c (by simp))]
    exact h.frame x hx hout

end

section

variable {fs : FatFs} {d d' : Disk} (hs : fs.Sound) {C : List Nat} (h : Stocked fs d d' C)
  {dir : FatDir} (hdir : IsDir fs d dir)

include hs h hdir

theorem Stocked.apart {a n : Nat}
    (hmem : ∀ b ∈ slotsFrom a n, b ∈ dirAddrs fs d dir) :
    ∀ x ∈ C, ∀ y, fs.InCluster x y → y < a ∨ a + 32 * n ≤ y := by
  intro x hx y hy
  by_contra hin
  have hslot : a + 32 * ((y - a) / 32) ∈ slotsFrom a n :=
    mem_slotsFrom.mpr ⟨(y - a) / 32, by omega, rfl⟩
  refine hdir.slot_outside hs (hmem _ hslot) (h.chain.inRange x hx)
    (fun hfix hmem => hdir.not_free hs hfix hmem (h.fresh x hx).1) ((y - a) % 32) (by omega) ?_
  have heq : a + 32 * ((y - a) / 32) + (y - a) % 32 = y := by omega
  rw [heq]
  exact hy

theorem Stocked.stored {a : Nat} {g : List Slot} {pre post : List Nat}
    (haddrs : dirAddrs fs d dir = pre ++ slotsFrom a g.length ++ post)
    (hfree : ∀ b ∈ slotsFrom a g.length, (slotAt d b).isFree = true) (hg : SlotGroup g)
    (hproper : ∀ s ∈ g, s.Proper)
    (hfirst : ∀ e, g.getLast? = some e → e.isDeleted = false → C.head? = some e.cluster)
    (hsub : ∀ e, g.getLast? = some e → e.isDeleted = false → e.isDirectory = true →
      DotSlots fs d' e.cluster dir ∧ C = [e.cluster] ∧
        ∀ b ∈ clusSlots fs e.cluster, b ≠ fs.clusAddr e.cluster →
          b ≠ fs.clusAddr e.cluster + 32 → (slotAt d' b).isFree = true) :
    Stored fs d (putSlots d' a g) dir a g pre post C := by
  have hmem : ∀ b ∈ slotsFrom a g.length, b ∈ dirAddrs fs d dir := by
    intro b hb
    rw [haddrs]
    simp [hb]
  have harea : fs.fatEndAddr ≤ a := by
    obtain ⟨s, ss, hss⟩ := List.exists_cons_of_ne_nil hg.ne_nil
    refine dirAddrs_area hs (hmem a ?_)
    rw [hss, List.length_cons, slotsFrom_succ]
    simp
  have hsep := h.apart hs hdir hmem
  have hkeep : ∀ x ∈ C, ∀ b ∈ clusSlots fs x, slotAt (putSlots d' a g) b = slotAt d' b :=
    fun x hx b hb => slotAt_congr fun i hi =>
      putSlots_of_not (hsep x hx (b + i) (inCluster_of_mem_clusSlots hb hi))
  have hfat : ∀ x, fs.InRange x → fs.fatEnt (putSlots d' a g) x = fs.fatEnt d' x := fun x hx =>
    fatEnt_congr hs hx.2 fun y _ hy => putSlots_of_not (Or.inl (by omega))
  refine ⟨haddrs, hfree, hg, slotAt_putSlots d' a hproper,
    h.chain.congr fun x hx => hfat x (h.chain.inRange x hx), fun x hx => (h.fresh x hx).1,
    fun x hx hne => ?_, fun x hx hC hout => ?_, hfirst, fun e hlast hdel hdirec => ?_⟩
  · rw [hfat x hx]
    exact h.fat x hx hne
  · rw [putSlots_of_not hout]
    exact h.frame x hx hC
  · obtain ⟨hdots, hC, hrest⟩ := hsub e hlast hdel hdirec
    have hspc := hs.spc
    have hbpc := hs.bpc
    have hslot : ∀ b ∈ clusSlots fs e.cluster, slotAt (putSlots d' a g) b = slotAt d' b :=
      hkeep e.cluster (by simp [hC])
    have h1 := hslot (fs.clusAddr e.cluster) (mem_clusSlots.mpr ⟨0, by omega, by omega⟩)
    have h2 := hslot (fs.clusAddr e.cluster + 32) (mem_clusSlots.mpr ⟨1, by omega, by omega⟩)
    refine ⟨⟨by rw [h1]; exact hdots.dot, by rw [h2]; exact hdots.dotdot,
      by rw [h2]; exact hdots.parent⟩, hC, fun b hb hb1 hb2 => ?_⟩
    rw [hslot b hb]
    exact hrest b hb hb1 hb2

end

end Gemios
