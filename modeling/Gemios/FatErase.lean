import Gemios.FatMirrorOps

/-!
# What a removal leaves of a volume

A removal clears FAT entries and marks slots deleted, and does nothing else.  It holds no
cluster number against the volume, so that an entry may lie outside of the FAT.  Where no write
falls on what it still uses, every cluster number it comes by, also late in a recursive removal,
is one that the volume held at the start.  What the two elementary steps keep, a removal keeps.
-/

namespace Gemios

/-- A slot that is as it was, or one of `M` that is marked deleted. -/
def Slot.KeptOrErased (M : Slot → Prop) (e e' : Slot) : Prop := e' = e ∨ (M e ∧ e' = e.erase)

theorem Slot.erase_erase (e : Slot) : e.erase.erase = e.erase := by
  funext i
  unfold Slot.erase
  split <;> rfl

theorem Slot.isDeleted_erase (e : Slot) : e.erase.isDeleted = true := rfl

theorem Slot.KeptOrErased.refl (M : Slot → Prop) (e : Slot) : e.KeptOrErased M e := Or.inl rfl

theorem Slot.KeptOrErased.erase {M : Slot → Prop} {e e' : Slot} (h : e.KeptOrErased M e')
    (hM : M e') : e.KeptOrErased M e'.erase := by
  rcases h with rfl | ⟨hM', rfl⟩
  · exact Or.inr ⟨hM, rfl⟩
  · exact Or.inr ⟨hM', Slot.erase_erase e⟩

theorem Slot.KeptOrErased.eq {M : Slot → Prop} {e e' : Slot} (h : e.KeptOrErased M e')
    (hdel : ¬ e'.isDeleted = true) : e' = e := by
  rcases h with h | ⟨_, rfl⟩
  · exact h
  · exact absurd (Slot.isDeleted_erase e) hdel

theorem Slot.KeptOrErased.isEnd {M : Slot → Prop} {e e' : Slot} (h : e.KeptOrErased M e')
    (hend : e'.isEnd = true) : e.isEnd = true := by
  rcases h with rfl | ⟨_, rfl⟩
  · exact hend
  · cases hend

theorem Slot.KeptOrErased.notEnd {M : Slot → Prop} {e e' : Slot} (h : e.KeptOrErased M e')
    (hend : e'.isEnd = false) : M e ∨ e.isEnd = false := by
  rcases h with rfl | ⟨hM, _⟩
  · exact Or.inr hend
  · exact Or.inl hM

theorem slotAt_putSlot_erase (b : Buf) (a : Nat) :
    slotAt (putSlot b a (slotAt b a).erase) a = (slotAt b a).erase := by
  refine slotAt_putSlot_self fun i hi => ?_
  rw [Slot.erase, if_neg (by omega), slotAt, if_neg (by omega)]

/-! ### The FAT entry of any cluster number -/

/-- Sector in which the driver looks for the FAT entry of a cluster. -/
def FatFs.linkSector (fs : FatFs) (c : Nat) : Nat := u32 (fs.entSector c)

/-- An update of the FAT entry of a cluster writes the sector: the entry's own, or the copy's. -/
def FatFs.Updates (fs : FatFs) (c sec : Nat) : Prop :=
  (fs.type = .fat16 ∨ fs.type = .fat32) ∧ (sec = fs.linkSector c ∨
    (1 < fs.numFats ∧ 0 < fs.fatSizeSectors ∧ sec = u32 (fs.linkSector c + fs.fatSizeSectors)))

instance (fs : FatFs) (c sec : Nat) : Decidable (fs.Updates c sec) :=
  inferInstanceAs (Decidable (_ ∧ _))

/-- A number that the driver takes for one of a cluster. -/
def FatFs.Numbers (fs : FatFs) (c : Nat) : Prop := 2 ≤ c ∧ c < fs.eofLimit

section

variable {fs : FatFs} (hz : fs.Sized) (env : Env) [env.NoFault] {d : Disk}

theorem FatFs.Numbers.mul_lt {c : Nat} (hc : fs.Numbers c) : fs.entSize * c < 1073741824 := by
  have hlt := hc.2
  have hlim := fs.eofLimit_le
  rcases fs.entSize_cases with h | h <;> rw [h] <;> omega

/-- Two entries in one sector do not overlap. -/
theorem FatFs.Numbers.offset_ne {c x : Nat} (hc : fs.Numbers c) (hx : fs.Numbers x) (hne : x ≠ c)
    (hsec : fs.linkSector x = fs.linkSector c) :
    fs.entSize * x % 512 + fs.entSize ≤ fs.entSize * c % 512 ∨
      fs.entSize * c % 512 + fs.entSize ≤ fs.entSize * x % 512 := by
  have h1 := hc.mul_lt
  have h2 := hx.mul_lt
  unfold FatFs.linkSector FatFs.entSector u32 at hsec
  rcases fs.entSize_cases with h | h <;> rw [h] at h1 h2 hsec ⊢ <;> omega

include hz

theorem FatFs.Sized.fatEntryPos_eq {c : Nat} (hc : fs.Numbers c) :
    fatEntryPos fs fs.entSize c = (fs.linkSector c, fs.entSize * c % 512) := by
  have hlt := hc.mul_lt
  rw [fatEntryPos, Nat.mul_comm c, u32_of_lt (show fs.entSize * c < 4294967296 by omega), hz.bps,
    FatFs.linkSector, FatFs.entSector]

theorem getNextCluster_congr {d' : Disk} {c : Nat} (hc : fs.Numbers c)
    (h : fs.type = .fat16 ∨ fs.type = .fat32 → ∀ i, i < 512 →
      d' (fs.linkSector c * 512 + i) = d (fs.linkSector c * 512 + i)) :
    getNextCluster env fs d' c = getNextCluster env fs d c := by
  by_cases ht : fs.type = .fat16 ∨ fs.type = .fat32
  · have hle := (fs.entAddr_sector c).2
    have hent : entGet fs (fun i => d' (fs.linkSector c * 512 + i)) (fs.entSize * c % 512) =
        entGet fs (fun i => d (fs.linkSector c * 512 + i)) (fs.entSize * c % 512) :=
      entGet_congr fs fun k hk => h ht _ (by omega)
    rw [getNextCluster_at env d' ht hc.1 (hz.fatEntryPos_eq hc),
      getNextCluster_at env d ht hc.1 (hz.fatEntryPos_eq hc), hent]
  · rw [(no_table env ht _).1, (no_table env ht _).1]

/-- What an update writes. -/
theorem setFatEntry_apply {c : Nat} (hc : fs.Numbers c) (v a : Nat) :
    (setFatEntry env fs d c v).2 a =
      if fs.Updates c (a / 512) then
        entPut fs (fun i => d (fs.linkSector c * 512 + i)) (fs.entSize * c % 512) v (a % 512)
      else d a := by
  by_cases ht : fs.type = .fat16 ∨ fs.type = .fat32
  · have hin : ∀ lba, lba * 512 ≤ a ∧ a < (lba + 1) * 512 ↔ a / 512 = lba := fun lba => by omega
    have hmod : ∀ lba, a / 512 = lba → a - lba * 512 = a % 512 := fun lba h => by omega
    rw [setFatEntry_at env d ht hc.1 (hz.fatEntryPos_eq hc), writeFatSector, bdevWrite_eq]
    simp only [bdevWrite_eq]
    by_cases hcopy : 1 < fs.numFats ∧ 0 < fs.fatSizeSectors
    · rw [if_pos hcopy]
      simp only [Disk.blit, hin, FatFs.Updates, ht, hcopy, true_and]
      split
      · next h => rw [if_pos (Or.inr h), hmod _ h]
      · next h =>
        simp only [h, or_false]
        split
        · next h' => rw [hmod _ h']
        · rfl
    · rw [if_neg hcopy]
      simp only [Disk.blit, hin, FatFs.Updates, ht, true_and, ← and_assoc, hcopy, false_and, or_false]
      split
      · next h => rw [hmod _ h]
      · rfl
  · rw [(no_table env ht d).2.1, if_neg fun h => ht h.1]

theorem getNextCluster_clear {c x : Nat} (hc : fs.Numbers c) (hx : fs.Numbers x)
    (hcopy : fs.Updates c (fs.linkSector x) → fs.linkSector x = fs.linkSector c) :
    getNextCluster env fs (setFatEntry env fs d c 0).2 x =
      if x = c then noCluster else getNextCluster env fs d x := by
  by_cases ht : fs.type = .fat16 ∨ fs.type = .fat32
  · have hle := (fs.entAddr_sector x).2
    have happly : ∀ i, i < 512 → (setFatEntry env fs d c 0).2 (fs.linkSector x * 512 + i) =
        if fs.linkSector x = fs.linkSector c then
          entPut fs (fun i => d (fs.linkSector c * 512 + i)) (fs.entSize * c % 512) 0 i
        else d (fs.linkSector x * 512 + i) := by
      intro i hi
      rw [setFatEntry_apply hz env hc, show (fs.linkSector x * 512 + i) / 512 = fs.linkSector x
        by omega, show (fs.linkSector x * 512 + i) % 512 = i by omega]
      exact if_congr ⟨hcopy, fun h => ⟨ht, Or.inl h⟩⟩ rfl rfl
    by_cases hxc : x = c
    · have hzero : entGet fs (fun i => (setFatEntry env fs d c 0).2 (fs.linkSector x * 512 + i))
          (fs.entSize * x % 512) = 0 % fs.entMod := by
        rw [← entGet_entPut fs (fun i => d (fs.linkSector c * 512 + i)) (fs.entSize * c % 512)]
        refine entGet_congr fs fun k hk => ?_
        rw [happly _ (by omega), if_pos (by rw [hxc]), hxc]
      rw [if_pos hxc, getNextCluster_at env _ ht hx.1 (hz.fatEntryPos_eq hx), hzero,
        Nat.zero_mod]
      exact if_pos (Or.inl (by decide))
    · have hkept : entGet fs (fun i => (setFatEntry env fs d c 0).2 (fs.linkSector x * 512 + i))
          (fs.entSize * x % 512) =
          entGet fs (fun i => d (fs.linkSector x * 512 + i)) (fs.entSize * x % 512) := by
        refine entGet_congr fs fun k hk => ?_
        rw [happly _ (by omega)]
        split
        · next hsec =>
          have hne := hc.offset_ne hx hxc hsec
          rw [entPut_of_ne fs (by omega), hsec]
        · rfl
      rw [if_neg hxc, getNextCluster_at env _ ht hx.1 (hz.fatEntryPos_eq hx),
        getNextCluster_at env d ht hx.1 (hz.fatEntryPos_eq hx), hkept]
  · rw [(no_table env ht _).1, (no_table env ht _).1, ite_self]

end

/-! ### What a removal uses of a volume -/

/-- What a removal uses: the clusters of directories, the clusters it frees, the sectors of
    directories, and sectors behind one of these that a long name may reach into. -/
structure Places where
  chains : Nat → Prop
  freed : Nat → Prop
  sectors : Nat → Prop
  spilled : Nat → Prop

/-- The removal asks for the next cluster. -/
def Places.Links (S : Places) (x : Nat) : Prop := S.chains x ∨ S.freed x

/-- The removal marks slots in the sector. -/
def Places.Marked (S : Places) (sec : Nat) : Prop := S.sectors sec ∨ S.spilled sec

/-- No write of a removal falls on anything else that it uses: no mark on a FAT entry, no copy
    of a FAT sector on another one, and no FAT sector on a directory. -/
structure Places.Apart (S : Places) (fs : FatFs) : Prop where
  numbers : ∀ x, S.Links x → fs.Numbers x
  marks : fs.type = .fat16 ∨ fs.type = .fat32 →
    ∀ x sec, S.Links x → S.Marked sec → sec ≠ fs.linkSector x
  copies : ∀ x y, S.Links x → S.freed y → fs.Updates y (fs.linkSector x) →
    fs.linkSector x = fs.linkSector y
  clears : ∀ y sec, S.freed y → S.sectors sec → ¬ fs.Updates y sec

theorem Places.Apart.mono {S S' : Places} {fs : FatFs} (h : S.Apart fs)
    (hchains : ∀ x, S'.chains x → S.chains x) (hfreed : ∀ x, S'.freed x → S.freed x)
    (hsectors : ∀ sec, S'.sectors sec → S.sectors sec)
    (hmarked : ∀ sec, S'.spilled sec → S.Marked sec) : S'.Apart fs := by
  have hlinks : ∀ x, S'.Links x → S.Links x := fun x hx => hx.imp (hchains x) (hfreed x)
  exact ⟨fun x hx => h.numbers x (hlinks x hx),
    fun ht x sec hx hs => h.marks ht x sec (hlinks x hx)
      (hs.elim (fun hs => Or.inl (hsectors sec hs)) (hmarked sec)),
    fun x y hx hy => h.copies x y (hlinks x hx) (hfreed y hy),
    fun y sec hy hs => h.clears y sec (hfreed y hy) (hsectors sec hs)⟩

/-- What a removal leaves of the volume `d₀`. -/
structure Erased (env : Env) (fs : FatFs) (S : Places) (M : Slot → Prop) (d₀ d : Disk) : Prop where
  next : ∀ c, S.Links c → getNextCluster env fs d c = noCluster ∨
    getNextCluster env fs d c = getNextCluster env fs d₀ c
  slots : ∀ sec e, S.sectors sec → e < 16 →
    (slotAt d₀ (sec * 512 + 32 * e)).KeptOrErased M (slotAt d (sec * 512 + 32 * e))

theorem Erased.refl (env : Env) (fs : FatFs) (S : Places) (M : Slot → Prop) (d : Disk) :
    Erased env fs S M d d :=
  ⟨fun _ _ => Or.inr rfl, fun _ _ _ _ => Slot.KeptOrErased.refl M _⟩

/-- The slots in a buffer that is about to be written from sector `lba` on. -/
def BufOk (S : Places) (M : Slot → Prop) (d₀ : Disk) (lba count : Nat) (buf : Buf) : Prop :=
  ∀ e, e < 16 * count → S.sectors (lba + e / 16) →
    (slotAt d₀ (lba * 512 + 32 * e)).KeptOrErased M (slotAt buf (32 * e))

theorem BufOk.erase {S : Places} {M : Slot → Prop} {d₀ : Disk} {lba count : Nat} {buf : Buf}
    (h : BufOk S M d₀ lba count buf) {e : Nat} (hM : M (slotAt buf (32 * e))) :
    BufOk S M d₀ lba count (putSlot buf (32 * e) (slotAt buf (32 * e)).erase) := by
  intro e' he' hsec
  by_cases heq : e' = e
  · subst heq
    rw [slotAt_putSlot_erase]
    exact (h e' he' hsec).erase hM
  · rw [slotAt_putSlot_ne (by omega) (by omega) (by omega)]
    exact h e' he' hsec

/-- A property of the volume that the two steps of a removal keep: the FAT entry of a cluster
    cleared, and slots written back of which some in `M` are marked. -/
structure RemovalInv (env : Env) (fs : FatFs) (S : Places) (M : Slot → Prop) (d₀ : Disk)
    (P : Disk → Prop) : Prop where
  erased : ∀ {d}, P d → Erased env fs S M d₀ d
  clear : ∀ {d c}, P d → S.freed c → P (setFatEntry env fs d c 0).2
  blit : ∀ {d lba count buf}, P d → (∀ k, k < count → S.Marked (lba + k)) →
    BufOk S M d₀ lba count buf → P (d.blit lba count buf)

/-- How a call with a bounded depth ends: with a volume that satisfies `P`, or too deep
    if `R` says so. -/
def Ends {α : Type} (P : α → Prop) (R : Prop) : Option α → Prop
  | none => R
  | some x => P x

theorem Ends.imp {α : Type} {P Q : α → Prop} {R : Prop} {o : Option α} (h : Ends P R o)
    (himp : ∀ x, P x → Q x) : Ends Q R o := by
  cases o with
  | none => exact h
  | some x => exact himp x h

section

variable {env : Env} {fs : FatFs} {S : Places} {M : Slot → Prop} {d₀ d : Disk}

theorem Erased.bufOk (h : Erased env fs S M d₀ d) (lba count : Nat) :
    BufOk S M d₀ lba count fun i => d (lba * 512 + i) := by
  intro e _ hsec
  have hslot : slotAt (fun i => d (lba * 512 + i)) (32 * e) = slotAt d (lba * 512 + 32 * e) :=
    slotAt_congr fun i _ => by rw [Nat.add_assoc]
  have haddr : lba * 512 + 32 * e = (lba + e / 16) * 512 + 32 * (e % 16) := by omega
  rw [hslot, haddr]
  exact h.slots _ _ hsec (Nat.mod_lt _ (by omega))

variable (hz : fs.Sized) (ha : S.Apart fs) [env.NoFault]

include hz ha

theorem Places.Apart.next_blit {lba count : Nat} {buf : Buf}
    (hlba : ∀ k, k < count → S.Marked (lba + k)) {x : Nat} (hx : S.Links x) :
    getNextCluster env fs (d.blit lba count buf) x = getNextCluster env fs d x := by
  refine getNextCluster_congr hz env (ha.numbers x hx) fun ht i hi => if_neg fun h => ?_
  obtain ⟨k, hk⟩ := Nat.exists_eq_add_of_le (show lba ≤ fs.linkSector x by omega)
  exact ha.marks ht x _ hx (hlba k (by omega)) hk.symm

theorem Places.Apart.next_clear {c x : Nat} (hc : S.freed c) (hx : S.Links x) :
    getNextCluster env fs (setFatEntry env fs d c 0).2 x =
      if x = c then noCluster else getNextCluster env fs d x :=
  getNextCluster_clear hz env (ha.numbers c (Or.inr hc)) (ha.numbers x hx) (ha.copies x c hx hc)

theorem Erased.blit (h : Erased env fs S M d₀ d) {lba count : Nat} {buf : Buf}
    (hlba : ∀ k, k < count → S.Marked (lba + k)) (hbuf : BufOk S M d₀ lba count buf) :
    Erased env fs S M d₀ (d.blit lba count buf) := by
  refine ⟨fun c hc => ?_, fun sec e hsec he => ?_⟩
  · rw [ha.next_blit hz hlba hc]
    exact h.next c hc
  · by_cases hin : lba ≤ sec ∧ sec < lba + count
    · obtain ⟨k, rfl⟩ := Nat.exists_eq_add_of_le hin.1
      have haddr : (lba + k) * 512 + 32 * e = lba * 512 + 32 * (16 * k + e) := by omega
      rw [haddr, slotAt_blit_mem d (by omega)]
      exact hbuf (16 * k + e) (by omega) (by rwa [show (16 * k + e) / 16 = k by omega])
    · rw [slotAt_blit_not d (by omega)]
      exact h.slots sec e hsec he

theorem Erased.clear (h : Erased env fs S M d₀ d) {c : Nat} (hc : S.freed c) :
    Erased env fs S M d₀ (setFatEntry env fs d c 0).2 := by
  refine ⟨fun x hx => ?_, fun sec e hsec he => ?_⟩
  · rw [ha.next_clear hz hc hx]
    split
    · exact Or.inl rfl
    · exact h.next x hx
  · have hslot : slotAt (setFatEntry env fs d c 0).2 (sec * 512 + 32 * e) =
        slotAt d (sec * 512 + 32 * e) := slotAt_congr fun i hi => by
      rw [setFatEntry_apply hz env (ha.numbers c (Or.inr hc)), if_neg]
      rw [show (sec * 512 + 32 * e + i) / 512 = sec by omega]
      exact ha.clears c sec hc hsec
    rw [hslot]
    exact h.slots sec e hsec he

theorem removalInv_erased (M : Slot → Prop) (d₀ : Disk) :
    RemovalInv env fs S M d₀ (Erased env fs S M d₀) :=
  ⟨fun h => h, fun h hc => h.clear hz ha hc, fun h hlba hbuf => h.blit hz ha hlba hbuf⟩

end

/-! ### The directories below a directory -/

/-- The clusters that a loop along the FAT comes to from `c`, numbered. -/
inductive Along (env : Env) (fs : FatFs) (d : Disk) (c : Nat) : Nat → Nat → Prop
  | start (h : 2 ≤ c ∧ c < fs.eofLimit) : Along env fs d c 0 c
  | next {n x : Nat} (h : Along env fs d c n x) (hn : n + 1 < maxVisits)
      (hne : getNextCluster env fs d x ≠ x)
      (hlim : 2 ≤ getNextCluster env fs d x ∧ getNextCluster env fs d x < fs.eofLimit) :
      Along env fs d c (n + 1) (getNextCluster env fs d x)

/-- Slot `i` of cluster `x` holds an entry that a wipe of the cluster comes to; if `past`,
    also behind an end mark. -/
structure EntryAt (fs : FatFs) (d : Disk) (past : Bool) (x i : Nat) (e : Slot) : Prop where
  slot : i < 16 * fs.sectorsPerCluster
  entry : slotAt d (clusterSector fs x * 512 + 32 * i) = e
  live : e.Live
  notDot : e.isDot = false
  before : past = true ∨
    ∀ j, j < i → (slotAt d (clusterSector fs x * 512 + 32 * j)).isEnd = false

/-- The directory at `c` holds the entry `e`. -/
def Lists (env : Env) (fs : FatFs) (d : Disk) (past : Bool) (c : Nat) (e : Slot) : Prop :=
  ∃ n x i, Along env fs d c n x ∧ EntryAt fs d past x i e

theorem Lists.live {env : Env} {fs : FatFs} {d : Disk} {past : Bool} {c : Nat} {e : Slot}
    (h : Lists env fs d past c e) : e.Live := by
  obtain ⟨_, _, _, _, hentry⟩ := h
  exact hentry.live

/-- The directory at `c` holds an entry for a directory at `c'`. -/
def SubDir (env : Env) (fs : FatFs) (d : Disk) (past : Bool) (c c' : Nat) : Prop :=
  ∃ e, Lists env fs d past c e ∧ e.isDirectory = true ∧ 2 ≤ e.cluster ∧ c' = e.cluster

/-- `S` has what a removal comes to: the directories that start at a cluster in `D`, and the
    chains that start at a cluster in `E`. -/
structure Confined (env : Env) (fs : FatFs) (S : Places) (d : Disk) (past : Bool)
    (D E : Nat → Prop) : Prop where
  dirs : ∀ c, D c → ∀ n x, Along env fs d c n x →
    S.chains x ∧ ∀ k, k < fs.sectorsPerCluster → S.sectors (clusterSector fs x + k)
  chains : ∀ c, E c → ∀ n x, Along env fs d c n x → S.freed x
  entries : ∀ c, D c → ∀ e, Lists env fs d past c e → 2 ≤ e.cluster →
    E e.cluster ∧ (e.isDirectory = true → D e.cluster)

theorem Along.lim {env : Env} {fs : FatFs} {d : Disk} {c n x : Nat} (h : Along env fs d c n x) :
    2 ≤ x ∧ x < fs.eofLimit := by
  cases h with
  | start h => exact h
  | next _ _ _ hlim => exact hlim

theorem Along.lt {env : Env} {fs : FatFs} {d : Disk} {c n x : Nat} (h : Along env fs d c n x) :
    n < maxVisits := by
  cases h with
  | start => decide
  | next _ hn _ _ => exact hn

theorem Along.first {env : Env} {fs : FatFs} {d : Disk} {c n x : Nat} (h : Along env fs d c n x) :
    Along env fs d c 0 c := by
  induction h with
  | start h => exact Along.start h
  | next _ _ _ _ ih => exact ih

theorem Visits.along {env : Env} {fs : FatFs} {d : Disk} {c n x : Nat} (hc : Visits env fs d c)
    (h : Along env fs d c n x) : Visits env fs d x := by
  induction h with
  | start => exact hc
  | next _ _ _ hlim ih =>
    exact Visits.next ih fun h0 => noCluster_not_lt fs (h0 ▸ hlim.2)

section

variable {fs : FatFs} {env : Env} {S : Places} {M : Slot → Prop} {past : Bool} {d₀ d : Disk}
  {P : Disk → Prop} (hinv : RemovalInv env fs S M d₀ P)

include hinv

theorem RemovalInv.writeSector [env.NoFault] (h : P d) {sec : Nat} (hsec : S.Marked sec)
    {buf : Buf} (hbuf : BufOk S M d₀ sec 1 buf) : P (bdevWrite env d sec 1 buf).2 := by
  rw [bdevWrite_eq]
  refine hinv.blit h (fun k hk => ?_) hbuf
  obtain rfl := Nat.lt_one_iff.mp hk
  exact hsec

theorem RemovalInv.along {c n x : Nat} (h : P d) (hx : S.Links x)
    (halong : Along env fs d₀ c n x) (hn : n + 1 < maxVisits)
    (hgo : ¬ (getNextCluster env fs d x = x ∨ getNextCluster env fs d x < 2))
    (hlim : getNextCluster env fs d x < fs.eofLimit) :
    Along env fs d₀ c (n + 1) (getNextCluster env fs d x) := by
  have heq := ((hinv.erased h).next x hx).resolve_left fun h0 =>
    noCluster_not_lt fs (h0 ▸ hlim)
  rw [not_or] at hgo
  rw [heq] at hgo hlim ⊢
  exact Along.next halong hn hgo.1 ⟨Nat.le_of_not_lt hgo.2, hlim⟩

theorem freeLoop_keeps {c : Nat} (hc : ∀ n x, Along env fs d₀ c n x → S.freed x) :
    ∀ (visits n cur : Nat) (d : Disk), n + visits = maxVisits →
      (2 ≤ cur → cur < fs.eofLimit → 0 < visits → Along env fs d₀ c n cur) → P d →
      P (freeLoop env fs visits cur d) := by
  intro visits
  induction visits with
  | zero =>
    intro n cur d _ _ h
    exact h
  | succ visits ih =>
    intro n cur d hn hcur h
    rw [freeLoop]
    dsimp only
    split
    · next hlim =>
      have halong := hcur hlim.1 hlim.2 (Nat.succ_pos _)
      have hin := hc n cur halong
      have hclear := hinv.clear h hin
      split
      · exact hclear
      · next hgo =>
        refine ih (n + 1) _ _ (by omega) (fun _ hlt hpos => ?_) hclear
        exact hinv.along h (Or.inr hin) halong (by omega) hgo hlt
    · exact h

theorem fatFreeClusterChain_keeps {c : Nat}
    (hc : ∀ n x, Along env fs d₀ c n x → S.freed x) (h : P d) :
    P (fatFreeClusterChain env fs d c) := by
  unfold fatFreeClusterChain
  split
  · exact h
  · exact freeLoop_keeps hinv hc _ 0 c _ (Nat.zero_add _)
      (fun hge hlt _ => Along.start ⟨hge, hlt⟩) h

end

/-! ### Wiping a directory -/

/-- State of the entry loop of `fat_wipe_dir_contents` in cluster `cur`. -/
structure WipeOk (P : Disk → Prop) (fs : FatFs) (S : Places) (M : Slot → Prop) (d₀ : Disk)
    (cur : Nat) (s : WipeState) : Prop where
  disk : P s.disk
  buf : BufOk S M d₀ (clusterSector fs cur) fs.sectorsPerCluster s.buf

/-- No slot of the cluster before slot `i` was an end mark. -/
def Open (fs : FatFs) (past : Bool) (d₀ : Disk) (cur i : Nat) : Prop :=
  past = true ∨ ∀ j, j < i → (slotAt d₀ (clusterSector fs cur * 512 + 32 * j)).isEnd = false

theorem Open.succ {fs : FatFs} {past : Bool} {d₀ : Disk} {cur i : Nat} (h : Open fs past d₀ cur i)
    (hi : past = true ∨ (slotAt d₀ (clusterSector fs cur * 512 + 32 * i)).isEnd = false) :
    Open fs past d₀ cur (i + 1) := by
  rcases h with h | h
  · exact Or.inl h
  · refine hi.imp_right fun hi j hj => ?_
    rcases Nat.lt_succ_iff_lt_or_eq.mp hj with hlt | rfl
    · exact h j hlt
    · exact hi

/-- How the entries of the directory at `c` are emptied: what is left satisfies `P`, or the
    recursion is too deep and `R` holds. -/
def Empties (env : Env) (fs : FatFs) (S : Places) (M : Slot → Prop) (past : Bool) (d₀ : Disk)
    (P : Disk → Prop) (R : Prop) (wipeSub : Nat → Disk → Option Disk) (c : Nat) : Prop :=
  ∀ e d, Lists env fs d₀ past c e → P d →
    Ends (fun d => P d ∧ M e ∧ (2 ≤ e.cluster →
        ∀ n x, Along env fs d₀ e.cluster n x → S.freed x)) R
      (if e.isDirectory then if e.cluster ≥ 2 then wipeSub e.cluster d else some d else some d)

section

variable {fs : FatFs} (hz : fs.Sized) {env : Env} {S : Places} {M : Slot → Prop} {past : Bool}
  {d₀ : Disk} {P : Disk → Prop} (hinv : RemovalInv env fs S M d₀ P)
  (hM : ∀ e, M e → past = true ∨ e.isEnd = false) {R : Prop}

include hz

include hinv hM

variable {wipeSub : Nat → Disk → Option Disk} {c : Nat}
  (hchain : ∀ n x, Along env fs d₀ c n x →
    S.chains x ∧ ∀ k, k < fs.sectorsPerCluster → S.sectors (clusterSector fs x + k))
  (hsub : Empties env fs S M past d₀ P R wipeSub c)

include hchain hsub

omit hz in
theorem wipeTurn_falls {n cur : Nat} (hcur : Along env fs d₀ c n cur) {i : Nat}
    (hi : i < 16 * fs.sectorsPerCluster) {s : WipeState}
    (hs : WipeOk P fs S M d₀ cur s ∧ Open fs past d₀ cur i) :
    (wipeTurn env fs wipeSub i s).Falls
      (fun s' => WipeOk P fs S M d₀ cur s' ∧ Open fs past d₀ cur (i + 1))
      (fun s' => WipeOk P fs S M d₀ cur s' ∧
        (slotAt d₀ (clusterSector fs cur * 512 + 32 * i)).isEnd = true)
      (fun _ => R) := by
  obtain ⟨hs, hopen⟩ := hs
  have hkept := hs.buf i hi ((hchain n cur hcur).2 _ (by omega))
  unfold wipeTurn
  dsimp only
  split
  · next hend => exact ⟨hs, hkept.isEnd hend⟩
  · next hend =>
    have hend' := Bool.not_eq_true _ ▸ hend
    have hopen' := hopen.succ ((hkept.notEnd hend').elim (hM _) Or.inr)
    split
    · exact ⟨hs, hopen'⟩
    · next hdel =>
      split
      · exact ⟨hs, hopen'⟩
      · next hkind =>
        split
        · exact ⟨hs, hopen'⟩
        · next hdot =>
          -- the entry is one of the volume as it was
          have hemptied := hsub _ s.disk ⟨n, cur, i, hcur, hi, (hkept.eq hdel).symm,
            liveSlot_of_guards hend hdel hkind, Bool.not_eq_true _ ▸ hdot, hopen⟩ hs.disk
          split
          · next hnone =>
            rw [hnone] at hemptied
            exact hemptied
          · next d hsome =>
            rw [hsome] at hemptied
            obtain ⟨hd, hmarked, hfreed⟩ := hemptied
            refine ⟨⟨?_, hs.buf.erase hmarked⟩, hopen'⟩
            dsimp only
            split
            · next hge => exact fatFreeClusterChain_keeps hinv (hfreed hge) hd
            · exact hd

variable [env.NoFault]

theorem wipeCluster_sat {n cur : Nat} (hcur : Along env fs d₀ c n cur) {d : Disk} (h : P d) :
    ((scan (wipeTurn env fs wipeSub) (List.range' 0 (fs.bytesPerCluster / 32))
      ⟨fun i => d (clusterSector fs cur * 512 + i), false, d⟩).resume).Sat
      (fun s => P (if s.modified then (writeCluster env fs s.disk cur s.buf).2 else s.disk))
      (fun _ => R) := by
  have hfalls := scan_falls (f := wipeTurn env fs wipeSub)
    (N := fun i s => WipeOk P fs S M d₀ cur s ∧ Open fs past d₀ cur i)
    (S := WipeOk P fs S M d₀ cur) (R := fun _ => R) (fs.bytesPerCluster / 32) 0
    (fun i s _ hlt hs => (wipeTurn_falls hinv hM hchain hsub hcur
      (by rw [hz.bpc] at hlt; omega) hs).imp (fun _ h => h) fun _ h => h.1)
    (s := ⟨fun i => d (clusterSector fs cur * 512 + i), false, d⟩)
    ⟨⟨h, (hinv.erased h).bufOk _ _⟩, Or.inr fun j hj => absurd hj (Nat.not_lt_zero j)⟩
  have hdone : ∀ s, WipeOk P fs S M d₀ cur s →
      P (if s.modified then (writeCluster env fs s.disk cur s.buf).2 else s.disk) := by
    intro s hs
    split
    · rw [writeCluster, if_neg (fs.not_clusterGuard hz.spc hcur.lim.1), bdevWrite_eq]
      exact hinv.blit hs.disk (fun k hk => Or.inl ((hchain n cur hcur).2 k hk)) hs.buf
    · exact hs.disk
  exact (hfalls.sat (fun s hs => hdone s hs.1) hdone).resume

theorem wipeLoop_ends :
    ∀ (visits n cur : Nat) (d : Disk), n + visits = maxVisits →
      (2 ≤ cur → cur < fs.eofLimit → 0 < visits → Along env fs d₀ c n cur) → P d →
      Ends P R (wipeLoop env fs wipeSub visits cur d) := by
  intro visits
  induction visits with
  | zero =>
    intro n cur d _ _ h
    exact h
  | succ visits ih =>
    intro n cur d hn hcur h
    rw [wipeLoop]
    split
    · next hlim =>
      have halong := hcur hlim.1 hlim.2 (Nat.succ_pos _)
      have hloop := wipeCluster_sat hz hinv hM hchain hsub halong h
      rw [hz.readCluster_eq env hlim.1]
      dsimp only
      generalize (scan (wipeTurn env fs wipeSub) (List.range' 0 (fs.bytesPerCluster / 32))
        ⟨fun i => d (clusterSector fs cur * 512 + i), false, d⟩).resume = r at hloop ⊢
      cases r with
      | ret _ => exact hloop
      | next s | stop s =>
        have hd : P (if s.modified then (writeCluster env fs s.disk cur s.buf).2 else s.disk) := hloop
        dsimp only
        generalize (if s.modified then (writeCluster env fs s.disk cur s.buf).2 else s.disk) = d₁
          at hd ⊢
        split
        · exact hd
        · next hgo =>
          refine ih (n + 1) _ _ (by omega) (fun _ hlt hpos => ?_) hd
          exact hinv.along hd (Or.inl (hchain n cur halong).1) halong (by omega) hgo hlt
    · exact h

end

section

variable {fs : FatFs} (hz : fs.Sized) {env : Env} [env.NoFault] {S : Places} {M : Slot → Prop}
  {past : Bool} {d₀ : Disk} {P : Disk → Prop} (hinv : RemovalInv env fs S M d₀ P)
  (hM : ∀ e, M e → past = true ∨ e.isEnd = false) {D E : Nat → Prop}
  (hb : Confined env fs S d₀ past D E) (hmark : ∀ c e, D c → Lists env fs d₀ past c e → M e)
  {R : Prop}

include hz hinv hM hb hmark

/-- `fat_wipe_dir_contents` keeps what the two steps keep, and it needs no more nested
    calls than the directories below have ranks. -/
theorem fatWipeDirContents_ends {rank : Nat → Nat}
    (hrank : ∀ c c', D c → SubDir env fs d₀ past c c' → R ∨ rank c' < rank c) :
    ∀ (fuel c : Nat) (d : Disk), D c → R ∨ rank c < fuel → P d →
      Ends P R (fatWipeDirContents env fs fuel c d) := by
  intro fuel
  induction fuel with
  | zero =>
    intro c d _ hfuel _
    exact hfuel.resolve_right (Nat.not_lt_zero _)
  | succ fuel ih =>
    intro c d hc hfuel h
    have hsub : Empties env fs S M past d₀ P R (fatWipeDirContents env fs fuel) c := by
      intro e d hlists hd
      have hmarked := hmark c e hc hlists
      have hfreed : 2 ≤ e.cluster → ∀ n x, Along env fs d₀ e.cluster n x → S.freed x :=
        fun hge => hb.chains _ (hb.entries c hc e hlists hge).1
      split
      · next hdir =>
        split
        · next hge =>
          have hnested := ih e.cluster d ((hb.entries c hc e hlists hge).2 hdir) (by
            rcases hrank c _ hc ⟨e, hlists, hdir, hge, rfl⟩ with hR | hlt
            · exact Or.inl hR
            · exact hfuel.imp_right fun hf => by omega) hd
          exact hnested.imp fun d hd => ⟨hd, hmarked, hfreed⟩
        · exact ⟨hd, hmarked, hfreed⟩
      · exact ⟨hd, hmarked, hfreed⟩
    rw [fatWipeDirContents]
    split
    · exact h
    · split
      · exact h
      · exact wipeLoop_ends hz hinv hM (hb.dirs c hc) hsub _ 0 _ _ (Nat.zero_add _)
          (fun hge hlt _ => Along.start ⟨hge, hlt⟩) h

end

/-! ### Erasing an entry -/

/-- A directory sector from which no long name reaches into a sector that is not marked: its
    slots, 20 at most, lie in the two sectors behind it. -/
structure Places.Spread (S : Places) (sec : Nat) : Prop where
  lt : sec < 4294967296
  sector : S.sectors sec
  reach : ∀ t, t ≤ 2 → S.Marked (u32 (sec + t))

section

variable {fs : FatFs} (hz : fs.Sized) {env : Env} [env.NoFault] {S : Places} {d₀ : Disk}
  {P : Disk → Prop} (hinv : RemovalInv env fs S (fun _ => True) d₀ P)

include hz hinv

theorem eraseLfnLoop_keeps {sec : Nat} (hsec : S.Spread sec) : ∀ (count t slot : Nat) (d : Disk)
    (buf : Buf), slot < 16 → 16 * t + slot + count ≤ 35 → P d →
    BufOk S (fun _ => True) d₀ (u32 (sec + t)) 1 buf →
    P (eraseLfnLoop env fs count d (u32 (sec + t)) slot buf) := by
  intro count
  induction count with
  | zero =>
    intro t slot d buf _ hle h hbuf
    exact hinv.writeSector h (hsec.reach t (by omega)) hbuf
  | succ count ih =>
    intro t slot d buf hslot hle h hbuf
    have hbuf' := hbuf.erase (e := slot) trivial
    rw [eraseLfnLoop]
    dsimp only
    rw [hz.bps]
    split
    · have hw := hinv.writeSector h (hsec.reach t (by omega)) hbuf'
      rw [bdevRead_eq, u32_u32_add, Nat.add_assoc]
      exact ih (t + 1) 0 _ _ (by decide) (by omega) hw ((hinv.erased hw).bufOk _ _)
    · exact ih t (slot + 1) d _ (by omega) (by omega) h hbuf'

theorem eraseSlots_keeps {d : Disk} (h : P d) {sector : Nat} (slot : Nat)
    (hsec : S.Spread sector) {p : LfnParser} (hparser : ParserOk S.Spread p) :
    P (eraseSlots env fs d sector slot p.startSec p.startSlot p.totalLfnEntries).2 := by
  have hlfn : P
      (if p.totalLfnEntries > 0 ∧ p.startSec > 0 ∧ p.startSlot ≥ 0 then
        eraseLfnLoop env fs p.totalLfnEntries d p.startSec p.startSlot.toNat
          fun i => d (p.startSec * 512 + i)
      else d) := by
    split
    · next hpos =>
      obtain ⟨hstart, k, hk, hslot⟩ := hparser.start hpos.1
      have hcount := hparser.count
      have hkeeps := eraseLfnLoop_keeps hz hinv hstart p.totalLfnEntries 0 k d _ hk (by omega) h
        ((hinv.erased h).bufOk _ _)
      rw [Nat.add_zero, u32_of_lt hstart.lt] at hkeeps
      simp only [hslot, Int.toNat_natCast]
      exact hkeeps
    · exact h
  unfold eraseSlots
  simp only [bdevRead_eq]
  generalize (if p.totalLfnEntries > 0 ∧ p.startSec > 0 ∧ p.startSlot ≥ 0 then
    eraseLfnLoop env fs p.totalLfnEntries d p.startSec p.startSlot.toNat
      fun i => d (p.startSec * 512 + i)
    else d) = d₁ at hlfn ⊢
  exact hinv.writeSector hlfn (Or.inl hsec.sector) (((hinv.erased hlfn).bufOk sector 1).erase trivial)

variable {D E : Nat → Prop} (hb : Confined env fs S d₀ true D E) {R : Prop} {rank : Nat → Nat}
  (hrank : ∀ c c', D c → SubDir env fs d₀ true c c' → R ∨ rank c' < rank c)
  {fuel : Nat} (hfuel : ∀ c, D c → R ∨ rank c < fuel)

include hb hrank hfuel

theorem fatDeleteEntryAt_ends {d : Disk} (h : P d) {sec : Nat} (slot : Nat) (hsec : S.Spread sec)
    {e : Slot} (he : 2 ≤ e.cluster → E e.cluster ∧ (e.isDirectory = true → D e.cluster))
    {p : LfnParser} (hparser : ParserOk S.Spread p) (recursive : Bool) :
    Ends (fun r : Int × Disk => P r.2) R (fatDeleteEntryAt env fs fuel d sec slot e p.startSec
      p.startSlot p.totalLfnEntries recursive) := by
  have hfree : ∀ d, 2 ≤ e.cluster → P d → P (fatFreeClusterChain env fs d e.cluster) :=
    fun d hge h => fatFreeClusterChain_keeps hinv (hb.chains _ (he hge).1) h
  have hfreed : Ends P R (freeEntry env fs fuel d e) := by
    unfold freeEntry
    dsimp only
    split
    · next hdir =>
      split
      · next hge =>
        have hD := (he hge).2 hdir
        have hwipe := fatWipeDirContents_ends hz hinv (fun _ _ => Or.inl rfl)
          hb (fun _ _ _ _ => trivial) hrank fuel _ d hD (hfuel _ hD) h
        cases hw : fatWipeDirContents env fs fuel e.cluster d with
        | none =>
          rw [hw] at hwipe
          exact hwipe
        | some d₁ =>
          rw [hw] at hwipe
          exact hfree d₁ hge hwipe
      · exact h
    · split
      · next hge => exact hfree d hge h
      · exact h
  unfold fatDeleteEntryAt
  split
  · exact h
  · split
    · next hnone =>
      rw [hnone] at hfreed
      exact hfreed
    · next d₁ hsome =>
      rw [hsome] at hfreed
      exact eraseSlots_keeps hz hinv hfreed slot hsec hparser

end

/-! ### The walk of `fat_remove` -/

/-- The clusters along the FAT from `c` on, however far. -/
inductive OnChain (env : Env) (fs : FatFs) (d : Disk) (c : Nat) : Nat → Prop
  | start (h : fs.Numbers c) : OnChain env fs d c c
  | next {x : Nat} (h : OnChain env fs d c x) (hx : fs.Numbers (getNextCluster env fs d x)) :
      OnChain env fs d c (getNextCluster env fs d x)

theorem OnChain.lim {env : Env} {fs : FatFs} {d : Disk} {c x : Nat} (h : OnChain env fs d c x) :
    fs.Numbers x := by
  cases h with
  | start h => exact h
  | next _ hx => exact hx

def DirSector (env : Env) (fs : FatFs) (d : Disk) (dir : FatDir) (sec : Nat) : Prop :=
  (dir.isRootFixed = true ∧ ∃ i, i < fs.rootDirSectors ∧ sec = fs.rootDirStartSector + i) ∨
    (dir.isRootFixed = false ∧ ∃ x k, OnChain env fs d dir.cluster x ∧ k < fs.sectorsPerCluster ∧
      sec = clusterSector fs x + k)

/-- What the walk notes of a long name satisfies `N`, and an entry of the directory that
    matches leads to what the removal may come to. -/
structure Hits (env : Env) (fs : FatFs) (d : Disk) (dir : FatDir) (target : List UInt8)
    (wildcard : Bool) (N : LfnParser → Prop) (D E : Nat → Prop) : Prop where
  reset : N lfnParserReset
  feed : ∀ p sec slot, N p → DirSector env fs d dir sec → slot < 16 →
    N (lfnParserFeed p (slotAt d (sec * 512 + 32 * slot)) sec slot)
  entry : ∀ p sec slot e, N p → DirSector env fs d dir sec → slot < 16 →
    slotAt d (sec * 512 + 32 * slot) = e → e.Live → e.isDot = false →
    removeMatches wildcard (lfnParserFeed p e sec slot) e target = true → 2 ≤ e.cluster →
    E e.cluster ∧ (e.isDirectory = true → D e.cluster)

structure RemoveOk (P : Disk → Prop) (S : Places) (N : LfnParser → Prop) (s : RemoveState) :
    Prop where
  disk : P s.disk
  parser : ParserOk S.Spread s.parser
  noted : N s.parser

def RemoveRet (P : Disk → Prop) (R : Prop) : Option (Int × Disk) → Prop :=
  Ends (fun x => P x.2) R

theorem remove_ends_of_sat {P : Disk → Prop} {S : Places} {N : LfnParser → Prop} {R : Prop}
    (c : Ctl RemoveState (Option (Int × Disk))) :
    c.Sat (RemoveOk P S N) (RemoveRet P R) →
    Ends (fun x : Int × Disk => P x.2) R (match c with
      | .ret r => r
      | .next s | .stop s => some (if s.removed > 0 then (s.removed : Int) else -1, s.disk)) := by
  intro hc
  cases c with
  | ret x => exact hc
  | next s | stop s => exact hc.disk

/-- `S` has what the walk over the directory comes to. -/
structure Walked (env : Env) (fs : FatFs) (S : Places) (d : Disk) (dir : FatDir) : Prop where
  chain : dir.isRootFixed = false → ∀ x, OnChain env fs d dir.cluster x → S.chains x
  sectors : ∀ sec, DirSector env fs d dir sec → S.Spread sec

section

variable {fs : FatFs} (hz : fs.Sized) {env : Env} [env.NoFault] {S : Places} {d₀ : Disk}
  {P : Disk → Prop} (hinv : RemovalInv env fs S (fun _ => True) d₀ P)
  {D E : Nat → Prop} (hb : Confined env fs S d₀ true D E) {R : Prop} {rank : Nat → Nat}
  (hrank : ∀ c c', D c → SubDir env fs d₀ true c c' → R ∨ rank c' < rank c)
  {fuel : Nat} (hfuel : ∀ c, D c → R ∨ rank c < fuel)

include hz hinv hb hrank hfuel

theorem removeBody_sat {dir : FatDir} (hwalked : Walked env fs S d₀ dir) {target : List UInt8}
    {wildcard : Bool} {N : LfnParser → Prop} (hhits : Hits env fs d₀ dir target wildcard N D E)
    (recursive : Bool) {sec slot : Nat} {s₀ s : RemoveState} (hsec : DirSector env fs d₀ dir sec) (hslot : slot < 16) (h₀ : RemoveOk P S N s₀)
    (h : RemoveOk P S N s) :
    (removeBody env fs fuel target wildcard recursive sec slot
      (slotAt s₀.disk (sec * 512 + 32 * slot)) s).Sat (RemoveOk P S N) (RemoveRet P R) := by
  have hdir := hwalked.sectors sec hsec
  have hreset := parserOk_reset S.Spread
  have hnoted := hhits.reset
  have hkept := (hinv.erased h₀.disk).slots sec slot hdir.sector hslot
  have hfeed := h.parser.feed hdir hslot (slotAt s₀.disk (sec * 512 + 32 * slot))
  unfold removeBody
  dsimp only
  split
  · exact h.disk
  · next hend =>
    split
    · exact ⟨h.disk, hreset, hnoted⟩
    · next hdel =>
      have heq := hkept.eq hdel
      have hfed := hhits.feed _ _ _ h.noted hsec hslot
      rw [← heq] at hfed
      split
      · exact ⟨h.disk, hfeed, hfed⟩
      · next hkind =>
        split
        · exact ⟨h.disk, hreset, hnoted⟩
        · next hdot =>
          split
          · next hmatch =>
            have hdelete := fatDeleteEntryAt_ends hz hinv hb hrank hfuel h.disk slot
              hdir (hhits.entry _ _ _ _ h.noted hsec hslot heq.symm
                (liveSlot_of_guards hend hdel hkind) (Bool.not_eq_true _ ▸ hdot) hmatch)
              hfeed recursive
            split
            · next hnone =>
              rw [hnone] at hdelete
              exact hdelete
            · next r d hsome =>
              rw [hsome] at hdelete
              have hd : P d := hdelete
              split
              · split
                · exact ⟨hd, hreset, hnoted⟩
                · exact hd
              · split
                · exact hd
                · exact ⟨hd, hreset, hnoted⟩
          · exact ⟨h.disk, hreset, hnoted⟩

/-- **`fat_remove`** keeps what the two steps keep, and it returns if the directories have
    ranks below `fuel`. -/
theorem fatRemove_ends (h : P d₀) (path : List UInt8) (recursive : Bool)
    (hwalk : ∀ dir target, fatResolveParentAndName env fs d₀ path = some (dir, target) →
      Walked env fs S d₀ dir ∧ ∃ N, Hits env fs d₀ dir target (target.contains 0x2A || target.contains 0x3F) N D E) :
    Ends (fun x : Int × Disk => P x.2) R (fatRemove env fs fuel d₀ path recursive) := by
  unfold fatRemove
  split
  · exact h
  · next dir target hpath =>
    obtain ⟨hwalked, N, hhits⟩ := hwalk dir target hpath
    split
    · exact h
    · dsimp only
      have hstart : RemoveOk P S N ⟨lfnParserReset, 0, d₀⟩ :=
        ⟨h, parserOk_reset _, hhits.reset⟩
      have hbody : ∀ sec e (s₀ s : RemoveState), DirSector env fs d₀ dir sec → e < 16 →
          RemoveOk P S N s₀ → RemoveOk P S N s →
          (removeBody env fs fuel target (target.contains 0x2A || target.contains 0x3F) recursive
            sec e (slotAt s₀.disk (sec * 512 + 32 * e)) s).Sat (RemoveOk P S N) (RemoveRet P R) :=
        fun sec e s₀ s hsec he h₀ hs =>
          removeBody_sat hz hinv hb hrank hfuel hwalked hhits recursive hsec he h₀ hs
      apply remove_ends_of_sat
      cases hfix : dir.isRootFixed with
      | true =>
        rw [if_pos rfl]
        refine scanRootDir_sat env hbody (fun i hi => ?_) hstart
        have hsec : DirSector env fs d₀ dir (fs.rootDirStartSector + i) :=
          Or.inl ⟨hfix, i, hi, rfl⟩
        exact ⟨(hwalked.sectors _ hsec).lt, hsec⟩
      | false =>
        rw [if_neg Bool.false_ne_true]
        split
        · exact hstart.disk
        · split
          · exact hstart.disk
          · refine scanChain_sat hz env (V := OnChain env fs d₀ dir.cluster) hbody
              (fun c s hc hs hge hlt => ?_) (fun c hc k hk => ?_) (fun _ _ _ hs => hs) _ _ _
              (fun hge hlt => OnChain.start ⟨hge, hlt⟩) hstart
            · have heq := ((hinv.erased hs.disk).next c
                (Or.inl (hwalked.chain hfix c hc))).resolve_left fun h0 =>
                  noCluster_not_lt fs (h0 ▸ hlt)
              rw [heq] at hge hlt ⊢
              exact OnChain.next hc ⟨hge, hlt⟩
            · have hsec : DirSector env fs d₀ dir (clusterSector fs c + k) :=
                Or.inr ⟨hfix, c, k, hc, hk, rfl⟩
              exact ⟨(hwalked.sectors _ hsec).lt, hsec⟩

end

/-! ### Volumes in bounds -/

/-- The clusters of a volume, its directories' sectors, and all sectors outside the FAT. -/
def FatFs.places (fs : FatFs) : Places where
  chains c := fs.InRange c ∧ c < fs.eofLimit
  freed c := fs.InRange c ∧ c < fs.eofLimit
  sectors := DirSec fs
  spilled := OutSec fs

section

variable {fs : FatFs} (hp : fs.Placed)

include hp

theorem FatFs.Placed.linkSector_eq (ht : fs.type = .fat16 ∨ fs.type = .fat32) {c : Nat}
    (hc : fs.InRange c) : fs.linkSector c = fs.entSector c := by
  have h1 := (hp.sound ht).entSector_lt hc.2
  have h2 := (hp.sound ht).fatSize_le
  have h3 := hp.dataEnd
  exact u32_of_lt (by omega)

theorem FatFs.Placed.updates_mem {c sec : Nat} (hc : fs.InRange c)
    (h : fs.Updates c sec) : sec = fs.linkSector c ∨
      (fs.fatStartSector + fs.fatSizeSectors ≤ sec ∧
        sec < fs.fatStartSector + fs.numFats * fs.fatSizeSectors) := by
  obtain ⟨ht, hown | ⟨hn, _, rfl⟩⟩ := h
  · exact Or.inl hown
  · have h1 := (hp.sound ht).entSector_lt hc.2
    have h2 : 2 * fs.fatSizeSectors ≤ fs.numFats * fs.fatSizeSectors := Nat.mul_le_mul_right _ hn
    have h3 := hp.fatEnd
    have h4 := hp.dataEnd
    have h5 : fs.fatStartSector ≤ fs.entSector c := Nat.le_add_right _ _
    rw [hp.linkSector_eq ht hc, u32_of_lt (by omega)]
    exact Or.inr ⟨by omega, by omega⟩

theorem FatFs.Placed.apart : fs.places.Apart fs := by
  have hlinks : ∀ x, fs.places.Links x → fs.InRange x ∧ x < fs.eofLimit := fun x hx => hx.elim id id
  have hin : ∀ x, fs.type = .fat16 ∨ fs.type = .fat32 → fs.places.Links x →
      fs.fatStartSector ≤ fs.linkSector x ∧
        fs.linkSector x < fs.fatStartSector + fs.fatSizeSectors := fun x ht hx => by
    have hr := (hlinks x hx).1
    rw [hp.linkSector_eq ht hr]
    exact ⟨Nat.le_add_right _ _, (hp.sound ht).entSector_lt hr.2⟩
  have hone := Nat.le_mul_of_pos_left fs.fatSizeSectors hp.numFats
  refine ⟨fun x hx => ⟨(hlinks x hx).1.1, (hlinks x hx).2⟩, fun ht x sec hx hsec => ?_,
    fun x y hx hy h => ?_, fun y sec hy hsec h => ?_⟩
  · have hlink := hin x ht hx
    rcases hsec with hs | hs | hs
    · have hs := hs.1
      omega
    · omega
    · omega
  · have hlink := hin x h.1 hx
    exact (hp.updates_mem hy.1 h).resolve_right fun hmem => by omega
  · have hlink := hin y h.1 (Or.inl hy)
    have hs := hsec.1
    rcases hp.updates_mem hy.1 h with heq | hmem <;> omega

theorem FatFs.Placed.spread {sec : Nat} (h : DirSec fs sec) : fs.places.Spread sec := by
  have hend := hp.dataEnd
  have hstart := hp.fatStart
  have hge := h.1
  have hlt := h.2
  refine ⟨by omega, h, fun t ht => Or.inr ?_⟩
  rcases Nat.lt_or_ge (sec + t) 4294967296 with hsmall | hbig
  · rw [u32_of_lt hsmall]
    exact Or.inr (by omega)
  · obtain hwrap : sec + t = 4294967296 := by omega
    rw [hwrap]
    exact Or.inl hstart

end

section

variable {fs : FatFs} (hp : fs.Placed) {env : Env} {d : Disk} (hb : InBounds env fs d)

include hb

theorem InBounds.inRange {c n x : Nat} (hc : fs.InRange c) (h : Along env fs d c n x) :
    fs.InRange x := by
  induction h with
  | start => exact hc
  | next _ _ _ hlim ih =>
    exact (hb.entries _ ih).resolve_left fun h0 => noCluster_not_lt fs (h0 ▸ hlim.2)

include hp

omit hb in
theorem FatFs.Placed.clusSlot_eq {c : Nat} (hc : fs.InRange c) (e : Nat) :
    clusterSector fs c * 512 + 32 * e = fs.clusSlot c (e / 16) (e % 16) := by
  rw [hp.clusterSector_eq hc, FatFs.clusSlot]
  omega

theorem InBounds.lists {past : Bool} {c : Nat} (hc : Visits env fs d c) {e : Slot}
    (h : Lists env fs d past c e) :
    ClusOk fs e.cluster ∧ (e.isDirectory = true → 2 ≤ e.cluster → Visits env fs d e.cluster) := by
  obtain ⟨n, x, i, hx, hentry⟩ := h
  have hv := hc.along hx
  have hi := hentry.slot
  have haddr := hentry.entry
  rw [hp.clusSlot_eq (hb.clusters x hv)] at haddr
  subst haddr
  have hk : i / 16 < fs.sectorsPerCluster := by omega
  have he : i % 16 < 16 := Nat.mod_lt _ (by omega)
  exact ⟨hb.slots x hv _ hk _ he hentry.live, fun hdir hge => Visits.sub hv hk he hentry.live hdir hge⟩

theorem InBounds.confined (past : Bool) :
    Confined env fs fs.places d past (Visits env fs d) fs.InRange where
  dirs c hc n x hx := by
    have hin := hb.clusters x (hc.along hx)
    refine ⟨⟨hin, hx.lim.2⟩, fun k hk => ?_⟩
    rw [hp.clusterSector_eq hin]
    exact hp.dirSec hin hk
  chains c hc n x hx := ⟨hb.inRange hc hx, hx.lim.2⟩
  entries c hc e he hge := by
    obtain ⟨hclus, hsub⟩ := hb.lists hp hc he
    exact ⟨hclus.resolve_left (Nat.not_lt.mpr hge), fun hdir => hsub hdir hge⟩

omit hp hb in
theorem Visits.onChain {c x : Nat} (hc : 2 ≤ c → Visits env fs d c) (h : OnChain env fs d c x) :
    Visits env fs d x := by
  induction h with
  | start h => exact hc h.1
  | next _ hx ih => exact Visits.next ih fun h0 => noCluster_not_lt fs (h0 ▸ hx.2)

theorem DirSector.visitSec {dir : FatDir} (hdir : VisitDir env fs d dir) {sec : Nat}
    (h : DirSector env fs d dir sec) : VisitSec env fs d sec := by
  rcases hdir with ⟨hfix, ht⟩ | ⟨hfix, hc⟩ <;> rcases h with ⟨hfix', i, hi, rfl⟩ | ⟨hfix', x, k, hx, hk, rfl⟩
  · exact Or.inr ⟨ht, i, hi, rfl⟩
  · simp [hfix] at hfix'
  · simp [hfix] at hfix'
  · have hv := Visits.onChain (fun hge => hc.resolve_left (Nat.not_lt.mpr hge)) hx
    exact Or.inl ⟨x, hv, k, hk, by rw [hp.clusterSector_eq (hb.clusters x hv)]⟩

theorem InBounds.hits {path : List UInt8} {dir : FatDir} {target : List UInt8}
    (h : fatResolveParentAndName env fs d path = some (dir, target)) (wildcard : Bool) :
    Walked env fs fs.places d dir ∧
      Hits env fs d dir target wildcard (fun _ => True) (Visits env fs d) fs.InRange := by
  have hdir := (fatResolveParentAndName_ok h).1
  refine ⟨⟨fun hfix x hx => ?_, fun sec hsec => hp.spread ?_⟩, trivial, fun _ _ _ _ _ _ => trivial, ?_⟩
  · refine ⟨hb.clusters x (Visits.onChain (fun hge => ?_) hx), hx.lim.2⟩
    rcases hdir with ⟨hfix', _⟩ | ⟨_, hc⟩
    · simp [hfix] at hfix'
    · exact hc.resolve_left (Nat.not_lt.mpr hge)
  · exact (hsec.visitSec hp hb hdir).dirSec hp env hb
  · intro p sec slot e _ hsec hslot he hlive _ _ hge
    subst he
    have hv := hsec.visitSec hp hb hdir
    exact ⟨(hv.clusOk env hb hslot hlive).resolve_left (Nat.not_lt.mpr hge),
      fun hd => hv.sub env hslot hlive hd hge⟩

end

end Gemios
