import Gemios.FatMirror

/-!
# What the driver comes to on an arbitrary volume

Walks over directories that need not be well formed: the clusters and slots they come
to, and what they note of a long name.  A volume is in bounds when every cluster
number met there lies in it.
-/

namespace Gemios

/-! ### Walks over a directory -/

section Walk

variable {σ ρ : Type} {fs : FatFs} (hp : fs.Sized) (env : Env) [env.NoFault] {disk : σ → Disk}
  {body : Nat → Nat → Slot → σ → Ctl σ ρ} {I : σ → Prop} {R : ρ → Prop} {S V : Nat → Prop}
  -- `S` holds of the sectors the walk comes to, `V` of its clusters
  (hbody : ∀ sec e s₀ s, S sec → e < 16 → I s₀ → I s →
    (body sec e (slotAt (disk s₀) (sec * 512 + 32 * e)) s).Sat I R)

include hbody

theorem scanRootDir_sat (hS : ∀ i, i < fs.rootDirSectors →
      fs.rootDirStartSector + i < 4294967296 ∧ S (fs.rootDirStartSector + i)) {s : σ}
    (hs : I s) : (scanRootDir env fs disk body s).Sat I R := by
  unfold scanRootDir
  refine scan_sat (fun i hi st hst => ?_) hs
  rw [List.mem_range'_1] at hi
  have hlt : i < fs.rootDirSectors := by
    have := hi.2
    split at this <;> omega
  simp only [u32_of_lt (hS i hlt).1, bdevRead_eq]
  refine scan_sat (fun e he s' hs' => ?_) hst
  rw [List.mem_range'_1] at he
  have hslot : slotAt (fun j => disk st ((fs.rootDirStartSector + i) * 512 + j)) (32 * e) =
      slotAt (disk st) ((fs.rootDirStartSector + i) * 512 + 32 * e) := by
    funext j
    simp only [slotAt, Nat.add_assoc]
  rw [hslot]
  exact hbody _ _ _ _ (hS i hlt).2 (by omega) hst hs'

include hp

omit [env.NoFault] in
theorem scanCluster_sat {c : Nat} (hS : ∀ k, k < fs.sectorsPerCluster →
      clusterSector fs c + k < 4294967296 ∧ S (clusterSector fs c + k)) {s₀ s : σ} (hs₀ : I s₀)
    (hs : I s) :
    (scanCluster fs body c (fun i => disk s₀ (clusterSector fs c * 512 + i)) s).Sat I R := by
  unfold scanCluster
  refine scan_sat (fun e he s' hs' => ?_) hs
  rw [List.mem_range'_1, hp.bpc] at he
  have hk : e * 32 / 512 < fs.sectorsPerCluster := by omega
  obtain ⟨hlt, hsec⟩ := hS _ hk
  have hcur : u32 (fs.dataStartSector + u32 ((c - 2) * fs.sectorsPerCluster) + e * 32 / 512) =
      clusterSector fs c + e * 32 / 512 := by
    rw [← u32_u32_add]
    exact u32_of_lt hlt
  have hslot : slotAt (fun j => disk s₀ (clusterSector fs c * 512 + j)) (32 * e) =
      slotAt (disk s₀) ((clusterSector fs c + e * 32 / 512) * 512 + 32 * (e % 16)) := by
    rw [show (clusterSector fs c + e * 32 / 512) * 512 + 32 * (e % 16) =
      clusterSector fs c * 512 + 32 * e by omega]
    funext j
    simp only [slotAt, Nat.add_assoc]
  simp only [hp.bps, hcur, hslot]
  exact hbody _ _ _ _ hsec (Nat.mod_lt _ (by omega)) hs₀ hs'

theorem scanChain_sat {enter : Nat → σ → σ}
    (hnext : ∀ c s, V c → I s → 2 ≤ getNextCluster env fs (disk s) c →
      getNextCluster env fs (disk s) c < fs.eofLimit → V (getNextCluster env fs (disk s) c))
    (hS : ∀ c, V c → ∀ k, k < fs.sectorsPerCluster →
      clusterSector fs c + k < 4294967296 ∧ S (clusterSector fs c + k))
    (henter : ∀ c s, V c → I s → I (enter c s)) :
    ∀ (visits cur : Nat) (s : σ), (2 ≤ cur → cur < fs.eofLimit → V cur) → I s →
      (scanChain env fs disk enter body visits cur s).Sat I R := by
  intro visits
  induction visits with
  | zero =>
    intro cur s _ hs
    exact hs
  | succ visits ih =>
    intro cur s hcur hs
    rw [scanChain]
    split
    · next hlim =>
      have hv := hcur hlim.1 hlim.2
      have hs' := henter cur s hv hs
      simp only [hp.readCluster_eq env hlim.1]
      have hsat := (scanCluster_sat hp hbody (hS cur hv) hs' hs').resume
      generalize (scanCluster fs body cur _ (enter cur s)).resume = r at *
      cases r with
      | ret r => exact hsat
      | stop s₁ => exact hsat
      | next s₁ =>
        dsimp only
        split
        · exact hsat
        · exact ih _ _ (hnext cur s₁ hv hsat) hsat
    · exact hs

end Walk

section

variable {σ ρ : Type} (env : Env) (fs : FatFs) {disk : σ → Disk}
  {body : Nat → Nat → Slot → σ → Ctl σ ρ} {I : σ → Prop} {R : ρ → Prop}
  (hbody : ∀ sec e slot s, I s → (body sec e slot s).Sat I R)

include hbody

theorem scanRootDir_inv {s : σ} (hs : I s) : (scanRootDir env fs disk body s).Sat I R := by
  unfold scanRootDir
  refine scan_sat (fun i _ st hst => ?_) hs
  dsimp only
  split
  · exact hst
  · exact scan_sat (fun e _ s' hs' => hbody _ _ _ _ hs') hst

theorem scanChain_inv {enter : Nat → σ → σ} (henter : ∀ c s, I s → I (enter c s)) :
    ∀ (visits cur : Nat) (s : σ), I s →
      (scanChain env fs disk enter body visits cur s).Sat I R := by
  intro visits
  induction visits with
  | zero =>
    intro cur s hs
    exact hs
  | succ visits ih =>
    intro cur s hs
    rw [scanChain]
    split
    · dsimp only
      split
      · exact henter cur s hs
      · next buf _ =>
        have hsat : ((scanCluster fs body cur buf (enter cur s)).resume).Sat I R :=
          (scan_sat (fun e _ s' hs' => hbody _ _ _ _ hs') (henter cur s hs)).resume
        generalize (scanCluster fs body cur buf (enter cur s)).resume = r at hsat ⊢
        cases r with
        | ret r => exact hsat
        | stop s₁ => exact hsat
        | next s₁ =>
          dsimp only
          split
          · exact hsat
          · exact ih _ _ hsat
    · exact hs

end

section

variable {σ σ' ρ ρ' : Type} (env : Env) (fs : FatFs) {disk : σ → Disk} {disk' : σ' → Disk}
  {body : Nat → Nat → Slot → σ → Ctl σ ρ} {body' : Nat → Nat → Slot → σ' → Ctl σ' ρ'}
  {f : σ → σ'} {g : ρ → ρ'} (hdisk : ∀ s, disk' (f s) = disk s)
  (hbody : ∀ sec e slot s, body' sec e slot (f s) = (body sec e slot s).map f g)

include hdisk hbody

theorem scanRootDir_map (s : σ) :
    scanRootDir env fs disk' body' (f s) = (scanRootDir env fs disk body s).map f g := by
  unfold scanRootDir
  refine scan_map_state (fun i st => ?_) _ s
  rw [hdisk]
  dsimp only
  cases bdevRead env (disk st) (u32 (fs.rootDirStartSector + i)) with
  | none => rfl
  | some sector => exact scan_map_state (fun e st => hbody _ _ _ _) _ st

theorem scanChain_map : ∀ (visits cur : Nat) (s : σ),
    scanChain env fs disk' (fun _ s => s) body' visits cur (f s) =
      (scanChain env fs disk (fun _ s => s) body visits cur s).map f g := by
  intro visits
  induction visits with
  | zero =>
    intro cur s
    rfl
  | succ visits ih =>
    intro cur s
    rw [scanChain, scanChain]
    dsimp only
    split
    · rw [hdisk]
      cases readCluster env fs (disk s) cur with
      | none => rfl
      | some buf =>
        have hscan : scanCluster fs body' cur buf (f s) = (scanCluster fs body cur buf s).map f g :=
          scan_map_state (fun e st => hbody _ _ _ _) _ s
        dsimp only
        rw [hscan, Ctl.resume_map]
        cases (scanCluster fs body cur buf s).resume with
        | ret r => rfl
        | stop s₁ => rfl
        | next s₁ =>
          dsimp only [Ctl.map]
          rw [hdisk, ih]
          split <;> rfl
    · rfl

end

/-! ### Cluster numbers in directories -/

/-- Address of slot `e` of sector `k` of a cluster. -/
def FatFs.clusSlot (fs : FatFs) (c k e : Nat) : Nat :=
  (fs.dataStartSector + (c - 2) * fs.sectorsPerCluster + k) * 512 + 32 * e

/-- Address of slot `e` of sector `i` of the fixed root area. -/
def FatFs.rootSlot (fs : FatFs) (i e : Nat) : Nat := (fs.rootDirStartSector + i) * 512 + 32 * e

/-- The clusters of directories that the driver can come to: by a path, along the
    FAT, and through the directory entries it finds there. -/
inductive Visits (env : Env) (fs : FatFs) (d : Disk) : Nat → Prop
  | path {path : List UInt8} {dir : FatDir} {name : List UInt8}
      (h : fatResolveParentAndName env fs d path = some (dir, name))
      (hfix : dir.isRootFixed = false) (hc : 2 ≤ dir.cluster) : Visits env fs d dir.cluster
  | next {c : Nat} (h : Visits env fs d c) (hc : getNextCluster env fs d c ≠ noCluster) :
      Visits env fs d (getNextCluster env fs d c)
  | sub {c k e : Nat} (h : Visits env fs d c) (hk : k < fs.sectorsPerCluster) (he : e < 16)
      (hl : Slot.Live (slotAt d (fs.clusSlot c k e)))
      (hd : (slotAt d (fs.clusSlot c k e)).isDirectory = true)
      (hc : 2 ≤ (slotAt d (fs.clusSlot c k e)).cluster) :
      Visits env fs d (slotAt d (fs.clusSlot c k e)).cluster
  | root {i e : Nat} (ht : fs.type ≠ .fat32) (hi : i < fs.rootDirSectors) (he : e < 16)
      (hl : Slot.Live (slotAt d (fs.rootSlot i e)))
      (hd : (slotAt d (fs.rootSlot i e)).isDirectory = true)
      (hc : 2 ≤ (slotAt d (fs.rootSlot i e)).cluster) :
      Visits env fs d (slotAt d (fs.rootSlot i e)).cluster

/-- Every cluster number in the FAT and in the directories is 0, 1 or in the volume. -/
structure InBounds (env : Env) (fs : FatFs) (d : Disk) : Prop where
  entries : EntriesOk env fs d
  clusters : ∀ c, Visits env fs d c → fs.InRange c
  slots : ∀ c, Visits env fs d c → ∀ k, k < fs.sectorsPerCluster → ∀ e, e < 16 →
    Slot.Live (slotAt d (fs.clusSlot c k e)) → ClusOk fs (slotAt d (fs.clusSlot c k e)).cluster
  rootSlots : fs.type ≠ .fat32 → ∀ i, i < fs.rootDirSectors → ∀ e, e < 16 →
    Slot.Live (slotAt d (fs.rootSlot i e)) → ClusOk fs (slotAt d (fs.rootSlot i e)).cluster

/-- The sectors of the directories the driver can come to. -/
def VisitSec (env : Env) (fs : FatFs) (d : Disk) (sec : Nat) : Prop :=
  (∃ c, Visits env fs d c ∧ ∃ k, k < fs.sectorsPerCluster ∧
      sec = fs.dataStartSector + (c - 2) * fs.sectorsPerCluster + k) ∨
    (fs.type ≠ .fat32 ∧ ∃ i, i < fs.rootDirSectors ∧ sec = fs.rootDirStartSector + i)

def VisitDir (env : Env) (fs : FatFs) (d : Disk) (dir : FatDir) : Prop :=
  (dir.isRootFixed = true ∧ fs.type ≠ .fat32) ∨
    (dir.isRootFixed = false ∧ (dir.cluster < 2 ∨ Visits env fs d dir.cluster))

section

variable {fs : FatFs} (hp : fs.Placed) (env : Env) [env.NoFault] {d : Disk}
  (hb : InBounds env fs d)

include hp hb

omit [env.NoFault] in
theorem VisitSec.dirSec {sec : Nat} (h : VisitSec env fs d sec) : DirSec fs sec := by
  rcases h with ⟨c, hc, k, hk, rfl⟩ | ⟨_, i, hi, rfl⟩
  · exact hp.dirSec (hb.clusters c hc) hk
  · have h1 := hp.root (by omega)
    constructor <;> omega

omit hp [env.NoFault] in
theorem VisitSec.clusOk {sec e : Nat} (h : VisitSec env fs d sec) (he : e < 16)
    (hl : Slot.Live (slotAt d (sec * 512 + 32 * e))) :
    ClusOk fs (slotAt d (sec * 512 + 32 * e)).cluster := by
  rcases h with ⟨c, hc, k, hk, rfl⟩ | ⟨ht, i, hi, rfl⟩
  · exact hb.slots c hc k hk e he hl
  · exact hb.rootSlots ht i hi e he hl

omit hp hb [env.NoFault] in
theorem VisitSec.sub {sec e : Nat} (h : VisitSec env fs d sec) (he : e < 16)
    (hl : Slot.Live (slotAt d (sec * 512 + 32 * e)))
    (hd : (slotAt d (sec * 512 + 32 * e)).isDirectory = true)
    (hc : 2 ≤ (slotAt d (sec * 512 + 32 * e)).cluster) :
    Visits env fs d (slotAt d (sec * 512 + 32 * e)).cluster := by
  rcases h with ⟨c, hv, k, hk, rfl⟩ | ⟨ht, i, hi, rfl⟩
  · exact Visits.sub hv hk he hl hd hc
  · exact Visits.root ht hi he hl hd hc

omit [env.NoFault] in
theorem visitSec_of_cluster {c k : Nat} (hc : Visits env fs d c) (hk : k < fs.sectorsPerCluster) :
    clusterSector fs c + k < 4294967296 ∧ VisitSec env fs d (clusterSector fs c + k) := by
  have hin := hb.clusters c hc
  have hle := fs.cluster_sectors_le hin
  have hend := hp.dataEnd
  rw [hp.clusterSector_eq hin]
  exact ⟨by omega, Or.inl ⟨c, hc, k, hk, rfl⟩⟩

omit hb [env.NoFault] in
theorem visitSec_of_root (ht : fs.type ≠ .fat32) {i : Nat} (hi : i < fs.rootDirSectors) :
    fs.rootDirStartSector + i < 4294967296 ∧ VisitSec env fs d (fs.rootDirStartSector + i) := by
  have hroot := hp.root (by omega)
  have hend := hp.dataEnd
  exact ⟨by omega, Or.inr ⟨ht, i, hi, rfl⟩⟩

omit hp hb [env.NoFault] in
theorem Visits.step {c : Nat} (hc : Visits env fs d c)
    (hlt : getNextCluster env fs d c < fs.eofLimit) : Visits env fs d (getNextCluster env fs d c) :=
  Visits.next hc fun h0 => noCluster_not_lt fs (h0 ▸ hlt)

end

/-! ### The long-name parser's notes -/

/-- What the parser has noted about the run under way. -/
structure ParserOk (S : Nat → Prop) (p : LfnParser) : Prop where
  count : p.totalLfnEntries ≤ 20
  start : 0 < p.totalLfnEntries → S p.startSec ∧
    ∃ k : Nat, k < 16 ∧ p.startSlot = k

theorem parserOk_reset (S : Nat → Prop) : ParserOk S lfnParserReset :=
  ⟨by decide, fun h => absurd h (by decide)⟩

section

variable (p : LfnParser) (e : Slot) (seq : Nat)

@[simp] theorem LfnParser.storeChars_totalLfnEntries :
    (p.storeChars e seq).totalLfnEntries = p.totalLfnEntries := by
  unfold LfnParser.storeChars
  dsimp only
  split <;> rfl

@[simp] theorem LfnParser.storeChars_startSec : (p.storeChars e seq).startSec = p.startSec := by
  unfold LfnParser.storeChars
  dsimp only
  split <;> rfl

@[simp] theorem LfnParser.storeChars_startSlot : (p.storeChars e seq).startSlot = p.startSlot := by
  unfold LfnParser.storeChars
  dsimp only
  split <;> rfl

end

theorem ParserOk.feed {S : Nat → Prop} {p : LfnParser} (h : ParserOk S p) {sec slot : Nat}
    (hsec : S sec) (hslot : slot < 16) (e : Slot) : ParserOk S (lfnParserFeed p e sec slot) := by
  unfold lfnParserFeed
  dsimp only
  split
  · exact parserOk_reset S
  · split
    · split
      · exact parserOk_reset S
      · next hseq =>
        split
        · constructor
          · simp only [LfnParser.storeChars_totalLfnEntries]
            omega
          · intro _
            simp only [LfnParser.storeChars_startSec, LfnParser.storeChars_startSlot]
            exact ⟨hsec, slot, hslot, rfl⟩
        · split
          · exact ⟨h.count, h.start⟩
          · constructor
            · simp only [LfnParser.storeChars_totalLfnEntries]
              exact h.count
            · simp only [LfnParser.storeChars_startSec, LfnParser.storeChars_startSlot,
                LfnParser.storeChars_totalLfnEntries]
              exact h.start
    · split
      · exact ⟨h.count, h.start⟩
      · exact ⟨Nat.zero_le _, fun hpos => absurd hpos (Nat.lt_irrefl 0)⟩

/-! ### Lookup -/

/-- What a lookup reports: a live slot of a directory sector. -/
structure LocOk (env : Env) (fs : FatFs) (d : Disk) (loc : EntryLoc) : Prop where
  sec : VisitSec env fs d loc.sector
  slot : loc.slot < 16
  entry : loc.entry = slotAt d (loc.sector * 512 + 32 * loc.slot)
  live : loc.entry.Live

theorem liveSlot_of_guards {e : Slot} (hend : ¬ e.isEnd = true) (hdel : ¬ e.isDeleted = true)
    (hkind : ¬ (e.isLfn || e.isVolumeId) = true) : e.Live := by
  simp only [Bool.or_eq_true, not_or, Bool.not_eq_true] at hend hdel hkind
  exact ⟨hend, hdel, hkind.1, hkind.2⟩

theorem findBody_sat {env : Env} {fs : FatFs} {d : Disk} (name : List UInt8) {sec e : Nat}
    (hsec : VisitSec env fs d sec) (he : e < 16) (p : LfnParser) :
    (findBody name sec e (slotAt d (sec * 512 + 32 * e)) p).Sat (fun _ => True)
      (fun r => ∀ loc, r = some loc → LocOk env fs d loc) := by
  unfold findBody
  dsimp only
  split
  · intro loc hloc
    cases hloc
  · next hend =>
    split
    · trivial
    · next hdel =>
      split
      · trivial
      · next hkind =>
        split
        · intro loc hloc
          obtain rfl := Option.some.inj hloc
          exact ⟨hsec, he, rfl, liveSlot_of_guards hend hdel hkind⟩
        · trivial

section

variable {fs : FatFs} (hp : fs.Placed) (env : Env) [env.NoFault] {d : Disk}
  (hb : InBounds env fs d)

include hp hb

theorem fatDirFindEntry_locOk {dir : FatDir} (hdir : VisitDir env fs d dir) {name : List UInt8}
    {loc : EntryLoc} (h : fatDirFindEntry env fs d dir name = some loc) : LocOk env fs d loc := by
  unfold fatDirFindEntry at h
  dsimp only at h
  have hfound : ∀ r : Ctl LfnParser (Option EntryLoc), r.found = some loc →
      r.Sat (fun _ => True) (fun r => ∀ loc, r = some loc → LocOk env fs d loc) →
      LocOk env fs d loc := by
    intro r hr hsat
    cases r with
    | next s => cases hr
    | stop s => cases hr
    | ret r => exact hsat loc hr
  refine hfound _ h ?_
  rcases hdir with ⟨hfix, ht⟩ | ⟨hfix, hc⟩
  · rw [if_pos hfix]
    exact scanRootDir_sat env (S := VisitSec env fs d)
      (fun sec e _ p hsec he _ _ => findBody_sat name hsec he p)
      (fun _ hi => visitSec_of_root hp env ht hi) trivial
  · rw [hfix, if_neg Bool.false_ne_true]
    split
    · intro loc hloc
      cases hloc
    · next hguard =>
      split
      · intro loc hloc
        cases hloc
      · have hv := hc.resolve_left fun hlt => hguard (Or.inl hlt)
        exact scanChain_sat hp.sized env (V := Visits env fs d)
          (fun sec e _ p hsec he _ _ => findBody_sat name hsec he p)
          (fun _ _ hc _ _ hlt => Visits.step env hc hlt)
          (fun _ hc _ hk => visitSec_of_cluster hp env hb hc hk) (fun _ _ _ _ => trivial)
          _ _ _ (fun _ _ => hv) trivial

end

/-! ### Paths -/

/-- A fixed root area occurs on FAT12 and FAT16 only. -/
def RootOk (fs : FatFs) (dir : FatDir) : Prop := dir.isRootFixed = true → fs.type ≠ .fat32

theorem rootOk_fatRootDir (fs : FatFs) : RootOk fs (fatRootDir fs) := by
  intro hfix ht
  simp [fatRootDir, ht] at hfix

theorem rootOk_chained {fs : FatFs} (c : Nat) : RootOk fs ⟨false, c⟩ :=
  fun hfix => absurd hfix Bool.false_ne_true

theorem resolveStep_rootOk {env : Env} {fs : FatFs} {d : Disk} {dir dir' : FatDir}
    (hdir : RootOk fs dir) {comp : List UInt8} (h : resolveStep env fs d dir comp = some dir') :
    RootOk fs dir' := by
  unfold resolveStep at h
  split at h
  · cases h
    exact hdir
  · split at h
    · cases h
      unfold parentDir
      split
      · exact rootOk_fatRootDir fs
      · split
        · exact rootOk_fatRootDir fs
        · dsimp only
          split
          · exact rootOk_fatRootDir fs
          · exact rootOk_chained _
    · split at h
      · cases h
      · split at h
        · cases h
          unfold dirOfCluster
          split
          · exact rootOk_fatRootDir fs
          · exact rootOk_chained _
        · cases h

theorem resolveFrom_rootOk {env : Env} {fs : FatFs} {d : Disk} {comps : List (List UInt8)}
    {dir dir' : FatDir} (hdir : RootOk fs dir) (h : resolveFrom env fs d dir comps = some dir') :
    RootOk fs dir' := by
  induction comps generalizing dir with
  | nil =>
    cases h
    exact hdir
  | cons comp comps ih =>
    rw [resolveFrom] at h
    split at h
    · cases h
    · next hstep => exact ih (resolveStep_rootOk hdir hstep) h

theorem fatResolveParentAndName_ok {env : Env} {fs : FatFs} {d : Disk} {path : List UInt8}
    {dir : FatDir} {name : List UInt8}
    (h : fatResolveParentAndName env fs d path = some (dir, name)) :
    VisitDir env fs d dir ∧ name.length ≤ 255 := by
  have hpath := h
  have hok : RootOk fs dir ∧ name.length ≤ 255 := by
    unfold fatResolveParentAndName at h
    split at h
    · cases h
    · dsimp only at h
      split at h
      · cases h
        exact ⟨rootOk_fatRootDir fs, List.length_take_le _ _⟩
      · cases h
        exact ⟨rootOk_fatRootDir fs, List.length_take_le _ _⟩
      · split at h
        · cases h
        · next hres =>
          cases h
          exact ⟨resolveFrom_rootOk (rootOk_fatRootDir fs) hres, List.length_take_le _ _⟩
  refine ⟨?_, hok.2⟩
  cases hfix : dir.isRootFixed with
  | true => exact Or.inl ⟨hfix, hok.1 hfix⟩
  | false =>
    refine Or.inr ⟨hfix, ?_⟩
    rcases Nat.lt_or_ge dir.cluster 2 with hlt | hge
    · exact Or.inl hlt
    · exact Or.inr (Visits.path hpath hfix hge)

end Gemios
