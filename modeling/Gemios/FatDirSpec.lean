import Gemios.FatChain

/-!
# Directories as lists of slots

The slots of a directory in directory order, as byte addresses; every walk of the
driver over a directory is one loop over this list.  A lookup depends on the names
and kinds of the slots only.
-/

namespace Gemios

/-! ### Slot addresses -/

def rootAddrs (fs : FatFs) : List Nat :=
  (List.range' 0 (if fs.rootDirSectors < 1024 then fs.rootDirSectors else 1024)).flatMap fun s =>
    (List.range' 0 16).map fun e => (fs.rootDirStartSector + s) * 512 + 32 * e

def clusSlots (fs : FatFs) (c : Nat) : List Nat :=
  (List.range' 0 (fs.bytesPerCluster / 32)).map fun e => fs.clusAddr c + 32 * e

/-- The clusters of a directory that the walks come to. -/
def dirClusters (fs : FatFs) (d : Disk) (dir : FatDir) : List Nat :=
  (chainOf fs d dir.cluster).take maxVisits

/-- Slots of a directory, in directory order. -/
def dirAddrs (fs : FatFs) (d : Disk) (dir : FatDir) : List Nat :=
  if dir.isRootFixed then rootAddrs fs else (dirClusters fs d dir).flatMap (clusSlots fs)

/-- A directory of the volume: the fixed root area or a well-formed chain. -/
def IsDir (fs : FatFs) (d : Disk) (dir : FatDir) : Prop :=
  dir.isRootFixed = true ∨ HasChain fs d dir.cluster

/-! ### The walks as one loop -/

section Walk

variable {σ ρ : Type}

def atAddr (d : Disk) (body : Nat → Nat → Slot → σ → Ctl σ ρ) (a : Nat) : σ → Ctl σ ρ :=
  body (a / 512) (a % 512 / 32) (slotAt d a)

variable {fs : FatFs} (hs : fs.Sound) (env : Env) [env.NoFault] (d : Disk)
  (body : Nat → Nat → Slot → σ → Ctl σ ρ)

theorem slotAt_shift (d : Disk) (base a : Nat) :
    slotAt (fun i => d (base + i)) a = slotAt d (base + a) := by
  funext i
  simp only [slotAt, Nat.add_assoc]

include hs

theorem scanRootDir_eq (s : σ) :
    scanRootDir env fs (fun _ => d) body s = scan (atAddr d body) (rootAddrs fs) s := by
  simp only [scanRootDir, rootAddrs, scan_flatMap, bdevRead_eq]
  refine scan_congr (fun i hi st => ?_) s
  have hsec : u32 (fs.rootDirStartSector + i) = fs.rootDirStartSector + i := by
    rw [List.mem_range'_1] at hi
    have h1 : i < fs.rootDirSectors := by
      have := hi.2
      split at this <;> omega
    have h2 := hs.root (by omega)
    have h3 := hs.dataEnd
    exact u32_of_lt (by omega)
  rw [hsec, scan_map]
  refine scan_congr (fun e he st => ?_) st
  rw [List.mem_range'_1] at he
  have h1 : ((fs.rootDirStartSector + i) * 512 + 32 * e) / 512 = fs.rootDirStartSector + i := by
    omega
  have h2 : ((fs.rootDirStartSector + i) * 512 + 32 * e) % 512 / 32 = e := by omega
  rw [atAddr, h1, h2, slotAt_shift]

omit [env.NoFault] in
theorem scanCluster_eq {c : Nat} (hc : fs.InRange c) (s : σ) :
    scanCluster fs body c (fun i => d (fs.clusAddr c + i)) s =
      scan (atAddr d body) (clusSlots fs c) s := by
  rw [scanCluster, clusSlots, scan_map]
  refine scan_congr (fun e he st => ?_) s
  rw [List.mem_range'_1, hs.bpc] at he
  have h1 := fs.cluster_sectors_le hc
  have h2 := hs.dataEnd
  have h3 : u32 ((c - 2) * fs.sectorsPerCluster) = (c - 2) * fs.sectorsPerCluster :=
    u32_of_lt (by omega)
  have h4 : u32 (fs.dataStartSector + (c - 2) * fs.sectorsPerCluster + e * 32 / 512) =
      fs.dataStartSector + (c - 2) * fs.sectorsPerCluster + e * 32 / 512 := u32_of_lt (by omega)
  have h5 : (fs.clusAddr c + 32 * e) / 512 =
      fs.dataStartSector + (c - 2) * fs.sectorsPerCluster + e * 32 / 512 := by
    unfold FatFs.clusAddr
    omega
  have h6 : (fs.clusAddr c + 32 * e) % 512 / 32 = e % 16 := by
    unfold FatFs.clusAddr
    omega
  simp only [hs.bps, h3, h4, atAddr, h5, h6, slotAt_shift]

omit hs [env.NoFault] in
theorem scanChain_noCluster (disk : σ → Disk) (enter : Nat → σ → σ) (visits : Nat) (s : σ) :
    scanChain env fs disk enter body visits noCluster s = .next s := by
  cases visits with
  | zero => rfl
  | succ v => rw [scanChain, if_neg fun h => noCluster_not_lt fs h.2]

def clusterTurn (fs : FatFs) (d : Disk) (enter : Nat → σ → σ)
    (body : Nat → Nat → Slot → σ → Ctl σ ρ) (c : Nat) (s : σ) : Ctl σ ρ :=
  (scan (atAddr d body) (clusSlots fs c) (enter c s)).resume

theorem scanChain_eq (enter : Nat → σ → σ) : ∀ (L : List Nat) (visits c : Nat) (s : σ),
    IsChain fs d (c :: L) →
    scanChain env fs (fun _ => d) enter body visits c s =
      scan (clusterTurn fs d enter body) ((c :: L).take visits) s := by
  intro L
  induction L with
  | nil =>
    intro visits c s h
    cases visits with
    | zero => rfl
    | succ v =>
      have hc := h.head_inRange
      rw [scanChain, if_pos ⟨hc.1, hs.lt_eofLimit hc⟩, readCluster_eq hs env d hc,
        List.take_succ_cons, List.take_nil, scan_cons]
      simp only [scanCluster_eq hs d body hc, clusterTurn, scan_nil, getNextCluster_last hs env h,
        scanChain_noCluster env body, ite_self]
      cases (scan (atAddr d body) (clusSlots fs c) (enter c s)).resume <;> rfl
  | cons c' L ih =>
    intro visits c s h
    cases visits with
    | zero => rfl
    | succ v =>
      have hc := h.head_inRange
      have hc' := h.tail.head_inRange
      have hne : ¬ (c' = c ∨ c' < 2) := by
        have h1 := hc'.1
        have h2 := h.head_ne
        omega
      rw [scanChain, if_pos ⟨hc.1, hs.lt_eofLimit hc⟩, readCluster_eq hs env d hc,
        List.take_succ_cons, scan_cons]
      simp only [scanCluster_eq hs d body hc, clusterTurn, getNextCluster_cons hs env h, if_neg hne,
        fun s => ih v c' s h.tail]
      cases (scan (atAddr d body) (clusSlots fs c) (enter c s)).resume <;> rfl

omit hs [env.NoFault] in
theorem scan_resume {α : Type} {f : α → σ → Ctl σ ρ} (hf : ∀ a s s', f a s ≠ .stop s')
    (as : List α) (s : σ) : (scan f as s).resume = scan f as s := by
  induction as generalizing s with
  | nil => rfl
  | cons a as ih =>
    rw [scan_cons]
    cases h : f a s with
    | next s' => exact ih s'
    | stop s' => exact absurd h (hf a s s')
    | ret r => rfl

theorem scanChain_slots (hb : ∀ sec slot e s s', body sec slot e s ≠ .stop s')
    {L : List Nat} {c : Nat} (h : IsChain fs d (c :: L)) (visits : Nat) (s : σ) :
    scanChain env fs (fun _ => d) (fun _ s => s) body visits c s =
      scan (atAddr d body) (((c :: L).take visits).flatMap (clusSlots fs)) s := by
  rw [scanChain_eq hs env d body _ L visits c s h, scan_flatMap]
  refine scan_congr (fun x _ st => ?_) s
  exact scan_resume (fun a s s' => hb _ _ _ _ _) _ _

end Walk

/-! ### Lookup -/

def findIn (d : Disk) (name : List UInt8) (addrs : List Nat) : Option EntryLoc :=
  (scan (atAddr d (findBody name)) addrs lfnParserReset).found

theorem findBody_ne_stop (name : List UInt8) (sec slot : Nat) (e : Slot) (p p' : LfnParser) :
    findBody name sec slot e p ≠ .stop p' := by
  unfold findBody
  split
  · simp
  · split
    · simp
    · dsimp only
      split
      · simp
      · split <;> simp

theorem dirAddrs_of_chain {fs : FatFs} (hs : fs.Sound) {d : Disk} {dir : FatDir}
    (hfix : dir.isRootFixed = false) {L : List Nat} (h : IsChain fs d (dir.cluster :: L)) :
    dirAddrs fs d dir = ((dir.cluster :: L).take maxVisits).flatMap (clusSlots fs) := by
  rw [dirAddrs, hfix, dirClusters, chainOf_eq hs h]
  rfl

/-- **`fat_dir_find_entry` is a lookup over the directory's slots.** -/
theorem fatDirFindEntry_eq {fs : FatFs} (hs : fs.Sound) (env : Env) [env.NoFault] {d : Disk}
    {dir : FatDir} (hdir : IsDir fs d dir) (name : List UInt8) :
    fatDirFindEntry env fs d dir name = findIn d name (dirAddrs fs d dir) := by
  cases hfix : dir.isRootFixed with
  | true =>
    simp only [fatDirFindEntry, hfix, if_true, scanRootDir_eq hs env, findIn, dirAddrs]
  | false =>
    obtain ⟨L, hL⟩ : HasChain fs d dir.cluster := by simpa [IsDir, hfix] using hdir
    have hguard : ¬ (dir.cluster < 2 ∨ fs.bytesPerCluster = 0) := by
      have h1 := hL.head_inRange.1
      have h2 := hs.bpc_pos
      omega
    simp only [fatDirFindEntry, hfix, Bool.false_eq_true, if_false, if_neg hguard, kmallocOk_eq,
      Bool.not_true, scanChain_slots hs env d _ (findBody_ne_stop name) hL, findIn,
      dirAddrs_of_chain hs hfix hL]

def EntryLoc.addr (loc : EntryLoc) : Nat := loc.sector * 512 + 32 * loc.slot

/-- Slots before the end of the directory that hold a short entry. -/
def liveAddrs (d : Disk) (addrs : List Nat) : List Nat :=
  (addrs.takeWhile fun a => !(slotAt d a).isEnd).filter fun a =>
    !(slotAt d a).isDeleted && !(slotAt d a).isLfn && !(slotAt d a).isVolumeId

theorem mem_takeWhile_of_split {α : Type} {p : α → Bool} {pre post : List α} {a : α}
    (hpre : ∀ b ∈ pre, p b = true) (ha : p a = true) : a ∈ (pre ++ a :: post).takeWhile p := by
  rw [List.takeWhile_append_of_pos hpre, List.takeWhile_cons_of_pos ha]
  simp

theorem findIn_some {d : Disk} {name : List UInt8} {addrs : List Nat} {loc : EntryLoc}
    (h : findIn d name addrs = some loc) :
    ∃ pre a post p, addrs = pre ++ a :: post ∧
      scan (atAddr d (findBody name)) pre lfnParserReset = .next p ∧
      a ∈ liveAddrs d addrs ∧
      entryMatches (lfnParserFeed p (slotAt d a) (a / 512) (a % 512 / 32)) (slotAt d a) name = true ∧
      loc = entryLoc (lfnParserFeed p (slotAt d a) (a / 512) (a % 512 / 32)) (slotAt d a)
        (a / 512) (a % 512 / 32) := by
  unfold findIn at h
  cases hscan : scan (atAddr d (findBody name)) addrs lfnParserReset with
  | next s => rw [hscan] at h; cases h
  | stop s => rw [hscan] at h; cases h
  | ret r =>
    rw [hscan] at h
    obtain rfl : r = some loc := h
    obtain ⟨pre, a, post, p, rfl, hpre, hbody⟩ := scan_eq_ret hscan
    have hend : ∀ b ∈ pre, (!(slotAt d b).isEnd) = true := by
      intro b hb
      obtain ⟨s₁, s₂, hb'⟩ := scan_eq_next hpre b hb
      by_contra hne
      simp only [Bool.not_eq_true', Bool.not_eq_false] at hne
      simp [atAddr, findBody, hne] at hb'
    simp only [atAddr, findBody] at hbody
    refine ⟨pre, a, post, p, rfl, hpre, ?_⟩
    split at hbody
    · cases hbody
    · next h1 =>
      split at hbody
      · cases hbody
      · next h2 =>
        split at hbody
        · cases hbody
        · next h3 =>
          split at hbody
          · next h4 =>
            simp only [Ctl.ret.injEq, Option.some.injEq] at hbody
            refine ⟨List.mem_filter.mpr ⟨mem_takeWhile_of_split hend (by simpa using h1), ?_⟩, h4,
              hbody.symm⟩
            simp only [Bool.or_eq_true, not_or, Bool.not_eq_true] at h2 h3
            simp [h2, h3.1, h3.2]
          · cases hbody

/-! ### Lookups that see the same names -/

/-- Two slots a lookup cannot tell apart but for the data it reports: the same name
    bytes and the same kind, and long-name slots unchanged. -/
structure Slot.Alike (e e' : Slot) : Prop where
  name : ∀ i, i < 11 → e' i = e i
  lfn : e'.isLfn = e.isLfn
  volume : e'.isVolumeId = e.isVolumeId
  same : e.isLfn = true → e' = e

theorem Slot.Alike.refl (e : Slot) : Slot.Alike e e := ⟨fun _ _ => rfl, rfl, rfl, fun _ => rfl⟩

section Alike

variable {e e' : Slot} (h : Slot.Alike e e')

include h

theorem Slot.Alike.isEnd : e'.isEnd = e.isEnd := by
  simp only [Slot.isEnd, h.name 0 (by omega)]

theorem Slot.Alike.isDeleted : e'.isDeleted = e.isDeleted := by
  simp only [Slot.isDeleted, h.name 0 (by omega)]

theorem Slot.Alike.name_eq : e'.name = e.name :=
  List.map_congr_left fun i hi => h.name i (by rw [List.mem_range'_1] at hi; omega)

theorem Slot.Alike.formatFatName : formatFatName e' = formatFatName e := by
  have hbase : (List.range' 0 8).map e' = (List.range' 0 8).map e :=
    List.map_congr_left fun i hi => h.name i (by rw [List.mem_range'_1] at hi; omega)
  have hext : (List.range' 8 3).map e' = (List.range' 8 3).map e :=
    List.map_congr_left fun i hi => h.name i (by rw [List.mem_range'_1] at hi; omega)
  simp only [Gemios.formatFatName, h.name 0 (by omega), h.name 1 (by omega), h.name 2 (by omega),
    h.name 8 (by omega), hbase, hext]

theorem Slot.Alike.lfnParserFeed (p : LfnParser) (sec slot : Nat) :
    lfnParserFeed p e' sec slot = lfnParserFeed p e sec slot := by
  by_cases hl : e.isLfn = true
  · rw [h.same hl]
  · have hl' : ¬ e'.isLfn = true := by rwa [h.lfn]
    simp only [Gemios.lfnParserFeed, h.isEnd, h.isDeleted, if_neg hl, if_neg hl', h.name_eq]

end Alike

def EntryLoc.refresh (loc : EntryLoc) (d : Disk) : EntryLoc :=
  { loc with entry := slotAt d loc.addr }

theorem findBody_alike {e e' : Slot} (h : Slot.Alike e e') (name : List UInt8) (sec slot : Nat)
    (p : LfnParser) :
    findBody name sec slot e' p =
      match findBody name sec slot e p with
      | .ret (some loc) => .ret (some { loc with entry := e' })
      | r => r := by
  have hm : ∀ q, entryMatches q e' name = entryMatches q e name := fun q => by
    simp only [entryMatches, h.formatFatName]
  have hl : ∀ q, entryLoc q e' sec slot = { entryLoc q e sec slot with entry := e' } := fun q => by
    simp only [entryLoc, h.formatFatName]
  simp only [findBody, h.isEnd, h.isDeleted, h.lfn, h.volume, h.lfnParserFeed, hm, hl]
  split
  · rfl
  · split
    · rfl
    · split
      · rfl
      · split <;> rfl

/-- **A lookup depends on names and kinds only.** -/
theorem findIn_alike {d d' : Disk} {addrs : List Nat} (h32 : ∀ a ∈ addrs, a % 32 = 0)
    (h : ∀ a ∈ addrs, Slot.Alike (slotAt d a) (slotAt d' a)) (name : List UInt8) :
    findIn d' name addrs = (findIn d name addrs).map (·.refresh d') := by
  unfold findIn
  generalize lfnParserReset = p
  induction addrs generalizing p with
  | nil => rfl
  | cons a addrs ih =>
    have haddr : a / 512 * 512 + 32 * (a % 512 / 32) = a := by
      have := h32 a (by simp)
      omega
    have hbody := findBody_alike (h a (by simp)) name (a / 512) (a % 512 / 32) p
    rw [scan_cons, scan_cons]
    simp only [atAddr] at hbody ⊢
    rw [hbody]
    cases hf : findBody name (a / 512) (a % 512 / 32) (slotAt d a) p with
    | next p' =>
      exact ih (fun b hb => h32 b (by simp [hb])) (fun b hb => h b (by simp [hb])) p'
    | stop p' => rfl
    | ret r =>
      cases r with
      | none => rfl
      | some loc =>
        have hloc : loc.sector = a / 512 ∧ loc.slot = a % 512 / 32 := by
          simp only [findBody] at hf
          split at hf
          · cases hf
          · split at hf
            · cases hf
            · split at hf
              · cases hf
              · split at hf
                · simp only [Ctl.ret.injEq, Option.some.injEq] at hf
                  rw [← hf]
                  exact ⟨rfl, rfl⟩
                · cases hf
        simp only [Ctl.found, Option.map_some, EntryLoc.refresh, EntryLoc.addr, hloc.1, hloc.2, haddr]

end Gemios
