import Gemios.FatMirrorRun
import Gemios.Ranking
import Mathlib.Order.Interval.Finset.Nat

/-!
# The depth of a recursive removal

`fat_wipe_dir_contents` calls itself for every directory it comes to, and keeps no record of
those under way.  Where no directory lies below itself, the calls under way are for different
clusters; where one does, and no two chains meet, the calls have no end.
-/

namespace Gemios

open Relation

/-- The directory at `c'` is the one at `c`, or lies below it. -/
def Below (env : Env) (fs : FatFs) (d : Disk) (past : Bool) : Nat → Nat → Prop :=
  ReflTransGen (SubDir env fs d past)

/-- What the wipe of directories uses: of those that start at a cluster in `D`, their clusters
    and the chains of their entries in `K`. -/
def wipePlaces (env : Env) (fs : FatFs) (d : Disk) (past : Bool) (D : Nat → Prop)
    (K : Slot → Prop) : Places where
  chains x := ∃ b n, D b ∧ Along env fs d b n x
  freed x := ∃ b e n, D b ∧ Lists env fs d past b e ∧ K e ∧ Along env fs d e.cluster n x
  sectors sec := ∃ b n x k, D b ∧ Along env fs d b n x ∧ k < fs.sectorsPerCluster ∧
    sec = clusterSector fs x + k
  spilled _ := False

/-- The directory at `c` and all below it, their chains and those of their entries lie apart
    from what the wipe writes. -/
def TreeApart (env : Env) (fs : FatFs) (d : Disk) (past : Bool) (c : Nat) : Prop :=
  (wipePlaces env fs d past (Below env fs d past c) fun _ => True).Apart fs

/-- Neither the directory at `c` nor one below it lies below itself. -/
def NoDirCycle (env : Env) (fs : FatFs) (d : Disk) (past : Bool) (c : Nat) : Prop :=
  ∀ c', Below env fs d past c c' → ¬ TransGen (SubDir env fs d past) c' c'

/-! ### Directories without a cycle -/

theorem mem_clusters {fs : FatFs} {c : Nat} : c ∈ Finset.Ico 2 fs.eofLimit ↔ fs.Numbers c :=
  Finset.mem_Ico

open Classical in
/-- How deep the calls for the directory at `c` may nest. -/
noncomputable def wipeRank (env : Env) (fs : FatFs) (d : Disk) (past : Bool) (c : Nat) : Nat :=
  if fs.Numbers c then
    (descendants (SubDir env fs d past) (Finset.Ico 2 fs.eofLimit) c).card + 1
  else 0

section

variable {env : Env} {fs : FatFs} {d : Disk} {past : Bool} {c : Nat}

theorem wipeRank_lt {c' : Nat} (hcycle : ¬ TransGen (SubDir env fs d past) c' c')
    (h : SubDir env fs d past c c') : wipeRank env fs d past c' < wipeRank env fs d past c := by
  obtain ⟨e, ⟨n, x, i, hx, hentry⟩, hdir, hge, heq⟩ := h
  rw [wipeRank, wipeRank, if_pos (show fs.Numbers c from hx.first.lim)]
  split
  · next hin' =>
    have hlt := card_descendants_lt_of_rel (mem_clusters.mpr hin') hcycle
      ⟨e, ⟨n, x, i, hx, hentry⟩, hdir, hge, heq⟩
    omega
  · exact Nat.succ_pos _

theorem wipeRank_lt_eofLimit (hcycle : ¬ TransGen (SubDir env fs d past) c c) :
    wipeRank env fs d past c < fs.eofLimit := by
  have hcard : (Finset.Ico 2 fs.eofLimit).card = fs.eofLimit - 2 := Nat.card_Ico _ _
  have hpos := fs.le_eofLimit
  rw [wipeRank]
  split
  · next hin =>
    have hlt := card_descendants_lt (mem_clusters.mpr hin) hcycle
    omega
  · omega

end

section

variable {env : Env} {fs : FatFs} {d : Disk} {past : Bool} {c : Nat}

/-- The entries of the directory at `c` and of those below. -/
def EntryBelow (env : Env) (fs : FatFs) (d : Disk) (past : Bool) (c f : Nat) : Prop :=
  ∃ b e, Below env fs d past c b ∧ Lists env fs d past b e ∧ f = e.cluster

theorem confined_below : Confined env fs (wipePlaces env fs d past (Below env fs d past c)
    fun _ => True) d past (Below env fs d past c) (EntryBelow env fs d past c) where
  dirs b hb n x hx := ⟨⟨b, n, hb, hx⟩, fun k hk => ⟨b, n, x, k, hb, hx, hk, rfl⟩⟩
  chains f hf n x hx := by
    obtain ⟨b, e, hb, hlists, rfl⟩ := hf
    exact ⟨b, e, n, hb, hlists, trivial, hx⟩
  entries b hb e hlists hge :=
    ⟨⟨b, e, hb, hlists, rfl⟩, fun hdir => hb.tail ⟨e, hlists, hdir, hge, rfl⟩⟩

/-- Chains that stay in a volume whose areas lie apart are apart from what the wipe writes. -/
theorem treeApart_of_inRange (hp : fs.Placed) (hown : ∀ n x, Along env fs d c n x → fs.InRange x)
    (hentries : ∀ b e, Below env fs d past c b → Lists env fs d past b e →
      ∀ n x, Along env fs d e.cluster n x → fs.InRange x) : TreeApart env fs d past c := by
  have hchain : ∀ b n x, Below env fs d past c b → Along env fs d b n x → fs.InRange x := by
    intro b n x hb hx
    cases hb with
    | refl => exact hown n x hx
    | tail hbelow hsub =>
      obtain ⟨e, hlists, _, _, rfl⟩ := hsub
      exact hentries _ e hbelow hlists n x hx
  refine hp.apart.mono ?_ ?_ ?_ fun _ => False.elim
  · rintro x ⟨b, n, hb, hx⟩
    exact ⟨hchain b n x hb hx, hx.lim.2⟩
  · rintro x ⟨b, e, n, hb, hlists, _, hx⟩
    exact ⟨hentries b e hb hlists n x hx, hx.lim.2⟩
  · rintro _ ⟨b, n, x, k, hb, hx, hk, rfl⟩
    have hin := hchain b n x hb hx
    rw [hp.clusterSector_eq hin]
    exact hp.dirSec hin hk

/-- **A directory is wiped** where none lies below itself, and no more calls are nested than
    there are cluster numbers. -/
theorem fatWipeDirContents_isSome [env.NoFault] (hz : fs.Sized)
    (ha : TreeApart env fs d past c) (hcycle : NoDirCycle env fs d past c) {fuel : Nat}
    (hfuel : fs.eofLimit ≤ fuel) : (fatWipeDirContents env fs fuel c d).isSome = true := by
  have hrank : ∀ b b', Below env fs d past c b → SubDir env fs d past b b' →
      False ∨ wipeRank env fs d past b' < wipeRank env fs d past b :=
    fun b b' hb hsub => Or.inr (wipeRank_lt (hcycle b' (hb.tail hsub)) hsub)
  have hbelow : wipeRank env fs d past c < fuel :=
    Nat.lt_of_lt_of_le (wipeRank_lt_eofLimit (hcycle c ReflTransGen.refl)) hfuel
  have hends := fatWipeDirContents_ends hz
    (removalInv_erased hz ha (fun e => past = true ∨ e.isEnd = false) d) (fun _ h => h)
    confined_below (fun _ _ _ hlists => Or.inr hlists.live.notEnd) hrank fuel c d
    ReflTransGen.refl (Or.inr hbelow) (Erased.refl env fs _ _ d)
  cases hrun : fatWipeDirContents env fs fuel c d with
  | none =>
    rw [hrun] at hends
    exact hends.elim
  | some r => rfl

end

/-! ### Removal by name -/

/-- The entry that a removal by name deletes, and what the walk has noted of its long name. -/
structure RemoveHit where
  entry : Slot
  sector : Nat
  slot : Nat
  parser : LfnParser

/-- Body of the walk of `fat_remove` up to the first entry of that name. -/
def hitBody (target : List UInt8) (sec slot : Nat) (e : Slot) (p : LfnParser) :
    Ctl LfnParser (Option RemoveHit) :=
  if e.isEnd then .ret none
  else if e.isDeleted then .next lfnParserReset
  else
    let p := lfnParserFeed p e sec slot
    if e.isLfn || e.isVolumeId then .next p
    else if e.isDot then .next lfnParserReset
    else if removeMatches false p e target then .ret (some ⟨e, sec, slot, p⟩)
    else .next lfnParserReset

/-- The first entry of that name in the directory. -/
def removeHit (env : Env) (fs : FatFs) (d : Disk) (dir : FatDir) (target : List UInt8) :
    Option RemoveHit :=
  Ctl.found <|
    if dir.isRootFixed then scanRootDir env fs (fun _ => d) (hitBody target) lfnParserReset
    else if dir.cluster < 2 ∨ fs.bytesPerCluster = 0 then .ret none
    else if !kmallocOk env fs.bytesPerCluster then .ret none
    else scanChain env fs (fun _ => d) (fun _ s => s) (hitBody target) maxVisits dir.cluster
      lfnParserReset

/-- The deletion of that entry, and what `fat_remove` returns for it. -/
def RemoveHit.delete (env : Env) (fs : FatFs) (fuel : Nat) (d : Disk) (recursive : Bool)
    (h : RemoveHit) : Option (Int × Disk) :=
  (fatDeleteEntryAt env fs fuel d h.sector h.slot h.entry h.parser.startSec h.parser.startSlot
    h.parser.totalLfnEntries recursive).map fun r => (if r.1 = 0 then 1 else -2, r.2)

def isPattern (target : List UInt8) : Bool := target.contains 0x2A || target.contains 0x3F

section

variable (env : Env) [env.NoFault] (fs : FatFs) (fuel : Nat) (d : Disk)

theorem eraseSlots_fst (sector slot lfnSec : Nat) (lfnSlot : Int) (lfnCount : Nat) :
    (eraseSlots env fs d sector slot lfnSec lfnSlot lfnCount).1 = 0 := by
  unfold eraseSlots
  simp only [bdevRead_eq, bdevWrite_eq]

theorem fatDeleteEntryAt_result {sec slot : Nat} {e : Slot} {lfnSec : Nat} {lfnSlot : Int}
    {lfnCount : Nat} {recursive : Bool} {r : Int × Disk}
    (h : fatDeleteEntryAt env fs fuel d sec slot e lfnSec lfnSlot lfnCount recursive = some r) :
    r.1 = 0 ∨ r.1 = -2 := by
  unfold fatDeleteEntryAt at h
  split at h
  · obtain rfl := Option.some.inj h
    exact Or.inr rfl
  · split at h
    · cases h
    · obtain rfl := Option.some.inj h
      exact Or.inl (eraseSlots_fst env fs _ _ _ _ _ _)

theorem removeBody_eq (target : List UInt8) (recursive : Bool) (sec slot : Nat) (e : Slot)
    (p : LfnParser) :
    removeBody env fs fuel target false recursive sec slot e ⟨p, 0, d⟩ =
      (hitBody target sec slot e p).map (fun p => (⟨p, 0, d⟩ : RemoveState))
        fun h => h.elim (some (-1, d)) (RemoveHit.delete env fs fuel d recursive) := by
  unfold removeBody hitBody
  dsimp only
  split
  · rfl
  · split
    · rfl
    · split
      · rfl
      · split
        · rfl
        · split
          · simp only [Ctl.map, Option.elim_some, RemoveHit.delete]
            split
            · next hnone =>
              rw [hnone]
              rfl
            · next r d' hsome =>
              rw [hsome]
              rcases fatDeleteEntryAt_result env fs fuel d hsome with h0 | h2
              · dsimp only at h0
                subst h0
                rfl
              · dsimp only at h2
                subst h2
                rfl
          · rfl

/-- **Removal by name**: the first entry of that name is deleted. -/
theorem fatRemove_name {path : List UInt8} {dir : FatDir} {target : List UInt8}
    (hpath : fatResolveParentAndName env fs d path = some (dir, target))
    (hproper : ¬ (target = [] ∨ target = [0x2E] ∨ target = [0x2E, 0x2E]))
    (hname : isPattern target = false) (recursive : Bool) :
    fatRemove env fs fuel d path recursive =
      (removeHit env fs d dir target).elim (some (-1, d))
        (RemoveHit.delete env fs fuel d recursive) := by
  rw [fatRemove, hpath]
  dsimp only
  rw [if_neg hproper, show (target.contains 0x2A || target.contains 0x3F) = false from hname,
    removeHit, ← fatRemove_end_map id]
  congr 1
  split
  · exact scanRootDir_map env fs (fun _ => rfl) (removeBody_eq env fs fuel d target recursive) _
  · split
    · rfl
    · split
      · rfl
      · exact scanChain_map env fs (fun _ => rfl) (removeBody_eq env fs fuel d target recursive)
          _ _ _

end

/-! ### Removal by a pattern -/

/-- What the walk may have noted of a long name in a directory, some slots of which were
    marked deleted on the way. -/
inductive Noted (env : Env) (fs : FatFs) (d : Disk) (dir : FatDir) : LfnParser → Prop
  | reset : Noted env fs d dir lfnParserReset
  | feed {p : LfnParser} {sec slot : Nat} (h : Noted env fs d dir p)
      (hsec : DirSector env fs d dir sec) (hslot : slot < 16) :
      Noted env fs d dir (lfnParserFeed p (slotAt d (sec * 512 + 32 * slot)) sec slot)

/-- The directory has the entry `e`, and the pattern may match its short or its long name. -/
def MayMatch (env : Env) (fs : FatFs) (d : Disk) (dir : FatDir) (target : List UInt8) (e : Slot) :
    Prop :=
  ∃ p sec slot, Noted env fs d dir p ∧ DirSector env fs d dir sec ∧ slot < 16 ∧
    slotAt d (sec * 512 + 32 * slot) = e ∧ e.Live ∧ e.isDot = false ∧
    removeMatches true (lfnParserFeed p e sec slot) e target = true

/-- The directories that the removal may wipe. -/
def PatternDir (env : Env) (fs : FatFs) (d : Disk) (dir : FatDir) (target : List UInt8) (c : Nat) :
    Prop :=
  ∃ e, MayMatch env fs d dir target e ∧ e.isDirectory = true ∧ 2 ≤ e.cluster ∧
    Below env fs d true e.cluster c

/-- What a removal by a pattern may use: the directory that is searched, the chains of the
    entries that may match, and what the wipes use. -/
def patternPlaces (env : Env) (fs : FatFs) (d : Disk) (dir : FatDir) (target : List UInt8) :
    Places :=
  let wipe := wipePlaces env fs d true (PatternDir env fs d dir target) fun _ => True
  { chains := fun x => (dir.isRootFixed = false ∧ OnChain env fs d dir.cluster x) ∨ wipe.chains x
    freed := fun x =>
      (∃ e n, MayMatch env fs d dir target e ∧ Along env fs d e.cluster n x) ∨ wipe.freed x
    sectors := fun sec => DirSector env fs d dir sec ∨ wipe.sectors sec
    spilled := fun sec => ∃ s t, DirSector env fs d dir s ∧ t ≤ 2 ∧ sec = u32 (s + t) }

/-- What a removal by a pattern may use lies apart from what it writes, and no directory of it
    lies below itself. -/
structure PatternFits (env : Env) (fs : FatFs) (d : Disk) (dir : FatDir) (target : List UInt8) :
    Prop where
  sized : fs.Sized
  sectors : ∀ sec, DirSector env fs d dir sec → sec < 4294967296
  apart : (patternPlaces env fs d dir target).Apart fs
  finite : ∀ e, MayMatch env fs d dir target e → e.isDirectory = true → 2 ≤ e.cluster →
    NoDirCycle env fs d true e.cluster

section

variable {env : Env} {fs : FatFs} {d : Disk} {dir : FatDir} {target : List UInt8}

/-- The entries whose chains the removal may free. -/
def PatternEntry (env : Env) (fs : FatFs) (d : Disk) (dir : FatDir) (target : List UInt8)
    (f : Nat) : Prop :=
  (∃ e, MayMatch env fs d dir target e ∧ f = e.cluster) ∨
    ∃ c e, PatternDir env fs d dir target c ∧ Lists env fs d true c e ∧ f = e.cluster

theorem confined_pattern : Confined env fs (patternPlaces env fs d dir target) d true
    (PatternDir env fs d dir target) (PatternEntry env fs d dir target) where
  dirs c hc n x hx :=
    ⟨Or.inr ⟨c, n, hc, hx⟩, fun k hk => Or.inr ⟨c, n, x, k, hc, hx, hk, rfl⟩⟩
  chains f hf n x hx := by
    rcases hf with ⟨e, he, rfl⟩ | ⟨c, e, hc, hlists, rfl⟩
    · exact Or.inl ⟨e, n, he, hx⟩
    · exact Or.inr ⟨c, e, n, hc, hlists, trivial, hx⟩
  entries c hc e hlists hge := by
    refine ⟨Or.inr ⟨c, e, hc, hlists, rfl⟩, fun hdir => ?_⟩
    obtain ⟨e', he', hdir', hge', hbelow⟩ := hc
    exact ⟨e', he', hdir', hge', hbelow.tail ⟨e, hlists, hdir, hge, rfl⟩⟩

theorem hits_noted : Hits env fs d dir target true (Noted env fs d dir)
    (PatternDir env fs d dir target) (PatternEntry env fs d dir target) where
  reset := Noted.reset
  feed p sec slot hp hsec hslot := Noted.feed hp hsec hslot
  entry p sec slot e hp hsec hslot he hlive hdot hmatch hge := by
    have hmay : MayMatch env fs d dir target e :=
      ⟨p, sec, slot, hp, hsec, hslot, he, hlive, hdot, hmatch⟩
    exact ⟨Or.inl ⟨e, hmay, rfl⟩,
      fun hdir => ⟨e, hmay, hdir, hge, ReflTransGen.refl⟩⟩

variable (hb : PatternFits env fs d dir target)

include hb

theorem PatternFits.walked : Walked env fs (patternPlaces env fs d dir target) d dir where
  chain hfix _ hx := Or.inl ⟨hfix, hx⟩
  sectors sec hsec :=
    ⟨hb.sectors sec hsec, Or.inl hsec, fun t ht => Or.inr ⟨sec, t, hsec, ht, rfl⟩⟩

theorem PatternFits.noCycle {c : Nat} (hc : PatternDir env fs d dir target c) :
    ¬ TransGen (SubDir env fs d true) c c := by
  obtain ⟨e, he, hdir, hge, hbelow⟩ := hc
  exact hb.finite e he hdir hge c hbelow

/-- **Removal by a pattern** returns. -/
theorem fatRemove_pattern_isSome [env.NoFault] {path : List UInt8}
    (hpath : fatResolveParentAndName env fs d path = some (dir, target))
    (hpattern : isPattern target = true) (recursive : Bool) {fuel : Nat}
    (hfuel : fs.eofLimit ≤ fuel) : (fatRemove env fs fuel d path recursive).isSome = true := by
  have hrank : ∀ c c', PatternDir env fs d dir target c → SubDir env fs d true c c' →
      False ∨ wipeRank env fs d true c' < wipeRank env fs d true c := fun c c' hc hsub => by
    obtain ⟨e, hlists, hdir, hge, rfl⟩ := hsub
    have hc' := (confined_pattern.entries c hc e hlists hge).2 hdir
    exact Or.inr (wipeRank_lt (hb.noCycle hc') ⟨e, hlists, hdir, hge, rfl⟩)
  have hbelow : ∀ c, PatternDir env fs d dir target c → False ∨ wipeRank env fs d true c < fuel :=
    fun c hc => Or.inr (Nat.lt_of_lt_of_le (wipeRank_lt_eofLimit (hb.noCycle hc)) hfuel)
  have hends := fatRemove_ends hb.sized (removalInv_erased hb.sized hb.apart (fun _ => True) d)
    confined_pattern hrank hbelow (Erased.refl env fs _ _ d) path recursive
    fun dir' target' hpath' => by
      rw [hpath] at hpath'
      obtain ⟨rfl, rfl⟩ := Prod.mk.inj (Option.some.inj hpath')
      refine ⟨hb.walked, Noted env fs d dir, ?_⟩
      rw [show (target.contains 0x2A || target.contains 0x3F) = true from hpattern]
      exact hits_noted
  cases hrun : fatRemove env fs fuel d path recursive with
  | none =>
    rw [hrun] at hends
    exact hends.elim
  | some r => rfl

end

/-! ### Directories with a cycle -/

/-- An entry below the directory at `c` whose chain meets that of a directory there is an
    entry for that directory. -/
def ChainsApart (env : Env) (fs : FatFs) (d : Disk) (c : Nat) : Prop :=
  ∀ c' e, Below env fs d false c c' → Lists env fs d false c' e →
    ∀ b, Below env fs d false c b → ∀ m n x, Along env fs d e.cluster m x → Along env fs d b n x →
      e.isDirectory = true ∧ e.cluster = b

/-- From the directory at `c` the entries lead down without end. -/
def Endless (env : Env) (fs : FatFs) (d : Disk) (c : Nat) : Prop :=
  ∃ b, Below env fs d false c b ∧ TransGen (SubDir env fs d false) b b

section

variable {env : Env} {fs : FatFs} {d : Disk} {c c' : Nat}

theorem Endless.of_subDir (hsub : SubDir env fs d false c c') (h : Endless env fs d c') :
    Endless env fs d c := by
  obtain ⟨b, hbelow, hcycle⟩ := h
  exact ⟨b, hbelow.head hsub, hcycle⟩

theorem Endless.step (h : Endless env fs d c) :
    ∃ c', SubDir env fs d false c c' ∧ Endless env fs d c' := by
  obtain ⟨b, hbelow, hcycle⟩ := h
  rcases hbelow.cases_head with rfl | ⟨c', hsub, hrest⟩
  · obtain ⟨c', hsub, hrest⟩ := TransGen.head'_iff.mp hcycle
    exact ⟨c', hsub, c, hrest, hcycle⟩
  · exact ⟨c', hsub, b, hrest, hcycle⟩

end

/-- A slot that a removal marks although the directories that are endless stay as they are. -/
def Slot.Removable (env : Env) (fs : FatFs) (d : Disk) (e : Slot) : Prop :=
  e.isEnd = false ∧ ¬ (e.isDirectory = true ∧ 2 ≤ e.cluster ∧ Endless env fs d e.cluster)

/-- A cluster in the chain of an endless directory. -/
def EndlessChain (env : Env) (fs : FatFs) (d : Disk) (c x : Nat) : Prop :=
  ∃ b n, Below env fs d false c b ∧ Endless env fs d b ∧ Along env fs d b n x

/-- What the wipes below `c` use that have an end. -/
def finitePlaces (env : Env) (fs : FatFs) (d : Disk) (c : Nat) : Places :=
  wipePlaces env fs d false (Below env fs d false c) (Slot.Removable env fs d)

/-- What a removal leaves of the directories below `c` that are endless. -/
structure EndlessKept (env : Env) (fs : FatFs) (d₀ : Disk) (c : Nat) (d : Disk) : Prop where
  erased : Erased env fs (finitePlaces env fs d₀ c) (Slot.Removable env fs d₀) d₀ d
  links : ∀ x, EndlessChain env fs d₀ c x → getNextCluster env fs d x = getNextCluster env fs d₀ x

section

variable {env : Env} {fs : FatFs} {d₀ : Disk} {c : Nat}

theorem EndlessChain.links {x : Nat} (h : EndlessChain env fs d₀ c x) :
    (finitePlaces env fs d₀ c).Links x := by
  obtain ⟨b, n, hbelow, _, hx⟩ := h
  exact Or.inl ⟨b, n, hbelow, hx⟩

theorem TreeApart.finite (ha : TreeApart env fs d₀ false c) :
    (finitePlaces env fs d₀ c).Apart fs := by
  refine ha.mono (fun _ hx => hx) ?_ (fun _ hsec => hsec) fun _ hsec => Or.inr hsec
  rintro x ⟨b, e, n, hbelow, hlists, _, hx⟩
  exact ⟨b, e, n, hbelow, hlists, trivial, hx⟩

variable [env.NoFault] (hz : fs.Sized) (ha : TreeApart env fs d₀ false c)
  (hapart : ChainsApart env fs d₀ c)

include hapart

omit [env.NoFault] in
theorem ChainsApart.free {x : Nat} (h : (finitePlaces env fs d₀ c).freed x) :
    ¬ EndlessChain env fs d₀ c x := by
  rintro ⟨b, m, hb, hendless, hxb⟩
  obtain ⟨c', e, n, hbelow, hlists, hfinite, hx⟩ := h
  obtain ⟨hdir, heq⟩ := hapart c' e hbelow hlists b hb n m x hx hxb
  exact hfinite.2 ⟨hdir, hx.first.lim.1, heq ▸ hendless⟩

include hz ha

theorem removalInv_endlessKept : RemovalInv env fs (finitePlaces env fs d₀ c)
    (Slot.Removable env fs d₀) d₀ (EndlessKept env fs d₀ c) where
  erased h := h.erased
  clear h hx := by
    refine ⟨h.erased.clear hz ha.finite hx, fun y hy => ?_⟩
    have hlink := h.links y hy
    rw [ha.finite.next_clear hz hx hy.links]
    split
    · next heq =>
      subst heq
      exact absurd hy (hapart.free hx)
    · exact hlink
  blit h hlba hbuf := by
    refine ⟨h.erased.blit hz ha.finite hlba hbuf, fun y hy => ?_⟩
    rw [ha.finite.next_blit hz hlba hy.links]
    exact h.links y hy

theorem wipe_keeps_endless {b : Nat} (hbelow : Below env fs d₀ false c b)
    (hfinite : ¬ Endless env fs d₀ b) (fuel : Nat) {d : Disk} (h : EndlessKept env fs d₀ c d) :
    Ends (EndlessKept env fs d₀ c) True (fatWipeDirContents env fs fuel b d) := by
  have hremovable : ∀ b e, Below env fs d₀ false c b ∧ ¬ Endless env fs d₀ b →
      Lists env fs d₀ false b e → e.Removable env fs d₀ := by
    intro b e hb' hlists
    refine ⟨hlists.live.notEnd, ?_⟩
    rintro ⟨hdir, hge, hendless⟩
    exact hb'.2 (hendless.of_subDir ⟨e, hlists, hdir, hge, rfl⟩)
  have hconf : Confined env fs (finitePlaces env fs d₀ c) d₀ false
      (fun b => Below env fs d₀ false c b ∧ ¬ Endless env fs d₀ b)
      (fun f => ∃ b e, (Below env fs d₀ false c b ∧ ¬ Endless env fs d₀ b) ∧
        Lists env fs d₀ false b e ∧ f = e.cluster) := by
    refine ⟨fun b hb' n x hx => ⟨⟨b, n, hb'.1, hx⟩, fun k hk => ⟨b, n, x, k, hb'.1, hx, hk, rfl⟩⟩,
      ?_, fun b hb' e hlists hge => ⟨⟨b, e, hb', hlists, rfl⟩, fun hdir => ?_⟩⟩
    · rintro f ⟨b, e, hb', hlists, rfl⟩ n x hx
      exact ⟨b, e, n, hb'.1, hlists, hremovable b e hb' hlists, hx⟩
    · have hsub : SubDir env fs d₀ false b e.cluster := ⟨e, hlists, hdir, hge, rfl⟩
      exact ⟨hb'.1.tail hsub, fun hendless => hb'.2 (hendless.of_subDir hsub)⟩
  -- nothing is said of its end, so that any ranks will do
  have hrank : ∀ b b', Below env fs d₀ false c b ∧ ¬ Endless env fs d₀ b →
      SubDir env fs d₀ false b b' → True ∨ (fun _ : Nat => 0) b' < (fun _ : Nat => 0) b :=
    fun _ _ _ _ => Or.inl trivial
  exact fatWipeDirContents_ends hz (removalInv_endlessKept hz ha hapart) (fun _ h => Or.inr h.1)
    hconf hremovable hrank fuel b d ⟨hbelow, hfinite⟩ (Or.inl trivial) h

theorem empties_endless {b : Nat} (hbelow : Below env fs d₀ false c b) {fuel : Nat}
    (hnone : ∀ b' d, Below env fs d₀ false c b' → Endless env fs d₀ b' →
      EndlessKept env fs d₀ c d → fatWipeDirContents env fs fuel b' d = none) :
    Empties env fs (finitePlaces env fs d₀ c) (Slot.Removable env fs d₀) false d₀
      (EndlessKept env fs d₀ c) True (fatWipeDirContents env fs fuel) b := by
  intro e d hlists hd
  by_cases hendless : e.isDirectory = true ∧ 2 ≤ e.cluster ∧ Endless env fs d₀ e.cluster
  · obtain ⟨hdir, hge, hendless⟩ := hendless
    rw [if_pos hdir, if_pos hge,
      hnone _ d (hbelow.tail ⟨e, hlists, hdir, hge, rfl⟩) hendless hd]
    trivial
  · have hremovable : e.Removable env fs d₀ := ⟨hlists.live.notEnd, hendless⟩
    have hdone : ∀ d, EndlessKept env fs d₀ c d → EndlessKept env fs d₀ c d ∧
        e.Removable env fs d₀ ∧ (2 ≤ e.cluster → ∀ n x, Along env fs d₀ e.cluster n x →
          (finitePlaces env fs d₀ c).freed x) := fun d hd =>
      ⟨hd, hremovable, fun _ n x hx => ⟨b, e, n, hbelow, hlists, hremovable, hx⟩⟩
    split
    · next hdir =>
      split
      · next hge =>
        have hnested := wipe_keeps_endless hz ha hapart
          (hbelow.tail ⟨e, hlists, hdir, hge, rfl⟩)
          (fun h => hendless ⟨hdir, hge, h⟩) fuel hd
        exact hnested.imp hdone
      · exact hdone d hd
    · exact hdone d hd

end

theorem wipeTurn_eq_ret {env : Env} {fs : FatFs} {wipeSub : Nat → Disk → Option Disk} {i : Nat}
    {s : WipeState} {e : Slot} (he : slotAt s.buf (32 * i) = e) (hlive : e.Live)
    (hdot : e.isDot = false) (hdir : e.isDirectory = true) (hge : 2 ≤ e.cluster)
    (hsub : wipeSub e.cluster s.disk = none) : wipeTurn env fs wipeSub i s = .ret () := by
  have hkind : (e.isLfn || e.isVolumeId) = false := by
    rw [hlive.notLfn, hlive.notVolume]
    rfl
  simp only [wipeTurn, he, hlive.notEnd, hlive.notDeleted, hkind, hdot, hdir, Bool.false_eq_true,
    if_false, if_true, ge_iff_le, if_pos hge, hsub]

section

variable {env : Env} [env.NoFault] {fs : FatFs} (hz : fs.Sized) {d₀ : Disk} {c : Nat}
  (ha : TreeApart env fs d₀ false c) (hapart : ChainsApart env fs d₀ c) {fuel b : Nat}
  (hbelow : Below env fs d₀ false c b)
  (hnone : ∀ b' d, Below env fs d₀ false c b' → Endless env fs d₀ b' →
    EndlessKept env fs d₀ c d → fatWipeDirContents env fs fuel b' d = none)

include hz ha hapart hbelow hnone

omit [env.NoFault] hz ha hapart hnone in
/-- The clusters and the sectors of a directory below are among those used. -/
theorem chain_finitePlaces {n x : Nat} (hx : Along env fs d₀ b n x) :
    (finitePlaces env fs d₀ c).chains x ∧
      ∀ k, k < fs.sectorsPerCluster → (finitePlaces env fs d₀ c).sectors (clusterSector fs x + k) :=
  ⟨⟨b, n, hbelow, hx⟩, fun k hk => ⟨b, n, x, k, hbelow, hx, hk, rfl⟩⟩

theorem wipeLoop_endless {n x i : Nat} (hx : Along env fs d₀ b n x) {e : Slot}
    (hentry : EntryAt fs d₀ false x i e) (hdir : e.isDirectory = true) (hge : 2 ≤ e.cluster)
    (hendless : Endless env fs d₀ e.cluster) {d : Disk} (h : EndlessKept env fs d₀ c d)
    (visits : Nat) : wipeLoop env fs (fatWipeDirContents env fs fuel) (visits + 1) x d = none := by
  have hi := hentry.slot
  have hbpc := hz.bpc
  have hsub := empties_endless hz ha hapart hbelow hnone
  have hrange : List.range' 0 (fs.bytesPerCluster / 32) =
      List.range' 0 i ++ i :: List.range' (i + 1) (fs.bytesPerCluster / 32 - i - 1) := by
    rw [← List.range'_succ]
    have hlen : fs.bytesPerCluster / 32 = i + (fs.bytesPerCluster / 32 - i - 1 + 1) := by omega
    conv_lhs => rw [hlen]
    rw [← List.range'_append_1, Nat.zero_add]
  have hinv := removalInv_endlessKept hz ha hapart
  -- no slot before the entry ends the loop
  have hfalls := scan_falls (f := wipeTurn env fs (fatWipeDirContents env fs fuel))
    (N := fun j s => WipeOk (EndlessKept env fs d₀ c) fs (finitePlaces env fs d₀ c)
      (Slot.Removable env fs d₀) d₀ x s ∧ Open fs false d₀ x j)
    (S := fun _ => False) (R := fun _ => True) i 0
    (fun j s _ hlt hs => (wipeTurn_falls hinv (fun _ h => Or.inr h.1)
      (fun _ _ hx => chain_finitePlaces hbelow hx) hsub hx (by omega) hs).imp (fun _ h => h) fun _ h => by
        have hbefore := hentry.before.resolve_left Bool.false_ne_true j (by omega)
        rw [hbefore] at h
        cases h.2)
    (s := ⟨fun a => d (clusterSector fs x * 512 + a), false, d⟩)
    ⟨⟨h, (hinv.erased h).bufOk _ _⟩, Or.inr fun j hj => absurd hj (Nat.not_lt_zero j)⟩
  rw [wipeLoop, if_pos hx.lim, hz.readCluster_eq env hx.lim.1]
  dsimp only
  rw [hrange, scan_append]
  cases hscan : scan (wipeTurn env fs (fatWipeDirContents env fs fuel)) (List.range' 0 i)
      ⟨fun a => d (clusterSector fs x * 512 + a), false, d⟩ with
  | ret _ => rfl
  | stop s =>
    rw [hscan] at hfalls
    exact hfalls.elim
  | next s =>
    rw [hscan] at hfalls
    obtain ⟨hs, _⟩ := hfalls
    have hkept := hs.buf i hi ((chain_finitePlaces hbelow hx).2 _ (by omega))
    rw [hentry.entry] at hkept
    have hslot : slotAt s.buf (32 * i) = e :=
      hkept.resolve_right fun herased => herased.1.2 ⟨hdir, hge, hendless⟩
    have hlists : Lists env fs d₀ false b e := ⟨n, x, i, hx, hentry⟩
    have hturn : wipeTurn env fs (fatWipeDirContents env fs fuel) i s = .ret () :=
      wipeTurn_eq_ret hslot hentry.live hentry.notDot hdir hge
        (hnone _ _ (hbelow.tail ⟨e, hlists, hdir, hge, rfl⟩) hendless hs.disk)
    dsimp only
    rw [scan_cons_ret hturn]
    rfl

theorem wipeLoop_next {n x : Nat} (hx : Along env fs d₀ b n x) (hendless : Endless env fs d₀ b)
    (hne : getNextCluster env fs d₀ x ≠ x) (hge : 2 ≤ getNextCluster env fs d₀ x) {visits : Nat}
    (hrest : ∀ d, EndlessKept env fs d₀ c d →
      wipeLoop env fs (fatWipeDirContents env fs fuel) visits (getNextCluster env fs d₀ x) d = none)
    {d : Disk} (h : EndlessKept env fs d₀ c d) :
    wipeLoop env fs (fatWipeDirContents env fs fuel) (visits + 1) x d = none := by
  have hloop := wipeCluster_sat hz (removalInv_endlessKept hz ha hapart) (fun _ h => Or.inr h.1)
    (fun _ _ hx => chain_finitePlaces hbelow hx) (empties_endless hz ha hapart hbelow hnone) hx h
  rw [wipeLoop, if_pos hx.lim, hz.readCluster_eq env hx.lim.1]
  dsimp only
  generalize (scan (wipeTurn env fs (fatWipeDirContents env fs fuel))
    (List.range' 0 (fs.bytesPerCluster / 32))
    ⟨fun i => d (clusterSector fs x * 512 + i), false, d⟩).resume = r at hloop ⊢
  cases r with
  | ret _ => rfl
  | next s | stop s =>
    have hd : EndlessKept env fs d₀ c
      (if s.modified then (writeCluster env fs s.disk x s.buf).2 else s.disk) := hloop
    dsimp only
    generalize (if s.modified then (writeCluster env fs s.disk x s.buf).2 else s.disk) = d₁
      at hd ⊢
    rw [hd.links x ⟨b, n, hbelow, hendless, hx⟩, if_neg (by omega)]
    exact hrest d₁ hd

end

section

variable {env : Env} [env.NoFault] {fs : FatFs} (hz : fs.Sized) {d₀ : Disk} {c : Nat}
  (ha : TreeApart env fs d₀ false c) (hapart : ChainsApart env fs d₀ c)

include hz ha hapart

/-- **Calls without end.**  `fat_wipe_dir_contents` calls itself deeper than any bound in an
    endless directory, where no two chains meet. -/
theorem wipe_endless_eq_none : ∀ (fuel b : Nat) (d : Disk), Below env fs d₀ false c b →
    Endless env fs d₀ b → EndlessKept env fs d₀ c d →
    fatWipeDirContents env fs fuel b d = none := by
  intro fuel
  induction fuel with
  | zero =>
    intro b d _ _ _
    rfl
  | succ fuel ih =>
    intro b d hbelow hendless h
    obtain ⟨b', ⟨e, ⟨n, x, i, hx, hentry⟩, hdir, hge, rfl⟩, hendless'⟩ := hendless.step
    have hchain : ∀ n x, Along env fs d₀ b n x → (∀ d, EndlessKept env fs d₀ c d →
        wipeLoop env fs (fatWipeDirContents env fs fuel) (maxVisits - n) x d = none) →
        ∀ d, EndlessKept env fs d₀ c d →
          wipeLoop env fs (fatWipeDirContents env fs fuel) maxVisits b d = none := by
      intro n x hx
      induction hx with
      | start => exact fun h => h
      | @next n x hx hn hne hlim ihx =>
        intro hrest
        refine ihx fun d hd => ?_
        rw [show maxVisits - n = maxVisits - (n + 1) + 1 by omega]
        exact wipeLoop_next hz ha hapart hbelow ih hx hendless hne hlim.1 hrest hd
    have hlt := hx.lt
    have hhere : ∀ d, EndlessKept env fs d₀ c d →
        wipeLoop env fs (fatWipeDirContents env fs fuel) (maxVisits - n) x d = none := by
      intro d hd
      rw [show maxVisits - n = maxVisits - n - 1 + 1 by omega]
      exact wipeLoop_endless hz ha hapart hbelow ih hx hentry hdir hge hendless' hd _
    have hstart := hx.first.lim
    have hge := hstart.1
    have hspc := hz.spc
    have hbpc := hz.bpc
    rw [fatWipeDirContents, if_neg (by omega), kmallocOk_eq, Bool.not_true,
      if_neg Bool.false_ne_true]
    exact hchain n x hx hhere d h

/-- **When a directory is wiped**, where no two chains meet: exactly if none lies below
    itself. -/
theorem fatWipeDirContents_isSome_iff {fuel : Nat} (hfuel : fs.eofLimit ≤ fuel) :
    (fatWipeDirContents env fs fuel c d₀).isSome = true ↔ NoDirCycle env fs d₀ false c := by
  constructor
  · intro hsome b hbelow hcycle
    have hnone := wipe_endless_eq_none hz ha hapart fuel c d₀ ReflTransGen.refl
      ⟨b, hbelow, hcycle⟩ ⟨Erased.refl env fs _ _ d₀, fun _ _ => rfl⟩
    rw [hnone] at hsome
    cases hsome
  · exact fun hcycle => fatWipeDirContents_isSome hz ha hcycle hfuel

end

/-! ### When `fat_remove` returns -/

/-- `path` is the name of a directory, and this one starts at `c`. -/
def NamesDir (env : Env) (fs : FatFs) (d : Disk) (path : List UInt8) (c : Nat) : Prop :=
  ∃ dir target h, fatResolveParentAndName env fs d path = some (dir, target) ∧
    ¬ (target = [] ∨ target = [0x2E] ∨ target = [0x2E, 0x2E]) ∧ isPattern target = false ∧
    removeHit env fs d dir target = some h ∧ h.entry.isDirectory = true ∧ 2 ≤ h.entry.cluster ∧
    c = h.entry.cluster

/-- What a recursive removal of `path` uses lies apart from what it writes, and no directory of
    it lies below itself.  Where `path` names no directory there is nothing to ask for. -/
structure RemovalFits (env : Env) (fs : FatFs) (d : Disk) (path : List UInt8) : Prop where
  name : ∀ c, NamesDir env fs d path c →
    fs.Sized ∧ TreeApart env fs d false c ∧ NoDirCycle env fs d false c
  pattern : ∀ dir target, fatResolveParentAndName env fs d path = some (dir, target) →
    isPattern target = true → PatternFits env fs d dir target

section

variable {env : Env} {fs : FatFs} {d : Disk} {fuel : Nat}

theorem fatDeleteEntryAt_isSome_iff {sec slot lfnSec lfnCount : Nat} {e : Slot} {lfnSlot : Int}
    {recursive : Bool} :
    (fatDeleteEntryAt env fs fuel d sec slot e lfnSec lfnSlot lfnCount recursive).isSome = true ↔
      (recursive = true → e.isDirectory = true → 2 ≤ e.cluster →
        (fatWipeDirContents env fs fuel e.cluster d).isSome = true) := by
  have hfree : (freeEntry env fs fuel d e).isSome = true ↔
      (e.isDirectory = true → 2 ≤ e.cluster →
        (fatWipeDirContents env fs fuel e.cluster d).isSome = true) := by
    unfold freeEntry
    dsimp only
    split
    · next hdir =>
      split
      · next hge =>
        rw [Option.isSome_map]
        exact ⟨fun h _ _ => h, fun h => h hdir hge⟩
      · next hge => exact ⟨fun _ _ h => absurd h hge, fun _ => rfl⟩
    · next hdir =>
      refine ⟨fun _ h => absurd h hdir, fun _ => ?_⟩
      split <;> rfl
  unfold fatDeleteEntryAt
  cases recursive with
  | false =>
    refine ⟨fun _ h => absurd h Bool.false_ne_true, fun _ => ?_⟩
    split
    · rfl
    · next hdir =>
      have hsome := hfree.mpr fun h => absurd ⟨h, rfl⟩ hdir
      split
      · next hnone =>
        rw [hnone] at hsome
        cases hsome
      · rfl
  | true =>
    rw [if_neg (fun h => Bool.noConfusion h.2)]
    refine Iff.trans ?_ (hfree.trans ⟨fun h _ => h, fun h => h rfl⟩)
    cases freeEntry env fs fuel d e <;> exact Iff.rfl

theorem fatRemove_isSome_of_flat (path : List UInt8) :
    (fatRemove env fs fuel d path false).isSome = true := by
  have hbody : ∀ target wildcard sec slot e (s : RemoveState), True →
      (removeBody env fs fuel target wildcard false sec slot e s).Sat (fun _ => True)
        fun r => r.isSome = true := by
    intro target wildcard sec slot e s _
    unfold removeBody
    dsimp only
    split
    · rfl
    · split
      · trivial
      · split
        · trivial
        · split
          · trivial
          · split
            · split
              · next hnone =>
                change (none : Option (Int × Disk)).isSome = true
                rw [← hnone]
                exact fatDeleteEntryAt_isSome_iff.mpr fun h => absurd h Bool.false_ne_true
              · split
                · split
                  · trivial
                  · rfl
                · split
                  · rfl
                  · trivial
            · trivial
  unfold fatRemove
  split
  · rfl
  · split
    · rfl
    · dsimp only
      refine fatRemove_end_isSome ?_
      split
      · exact scanRootDir_inv env fs (hbody _ _) trivial
      · split
        · rfl
        · split
          · rfl
          · exact scanChain_inv env fs (hbody _ _) (fun _ _ _ => trivial) _ _ _ trivial

variable [env.NoFault]

theorem fatRemove_isSome_of_namesDir {path : List UInt8} {c : Nat}
    (h : NamesDir env fs d path c) :
    (fatRemove env fs fuel d path true).isSome = true ↔
      (fatWipeDirContents env fs fuel c d).isSome = true := by
  obtain ⟨dir, target, hit, hpath, hproper, hname, hhit, hdir, hge, rfl⟩ := h
  rw [fatRemove_name env fs fuel d hpath hproper hname, hhit, Option.elim_some, RemoveHit.delete,
    Option.isSome_map, fatDeleteEntryAt_isSome_iff]
  exact ⟨fun h => h rfl hdir hge, fun h _ _ _ => h⟩

theorem fatRemove_isSome_of_not_namesDir {path : List UInt8} {dir : FatDir} {target : List UInt8}
    (hpath : fatResolveParentAndName env fs d path = some (dir, target))
    (hname : isPattern target = false) (h : ∀ c, ¬ NamesDir env fs d path c) (recursive : Bool) :
    (fatRemove env fs fuel d path recursive).isSome = true := by
  by_cases hproper : target = [] ∨ target = [0x2E] ∨ target = [0x2E, 0x2E]
  · rw [fatRemove, hpath]
    dsimp only
    rw [if_pos hproper]
    rfl
  · rw [fatRemove_name env fs fuel d hpath hproper hname]
    cases hhit : removeHit env fs d dir target with
    | none => rfl
    | some hit =>
      rw [Option.elim_some, RemoveHit.delete, Option.isSome_map, fatDeleteEntryAt_isSome_iff]
      intro _ hdir hge
      exact absurd ⟨dir, target, hit, hpath, hproper, hname, hhit, hdir, hge, rfl⟩ (h _)

end

/-! ### Two volumes -/

section

variable {env : Env} {fs : FatFs} {d : Disk} {c n x i j : Nat} {e : Slot}

theorem Along.mem {L : List Nat} (hc : c ∈ L) (hnext : ∀ x ∈ L,
    getNextCluster env fs d x = noCluster ∨ getNextCluster env fs d x ∈ L)
    (h : Along env fs d c n x) : x ∈ L := by
  induction h with
  | start => exact hc
  | next _ _ _ hlim ih => exact (hnext _ ih).resolve_left fun h0 => noCluster_not_lt fs (h0 ▸ hlim.2)

theorem Along.eq_of_end (hend : getNextCluster env fs d c = noCluster) (h : Along env fs d c n x) :
    x = c :=
  List.mem_singleton.mp (h.mem (List.mem_singleton_self c) fun _ hx =>
    Or.inl (List.mem_singleton.mp hx ▸ hend))

/-- Places apart, where the clusters of the directories are in `L` and those of the entries
    in `F`. -/
theorem wipePlaces_apart {past : Bool} {D : Nat → Prop} {K : Slot → Prop} {L F : List Nat}
    (hL : ∀ b n x, D b → Along env fs d b n x → x ∈ L)
    (hF : ∀ b e n x, D b → Lists env fs d past b e → Along env fs d e.cluster n x → x ∈ F)
    (hlinks : ∀ x ∈ L ++ F,
      (∀ z ∈ L, ∀ k, k < fs.sectorsPerCluster → clusterSector fs z + k ≠ fs.linkSector x) ∧
        ∀ y ∈ F, fs.Updates y (fs.linkSector x) → fs.linkSector x = fs.linkSector y)
    (hclears : ∀ y ∈ F, ∀ z ∈ L, ∀ k, k < fs.sectorsPerCluster →
      ¬ fs.Updates y (clusterSector fs z + k)) : (wipePlaces env fs d past D K).Apart fs := by
  have hfreed : ∀ y, (wipePlaces env fs d past D K).freed y → y ∈ F := by
    rintro y ⟨b, e, n, hb, hlists, _, hy⟩
    exact hF b e n y hb hlists hy
  have hmem : ∀ x, (wipePlaces env fs d past D K).Links x → x ∈ L ++ F := by
    rintro x (⟨b, n, hb, hx⟩ | hx)
    · exact List.mem_append_left _ (hL b n x hb hx)
    · exact List.mem_append_right _ (hfreed x hx)
  refine ⟨?_, fun _ x _ hx hsec => ?_, fun x y hx hy => (hlinks x (hmem x hx)).2 y (hfreed y hy),
    fun y _ hy hsec => ?_⟩
  · rintro _ (⟨_, _, _, hx⟩ | ⟨_, _, _, _, _, _, hx⟩) <;> exact hx.lim
  · obtain ⟨b, n, z, k, hb, hz, hk, rfl⟩ := hsec.resolve_right id
    exact (hlinks x (hmem x hx)).1 z (hL b n z hb hz) k hk
  · obtain ⟨b, n, z, k, hb, hz, hk, rfl⟩ := hsec
    exact hclears y (hfreed y hy) z (hL b n z hb hz) k hk

theorem EntryAt.lt_of_isEnd (h : EntryAt fs d false x i e)
    (hend : (slotAt d (clusterSector fs x * 512 + 32 * j)).isEnd = true) : i < j := by
  rcases Nat.lt_trichotomy i j with hlt | rfl | hgt
  · exact hlt
  · have hlive := h.live.notEnd
    rw [← h.entry, hend] at hlive
    cases hlive
  · have hbefore := h.before.resolve_left Bool.false_ne_true j hgt
    rw [hend] at hbefore
    cases hbefore

theorem Lists.eq_of_single (hend : getNextCluster env fs d c = noCluster)
    (hslot : (slotAt d (clusterSector fs c * 512 + 32 * 1)).isEnd = true)
    (h : Lists env fs d false c e) : e = slotAt d (clusterSector fs c * 512) := by
  obtain ⟨n, x, i, hx, hentry⟩ := h
  obtain rfl := hx.eq_of_end hend
  obtain rfl := Nat.lt_one_iff.mp (hentry.lt_of_isEnd hslot)
  have hslot := hentry.entry
  rw [Nat.mul_zero, Nat.add_zero] at hslot
  exact hslot.symm

end

/-- A directory `A` at cluster 2, the only cluster of its chain, with an entry `B` for a
    directory at cluster 2. -/
def spinningDisk : Disk :=
  putSlot
    (putSlot (setFatEntry Env.ideal (plainFs 2) (plainDisk 2) 2 0xFFFF).2 (35 * 512)
      ((Slot.fresh 0x10 2 0).withName (toFat83Name [0x41])))
    (36 * 512) ((Slot.fresh 0x10 2 0).withName (toFat83Name [0x42]))

/-- A directory `A` at cluster 2 with a directory `B` at cluster 3 with a file `C` at cluster 4,
    whose chain runs into the mark of a bad cluster. -/
def nestedDisk : Disk :=
  let d := (setFatEntry Env.ideal (plainFs 2) (plainDisk 2) 2 0xFFFF).2
  let d := (setFatEntry Env.ideal (plainFs 2) d 3 0xFFFF).2
  let d := (setFatEntry Env.ideal (plainFs 2) d 4 0xFFF7).2
  let d := putSlot d (35 * 512) ((Slot.fresh 0x10 2 0).withName (toFat83Name [0x41]))
  let d := putSlot d (36 * 512) ((Slot.fresh 0x10 3 0).withName (toFat83Name [0x42]))
  putSlot d (37 * 512) ((Slot.fresh 0x20 4 5).withName (toFat83Name [0x43]))

theorem plainFs_sized : (plainFs 2).Sized := by constructor <;> decide

theorem namesDir_A_iff {d : Disk} {c : Nat}
    (hpath : fatResolveParentAndName Env.ideal (plainFs 2) d [0x41] = some (⟨true, 0⟩, [0x41]))
    (hhit : (removeHit Env.ideal (plainFs 2) d ⟨true, 0⟩ [0x41]).map
      (fun h => (h.entry.isDirectory, h.entry.cluster)) = some (true, 2)) :
    NamesDir Env.ideal (plainFs 2) d [0x41] c ↔ c = 2 := by
  obtain ⟨h, hh, heq⟩ := Option.map_eq_some_iff.mp hhit
  obtain ⟨hdir, hcluster⟩ := Prod.mk.inj heq
  constructor
  · rintro ⟨dir, target, h', hpath', _, _, hh', _, _, rfl⟩
    rw [hpath] at hpath'
    obtain ⟨rfl, rfl⟩ := Prod.mk.inj (Option.some.inj hpath')
    rw [hh] at hh'
    obtain rfl := Option.some.inj hh'
    exact hcluster
  · rintro rfl
    exact ⟨_, _, h, hpath, by decide, by decide, hh, hdir, by omega, hcluster.symm⟩

section

variable {d : Disk} {c : Nat} {e : Slot}

theorem spinningDisk_chain : getNextCluster Env.ideal (plainFs 2) spinningDisk 2 = noCluster ∧
    fatMount Env.ideal 0 spinningDisk = some (plainFs 2) ∧
    (removeHit Env.ideal (plainFs 2) spinningDisk ⟨true, 0⟩ [0x41]).map
      (fun h => (h.entry.isDirectory, h.entry.cluster)) = some (true, 2) := by
  decide +kernel

theorem spinningDisk_slots :
    (slotAt spinningDisk (36 * 512)).isEnd = false ∧
    (slotAt spinningDisk (36 * 512)).isDeleted = false ∧
    (slotAt spinningDisk (36 * 512)).isLfn = false ∧
    (slotAt spinningDisk (36 * 512)).isVolumeId = false ∧
    (slotAt spinningDisk (36 * 512)).isDot = false ∧
    (slotAt spinningDisk (36 * 512)).isDirectory = true ∧
    (slotAt spinningDisk (36 * 512)).cluster = 2 ∧
    (slotAt spinningDisk (36 * 512 + 32)).isEnd = true := by
  decide +kernel

theorem lists_spinningDisk (h : Lists Env.ideal (plainFs 2) spinningDisk false 2 e) :
    e.isDirectory = true ∧ e.cluster = 2 := by
  obtain ⟨_, _, _, _, _, hdir, hcluster, hend⟩ := spinningDisk_slots
  obtain rfl := h.eq_of_single spinningDisk_chain.1 hend
  exact ⟨hdir, hcluster⟩

theorem below_spinningDisk (h : Below Env.ideal (plainFs 2) spinningDisk false 2 c) : c = 2 := by
  induction h with
  | refl => rfl
  | tail _ hsub ih =>
    subst ih
    obtain ⟨e, hlists, _, _, rfl⟩ := hsub
    exact (lists_spinningDisk hlists).2

theorem treeApart_spinningDisk : TreeApart Env.ideal (plainFs 2) spinningDisk false 2 := by
  refine wipePlaces_apart (L := [2]) (F := [2]) (fun b n x hb hx => ?_)
    (fun b e n x hb hlists hx => ?_) (by decide) (by decide)
  · obtain rfl := below_spinningDisk hb
    exact List.mem_singleton.mpr (hx.eq_of_end spinningDisk_chain.1)
  · obtain rfl := below_spinningDisk hb
    rw [(lists_spinningDisk hlists).2] at hx
    exact List.mem_singleton.mpr (hx.eq_of_end spinningDisk_chain.1)

theorem chainsApart_spinningDisk : ChainsApart Env.ideal (plainFs 2) spinningDisk 2 := by
  intro c' e hc' hlists b hb _ _ _ _ _
  obtain rfl := below_spinningDisk hc'
  obtain rfl := below_spinningDisk hb
  exact lists_spinningDisk hlists

theorem subDir_spinningDisk : SubDir Env.ideal (plainFs 2) spinningDisk false 2 2 := by
  have hentry : EntryAt (plainFs 2) spinningDisk false 2 0
      (slotAt spinningDisk (clusterSector (plainFs 2) 2 * 512 + 32 * 0)) := by
    obtain ⟨hnotEnd, hnotDeleted, hnotLfn, hnotVolume, hnotDot, _⟩ := spinningDisk_slots
    exact ⟨by decide, rfl, ⟨hnotEnd, hnotDeleted, hnotLfn, hnotVolume⟩, hnotDot,
      Or.inr fun j hj => absurd hj (Nat.not_lt_zero j)⟩
  have hlists : Lists Env.ideal (plainFs 2) spinningDisk false 2 _ :=
    ⟨0, 2, 0, Along.start (by decide), hentry⟩
  exact ⟨_, hlists, (lists_spinningDisk hlists).1, by rw [(lists_spinningDisk hlists).2],
    (lists_spinningDisk hlists).2.symm⟩

theorem namesDir_spinningDisk : NamesDir Env.ideal (plainFs 2) spinningDisk [0x41] c ↔ c = 2 :=
  namesDir_A_iff (by rfl) spinningDisk_chain.2.2

theorem nestedDisk_chains :
    (∀ c ∈ [2, 3, 0xFFF7], getNextCluster Env.ideal (plainFs 2) nestedDisk c = noCluster) ∧
    getNextCluster Env.ideal (plainFs 2) nestedDisk 4 = 0xFFF7 ∧
    (removeHit Env.ideal (plainFs 2) nestedDisk ⟨true, 0⟩ [0x41]).map
      (fun h => (h.entry.isDirectory, h.entry.cluster)) = some (true, 2) := by
  decide +kernel

theorem nestedDisk_slots :
    (slotAt nestedDisk (36 * 512)).cluster = 3 ∧
    (slotAt nestedDisk (36 * 512 + 32)).isEnd = true ∧
    (slotAt nestedDisk (37 * 512)).isDirectory = false ∧
    (slotAt nestedDisk (37 * 512)).cluster = 4 ∧
    (slotAt nestedDisk (37 * 512 + 32)).isEnd = true := by
  decide +kernel

theorem lists_nestedDisk (h : Lists Env.ideal (plainFs 2) nestedDisk false 2 e) :
    e.cluster = 3 := by
  obtain ⟨hcluster, hend, _⟩ := nestedDisk_slots
  obtain rfl := h.eq_of_single (nestedDisk_chains.1 2 (by decide)) hend
  exact hcluster

theorem lists_nestedDisk_sub (h : Lists Env.ideal (plainFs 2) nestedDisk false 3 e) :
    e.isDirectory = false ∧ e.cluster = 4 := by
  obtain ⟨_, _, hdir, hcluster, hend⟩ := nestedDisk_slots
  obtain rfl := h.eq_of_single (nestedDisk_chains.1 3 (by decide)) hend
  exact ⟨hdir, hcluster⟩

theorem subDir_nestedDisk {c' : Nat} (hc : c = 2 ∨ c = 3)
    (h : SubDir Env.ideal (plainFs 2) nestedDisk false c c') : c = 2 ∧ c' = 3 := by
  obtain ⟨e, hlists, hdir, _, rfl⟩ := h
  rcases hc with rfl | rfl
  · exact ⟨rfl, lists_nestedDisk hlists⟩
  · rw [(lists_nestedDisk_sub hlists).1] at hdir
    cases hdir

theorem below_nestedDisk (h : Below Env.ideal (plainFs 2) nestedDisk false 2 c) :
    c = 2 ∨ c = 3 := by
  induction h with
  | refl => exact Or.inl rfl
  | tail _ hsub ih => exact Or.inr (subDir_nestedDisk ih hsub).2

theorem along_nestedDisk {n x : Nat} (h : Along Env.ideal (plainFs 2) nestedDisk 4 n x) :
    x ∈ [4, 0xFFF7] := by
  obtain ⟨hend, hnext, _⟩ := nestedDisk_chains
  refine h.mem (List.mem_cons_self ..) fun y hy => ?_
  rcases List.mem_cons.mp hy with rfl | hy
  · exact Or.inr (hnext ▸ List.mem_cons_of_mem _ (List.mem_singleton_self _))
  · exact Or.inl (hend y (List.mem_cons_of_mem _ (List.mem_cons_of_mem _ hy)))

theorem treeApart_nestedDisk : TreeApart Env.ideal (plainFs 2) nestedDisk false 2 := by
  have hend := nestedDisk_chains.1
  refine wipePlaces_apart (L := [2, 3]) (F := [3, 4, 0xFFF7]) (fun b n x hb hx => ?_)
    (fun b e n x hb hlists hx => ?_) (by decide) (by decide)
  · rcases below_nestedDisk hb with rfl | rfl
    · obtain rfl := hx.eq_of_end (hend 2 (by decide))
      decide
    · obtain rfl := hx.eq_of_end (hend 3 (by decide))
      decide
  · rcases below_nestedDisk hb with rfl | rfl
    · rw [lists_nestedDisk hlists] at hx
      obtain rfl := hx.eq_of_end (hend 3 (by decide))
      decide
    · rw [(lists_nestedDisk_sub hlists).2] at hx
      exact List.mem_cons_of_mem _ (along_nestedDisk hx)

theorem noDirCycle_nestedDisk : NoDirCycle Env.ideal (plainFs 2) nestedDisk false 2 := by
  intro c hc hcycle
  obtain ⟨c', hsub, hrest⟩ := TransGen.head'_iff.mp hcycle
  obtain ⟨rfl, rfl⟩ := subDir_nestedDisk (below_nestedDisk hc) hsub
  rcases hrest.cases_head with heq | ⟨c', hsub', _⟩
  · cases heq
  · cases (subDir_nestedDisk (Or.inr rfl) hsub').1

theorem namesDir_nestedDisk : NamesDir Env.ideal (plainFs 2) nestedDisk [0x41] c ↔ c = 2 :=
  namesDir_A_iff (by rfl) nestedDisk_chains.2.2

end

end Gemios
