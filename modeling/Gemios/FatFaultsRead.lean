import Gemios.FatFaultsFront
import Gemios.FlakyDevice
import Gemios.FatAlloc

/-!
# Reading and copying on a device whose reads fail one by one

`fat_stat`, `fat_read_file` and `fat_copy_file` of `src/src/fs/fat.c` as programs over the
devices, and what a lookup comes to there.  A read that fails cuts a walk short: a name is
then not found, and a `..` that is not found leads to the root.
-/

namespace Gemios.Faulty

/-! ### The calls -/

/-- The lookup shared by `fat_stat`, `fat_read_file` and `fat_write_file`. -/
def fatLookup (fs : FatFs) (path : List UInt8) : DiskProg (Option EntryLoc) := do
  match ← fatResolveParentAndName fs path with
  | none => pure none
  | some (dir, name) => fatDirFindEntry fs dir name

/-- `fat_stat`: size and attributes. -/
def fatStat (fs : FatFs) (path : List UInt8) : DiskProg (Option (Nat × UInt8)) :=
  if path = [] ∨ path = [0x2F] ∨ path = [0x5C] then pure (some (0, 0x10))
  else Option.map (fun loc => (loc.entry.fileSize, loc.entry.attr)) <$> fatLookup fs path

/-- The loop of `fat_read_file`; `acc` is what has been copied out. -/
def readLoop (fs : FatFs) (toRead : Nat) :
    (visits cur : Nat) → (acc : List UInt8) → DiskProg (List UInt8)
  | 0, _, acc => pure acc
  | visits + 1, cur, acc =>
    if 2 ≤ cur ∧ cur < fs.eofLimit ∧ acc.length < toRead then do
      match ← readCluster fs cur with
      | none => pure acc
      | some buf =>
        let chunk := min fs.bytesPerCluster (toRead - acc.length)
        if chunk = 0 then pure acc
        else
          let acc := acc ++ (List.range' 0 chunk).map buf
          if acc.length ≥ toRead then pure acc
          else do
            let next ← getNextCluster fs cur
            if next = cur ∨ next < 2 then pure acc else readLoop fs toRead visits next acc
    else pure acc

def readContents (fs : FatFs) (e : Slot) (maxLen : Nat) : DiskProg (Option (List UInt8)) :=
  if e.isDirectory then pure none
  else
    let toRead := min e.fileSize maxLen
    if toRead = 0 ∨ e.cluster < 2 then pure (some [])
    else if fs.bytesPerCluster = 0 then pure none
    else do
      if !(← kmallocOk) then pure none
      else some <$> readLoop fs toRead maxVisits e.cluster []

/-- `fat_read_file`: the bytes copied to the caller's buffer (`*out_len` is their
    number), or `none` for -1. -/
def fatReadFile (fs : FatFs) (path : List UInt8) (maxLen : Nat) :
    DiskProg (Option (List UInt8)) := do
  match ← fatLookup fs path with
  | none => pure none
  | some loc => readContents fs loc.entry maxLen

abbrev DevsProg (α : Type) := Prog Devs Buf α

def upon {α : Type} (fs : FatFs) (p : DiskProg α) : DevsProg α := p.lift fs.bdev

/-- `fat_copy_file` up to the write: what it returns without one, or the bytes it writes. -/
def copySource (srcFs : FatFs) (srcPath : List UInt8) : DevsProg (Except Int (List UInt8)) := do
  match ← upon srcFs (fatStat srcFs srcPath) with
  | none => pure (.error (-1))
  | some (size, attr) =>
    if attr &&& 0x10 ≠ 0 then pure (.error (-2))
    else if size = 0 then pure (.ok [])
    else do
      if !(← Prog.alloc) then pure (.error (-3))
      else
        match ← upon srcFs (fatReadFile srcFs srcPath size) with
        | none => pure (.error (-1))
        | some bytes => pure (.ok bytes)

/-- The write of `fat_copy_file`: as many bytes as were read. -/
def copyWrite (afterShort : Nat → List UInt8) (dstFs : FatFs) (dstPath bytes : List UInt8) :
    DiskProg Int :=
  fatWriteFile afterShort dstFs dstPath (fun i => bytes.getD i 0) bytes.length

def fatCopyFile (afterShort : Nat → List UInt8) (srcFs : FatFs) (srcPath : List UInt8)
    (dstFs : FatFs) (dstPath : List UInt8) : DevsProg Int := do
  match ← copySource srcFs srcPath with
  | .error r => pure r
  | .ok bytes => upon dstFs (copyWrite afterShort dstFs dstPath bytes)

/-! ### The parts that only look -/

section

variable (fs : FatFs)

theorem readOnly_fatLookup (path : List UInt8) : (fatLookup fs path).ReadOnly := by
  refine (readOnly_fatResolveParentAndName fs path).bind fun r => ?_
  cases r with
  | none => exact Prog.readOnly_pure _
  | some p => exact readOnly_fatDirFindEntry fs p.1 p.2

theorem readOnly_fatStat (path : List UInt8) : (fatStat fs path).ReadOnly :=
  Prog.ReadOnly.ite (Prog.readOnly_pure _) ((readOnly_fatLookup fs path).map _)

theorem readOnly_readLoop (toRead : Nat) : ∀ (visits cur : Nat) (acc : List UInt8),
    (readLoop fs toRead visits cur acc).ReadOnly := by
  intro visits
  induction visits with
  | zero =>
    intro cur acc
    exact Prog.readOnly_pure _
  | succ visits ih =>
    intro cur acc
    refine Prog.ReadOnly.ite ?_ (Prog.readOnly_pure _)
    refine (readOnly_readCluster fs cur).bind fun b => ?_
    cases b with
    | none => exact Prog.readOnly_pure _
    | some buf =>
      refine Prog.ReadOnly.ite (Prog.readOnly_pure _) ?_
      refine Prog.ReadOnly.ite (Prog.readOnly_pure _) ?_
      refine (readOnly_getNextCluster fs cur).bind fun next => ?_
      exact Prog.ReadOnly.ite (Prog.readOnly_pure _) (ih _ _)

theorem readOnly_readContents (e : Slot) (maxLen : Nat) : (readContents fs e maxLen).ReadOnly := by
  refine Prog.ReadOnly.ite (Prog.readOnly_pure _) ?_
  refine Prog.ReadOnly.ite (Prog.readOnly_pure _) ?_
  refine Prog.ReadOnly.ite (Prog.readOnly_pure _) ?_
  refine readOnly_kmallocOk.bind fun ok => ?_
  refine Prog.ReadOnly.ite (Prog.readOnly_pure _) ?_
  exact (readOnly_readLoop fs _ _ _ _).map _

theorem readOnly_fatReadFile (path : List UInt8) (maxLen : Nat) :
    (fatReadFile fs path maxLen).ReadOnly := by
  refine (readOnly_fatLookup fs path).bind fun r => ?_
  cases r with
  | none => exact Prog.readOnly_pure _
  | some loc => exact readOnly_readContents fs loc.entry maxLen

end

/-! ### Lookups

A lookup finds what it finds on a sound device, or nothing. -/

section

variable (env : Env) [env.NoFault] (fs : FatFs)

theorem bdevRead_flaky (lba : Nat) (w : Flaky Disk) : (bdevRead lba).flaky w =
    (if w.fails 0 then none else some fun i => w.dev (lba * 512 + i), w.looked) :=
  Prog.flaky_read _ w

theorem readCluster_flaky (c : Nat) (w : Flaky Disk) :
    ((readCluster fs c).flaky w).1 = Gemios.readCluster env fs w.dev c ∨
      ((readCluster fs c).flaky w).1 = none := by
  unfold readCluster Gemios.readCluster
  split
  · exact Or.inl rfl
  · rw [bdevRead_flaky, bdevRead_eq]
    split
    · exact Or.inr rfl
    · exact Or.inl rfl

theorem getNextCluster_flaky (c : Nat) (w : Flaky Disk) :
    ((getNextCluster fs c).flaky w).1 = Gemios.getNextCluster env fs w.dev c ∨
      ((getNextCluster fs c).flaky w).1 = noCluster := by
  unfold getNextCluster Gemios.getNextCluster
  split
  · exact Or.inl rfl
  · cases fs.type with
    | unknown => exact Or.inl rfl
    | fat12 => exact Or.inl rfl
    | fat16 | fat32 =>
      dsimp only
      rw [Prog.flaky_bind, bdevRead_flaky, bdevRead_eq]
      cases w.fails 0 with
      | true => exact Or.inr rfl
      | false => exact Or.inl rfl

section Walk

variable {σ ρ : Type} (body : Nat → Nat → Slot → σ → Ctl σ ρ)

/-- One sector of the walk over the fixed root area, on a device that serves. -/
def rootSector (d : Disk) (i : Nat) (st : σ) : Ctl σ ρ :=
  let curSec := u32 (fs.rootDirStartSector + i)
  scan (fun e => body curSec e (slotAt (fun k => d (curSec * 512 + k)) (32 * e)))
    (List.range' 0 16) st

theorem rootTurn_flaky (i : Nat) (st : σ) (w : Flaky Disk) :
    ((rootTurn fs body i st).flaky w).1 = rootSector fs body w.dev i st ∨
      ∃ s', ((rootTurn fs body i st).flaky w).1 = .stop s' := by
  rw [rootTurn, Prog.flaky_bind, bdevRead_flaky]
  cases w.fails 0 with
  | true => exact Or.inr ⟨st, rfl⟩
  | false => exact Or.inl rfl

theorem scanRootDir_flaky (s : σ) (w : Flaky Disk) :
    ((scanRootDir fs body s).flaky w).1 = Gemios.scanRootDir env fs (fun _ => w.dev) body s ∨
      ∃ s', ((scanRootDir fs body s).flaky w).1 = .stop s' := by
  have hturn : ∀ i st, (rootTurn fs body i st).ReadOnly := by
    intro i st
    refine (readOnly_bdevRead _).bind fun b => ?_
    cases b with
    | none => exact Prog.readOnly_pure _
    | some sector => exact Prog.readOnly_pure _
  have hplain : Gemios.scanRootDir env fs (fun _ => w.dev) body s =
      scan (rootSector fs body w.dev)
        (List.range' 0 (if fs.rootDirSectors < 1024 then fs.rootDirSectors else 1024)) s := by
    simp only [Gemios.scanRootDir, bdevRead_eq]
    rfl
  rw [hplain]
  exact Prog.flaky_loop hturn (rootTurn_flaky fs body) _ s w

theorem scanChain_flaky (enter : Nat → σ → σ) : ∀ (visits cur : Nat) (s : σ) (w : Flaky Disk),
    ((scanChain fs body enter visits cur s).flaky w).1 =
        Gemios.scanChain env fs (fun _ => w.dev) enter body visits cur s ∨
      ∃ s', ((scanChain fs body enter visits cur s).flaky w).1 = .next s' := by
  intro visits
  induction visits with
  | zero =>
    intro cur s w
    exact Or.inl rfl
  | succ visits ih =>
    intro cur s w
    rw [scanChain, Gemios.scanChain]
    split
    · dsimp only
      rw [Prog.flaky_bind]
      rcases readCluster_flaky env fs cur w with hread | hread
      · rw [hread]
        have hdev := (readOnly_readCluster fs cur).flaky_dev w
        cases Gemios.readCluster env fs w.dev cur with
        | none => exact Or.inl rfl
        | some buf =>
          dsimp only
          cases (scanCluster fs body cur buf (enter cur s)).resume with
          | ret r => exact Or.inl rfl
          | stop s' => exact Or.inl rfl
          | next s' =>
            dsimp only
            rw [Prog.flaky_bind]
            have hdev' := (readOnly_getNextCluster fs cur).flaky_dev ((readCluster fs cur).flaky w).2
            rcases getNextCluster_flaky env fs cur ((readCluster fs cur).flaky w).2 with hnext | hnext
            · rw [hnext, hdev]
              split
              · exact Or.inl rfl
              · have hrest := ih (Gemios.getNextCluster env fs w.dev cur) s'
                  ((getNextCluster fs cur).flaky ((readCluster fs cur).flaky w).2).2
                rw [hdev', hdev] at hrest
                exact hrest
            · -- the walk goes on behind every chain
              rw [hnext]
              refine Or.inr ⟨s', ?_⟩
              split
              · rfl
              · cases visits with
                | zero => rfl
                | succ visits =>
                  rw [scanChain, if_neg fun h => noCluster_not_lt fs h.2]
                  rfl
      · rw [hread]
        exact Or.inr ⟨_, rfl⟩
    · exact Or.inl rfl

end Walk

theorem fatDirFindEntry_flaky (dir : FatDir) (name : List UInt8) (w : Flaky Disk) :
    ((fatDirFindEntry fs dir name).flaky w).1 = Gemios.fatDirFindEntry env fs w.dev dir name ∨
      ((fatDirFindEntry fs dir name).flaky w).1 = none := by
  unfold fatDirFindEntry Gemios.fatDirFindEntry
  split
  · rw [Prog.flaky_map]
    rcases scanRootDir_flaky env fs (findBody name) lfnParserReset w with h | ⟨s, h⟩
    · exact Or.inl (congrArg Ctl.found h)
    · exact Or.inr (congrArg Ctl.found h)
  · split
    · exact Or.inl rfl
    · rw [Prog.flaky_bind, kmallocOk_eq, kmallocOk, Prog.flaky_alloc]
      cases w.grants 0 with
      | false => exact Or.inr rfl
      | true =>
        dsimp only
        simp only [Bool.not_true, Bool.false_eq_true, if_false]
        rw [Prog.flaky_map]
        rcases scanChain_flaky env fs (findBody name) (fun _ p => p) maxVisits dir.cluster
          lfnParserReset w.asked with h | ⟨s, h⟩
        · exact Or.inl (congrArg Ctl.found h)
        · exact Or.inr (congrArg Ctl.found h)

end

/-! ### Paths -/

/-- The components of the directory part of a path. -/
def dirComponents (path : List UInt8) : List (List UInt8) :=
  match lastSlash (cleanPath path) with
  | some (k + 1) => pathComponents ((cleanPath path).take (k + 1)) []
  | _ => []

/-- The directory part of the path does not climb. -/
def Straight (path : List UInt8) : Prop := [0x2E, 0x2E] ∉ dirComponents path

instance (path : List UInt8) : Decidable (Straight path) := inferInstanceAs (Decidable (¬ _))

/-- What the path is looked up to can be relied on: it does not climb, or no read fails and
    no request for memory is denied on the way. -/
def Reliable (fs : FatFs) (path : List UInt8) (w : Flaky Disk) : Prop :=
  Straight path ∨ ((fatLookup fs path).Served w ∧ w.Granted)

section

variable (env : Env) [env.NoFault] (fs : FatFs)

theorem resolveStep_flaky {comp : List UInt8} (hcomp : comp ≠ [0x2E, 0x2E]) (dir : FatDir)
    (w : Flaky Disk) :
    ((resolveStep fs dir comp).flaky w).1 = Gemios.resolveStep env fs w.dev dir comp ∨
      ((resolveStep fs dir comp).flaky w).1 = none := by
  rw [resolveStep, Gemios.resolveStep, if_neg hcomp, if_neg hcomp]
  split
  · exact Or.inl rfl
  · rw [Prog.flaky_bind]
    rcases fatDirFindEntry_flaky env fs dir comp w with h | h
    · rw [h]
      refine Or.inl ?_
      cases Gemios.fatDirFindEntry env fs w.dev dir comp with
      | none => rfl
      | some loc =>
        dsimp only
        split <;> rfl
    · rw [h]
      exact Or.inr rfl

theorem resolveFrom_flaky : ∀ (comps : List (List UInt8)), [0x2E, 0x2E] ∉ comps →
    ∀ (dir : FatDir) (w : Flaky Disk),
      ((resolveFrom fs dir comps).flaky w).1 = Gemios.resolveFrom env fs w.dev dir comps ∨
        ((resolveFrom fs dir comps).flaky w).1 = none := by
  intro comps
  induction comps with
  | nil =>
    intro _ dir w
    exact Or.inl rfl
  | cons comp comps ih =>
    intro hnot dir w
    rw [List.mem_cons, not_or] at hnot
    rw [resolveFrom, Prog.flaky_bind, Gemios.resolveFrom]
    rcases resolveStep_flaky env fs (Ne.symm hnot.1) dir w with h | h
    · rw [h]
      cases Gemios.resolveStep env fs w.dev dir comp with
      | none => exact Or.inl rfl
      | some dir' =>
        have hrest := ih hnot.2 dir' ((resolveStep fs dir comp).flaky w).2
        rw [(readOnly_resolveStep fs dir comp).flaky_dev w] at hrest
        exact hrest
    · rw [h]
      exact Or.inr rfl

theorem fatResolveParentAndName_flaky {path : List UInt8} (hpath : Straight path)
    (w : Flaky Disk) :
    ((fatResolveParentAndName fs path).flaky w).1 =
        Gemios.fatResolveParentAndName env fs w.dev path ∨
      ((fatResolveParentAndName fs path).flaky w).1 = none := by
  unfold fatResolveParentAndName Gemios.fatResolveParentAndName
  unfold Straight dirComponents at hpath
  split
  · exact Or.inl rfl
  · dsimp only
    cases hlast : lastSlash (cleanPath path) with
    | none => exact Or.inl rfl
    | some k =>
      cases k with
      | zero => exact Or.inl rfl
      | succ k =>
        rw [hlast] at hpath
        dsimp only
        rw [Prog.flaky_bind, fatResolveDir, Gemios.fatResolveDir]
        rcases resolveFrom_flaky env fs _ hpath (fatRootDir fs) w with h | h
        · rw [h]
          refine Or.inl ?_
          cases Gemios.resolveFrom env fs w.dev (fatRootDir fs)
              (pathComponents ((cleanPath path).take (k + 1)) []) with
          | none => rfl
          | some dir => rfl
        · rw [h]
          exact Or.inr rfl

theorem fatLookup_granted (d : Disk) (path : List UInt8) :
    ((fatLookup fs path).run (World.sound d granted)).1 = Gemios.fatLookup env fs d path := by
  rw [fatLookup, Prog.run_bind, fatResolveParentAndName_granted env, Gemios.fatLookup]
  cases Gemios.fatResolveParentAndName env fs d path with
  | none => rfl
  | some r =>
    dsimp only
    rw [fatDirFindEntry_granted env]

/-- **Lookups.**  Where the lookup can be relied on, what it finds is what the path names. -/
theorem Reliable.lookup {path : List UInt8} {w : Flaky Disk} (h : Reliable fs path w)
    {loc : EntryLoc} (hloc : ((fatLookup fs path).flaky w).1 = some loc) :
    Gemios.fatLookup env fs w.dev path = some loc := by
  rcases h with hpath | ⟨hserved, hgrants⟩
  · rw [fatLookup, Prog.flaky_bind] at hloc
    rw [Gemios.fatLookup]
    rcases fatResolveParentAndName_flaky env fs hpath w with hres | hres
    · rw [hres] at hloc
      cases hplain : Gemios.fatResolveParentAndName env fs w.dev path with
      | none =>
        rw [hplain] at hloc
        cases hloc
      | some r =>
        rw [hplain] at hloc
        dsimp only at hloc ⊢
        have hfind := fatDirFindEntry_flaky env fs r.1 r.2
          ((fatResolveParentAndName fs path).flaky w).2
        rw [hloc, (readOnly_fatResolveParentAndName fs path).flaky_dev w] at hfind
        rcases hfind with hfind | hfind
        · exact hfind.symm
        · cases hfind
    · rw [hres] at hloc
      cases hloc
  · have hall : w.grants = granted := funext hgrants
    rw [((fatLookup fs path).flaky_of_served hserved).1, hall, fatLookup_granted env] at hloc
    exact hloc

end

end Gemios.Faulty
