import Gemios.FatPath

/-!
# Removing files and directories

`fat_free_cluster_chain`, `fat_wipe_dir_contents`, `fat_delete_entry_at`,
`fat_pattern_match` and `fat_remove` of `src/src/fs/fat.c`.
-/

namespace Gemios

/-- `fat_free_cluster_chain`, `visits` clusters at most. -/
def freeLoop (env : Env) (fs : FatFs) : (visits cur : Nat) → Disk → Disk
  | 0, _, d => d
  | visits + 1, cur, d =>
    if 2 ≤ cur ∧ cur < fs.eofLimit then
      let next := getNextCluster env fs d cur
      let d := (setFatEntry env fs d cur 0).2
      if next = cur ∨ next < 2 then d else freeLoop env fs visits next d
    else d

def fatFreeClusterChain (env : Env) (fs : FatFs) (d : Disk) (start : Nat) : Disk :=
  if start < 2 then d else freeLoop env fs maxVisits start d

/-! ### Wiping a directory -/

/-- State of the entry loop of `fat_wipe_dir_contents`: the cluster's buffer with
    the entries erased so far. -/
structure WipeState where
  buf : Buf
  modified : Bool
  disk : Disk

/-- One entry of `fat_wipe_dir_contents`; `wipeSub` is the nested call. -/
def wipeTurn (env : Env) (fs : FatFs) (wipeSub : Nat → Disk → Option Disk) (e : Nat)
    (s : WipeState) : Ctl WipeState Unit :=
  let entry := slotAt s.buf (32 * e)
  if entry.isEnd then .stop s
  else if entry.isDeleted then .next s
  else if entry.isLfn || entry.isVolumeId then .next s
  else if entry.isDot then .next s
  else
    let sub := entry.cluster
    let emptied : Option Disk :=
      if entry.isDirectory then if sub ≥ 2 then wipeSub sub s.disk else some s.disk
      else some s.disk
    match emptied with
    | none => .ret ()
    | some d =>
      let d := if sub ≥ 2 then fatFreeClusterChain env fs d sub else d
      .next ⟨putSlot s.buf (32 * e) entry.erase, true, d⟩

/-- The cluster loop of `fat_wipe_dir_contents`. -/
def wipeLoop (env : Env) (fs : FatFs) (wipeSub : Nat → Disk → Option Disk) :
    (visits cur : Nat) → Disk → Option Disk
  | 0, _, d => some d
  | visits + 1, cur, d =>
    if 2 ≤ cur ∧ cur < fs.eofLimit then
      match readCluster env fs d cur with
      | none => some d
      | some buf =>
        match (scan (wipeTurn env fs wipeSub) (List.range' 0 (fs.bytesPerCluster / 32))
            ⟨buf, false, d⟩).resume with
        | .ret _ => none
        | .stop s | .next s =>
          let d := if s.modified then (writeCluster env fs s.disk cur s.buf).2 else s.disk
          let next := getNextCluster env fs d cur
          if next = cur ∨ next < 2 then some d else wipeLoop env fs wipeSub visits next d
    else some d

/-- `fat_wipe_dir_contents` with at most `fuel` nested calls; `none` when the
    recursion is deeper.  Its return value is not used by any caller. -/
def fatWipeDirContents (env : Env) (fs : FatFs) : (fuel dirCluster : Nat) → Disk → Option Disk
  | 0, _, _ => none
  | fuel + 1, dirCluster, d =>
    if dirCluster < 2 ∨ fs.bytesPerCluster = 0 then some d
    else if !kmallocOk env fs.bytesPerCluster then some d
    else wipeLoop env fs (fatWipeDirContents env fs fuel) maxVisits dirCluster d

/-! ### Erasing an entry -/

/-- The loop of `fat_delete_entry_at` over the long-name slots; the sector under
    way is written back at the end, also after a failed read. -/
def eraseLfnLoop (env : Env) (fs : FatFs) : (count : Nat) → Disk → (sec slot : Nat) → Buf → Disk
  | 0, d, sec, _, buf => (bdevWrite env d sec 1 buf).2
  | count + 1, d, sec, slot, buf =>
    let buf := putSlot buf (32 * slot) (slotAt buf (32 * slot)).erase
    if slot + 1 ≥ fs.bytesPerSector / 32 then
      let d := (bdevWrite env d sec 1 buf).2
      let sec := u32 (sec + 1)
      match bdevRead env d sec with
      | none => (bdevWrite env d sec 1 buf).2
      | some buf => eraseLfnLoop env fs count d sec 0 buf
    else eraseLfnLoop env fs count d sec (slot + 1) buf

/-- The chain an entry leads to is freed, a directory's contents first. -/
def freeEntry (env : Env) (fs : FatFs) (fuel : Nat) (d : Disk) (e : Slot) : Option Disk :=
  let c := e.cluster
  if e.isDirectory then
    if c ≥ 2 then (fatWipeDirContents env fs fuel c d).map (fatFreeClusterChain env fs · c)
    else some d
  else if c ≥ 2 then some (fatFreeClusterChain env fs d c)
  else some d

/-- The long-name slots and the short entry are marked deleted. -/
def eraseSlots (env : Env) (fs : FatFs) (d : Disk) (sector slot lfnSec : Nat) (lfnSlot : Int)
    (lfnCount : Nat) : Int × Disk :=
  let d :=
    if lfnCount > 0 ∧ lfnSec > 0 ∧ lfnSlot ≥ 0 then
      match bdevRead env d lfnSec with
      | none => d
      | some buf => eraseLfnLoop env fs lfnCount d lfnSec lfnSlot.toNat buf
    else d
  match bdevRead env d sector with
  | none => (-1, d)
  | some buf =>
    bdevWrite env d sector 1 (putSlot buf (32 * slot) (slotAt buf (32 * slot)).erase)

def fatDeleteEntryAt (env : Env) (fs : FatFs) (fuel : Nat) (d : Disk) (sector slot : Nat)
    (e : Slot) (lfnSec : Nat) (lfnSlot : Int) (lfnCount : Nat) (recursive : Bool) :
    Option (Int × Disk) :=
  if e.isDirectory ∧ recursive = false then some (-2, d)
  else
    match freeEntry env fs fuel d e with
    | none => none
    | some d => some (eraseSlots env fs d sector slot lfnSec lfnSlot lfnCount)

/-! ### Patterns -/

/-- Does some non-empty rest of the string satisfy `f`? -/
def anyRest (f : List UInt8 → Bool) : List UInt8 → Bool
  | [] => false
  | c :: cs => f (c :: cs) || anyRest f cs

/-- `fat_pattern_match`.  After a `*` only non-empty rests of the string are
    tried. -/
def fatPatternMatch : List UInt8 → List UInt8 → Bool
  | [], s => s.isEmpty
  | p :: ps, s =>
    if p = 0x2A then
      if ps = [] then true else anyRest (fatPatternMatch ps) s
    else
      match s with
      | [] => false
      | c :: cs =>
        if p = 0x3F then fatPatternMatch ps cs
        else if toUpperChar p != toUpperChar c then false
        else fatPatternMatch ps cs

/-- Does the entry match the last path component, as a pattern or as a name? -/
def removeMatches (wildcard : Bool) (p : LfnParser) (e : Slot) (target : List UInt8) : Bool :=
  if wildcard then
    (p.named && fatPatternMatch target p.str) || fatPatternMatch target (cstr (formatFatName e))
  else entryMatches p e target

/-! ### `fat_remove` -/

structure RemoveState where
  parser : LfnParser
  removed : Nat
  disk : Disk

def removeBody (env : Env) (fs : FatFs) (fuel : Nat) (target : List UInt8)
    (wildcard recursive : Bool) (sec slot : Nat) (e : Slot) (s : RemoveState) :
    Ctl RemoveState (Option (Int × Disk)) :=
  let finish := (if s.removed > 0 then (s.removed : Int) else -1, s.disk)
  if e.isEnd then .ret (some finish)
  else if e.isDeleted then .next { s with parser := lfnParserReset }
  else
    let p := lfnParserFeed s.parser e sec slot
    if e.isLfn || e.isVolumeId then .next { s with parser := p }
    else if e.isDot then .next { s with parser := lfnParserReset }
    else if removeMatches wildcard p e target then
      match fatDeleteEntryAt env fs fuel s.disk sec slot e p.startSec p.startSlot
          p.totalLfnEntries recursive with
      | none => .ret none
      | some (r, d) =>
        if r = 0 then
          if wildcard then .next ⟨lfnParserReset, s.removed + 1, d⟩ else .ret (some (1, d))
        else if r = -2 ∧ !wildcard then .ret (some (-2, d))
        else .next ⟨lfnParserReset, s.removed, d⟩
    else .next { s with parser := lfnParserReset }

/-- `fat_remove`, with at most `fuel` nested wipes; `none` when the recursion is
    deeper. -/
def fatRemove (env : Env) (fs : FatFs) (fuel : Nat) (d : Disk) (path : List UInt8)
    (recursive : Bool) : Option (Int × Disk) :=
  match fatResolveParentAndName env fs d path with
  | none => some (-1, d)
  | some (dir, target) =>
    if target = [] ∨ target = [0x2E] ∨ target = [0x2E, 0x2E] then some (-1, d)
    else
      let wildcard := target.contains 0x2A || target.contains 0x3F
      let body := removeBody env fs fuel target wildcard recursive
      let s : RemoveState := ⟨lfnParserReset, 0, d⟩
      let result : Ctl RemoveState (Option (Int × Disk)) :=
        if dir.isRootFixed then scanRootDir env fs RemoveState.disk body s
        else if dir.cluster < 2 ∨ fs.bytesPerCluster = 0 then .ret (some (-1, d))
        else if !kmallocOk env fs.bytesPerCluster then .ret (some (-1, d))
        else
          scanChain env fs RemoveState.disk (fun _ s => s) body maxVisits dir.cluster s
      match result with
      | .ret r => r
      | .next s | .stop s => some (if s.removed > 0 then (s.removed : Int) else -1, s.disk)

theorem fatRemove_end_isSome {c : Ctl RemoveState (Option (Int × Disk))}
    (h : c.Sat (fun _ => True) fun r => r.isSome = true) :
    (match c with
      | .ret r => r
      | .next s | .stop s =>
        some (if s.removed > 0 then (s.removed : Int) else -1, s.disk)).isSome = true := by
  cases c with
  | ret r => exact h
  | next s | stop s => rfl

theorem fatRemove_end_map {σ ρ : Type} (f : σ → LfnParser) (g : ρ → Option (Int × Disk)) (d : Disk)
    (c : Ctl σ (Option ρ)) :
    (match c.map (fun p => (⟨f p, 0, d⟩ : RemoveState)) fun h => h.elim (some (-1, d)) g with
      | .ret r => r
      | .next s | .stop s => some (if s.removed > 0 then (s.removed : Int) else -1, s.disk)) =
    c.found.elim (some (-1, d)) g := by
  cases c <;> rfl

end Gemios
