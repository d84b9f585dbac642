import Gemios.DyingDevice
import Gemios.FatFile

/-!
# Creating files and directories on a device that can die

`fat_write_file` and `fat_mkdir` of `src/src/fs/fat.c` and what they call, as programs
over the device: every `bdev->read`, `bdev->write` and `kmalloc` is one operation and
can fail by itself.  The parts that only compute are those of the other modules.

`firstWrite` follows a call up to its first write.
-/

namespace Gemios.Faulty

abbrev DiskProg (α : Type) := Prog Disk Buf α

/-! ### The device and the heap -/

def bdevRead (lba : Nat) : DiskProg (Option Buf) := Prog.read fun d i => d (lba * 512 + i)

def bdevWrite (lba count : Nat) (b : Buf) : DiskProg Int := do
  let ok ← Prog.write fun d => d.blit lba count b
  pure (if ok then 0 else -1)

/-- `kmalloc(..) != NULL`. -/
def kmallocOk : DiskProg Bool := Prog.alloc

/-! ### The file allocation table and the clusters -/

def getNextCluster (fs : FatFs) (cluster : Nat) : DiskProg Nat :=
  if cluster < 2 then pure noCluster
  else
    match fs.type with
    | .fat16 => do
      let pos := fatEntryPos fs 2 cluster
      match ← bdevRead pos.1 with
      | none => pure noCluster
      | some sector =>
        let next := le16 sector pos.2
        pure (if next < 2 ∨ next ≥ 0xFFF8 ∨ next = cluster then noCluster else next)
    | .fat32 => do
      let pos := fatEntryPos fs 4 cluster
      match ← bdevRead pos.1 with
      | none => pure noCluster
      | some sector =>
        let next := le32 sector pos.2 % 0x10000000
        pure (if next < 2 ∨ next ≥ 0x0FFFFFF8 ∨ next = cluster then noCluster else next)
    | _ => pure noCluster

/-- The write of an updated FAT sector, and of its mirror in the second copy. -/
def writeFatSector (fs : FatFs) (fatSector : Nat) (sector : Buf) : DiskProg Int := do
  if (← bdevWrite fatSector 1 sector) ≠ 0 then pure (-1)
  else if fs.numFats > 1 ∧ fs.fatSizeSectors > 0 then
    let _ ← bdevWrite (u32 (fatSector + fs.fatSizeSectors)) 1 sector
    pure 0
  else pure 0

def setFatEntry (fs : FatFs) (cluster value : Nat) : DiskProg Int :=
  if cluster < 2 then pure (-1)
  else
    match fs.type with
    | .fat16 => do
      let pos := fatEntryPos fs 2 cluster
      match ← bdevRead pos.1 with
      | none => pure (-1)
      | some sector => writeFatSector fs pos.1 (put16 sector pos.2 (u16 value))
    | .fat32 => do
      let pos := fatEntryPos fs 4 cluster
      match ← bdevRead pos.1 with
      | none => pure (-1)
      | some sector =>
        -- (orig & 0xF0000000) | (value & 0x0FFFFFFF)
        let orig := le32 sector pos.2
        writeFatSector fs pos.1
          (put32 sector pos.2 (orig / 0x10000000 * 0x10000000 + value % 0x10000000))
    | _ => pure (-1)

/-- The sector the scan of `alloc_free_cluster` looks into: the one it holds, or read
    anew. -/
def loadFatSector (fatSector : Nat) (st : FatCache) : DiskProg (Option FatCache) :=
  if fatSector ≠ st.curSector then do
    match ← bdevRead fatSector with
    | none => pure none
    | some sector => pure (some ⟨fatSector, sector⟩)
  else pure (some st)

/-- One turn of that scan, for entries of `width` bytes: 0 after a read error, else the
    cluster when it is free. -/
def freeTurn (fs : FatFs) (width c : Nat) (st : FatCache) : DiskProg (Ctl FatCache Nat) := do
  let pos := fatEntryPos fs width c
  match ← loadFatSector pos.1 st with
  | none => pure (.ret 0)
  | some st =>
    let val := if width = 2 then le16 st.sector pos.2 else le32 st.sector pos.2 % 0x10000000
    pure (if val = 0 then .ret c else .next st)

/-- What the scan returns: 0 when it comes to its end. -/
def scanned : Ctl FatCache Nat → Nat
  | .ret c => c
  | _ => 0

/-- The scan over some clusters, for entries of `width` bytes. -/
def scanFat (fs : FatFs) (width : Nat) (clusters : List Nat) : DiskProg Nat :=
  scanned <$> Prog.loop (freeTurn fs width) clusters ⟨0xFFFFFFFF, fun _ => 0⟩

/-- The scan of `alloc_free_cluster`: the free cluster it stops at, 0 when there is
    none. -/
def freeCluster (fs : FatFs) : DiskProg Nat :=
  let maxScan :=
    if fs.totalClusters > 0 ∧ fs.totalClusters < 32768 then fs.totalClusters else 32768
  match fs.type with
  | .fat16 => scanFat fs 2 (List.range' 2 maxScan)
  | .fat32 => scanFat fs 4 (List.range' 2 maxScan)
  | _ => pure 0

/-- `alloc_free_cluster`; the result of `set_fat_entry` is not looked at. -/
def allocFreeCluster (fs : FatFs) : DiskProg Nat := do
  let c ← freeCluster fs
  if c = 0 then pure 0
  else
    let _ ← setFatEntry fs c fs.eofVal
    pure c

def readCluster (fs : FatFs) (cluster : Nat) : DiskProg (Option Buf) :=
  if cluster < 2 ∨ fs.sectorsPerCluster = 0 then pure none
  else bdevRead (clusterSector fs cluster)

def writeCluster (fs : FatFs) (cluster : Nat) (buf : Buf) : DiskProg Int :=
  if cluster < 2 ∨ fs.sectorsPerCluster = 0 then pure (-1)
  else bdevWrite (clusterSector fs cluster) fs.sectorsPerCluster buf

/-! ### Directory walks -/

section Walk

variable {σ ρ : Type} (fs : FatFs) (body : Nat → Nat → Slot → σ → Ctl σ ρ)

/-- One sector of the walk over the fixed root area. -/
def rootTurn (i : Nat) (st : σ) : DiskProg (Ctl σ ρ) := do
  let curSec := u32 (fs.rootDirStartSector + i)
  match ← bdevRead curSec with
  | none => pure (.stop st)
  | some sector =>
    pure (scan (fun e => body curSec e (slotAt sector (32 * e))) (List.range' 0 16) st)

def scanRootDir (s : σ) : DiskProg (Ctl σ ρ) :=
  let maxRootSectors := if fs.rootDirSectors < 1024 then fs.rootDirSectors else 1024
  Prog.loop (rootTurn fs body) (List.range' 0 maxRootSectors) s

def scanChain (enter : Nat → σ → σ) : (visits cur : Nat) → σ → DiskProg (Ctl σ ρ)
  | 0, _, s => pure (.next s)
  | visits + 1, cur, s =>
    if 2 ≤ cur ∧ cur < fs.eofLimit then do
      let s := enter cur s
      match ← readCluster fs cur with
      | none => pure (.next s)
      | some buf =>
        match (scanCluster fs body cur buf s).resume with
        | .ret r => pure (.ret r)
        | .stop s => pure (.stop s)
        | .next s =>
          let next ← getNextCluster fs cur
          if next = cur ∨ next < 2 then pure (.next s) else scanChain enter visits next s
    else pure (.next s)

end Walk

def fatDirFindEntry (fs : FatFs) (dir : FatDir) (name : List UInt8) : DiskProg (Option EntryLoc) :=
  if dir.isRootFixed then Ctl.found <$> scanRootDir fs (findBody name) lfnParserReset
  else if dir.cluster < 2 ∨ fs.bytesPerCluster = 0 then pure none
  else do
    if !(← kmallocOk) then pure none
    else
      Ctl.found <$> scanChain fs (findBody name) (fun _ p => p) maxVisits dir.cluster
        lfnParserReset

/-! ### Slot search -/

/-- What `fat_dir_find_or_alloc_lfn_slots` finds before it changes anything. -/
inductive SlotSearch where
  | failed
  | existing (loc : EntryLoc)
  | place (sec slot : Nat)
  | full (lastCluster : Nat)

/-- `fat_dir_find_or_alloc_lfn_slots` up to the end of the walk. -/
def searchSlots (fs : FatFs) (dir : FatDir) (name : List UInt8) (numSlots : Nat) :
    DiskProg SlotSearch := do
  match ← fatDirFindEntry fs dir name with
  | some loc => pure (.existing loc)
  | none =>
    let run : FreeRun := ⟨0, 0, 0, 0⟩
    if dir.isRootFixed then
      match ← scanRootDir fs (freeRunBody numSlots) run with
      | .ret (sec, slot) => pure (.place sec slot)
      | _ => pure .failed
    else if dir.cluster < 2 ∨ fs.bytesPerCluster = 0 then pure .failed
    else if !(← kmallocOk) then pure .failed
    else
      match ← scanChain fs (freeRunBody numSlots) (fun c r => { r with lastCluster := c })
          maxVisits dir.cluster run with
      | .ret (sec, slot) => pure (.place sec slot)
      | .next r | .stop r => pure (.full r.lastCluster)

/-- The new cluster linked to the directory and cleared; the slots are its first. -/
def linkCluster (fs : FatFs) (lastCluster newC : Nat) : DiskProg (Option SlotRef) :=
  if newC = 0 then pure none
  else do
    let _ ← setFatEntry fs lastCluster newC
    if ← kmallocOk then
      let _ ← writeCluster fs newC fun _ => 0
      pure (some (.place (clusterSector fs newC) 0))
    else pure (some (.place (clusterSector fs newC) 0))

/-- A directory without room gets a new cluster. -/
def appendCluster (fs : FatFs) (lastCluster : Nat) : DiskProg (Option SlotRef) := do
  linkCluster fs lastCluster (← allocFreeCluster fs)

/-- `fat_dir_find_or_alloc_lfn_slots` after the walk; `none` for -1. -/
def takeSlots (fs : FatFs) : SlotSearch → DiskProg (Option SlotRef)
  | .failed => pure none
  | .existing loc => pure (some (.existing loc))
  | .place sec slot => pure (some (.place sec slot))
  | .full lastCluster => appendCluster fs lastCluster

def fatDirFindOrAllocLfnSlots (fs : FatFs) (dir : FatDir) (name : List UInt8) (numSlots : Nat) :
    DiskProg (Option SlotRef) := do
  takeSlots fs (← searchSlots fs dir name numSlots)

/-! ### Writing a name's slots -/

/-- The loop of `fat_write_lfn_and_short_entry` over `seq` downto 1: sector, slot and
    buffer after it, or `none` after an error. -/
def writeLfnLoop (fs : FatFs) (longName : List UInt8) (numLfn : Nat) (chk : UInt8) :
    (seq curSec curSlot : Nat) → Buf → DiskProg (Option (Nat × Nat × Buf))
  | 0, curSec, curSlot, secBuf => pure (some (curSec, curSlot, secBuf))
  | seq + 1, curSec, curSlot, secBuf =>
    let buf := putSlot secBuf (32 * curSlot) (lfnEntry longName numLfn chk (seq + 1))
    if curSlot + 1 ≥ fs.bytesPerSector / 32 then do
      if (← bdevWrite curSec 1 buf) ≠ 0 then pure none
      else
        let sec := u32 (curSec + 1)
        match ← bdevRead sec with
        | none => pure none
        | some buf => writeLfnLoop fs longName numLfn chk seq sec 0 buf
    else writeLfnLoop fs longName numLfn chk seq curSec (curSlot + 1) buf

def fatWriteLfnAndShortEntry (fs : FatFs) (startSec startSlot : Nat)
    (longName short11 : List UInt8) (shortEntry : Slot) : DiskProg Int := do
  match ← bdevRead startSec with
  | none => pure (-1)
  | some buf =>
    let numLfn := numLfnSlots longName
    match ← writeLfnLoop fs longName numLfn (fatLfnChecksum short11) numLfn startSec startSlot
        buf with
    | none => pure (-1)
    | some (curSec, curSlot, secBuf) =>
      bdevWrite curSec 1 (putSlot secBuf (32 * curSlot) (shortEntry.withName short11))

/-- The alias loop over the numbers still to try; `last` is the alias in `short_11`
    when none is left. -/
def aliasLoop (afterShort : Nat → List UInt8) (fs : FatFs) (dir : FatDir) (name : List UInt8) :
    List Nat → (last : List UInt8) → DiskProg (List UInt8)
  | [], last => pure last
  | tail :: tails, _ => do
    let short11 := fatGenerateShortAlias name tail
    match ← fatDirFindEntry fs dir (short11 ++ afterShort tail) with
    | none => pure short11
    | some _ => aliasLoop afterShort fs dir name tails short11

/-- The 8.3 name a new entry gets; `afterShort` is what follows the unterminated
    `short_11` on the stack. -/
def chooseShortName (afterShort : Nat → List UInt8) (fs : FatFs) (dir : FatDir)
    (name : List UInt8) : DiskProg (List UInt8) :=
  if numLfnSlots name > 0 then aliasLoop afterShort fs dir name (List.range' 1 99) []
  else pure (toFat83Name name)

/-! ### Path resolution -/

/-- `..`. -/
def parentDir (fs : FatFs) (dir : FatDir) : DiskProg FatDir :=
  if atRoot fs dir then pure (fatRootDir fs)
  else do
    match ← fatDirFindEntry fs dir [0x2E, 0x2E] with
    | none => pure (fatRootDir fs)
    | some loc =>
      let pclus := loc.entry.cluster
      if pclus = 0 ∨ (fs.type = .fat32 ∧ pclus = fs.rootCluster) then pure (fatRootDir fs)
      else pure ⟨false, pclus⟩

/-- One component of `fat_resolve_dir`. -/
def resolveStep (fs : FatFs) (dir : FatDir) (comp : List UInt8) : DiskProg (Option FatDir) :=
  if comp = [0x2E] then pure (some dir)
  else if comp = [0x2E, 0x2E] then some <$> parentDir fs dir
  else do
    match ← fatDirFindEntry fs dir comp with
    | none => pure none
    | some loc =>
      if loc.entry.isDirectory then pure (some (dirOfCluster fs loc.entry.cluster)) else pure none

def resolveFrom (fs : FatFs) : FatDir → List (List UInt8) → DiskProg (Option FatDir)
  | dir, [] => pure (some dir)
  | dir, comp :: comps => do
    match ← resolveStep fs dir comp with
    | none => pure none
    | some dir' => resolveFrom fs dir' comps

def fatResolveDir (fs : FatFs) (path : List UInt8) : DiskProg (Option FatDir) :=
  resolveFrom fs (fatRootDir fs) (pathComponents path [])

def fatResolveParentAndName (fs : FatFs) (path : List UInt8) :
    DiskProg (Option (FatDir × List UInt8)) :=
  if path = [] then pure none
  else
    let clean := cleanPath path
    match lastSlash clean with
    | none => pure (some (fatRootDir fs, clean.take 255))
    | some 0 => pure (some (fatRootDir fs, (clean.drop 1).take 255))
    | some (k + 1) => do
      match ← fatResolveDir fs (clean.take (k + 1)) with
      | none => pure none
      | some dir => pure (some (dir, (clean.drop (k + 2)).take 255))

/-! ### The calls -/

/-- The loop of `fat_write_file`, in at most `fuel` turns. -/
def writeLoop (fs : FatFs) (buf : Buf) (len : Nat) : (fuel cur written : Nat) → DiskProg Int
  | 0, _, _ => pure (-1)
  | fuel + 1, cur, written => do
    let chunk := min fs.bytesPerCluster (len - written)
    let clusterBuf : Buf := fun i => if i < chunk then buf (written + i) else 0
    let written' := written + if chunk > 0 then chunk else fs.bytesPerCluster
    if (← writeCluster fs cur clusterBuf) ≠ 0 then pure (-1)
    else if written' ≥ len then
      let _ ← setFatEntry fs cur fs.eofVal
      pure 0
    else
      let next ← getNextCluster fs cur
      if next < 2 ∨ next ≥ fs.eofLimit then
        let c ← allocFreeCluster fs
        if c = 0 then pure (-1)
        else
          let _ ← setFatEntry fs cur c
          writeLoop fs buf len fuel c written'
      else writeLoop fs buf len fuel next written'

/-- First cluster for the data of an existing entry. -/
def firstCluster (fs : FatFs) (old : Nat) : DiskProg Nat :=
  if old < 2 then allocFreeCluster fs else pure old

/-- `fat_write_file` for an existing entry, once the first cluster is known. -/
def rewriteFile (fs : FatFs) (loc : EntryLoc) (buf : Buf) (len c : Nat) : DiskProg Int :=
  if c = 0 then pure (-1)
  else do
    if !(← kmallocOk) then pure (-1)
    else if (← writeLoop fs buf len (len + 1) c 0) ≠ 0 then pure (-1)
    else
      match ← bdevRead loc.sector with
      | none => pure (-1)
      | some sec =>
        let e := Slot.rewritten (slotAt sec (32 * loc.slot)) c (u32 len)
        bdevWrite loc.sector 1 (putSlot sec (32 * loc.slot) e)

def overwriteFile (fs : FatFs) (loc : EntryLoc) (buf : Buf) (len : Nat) : DiskProg Int :=
  if loc.entry.isDirectory then pure (-1)
  else do rewriteFile fs loc buf len (← firstCluster fs loc.entry.cluster)

section New

variable (afterShort : Nat → List UInt8) (fs : FatFs) (dir : FatDir) (name : List UInt8)
  (sec slot : Nat)

/-- `fat_write_file` for a new name, once the first cluster is taken. -/
def fillFile (buf : Buf) (len c : Nat) : DiskProg Int :=
  if c = 0 then pure (-1)
  else do
    if !(← kmallocOk) then pure (-1)
    else if (← writeLoop fs buf len (len + 1) c 0) ≠ 0 then pure (-1)
    else
      let short11 ← chooseShortName afterShort fs dir name
      fatWriteLfnAndShortEntry fs sec slot name short11 (Slot.fresh 0x20 c (u32 len))

/-- `fat_write_file` for a new name, at the slots found. -/
def createFile (buf : Buf) (len : Nat) : DiskProg Int := do
  fillFile afterShort fs dir name sec slot buf len (← allocFreeCluster fs)

/-- `fat_mkdir` once the cluster is taken. -/
def fillDir (c : Nat) : DiskProg Int :=
  if c = 0 then pure (-1)
  else do
    if !(← kmallocOk) then pure (-1)
    else if (← writeCluster fs c (dotEntries c (parentCluster fs dir))) ≠ 0 then pure (-1)
    else
      let short11 ← chooseShortName afterShort fs dir name
      fatWriteLfnAndShortEntry fs sec slot name short11 (Slot.fresh 0x10 c 0)

/-- `fat_mkdir` after the slots are found. -/
def createDir : DiskProg Int := do
  fillDir afterShort fs dir name sec slot (← allocFreeCluster fs)

end New

def fatWriteFile (afterShort : Nat → List UInt8) (fs : FatFs) (path : List UInt8) (buf : Buf)
    (len : Nat) : DiskProg Int := do
  match ← fatResolveParentAndName fs path with
  | none => pure (-1)
  | some (dir, name) =>
    match ← fatDirFindOrAllocLfnSlots fs dir name (numLfnSlots name + 1) with
    | none => pure (-1)
    | some (.existing loc) => overwriteFile fs loc buf len
    | some (.place sec slot) => createFile afterShort fs dir name sec slot buf len

def fatMkdir (afterShort : Nat → List UInt8) (fs : FatFs) (path : List UInt8) : DiskProg Int := do
  match ← fatResolveParentAndName fs path with
  | none => pure (-1)
  | some (dir, name) =>
    if name = [] ∨ name = [0x2E] ∨ name = [0x2E, 0x2E] then pure (-1)
    else
      match ← fatDirFindOrAllocLfnSlots fs dir name (numLfnSlots name + 1) with
      | none => pure (-1)
      | some (.existing _) => pure (-2)
      | some (.place sec slot) => createDir afterShort fs dir name sec slot

inductive Call where
  | writeFile (path : List UInt8) (buf : Buf) (len : Nat)
  | mkdir (path : List UInt8)

def Call.prog (afterShort : Nat → List UInt8) (fs : FatFs) : Call → DiskProg Int
  | .writeFile path buf len => fatWriteFile afterShort fs path buf len
  | .mkdir path => fatMkdir afterShort fs path

/-! ### The first write of a call -/

/-- What a call writes first: the mark of a free cluster in the FAT, or the first
    cluster of a file that exists. -/
inductive FirstWrite where
  | mark
  | data
deriving DecidableEq

/-- `alloc_free_cluster` up to its first write: the scan, and the read of
    `set_fat_entry`. -/
def beforeMark (fs : FatFs) : DiskProg (Option FirstWrite) := do
  let c ← freeCluster fs
  if c = 0 then pure none
  else
    let _ ← bdevRead (fatEntryPos fs (if fs.type = .fat32 then 4 else 2) c).1
    pure (some .mark)

/-- `fat_write_file` for an existing entry, up to its first write. -/
def beforeOverwrite (fs : FatFs) (loc : EntryLoc) : DiskProg (Option FirstWrite) :=
  if loc.entry.isDirectory then pure none
  else if loc.entry.cluster < 2 then beforeMark fs
  else do
    if !(← kmallocOk) then pure none else pure (some .data)

/-- A call up to its first write: what it is about to write, `none` when the call
    returns before it writes anything. -/
def firstWrite (fs : FatFs) : Call → DiskProg (Option FirstWrite)
  | .writeFile path _ _ => do
    match ← fatResolveParentAndName fs path with
    | none => pure none
    | some (dir, name) =>
      match ← searchSlots fs dir name (numLfnSlots name + 1) with
      | .failed => pure none
      | .existing loc => beforeOverwrite fs loc
      | .place _ _ | .full _ => beforeMark fs
  | .mkdir path => do
    match ← fatResolveParentAndName fs path with
    | none => pure none
    | some (dir, name) =>
      if name = [] ∨ name = [0x2E] ∨ name = [0x2E, 0x2E] then pure none
      else
        match ← searchSlots fs dir name (numLfnSlots name + 1) with
        | .failed | .existing _ => pure none
        | .place _ _ | .full _ => beforeMark fs

end Gemios.Faulty
