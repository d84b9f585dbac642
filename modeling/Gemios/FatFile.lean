import Gemios.FatPath

/-!
# Reading, writing and copying files and directories

`fat_read_file`, `fat_write_file`, `fat_copy_file`, `fat_mkdir` and `fat_copy_dir`
of `src/src/fs/fat.c`.
-/

namespace Gemios

/-! ### Reading -/

/-- The loop of `fat_read_file`; `acc` is what has been copied out. -/
def readLoop (env : Env) (fs : FatFs) (d : Disk) (toRead : Nat) :
    (visits cur : Nat) → (acc : List UInt8) → List UInt8
  | 0, _, acc => acc
  | visits + 1, cur, acc =>
    if 2 ≤ cur ∧ cur < fs.eofLimit ∧ acc.length < toRead then
      match readCluster env fs d cur with
      | none => acc
      | some buf =>
        let chunk := min fs.bytesPerCluster (toRead - acc.length)
        if chunk = 0 then acc
        else
          let acc := acc ++ (List.range' 0 chunk).map buf
          if acc.length ≥ toRead then acc
          else
            let next := getNextCluster env fs d cur
            if next = cur ∨ next < 2 then acc else readLoop env fs d toRead visits next acc
    else acc

def readContents (env : Env) (fs : FatFs) (d : Disk) (e : Slot) (maxLen : Nat) :
    Option (List UInt8) :=
  if e.isDirectory then none
  else
    let toRead := min e.fileSize maxLen
    if toRead = 0 ∨ e.cluster < 2 then some []
    else if fs.bytesPerCluster = 0 then none
    else if !kmallocOk env fs.bytesPerCluster then none
    else some (readLoop env fs d toRead maxVisits e.cluster [])

/-- `fat_read_file`: the bytes copied to the caller's buffer (`*out_len` is their
    number), or `none` for -1. -/
def fatReadFile (env : Env) (fs : FatFs) (d : Disk) (path : List UInt8) (maxLen : Nat) :
    Option (List UInt8) :=
  match fatLookup env fs d path with
  | none => none
  | some loc => readContents env fs d loc.entry maxLen

/-! ### Writing -/

/-- The loop of `fat_write_file` that fills and links the clusters.  `buf` is the
    caller's buffer (all zero for `NULL`).  Every turn writes at least one byte or
    is the last, so `fuel = len + 1` turns are enough. -/
def writeLoop (env : Env) (fs : FatFs) (buf : Buf) (len : Nat) :
    (fuel : Nat) → Disk → (cur written : Nat) → Int × Disk
  | 0, d, _, _ => (-1, d)
  | fuel + 1, d, cur, written =>
    let chunk := min fs.bytesPerCluster (len - written)
    let clusterBuf : Buf := fun i => if i < chunk then buf (written + i) else 0
    let written' := written + if chunk > 0 then chunk else fs.bytesPerCluster
    match writeCluster env fs d cur clusterBuf with
    | (0, d) =>
      if written' ≥ len then (0, (setFatEntry env fs d cur fs.eofVal).2)
      else
        let next := getNextCluster env fs d cur
        if next < 2 ∨ next ≥ fs.eofLimit then
          match allocFreeCluster env fs d with
          | (0, d) => (-1, d)
          | (c, d) => writeLoop env fs buf len fuel (setFatEntry env fs d cur c).2 c written'
        else writeLoop env fs buf len fuel d next written'
    | (_, d) => (-1, d)

/-- The entry of an overwritten file: attributes, first cluster and size change. -/
def Slot.rewritten (e : Slot) (c size : Nat) : Slot :=
  put32 (Slot.setCluster (fun i => if i = 11 then 0x20 else e i) c) 28 size

/-- First cluster for the data: the old one, or a newly taken one (0: none left). -/
def firstCluster (env : Env) (fs : FatFs) (d : Disk) (old : Nat) : Nat × Disk :=
  if old < 2 then allocFreeCluster env fs d else (old, d)

def overwriteFile (env : Env) (fs : FatFs) (d : Disk) (loc : EntryLoc) (buf : Buf) (len : Nat) :
    Int × Disk :=
  if loc.entry.isDirectory then (-1, d)
  else
    match firstCluster env fs d loc.entry.cluster with
    | (0, d) => (-1, d)
    | (c, d) =>
      if !kmallocOk env fs.bytesPerCluster then (-1, d)
      else
        match writeLoop env fs buf len (len + 1) d c 0 with
        | (0, d) =>
          match bdevRead env d loc.sector with
          | none => (-1, d)
          | some sec =>
            let e := Slot.rewritten (slotAt sec (32 * loc.slot)) c (u32 len)
            bdevWrite env d loc.sector 1 (putSlot sec (32 * loc.slot) e)
        | (_, d) => (-1, d)

/-- `fat_write_file` for a new name, at the slots found. -/
def createFile (env : Env) (fs : FatFs) (d : Disk) (dir : FatDir) (name : List UInt8)
    (sec slot : Nat) (buf : Buf) (len : Nat) : Int × Disk :=
  match allocFreeCluster env fs d with
  | (0, d) => (-1, d)
  | (c, d) =>
    if !kmallocOk env fs.bytesPerCluster then (-1, d)
    else
      match writeLoop env fs buf len (len + 1) d c 0 with
      | (0, d) =>
        fatWriteLfnAndShortEntry env fs d sec slot name (chooseShortName env fs d dir name)
          (Slot.fresh 0x20 c (u32 len))
      | (_, d) => (-1, d)

def fatWriteFile (env : Env) (fs : FatFs) (d : Disk) (path : List UInt8) (buf : Buf) (len : Nat) :
    Int × Disk :=
  match fatResolveParentAndName env fs d path with
  | none => (-1, d)
  | some (dir, name) =>
    match fatDirFindOrAllocLfnSlots env fs d dir name (numLfnSlots name + 1) with
    | (none, d) => (-1, d)
    | (some (.existing loc), d) => overwriteFile env fs d loc buf len
    | (some (.place sec slot), d) => createFile env fs d dir name sec slot buf len

/-! ### Directories -/

/-- The first cluster of a new directory: `.` and `..`. -/
def dotEntries (c parent : Nat) : Buf :=
  let dot := (Slot.fresh 0x10 c 0).withName (padTo 11 [0x2E])
  let dotdot := (Slot.fresh 0x10 parent 0).withName (padTo 11 [0x2E, 0x2E])
  putSlot (putSlot (fun _ => 0) 0 dot) 32 dotdot

/-- The number a new directory's `..` entry holds for its parent. -/
def parentCluster (fs : FatFs) (dir : FatDir) : Nat :=
  let c := if dir.isRootFixed then 0 else dir.cluster
  if fs.type = .fat32 ∧ c = fs.rootCluster then 0 else c

/-- `fat_mkdir` after the slots are found. -/
def createDir (env : Env) (fs : FatFs) (d : Disk) (dir : FatDir) (name : List UInt8)
    (sec slot : Nat) : Int × Disk :=
  match allocFreeCluster env fs d with
  | (0, d) => (-1, d)
  | (c, d) =>
    if !kmallocOk env fs.bytesPerCluster then (-1, d)
    else
      match writeCluster env fs d c (dotEntries c (parentCluster fs dir)) with
      | (0, d) =>
        fatWriteLfnAndShortEntry env fs d sec slot name (chooseShortName env fs d dir name)
          (Slot.fresh 0x10 c 0)
      | (_, d) => (-1, d)

def fatMkdir (env : Env) (fs : FatFs) (d : Disk) (path : List UInt8) : Int × Disk :=
  match fatResolveParentAndName env fs d path with
  | none => (-1, d)
  | some (dir, name) =>
    if name = [] ∨ name = [0x2E] ∨ name = [0x2E, 0x2E] then (-1, d)
    else
      match fatDirFindOrAllocLfnSlots env fs d dir name (numLfnSlots name + 1) with
      | (none, d) => (-1, d)
      | (some (.existing _), d) => (-2, d)
      | (some (.place sec slot), d) => createDir env fs d dir name sec slot

/-! ### Copying

Source and destination may live on two devices or on one. -/

abbrev Devs := Nat → Disk

def Devs.set (w : Devs) (bdev : Nat) (d : Disk) : Devs := fun i => if i = bdev then d else w i

def fatCopyFile (env : Env) (srcFs : FatFs) (srcPath : List UInt8) (dstFs : FatFs)
    (dstPath : List UInt8) (w : Devs) : Int × Devs :=
  match fatStat env srcFs (w srcFs.bdev) srcPath with
  | none => (-1, w)
  | some (size, attr) =>
    if attr &&& 0x10 ≠ 0 then (-2, w)
    else
      let put := fun (buf : Buf) (len : Nat) =>
        let r := fatWriteFile env dstFs (w dstFs.bdev) dstPath buf len
        (r.1, w.set dstFs.bdev r.2)
      if size = 0 then put (fun _ => 0) 0
      else if !kmallocOk env size then (-3, w)
      else
        match fatReadFile env srcFs (w srcFs.bdev) srcPath size with
        | none => (-1, w)
        | some bytes => put (fun i => bytes.getD i 0) bytes.length

/-- `snprintf(sub, 512, "%s/%s", ..)`. -/
def subPath (path item : List UInt8) : List UInt8 :=
  ((if path = [0x2F] then [] else path) ++ 0x2F :: item).take 511

/-- `item_name`: the long name when there is one, else the short one. -/
def itemName (p : LfnParser) (e : Slot) : List UInt8 :=
  if p.named && p.str != [] then p.str else cstr (formatFatName e)

/-- What `fat_copy_dir` does to the devices, over any state that holds them:
    `fat_mkdir` on the destination, and `fat_copy_file`. -/
structure CopyOps (σ : Type) where
  devs : σ → Devs
  mkdir : (dstPath : List UInt8) → σ → σ
  copyFile : (srcPath dstPath : List UInt8) → σ → σ

structure CopyState (σ : Type) where
  parser : LfnParser
  st : σ

section CopyDir

variable {σ : Type} (env : Env) (srcFs dstFs : FatFs) (ops : CopyOps σ)

/-- Body of the walk of `fat_copy_dir`; `copySub` is the nested call. -/
def copyBody (srcPath dstPath : List UInt8)
    (copySub : List UInt8 → List UInt8 → σ → Option (Int × σ))
    (sec slot : Nat) (e : Slot) (s : CopyState σ) : Ctl (CopyState σ) (Option (Int × σ)) :=
  if e.isEnd then .ret (some (0, s.st))
  else if e.isDeleted then .next ⟨lfnParserReset, s.st⟩
  else
    let p := lfnParserFeed s.parser e sec slot
    if e.isLfn || e.isVolumeId then .next ⟨p, s.st⟩
    else if e.isDot then .next ⟨lfnParserReset, s.st⟩
    else
      let subSrc := subPath srcPath (itemName p e)
      let subDst := subPath dstPath (itemName p e)
      if e.isDirectory then
        match copySub subSrc subDst s.st with
        | none => .ret none
        | some (_, st) => .next ⟨lfnParserReset, st⟩
      else .next ⟨lfnParserReset, ops.copyFile subSrc subDst s.st⟩

/-- `fat_copy_dir` with at most `fuel` nested calls; `none` when the recursion is
    deeper. -/
def copyDirWith : (fuel : Nat) → (srcPath dstPath : List UInt8) → σ → Option (Int × σ)
  | 0, _, _, _ => none
  | fuel + 1, srcPath, dstPath, st =>
    let st :=
      if fatIsDir env dstFs (ops.devs st dstFs.bdev) dstPath then st else ops.mkdir dstPath st
    match fatResolveDir env srcFs (ops.devs st srcFs.bdev) srcPath with
    | none => some (-1, st)
    | some dir =>
      let body := copyBody ops srcPath dstPath (copyDirWith fuel)
      let disk := fun s : CopyState σ => ops.devs s.st srcFs.bdev
      let s : CopyState σ := ⟨lfnParserReset, st⟩
      let result : Ctl (CopyState σ) (Option (Int × σ)) :=
        if dir.isRootFixed then scanRootDir env srcFs disk body s
        else if dir.cluster < 2 ∨ srcFs.bytesPerCluster = 0 then .ret (some (-1, st))
        else if !kmallocOk env srcFs.bytesPerCluster then .ret (some (-1, st))
        else scanChain env srcFs disk (fun _ s => s) body maxVisits dir.cluster s
      match result with
      | .ret r => r
      | .next s | .stop s => some (0, s.st)

end CopyDir

def fatCopyOps (env : Env) (srcFs dstFs : FatFs) : CopyOps Devs where
  devs w := w
  mkdir dstPath w := w.set dstFs.bdev (fatMkdir env dstFs (w dstFs.bdev) dstPath).2
  copyFile srcPath dstPath w := (fatCopyFile env srcFs srcPath dstFs dstPath w).2

def fatCopyDir (env : Env) (srcFs dstFs : FatFs) :
    (fuel : Nat) → (srcPath dstPath : List UInt8) → Devs → Option (Int × Devs) :=
  copyDirWith env srcFs dstFs (fatCopyOps env srcFs dstFs)

end Gemios
