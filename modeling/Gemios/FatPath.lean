import Gemios.FatDir

/-!
# Path resolution

`fat_resolve_dir`, `fat_resolve_parent_and_name`, `fat_is_dir` and `fat_stat` of
`src/src/fs/fat.c`.
-/

namespace Gemios

/-- The components the loop of `fat_resolve_dir` cuts a path into; `acc` is the
    component under way.  One of more than 255 bytes is cut into pieces. -/
def pathComponents : List UInt8 → List UInt8 → List (List UInt8)
  | [], acc => if acc = [] then [] else [acc]
  | c :: cs, acc =>
    if isSlash c then
      if acc = [] then pathComponents cs [] else acc :: pathComponents cs []
    else if acc.length = 255 then acc :: pathComponents cs [c]
    else pathComponents cs (acc ++ [c])

/-- The directory a first-cluster number leads to. -/
def dirOfCluster (fs : FatFs) (c : Nat) : FatDir :=
  if c < 2 then fatRootDir fs else ⟨false, c⟩

def atRoot (fs : FatFs) (dir : FatDir) : Bool :=
  dir.isRootFixed || (fs.type == .fat32 && dir.cluster == fs.rootCluster)

/-- `..`: the parent as the directory's own entry gives it. -/
def parentDir (env : Env) (fs : FatFs) (d : Disk) (dir : FatDir) : FatDir :=
  if atRoot fs dir then fatRootDir fs
  else
    match fatDirFindEntry env fs d dir [0x2E, 0x2E] with
    | none => fatRootDir fs
    | some loc =>
      let pclus := loc.entry.cluster
      if pclus = 0 ∨ (fs.type = .fat32 ∧ pclus = fs.rootCluster) then fatRootDir fs
      else ⟨false, pclus⟩

/-- One component of `fat_resolve_dir`. -/
def resolveStep (env : Env) (fs : FatFs) (d : Disk) (dir : FatDir) (comp : List UInt8) :
    Option FatDir :=
  if comp = [0x2E] then some dir
  else if comp = [0x2E, 0x2E] then some (parentDir env fs d dir)
  else
    match fatDirFindEntry env fs d dir comp with
    | none => none
    | some loc =>
      if loc.entry.isDirectory then some (dirOfCluster fs loc.entry.cluster) else none

def resolveFrom (env : Env) (fs : FatFs) (d : Disk) : FatDir → List (List UInt8) → Option FatDir
  | dir, [] => some dir
  | dir, comp :: comps =>
    match resolveStep env fs d dir comp with
    | none => none
    | some dir' => resolveFrom env fs d dir' comps

def fatResolveDir (env : Env) (fs : FatFs) (d : Disk) (path : List UInt8) : Option FatDir :=
  resolveFrom env fs d (fatRootDir fs) (pathComponents path [])

/-- The loop that drops trailing separators but keeps the first byte. -/
def stripSlashes (path : List UInt8) : List UInt8 :=
  match path with
  | [] => []
  | c :: cs => c :: (cs.reverse.dropWhile isSlash).reverse

def lastSlash : List UInt8 → Option Nat
  | [] => none
  | x :: xs =>
    match lastSlash xs with
    | some k => some (k + 1)
    | none => if isSlash x then some 0 else none

/-- `clean_path`: at most 511 bytes, without trailing separators. -/
def cleanPath (path : List UInt8) : List UInt8 := stripSlashes (path.take 511)

def fatResolveParentAndName (env : Env) (fs : FatFs) (d : Disk) (path : List UInt8) :
    Option (FatDir × List UInt8) :=
  if path = [] then none
  else
    let clean := cleanPath path
    match lastSlash clean with
    | none => some (fatRootDir fs, clean.take 255)
    | some 0 => some (fatRootDir fs, (clean.drop 1).take 255)
    | some (k + 1) =>
      match fatResolveDir env fs d (clean.take (k + 1)) with
      | none => none
      | some dir => some (dir, (clean.drop (k + 2)).take 255)

def fatIsDir (env : Env) (fs : FatFs) (d : Disk) (path : List UInt8) : Bool :=
  (fatResolveDir env fs d path).isSome

/-- The lookup shared by `fat_stat`, `fat_read_file` and `fat_write_file`. -/
def fatLookup (env : Env) (fs : FatFs) (d : Disk) (path : List UInt8) : Option EntryLoc :=
  match fatResolveParentAndName env fs d path with
  | none => none
  | some (dir, name) => fatDirFindEntry env fs d dir name

/-- `fat_stat`: size and attributes. -/
def fatStat (env : Env) (fs : FatFs) (d : Disk) (path : List UInt8) : Option (Nat × UInt8) :=
  if path = [] ∨ path = [0x2F] ∨ path = [0x5C] then some (0, 0x10)
  else (fatLookup env fs d path).map fun loc => (loc.entry.fileSize, loc.entry.attr)

end Gemios
