import Gemios.FatBasic

/-!
# The file allocation table and the clusters

`get_next_cluster`, `set_fat_entry`, `alloc_free_cluster`, `read_cluster` and
`write_cluster` of `src/src/fs/fat.c`.  The FAT16 and FAT32 branches differ in the
width of an entry and in the four high bits a FAT32 update keeps.
-/

namespace Gemios

/-- Sector and byte offset of a FAT entry of `width` bytes. -/
def fatEntryPos (fs : FatFs) (width cluster : Nat) : Nat × Nat :=
  let fatOffset := u32 (cluster * width)
  (u32 (fs.fatStartSector + fatOffset / fs.bytesPerSector), fatOffset % fs.bytesPerSector)

/-- Value the driver gives for "no next cluster". -/
def noCluster : Nat := 0xFFFFFFFF

def getNextCluster (env : Env) (fs : FatFs) (d : Disk) (cluster : Nat) : Nat :=
  if cluster < 2 then noCluster
  else
    match fs.type with
    | .fat16 =>
      let pos := fatEntryPos fs 2 cluster
      match bdevRead env d pos.1 with
      | none => noCluster
      | some sector =>
        let next := le16 sector pos.2
        if next < 2 ∨ next ≥ 0xFFF8 ∨ next = cluster then noCluster else next
    | .fat32 =>
      let pos := fatEntryPos fs 4 cluster
      match bdevRead env d pos.1 with
      | none => noCluster
      | some sector =>
        let next := le32 sector pos.2 % 0x10000000
        if next < 2 ∨ next ≥ 0x0FFFFFF8 ∨ next = cluster then noCluster else next
    | _ => noCluster

/-- The write of an updated FAT sector, and of its mirror in the second copy. -/
def writeFatSector (env : Env) (fs : FatFs) (d : Disk) (fatSector : Nat) (sector : Buf) :
    Int × Disk :=
  match bdevWrite env d fatSector 1 sector with
  | (0, d) =>
    if fs.numFats > 1 ∧ fs.fatSizeSectors > 0 then
      (0, (bdevWrite env d (u32 (fatSector + fs.fatSizeSectors)) 1 sector).2)
    else (0, d)
  | (_, d) => (-1, d)

def setFatEntry (env : Env) (fs : FatFs) (d : Disk) (cluster value : Nat) : Int × Disk :=
  if cluster < 2 then (-1, d)
  else
    match fs.type with
    | .fat16 =>
      let pos := fatEntryPos fs 2 cluster
      match bdevRead env d pos.1 with
      | none => (-1, d)
      | some sector => writeFatSector env fs d pos.1 (put16 sector pos.2 (u16 value))
    | .fat32 =>
      let pos := fatEntryPos fs 4 cluster
      match bdevRead env d pos.1 with
      | none => (-1, d)
      | some sector =>
        -- (orig & 0xF0000000) | (value & 0x0FFFFFFF)
        let orig := le32 sector pos.2
        writeFatSector env fs d pos.1
          (put32 sector pos.2 (orig / 0x10000000 * 0x10000000 + value % 0x10000000))
    | _ => (-1, d)

/-- The sector `alloc_free_cluster` holds while it scans (`cur_sector` and its
    buffer). -/
structure FatCache where
  curSector : Nat
  sector : Buf

/-- One turn of the scan of `alloc_free_cluster`, for entries of `width` bytes. -/
def allocTurn (env : Env) (fs : FatFs) (d : Disk) (width : Nat) (c : Nat) (st : FatCache) :
    Ctl FatCache (Nat × Disk) :=
  let pos := fatEntryPos fs width c
  let loaded : Option FatCache :=
    if pos.1 ≠ st.curSector then
      match bdevRead env d pos.1 with
      | none => none
      | some sector => some ⟨pos.1, sector⟩
    else some st
  match loaded with
  | none => .ret (0, d)
  | some st =>
    let val := if width = 2 then le16 st.sector pos.2 else le32 st.sector pos.2 % 0x10000000
    if val = 0 then .ret (c, (setFatEntry env fs d c fs.eofVal).2) else .next st

/-- `alloc_free_cluster`: the cluster taken (0 when there is none) and the device
    after it was marked. -/
def allocFreeCluster (env : Env) (fs : FatFs) (d : Disk) : Nat × Disk :=
  let maxScan :=
    if fs.totalClusters > 0 ∧ fs.totalClusters < 32768 then fs.totalClusters else 32768
  let run := fun width =>
    match scan (allocTurn env fs d width) (List.range' 2 maxScan) ⟨0xFFFFFFFF, fun _ => 0⟩ with
    | .ret r => r
    | _ => (0, d)
  match fs.type with
  | .fat16 => run 2
  | .fat32 => run 4
  | _ => (0, d)

def clusterSector (fs : FatFs) (cluster : Nat) : Nat :=
  u32 (fs.dataStartSector + u32 ((cluster - 2) * fs.sectorsPerCluster))

def readCluster (env : Env) (fs : FatFs) (d : Disk) (cluster : Nat) : Option Buf :=
  if cluster < 2 ∨ fs.sectorsPerCluster = 0 then none
  else bdevRead env d (clusterSector fs cluster)

def writeCluster (env : Env) (fs : FatFs) (d : Disk) (cluster : Nat) (buf : Buf) : Int × Disk :=
  if cluster < 2 ∨ fs.sectorsPerCluster = 0 then (-1, d)
  else bdevWrite env d (clusterSector fs cluster) fs.sectorsPerCluster buf

end Gemios
