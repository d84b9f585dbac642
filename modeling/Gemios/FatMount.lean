import Gemios.FatBasic

/-!
# Mounting a volume

`is_valid_fat_bpb` and `fat_mount` of `src/src/fs/fat.c`: the boot sector at
block 0, or the first valid one among the four primary partitions.
-/

namespace Gemios

/-- `is_valid_fat_bpb`: the total sector count of an accepted boot sector. -/
def isValidFatBpb (sector : Buf) : Option Nat :=
  let bytesPerSec := le16 sector 11
  let secPerClus := sector 13
  let total := if le16 sector 19 ≠ 0 then le16 sector 19 else le32 sector 32
  if sector 0 ≠ 0xEB ∧ sector 0 ≠ 0xE9 then none
  else if bytesPerSec ≠ 512 ∧ bytesPerSec ≠ 1024 ∧ bytesPerSec ≠ 2048 ∧ bytesPerSec ≠ 4096 then
    none
  else if secPerClus = 0 ∨ secPerClus &&& (secPerClus - 1) ≠ 0 then none
  else if le16 sector 14 = 0 then none
  else if sector 16 = 0 ∨ sector 16 > 4 then none
  else if sector 510 ≠ 0x55 ∨ sector 511 ≠ 0xAA then none
  else if total = 0 then none
  else some total

/-- The partition loop of `fat_mount`: start block, boot sector and total sector
    count of the first partition with a valid boot sector. -/
def findPartition (env : Env) (d : Disk) (mbr : Buf) : Option (Nat × Buf × Nat) :=
  (List.range' 0 4).findSome? fun p =>
    let entry := 0x1BE + p * 16
    let partStart := le32 mbr (entry + 8)
    let partSize := le32 mbr (entry + 12)
    if partStart > 0 ∧ partSize > 0 then
      match bdevRead env d partStart with
      | none => none
      | some sec => (isValidFatBpb sec).map fun total => (partStart, sec, total)
    else none

/-- The part of `fat_mount` after the boot sector is known. -/
def mountAt (bdev lbaOffset : Nat) (sector : Buf) (totalSectors : Nat) : Option FatFs :=
  let bps := le16 sector 11
  let spc := (sector 13).toNat
  let reserved := le16 sector 14
  let numFats := (sector 16).toNat
  let fatSz16 := le16 sector 22
  let rootEntCnt := le16 sector 17
  let fatSize := if fatSz16 ≠ 0 then fatSz16 else le32 sector 36
  let fatStart := u32 (lbaOffset + reserved)
  let afterFats := u32 (fatStart + u32 (numFats * fatSize))
  let rootSectors := if fatSz16 ≠ 0 then u32 (rootEntCnt * 32 + (bps - 1)) / bps else 0
  let dataStart := if fatSz16 ≠ 0 then u32 (afterFats + rootSectors) else afterFats
  let rootCluster := if fatSz16 ≠ 0 then 0 else le32 sector 44
  let bpc := u32 (bps * spc)
  if fatSize = 0 ∨ bpc = 0 then none
  else
    let dataStartRel := u32 (dataStart + 4294967296 - lbaOffset)
    let dataSectors := if totalSectors > dataStartRel then totalSectors - dataStartRel else 0
    let totalClusters := dataSectors / spc
    let type : FatType := if totalClusters < 4085 then .fat12
      else if totalClusters < 65525 then .fat16 else .fat32
    some
      { bdev := bdev
        type := type
        lbaOffset := lbaOffset
        bytesPerSector := bps
        sectorsPerCluster := spc
        bytesPerCluster := bpc
        reservedSectors := reserved
        numFats := numFats
        fatStartSector := fatStart
        fatSizeSectors := fatSize
        rootDirStartSector := if fatSz16 ≠ 0 then afterFats else 0
        rootDirSectors := rootSectors
        dataStartSector := dataStart
        totalClusters := totalClusters
        rootCluster := if type = .fat32 ∧ rootCluster < 2 then 2 else rootCluster }

/-- The boot sector `fat_mount` uses: its block, its bytes and the total sector
    count. -/
def findBoot (env : Env) (d : Disk) : Option (Nat × Buf × Nat) :=
  match bdevRead env d 0 with
  | none => none
  | some sector =>
    match isValidFatBpb sector with
    | some total => some (0, sector, total)
    | none => if sector 510 = 0x55 ∧ sector 511 = 0xAA then findPartition env d sector else none

/-- `fat_mount`: the mounted volume, or `none` for -1. -/
def fatMount (env : Env) (bdev : Nat) (d : Disk) : Option FatFs :=
  match findBoot env d with
  | none => none
  | some (lbaOffset, sector, totalSectors) => mountAt bdev lbaOffset sector totalSectors

end Gemios
