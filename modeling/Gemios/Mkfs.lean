import Gemios.FatMount
import Gemios.FatNames

/-!
# Formatting an image

`main` and `make_bpb` of `src/tools/mkfs_fat.c`, the host tool that formats an image
file, after its options have been parsed.  The image is a file that grows when it is
written past its end; `fopen`, `fseek`, `fwrite` and `calloc` succeed, and the volume
id (the host's clock) is a parameter.
-/

namespace Gemios

/-! ### The image file -/

/-- An open file: its bytes, the file position and the length. -/
structure ImgFile where
  data : Disk
  pos : Nat
  size : Nat

namespace ImgFile

/-- `fseek(fp, pos, SEEK_SET)`. -/
def seek (f : ImgFile) (pos : Nat) : ImgFile := { f with pos := pos }

/-- `fwrite(buf, 1, SECTOR_SIZE, fp)`. -/
def write (f : ImgFile) (buf : Buf) : ImgFile where
  data a := if f.pos ≤ a ∧ a < f.pos + 512 then buf (a - f.pos) else f.data a
  pos := f.pos + 512
  size := max f.size (f.pos + 512)

/-- A loop that writes the same sector `n` times. -/
def writeTimes (buf : Buf) : (n : Nat) → ImgFile → ImgFile
  | 0, f => f
  | n + 1, f => writeTimes buf n (f.write buf)

end ImgFile

/-- `memcpy` of constant bytes to byte `i`. -/
def putBytes (b : Buf) (i : Nat) (bytes : List UInt8) : Buf := fun j =>
  if i ≤ j ∧ j < i + bytes.length then bytes.getD (j - i) 0 else b j

/-- `memset(sector_buf, 0, SECTOR_SIZE)`. -/
def zeroSector : Buf := fun _ => 0

/-! ### The boot sector -/

/-- `format_volume_label`: eleven upper-case bytes, padded with blanks. -/
def formatVolumeLabel (src : List UInt8) : List UInt8 :=
  let bytes := (cstr src).take 11
  bytes.map toUpperChar ++ List.replicate (11 - bytes.length) 0x20

/-- The label of a volume without a name: `GEMIOS12`, `GEMIOS16` or `GEMIOS32`. -/
def defaultLabel (t : FatType) : List UInt8 :=
  [0x47, 0x45, 0x4D, 0x49, 0x4F, 0x53] ++
    (if t = .fat12 then [0x31, 0x32] else if t = .fat16 then [0x31, 0x36] else [0x33, 0x32])

/-- The file system name: `FAT12   `, `FAT16   ` or `FAT32   `. -/
def fsTypeName (t : FatType) : List UInt8 :=
  [0x46, 0x41, 0x54] ++
    (if t = .fat12 then [0x31, 0x32] else if t = .fat16 then [0x31, 0x36] else [0x33, 0x32]) ++
    [0x20, 0x20, 0x20]

structure MkfsGeometry where
  fatType : FatType
  totalSectors : Nat
  secPerClus : Nat
  rsvdSecCnt : Nat
  rootEntCnt : Nat
  rootDirSectors : Nat
  totalClusters : Nat
  fatSize : Nat
deriving DecidableEq, Repr

/-- The part of `make_bpb` that all types share, up to byte 36. -/
def bpbCommon (g : MkfsGeometry) : Buf :=
  let sec := zeroSector
  let sec := putBytes sec 0 [0xEB, if g.fatType = .fat32 then 0x58 else 0x3C, 0x90]
  let sec := putBytes sec 3 [0x47, 0x45, 0x4D, 0x49, 0x4F, 0x53, 0x20, 0x20]
  let sec := put16 sec 11 512
  let sec := putBytes sec 13 [UInt8.ofNat g.secPerClus]
  let sec := put16 sec 14 g.rsvdSecCnt
  let sec := putBytes sec 16 [2]
  let sec := put16 sec 17 g.rootEntCnt
  let large := g.fatType = .fat32 ∨ g.totalSectors ≥ 65536
  let sec := put16 sec 19 (if large then 0 else u16 g.totalSectors)
  let sec := put32 sec 32 (if large then g.totalSectors else 0)
  let sec := putBytes sec 21 [0xF8]
  let sec := put16 sec 22 (if g.fatType = .fat32 then 0 else u16 g.fatSize)
  let sec := put16 sec 24 32
  let sec := put16 sec 26 64
  put32 sec 28 0

def makeBpb (g : MkfsGeometry) (volId : Nat) (volName : Option (List UInt8)) : Buf :=
  let label := formatVolumeLabel (volName.getD (defaultLabel g.fatType))
  let sec := bpbCommon g
  if g.fatType = .fat12 ∨ g.fatType = .fat16 then
    let sec := putBytes sec 36 [0x80, 0, 0x29]
    let sec := put32 sec 39 volId
    let sec := putBytes sec 43 label
    let sec := putBytes sec 54 (fsTypeName g.fatType)
    putBytes sec 510 [0x55, 0xAA]
  else
    let sec := put32 sec 36 g.fatSize
    let sec := put16 sec 40 0
    let sec := put16 sec 42 0
    let sec := put32 sec 44 2
    let sec := put16 sec 48 1
    let sec := put16 sec 50 6
    let sec := putBytes sec 64 [0x80, 0, 0x29]
    let sec := put32 sec 67 volId
    let sec := putBytes sec 71 label
    let sec := putBytes sec 82 (fsTypeName g.fatType)
    putBytes sec 510 [0x55, 0xAA]

/-! ### Choosing the layout -/

def checkFatType (t : Int) : Option FatType :=
  if t = 12 then some .fat12 else if t = 16 then some .fat16 else if t = 32 then some .fat32
  else none

/-- The FAT type: the `-F` option, or by image size when it is absent (0). -/
def pickFatType (fileSize : Nat) (fatTypeArg : Int) : Option FatType :=
  checkFatType
    (if fatTypeArg = 0 then
      if fileSize < 4 * 1024 * 1024 then 12
      else if fileSize < 512 * 1024 * 1024 then 16
      else 32
    else fatTypeArg)

/-- Sectors per cluster: the `-s` option as a `uint8_t`, or by type and image size. -/
def pickSecPerClus (t : FatType) (fileSize : Nat) (secPerClusArg : Int) : Nat :=
  if secPerClusArg > 0 then (secPerClusArg % 256).toNat
  else if t = .fat12 then 1
  else if t = .fat16 then
    if fileSize ≤ 16 * 1024 * 1024 then 2
    else if fileSize ≤ 32 * 1024 * 1024 then 4
    else if fileSize ≤ 64 * 1024 * 1024 then 4
    else if fileSize ≤ 128 * 1024 * 1024 then 8
    else 16
  else
    if fileSize ≤ 64 * 1024 * 1024 then 1
    else if fileSize ≤ 256 * 1024 * 1024 then 2
    else if fileSize ≤ 1024 * 1024 * 1024 then 4
    else 8

/-- Sectors of one FAT copy, in `uint32_t` arithmetic. -/
def mkfsFatSize (t : FatType) (totalClusters : Nat) : Nat :=
  let n := u32 (totalClusters + 2)
  let bytes := if t = .fat12 then u32 (n * 3) / 2 else if t = .fat16 then u32 (n * 2) else u32 (n * 4)
  u32 (bytes + 511) / 512

/-- The layout for `secPerClus ≠ 0`. -/
def mkfsGeometry (t : FatType) (totalSectors secPerClus : Nat) : MkfsGeometry :=
  let rsvdSecCnt := if t = .fat32 then 32 else 4
  let rootEntCnt := if t = .fat32 then 0 else 512
  let rootDirSectors := (rootEntCnt * 32 + 511) / 512
  let dataSec := u32 (totalSectors + 4294967296 - (rsvdSecCnt + rootDirSectors))
  let totalClusters := dataSec / secPerClus
  { fatType := t
    totalSectors := totalSectors
    secPerClus := secPerClus
    rsvdSecCnt := rsvdSecCnt
    rootEntCnt := rootEntCnt
    rootDirSectors := rootDirSectors
    totalClusters := totalClusters
    fatSize := mkfsFatSize t totalClusters }

/-! ### Writing the volume -/

def firstFatSector (t : FatType) : Buf :=
  putBytes zeroSector 0
    (if t = .fat12 then [0xF8, 0xFF, 0xFF]
    else if t = .fat16 then [0xF8, 0xFF, 0xFF, 0xFF]
    else [0xF8, 0xFF, 0xFF, 0x0F, 0xFF, 0xFF, 0xFF, 0x0F, 0xFF, 0xFF, 0xFF, 0x0F])

def writeFatCopy (g : MkfsGeometry) (f : ImgFile) : ImgFile :=
  (f.write (firstFatSector g.fatType)).writeTimes zeroSector (g.fatSize - 1)

/-- The root directory: `sectors` sectors, with a label entry when a name was given. -/
def writeRootDir (volName : Option (List UInt8)) (sectors : Nat) (f : ImgFile) : ImgFile :=
  match volName with
  | some (c :: cs) =>
    if c = 0 then f.writeTimes zeroSector sectors
    else
      (f.write (putBytes (putBytes zeroSector 0 (formatVolumeLabel (c :: cs))) 11 [0x08])).writeTimes
        zeroSector (sectors - 1)
  | _ => f.writeTimes zeroSector sectors

def fsInfoSector (g : MkfsGeometry) : Buf :=
  let sec := put32 zeroSector 0 0x41615252
  let sec := put32 sec 484 0x61417272
  let sec := put32 sec 488 (u32 (g.totalClusters + 4294967295))
  let sec := put32 sec 492 3
  put32 sec 508 0xAA550000

def writeVolume (g : MkfsGeometry) (volId : Nat) (volName : Option (List UInt8)) (f : ImgFile) :
    ImgFile :=
  let boot := makeBpb g volId volName
  let f := (f.seek 0).write boot
  if g.fatType = .fat12 ∨ g.fatType = .fat16 then
    let f := f.writeTimes zeroSector (g.rsvdSecCnt - 1)
    let f := writeFatCopy g (writeFatCopy g f)
    writeRootDir volName g.rootDirSectors f
  else
    let f := (f.seek 512).write (fsInfoSector g)
    let f := (f.seek (6 * 512)).write boot
    let f := (f.seek (7 * 512)).write (fsInfoSector g)
    let f := writeFatCopy g (writeFatCopy g (f.seek (g.rsvdSecCnt * 512)))
    writeRootDir volName g.secPerClus (f.seek (u32 (g.rsvdSecCnt + u32 (2 * g.fatSize)) * 512))

/-- How a run of the tool ends: with exit code 1, in a division by zero, or with a
    formatted image and exit code 0. -/
inductive MkfsResult where
  | error
  | divByZero
  | done (g : MkfsGeometry) (img : ImgFile)

/-- `main`, for an image of `fileSize` bytes with contents `image`. -/
def mkfsFat (image : Disk) (fileSize : Nat) (fatTypeArg secPerClusArg : Int)
    (volName : Option (List UInt8)) (volId : Nat) : MkfsResult :=
  if fileSize < 512 * 1024 then .error
  else
    match pickFatType fileSize fatTypeArg with
    | none => .error
    | some t =>
      let secPerClus := pickSecPerClus t fileSize secPerClusArg
      if secPerClus = 0 then .divByZero
      else
        let g := mkfsGeometry t (u32 (fileSize / 512)) secPerClus
        .done g (writeVolume g volId volName ⟨image, 0, fileSize⟩)

end Gemios
