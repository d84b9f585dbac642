import Gemios.Loop
import Gemios.Bytes

/-!
# The FAT driver's data: words, sectors, directory slots, the mounted volume

`src/src/include/fs/fat.h`, `src/src/include/fs/blockdev.h` and the accessors at
the top of `src/src/fs/fat.c`.

A block device with 512-byte blocks is one byte string, addressed by byte: block
`lba` holds the addresses `lba * 512 + i`.  A buffer (`sector`, `cluster_buf`,
`sec_buf`) is a function from byte index to byte.  The unsigned C integers are
natural numbers; `u32` and `u16` stand where an operation can wrap.
-/

namespace Gemios

/-! ### The device -/

abbrev Disk := Buf

/-- Contents of the device after `count` blocks from `lba` on were written. -/
def Disk.blit (d : Disk) (lba count : Nat) (b : Buf) : Disk := fun a =>
  if lba * 512 ≤ a ∧ a < (lba + count) * 512 then b (a - lba * 512) else d a

/-- What the driver meets outside its own code: device errors, allocation
    failures, and the bytes that follow `char short_11[11]` on the stack up to
    the next NUL, which `fat_dir_find_entry` reads because the array is not
    terminated (at each attempt `tail`). -/
structure Env where
  readFails : Nat → Bool
  writeFails : Nat → Bool
  kmallocFails : Nat → Bool
  afterShort : Nat → List UInt8

/-- A device that never fails, and a heap that never runs out. -/
class Env.NoFault (env : Env) : Prop where
  read : ∀ lba, env.readFails lba = false
  write : ∀ lba, env.writeFails lba = false
  kmalloc : ∀ n, env.kmallocFails n = false

/-- No failure, and `short_11` followed by a NUL. -/
def Env.ideal : Env where
  readFails _ := false
  writeFails _ := false
  kmallocFails _ := false
  afterShort _ := []

instance : Env.ideal.NoFault := ⟨fun _ => rfl, fun _ => rfl, fun _ => rfl⟩

/-- `bdev->read`: the blocks from `lba` on, or an error. -/
def bdevRead (env : Env) (d : Disk) (lba : Nat) : Option Buf :=
  if env.readFails lba then none else some fun i => d (lba * 512 + i)

/-- `bdev->write`: 0, or an error that leaves the device as it was. -/
def bdevWrite (env : Env) (d : Disk) (lba count : Nat) (b : Buf) : Int × Disk :=
  if env.writeFails lba then (-1, d) else (0, d.blit lba count b)

/-- `kmalloc(n) != NULL`. -/
def kmallocOk (env : Env) (n : Nat) : Bool := !env.kmallocFails n

section

variable (env : Env) [env.NoFault]

@[simp] theorem bdevRead_eq (d : Disk) (lba : Nat) :
    bdevRead env d lba = some fun i => d (lba * 512 + i) := by
  simp [bdevRead, Env.NoFault.read]

@[simp] theorem bdevWrite_eq (d : Disk) (lba count : Nat) (b : Buf) :
    bdevWrite env d lba count b = (0, d.blit lba count b) := by
  simp [bdevWrite, Env.NoFault.write]

@[simp] theorem kmallocOk_eq (n : Nat) : kmallocOk env n = true := by
  simp [kmallocOk, Env.NoFault.kmalloc]

end

/-! ### Directory slots

A slot is 32 bytes, read as `fat_dir_entry_t` or as `fat_lfn_entry_t`. -/

/-- One 32-byte directory slot; 0 outside its 32 bytes. -/
abbrev Slot := Nat → UInt8

/-- The slot at byte `a` of a buffer or a device. -/
def slotAt (b : Buf) (a : Nat) : Slot := fun i => if i < 32 then b (a + i) else 0

/-- Store a slot at byte `a`. -/
def putSlot (b : Buf) (a : Nat) (s : Slot) : Buf := fun i =>
  if a ≤ i ∧ i < a + 32 then s (i - a) else b i

theorem slotAt_of_lt {b : Buf} {a i : Nat} (hi : i < 32) : slotAt b a i = b (a + i) := if_pos hi

theorem slotAt_congr {b b' : Buf} {a a' : Nat} (h : ∀ i, i < 32 → b' (a' + i) = b (a + i)) :
    slotAt b' a' = slotAt b a := by
  funext i
  unfold slotAt
  split
  · next hi => exact h i hi
  · rfl

theorem putSlot_of_mem {b : Buf} {a i : Nat} {s : Slot} (hi : i < 32) :
    putSlot b a s (a + i) = s i := by
  rw [putSlot, if_pos ⟨Nat.le_add_right _ _, by omega⟩, Nat.add_sub_cancel_left]

theorem putSlot_of_not {b : Buf} {a j : Nat} {s : Slot} (h : j < a ∨ a + 32 ≤ j) :
    putSlot b a s j = b j := by
  rw [putSlot, if_neg (by omega)]

theorem slotAt_putSlot_self {b : Buf} {a : Nat} {s : Slot} (hs : ∀ i, 32 ≤ i → s i = 0) :
    slotAt (putSlot b a s) a = s := by
  funext i
  unfold slotAt
  split
  · next hi => exact putSlot_of_mem hi
  · next hi => exact (hs i (by omega)).symm

theorem slotAt_putSlot_ne {b : Buf} {a a' : Nat} {s : Slot} (ha : a % 32 = 0) (ha' : a' % 32 = 0)
    (hne : a ≠ a') : slotAt (putSlot b a s) a' = slotAt b a' :=
  slotAt_congr fun i hi => putSlot_of_not (by omega)

theorem slotAt_blit_mem (d : Disk) {lba count e : Nat} (he : e < 16 * count) (b : Buf) :
    slotAt (d.blit lba count b) (lba * 512 + 32 * e) = slotAt b (32 * e) :=
  slotAt_congr fun i hi => by
    rw [Disk.blit, if_pos (by omega), Nat.add_assoc, Nat.add_sub_cancel_left]

theorem slotAt_blit_not (d : Disk) {lba count a : Nat} (h : a + 32 ≤ lba * 512 ∨
    (lba + count) * 512 ≤ a) (b : Buf) : slotAt (d.blit lba count b) a = slotAt d a :=
  slotAt_congr fun i hi => if_neg (by omega)

theorem blit_putSlot (d : Disk) (sec slot : Nat) (hslot : slot < 16) (s : Slot) :
    d.blit sec 1 (putSlot (fun i => d (sec * 512 + i)) (32 * slot) s) =
      putSlot d (sec * 512 + 32 * slot) s := by
  funext a
  unfold Disk.blit
  by_cases h : sec * 512 ≤ a ∧ a < (sec + 1) * 512
  · obtain ⟨j, rfl⟩ : ∃ j, a = sec * 512 + j := ⟨a - sec * 512, by omega⟩
    rw [if_pos h, Nat.add_sub_cancel_left]
    by_cases hj : 32 * slot ≤ j ∧ j < 32 * slot + 32
    · obtain ⟨i, rfl⟩ : ∃ i, j = 32 * slot + i := ⟨j - 32 * slot, by omega⟩
      rw [putSlot_of_mem (by omega), ← Nat.add_assoc, putSlot_of_mem (by omega)]
    · rw [putSlot_of_not (by omega), putSlot_of_not (by omega)]
  · rw [if_neg h, putSlot_of_not (by omega)]

namespace Slot

/-- `entry->name`. -/
def name (s : Slot) : List UInt8 := (List.range' 0 11).map s

/-- `entry->attr`. -/
def attr (s : Slot) : UInt8 := s 11

def fstClusHi (s : Slot) : Nat := le16 s 20

def fstClusLo (s : Slot) : Nat := le16 s 26

def fileSize (s : Slot) : Nat := le32 s 28

/-- `((uint32_t)fst_clus_hi << 16) | fst_clus_lo`. -/
def cluster (s : Slot) : Nat := s.fstClusHi * 65536 + s.fstClusLo

/-- `attr == FAT_ATTR_LFN`. -/
def isLfn (s : Slot) : Bool := s.attr == 0x0F

def isVolumeId (s : Slot) : Bool := s.attr &&& 0x08 != 0

/-- `attr & FAT_ATTR_DIRECTORY`. -/
def isDirectory (s : Slot) : Bool := s.attr &&& 0x10 != 0

def isEnd (s : Slot) : Bool := s 0 == 0x00

def isDeleted (s : Slot) : Bool := s 0 == 0xE5

/-- `.` and `..`, as `fat_remove`, `fat_copy_dir` and `fat_wipe_dir_contents`
    recognise them: `name[0] == '.' && (name[1] == ' ' || (name[1] == '.' &&
    name[2] == ' '))`. -/
def isDot (s : Slot) : Bool :=
  s 0 == 0x2E && (s 1 == 0x20 || (s 1 == 0x2E && s 2 == 0x20))

/-- A slot of a file or a directory. -/
structure Live (e : Slot) : Prop where
  notEnd : e.isEnd = false
  notDeleted : e.isDeleted = false
  notLfn : e.isLfn = false
  notVolume : e.isVolumeId = false

/-- Store the entry's cluster, low word and high word. -/
def setCluster (s : Slot) (c : Nat) : Slot :=
  put16 (put16 s 26 (u16 c)) 20 (u16 (c / 65536))

/-- `entry->name[0] = (char)0xE5`. -/
def erase (s : Slot) : Slot := fun i => if i = 0 then 0xE5 else s i

/-- `memset(&entry, 0, sizeof(entry))`, then attributes, first cluster, size. -/
def fresh (attr : UInt8) (c size : Nat) : Slot :=
  put32 (setCluster (fun i => if i = 11 then attr else 0) c) 28 size

/-- `memcpy(entry->name, name, 11)`. -/
def withName (s : Slot) (nm : List UInt8) : Slot := fun i =>
  if i < 11 then nm.getD i 0 else s i

end Slot

/-! ### The mounted volume -/

inductive FatType where
  | unknown
  | fat12
  | fat16
  | fat32
deriving DecidableEq, Repr

/-- `fat_fs_t`; `bdev` names the device the volume lives on. -/
structure FatFs where
  bdev : Nat
  type : FatType
  lbaOffset : Nat
  bytesPerSector : Nat
  sectorsPerCluster : Nat
  bytesPerCluster : Nat
  reservedSectors : Nat
  numFats : Nat
  fatStartSector : Nat
  fatSizeSectors : Nat
  rootDirStartSector : Nat
  rootDirSectors : Nat
  dataStartSector : Nat
  totalClusters : Nat
  rootCluster : Nat
deriving DecidableEq, Repr

/-- The first value of the FAT that ends a chain. -/
def FatFs.eofLimit (fs : FatFs) : Nat := if fs.type = .fat32 then 0x0FFFFFF8 else 0xFFF8

def FatFs.eofVal (fs : FatFs) : Nat := if fs.type = .fat32 then 0x0FFFFFFF else 0xFFFF

structure FatDir where
  isRootFixed : Bool
  cluster : Nat
deriving DecidableEq, Repr

def fatRootDir (fs : FatFs) : FatDir :=
  if fs.type = .fat32 then ⟨false, fs.rootCluster⟩ else ⟨true, 0⟩

end Gemios
