import Gemios.FatNames
import Gemios.FatTable

/-!
# Directories: lookup, slot search, writing and erasing entries

`fat_lfn_checksum`, `encode_lfn_chars`, `decode_lfn_chars` and `lfn_parser_*` of
`src/src/fs/fat.c`.

`fat_dir_find_entry`, `fat_dir_find_or_alloc_lfn_slots` and
`fat_write_lfn_and_short_entry` of `src/src/fs/fat.c`.

Every directory walk of the driver is one of two loops: over the sectors of the
fixed root area, or over the clusters of a chain with at most 65536 visits.  They
stand here once, with the body of the walk as a parameter.
-/

namespace Gemios

/-- `fat_lfn_checksum` over the 11 bytes of a short name. -/
def fatLfnChecksum (short : List UInt8) : UInt8 :=
  short.foldl (fun sum b => (if sum &&& 1 ≠ 0 then (0x80 : UInt8) else 0) + (sum >>> 1) + b) 0

/-- The UTF-16 unit `encode_lfn_chars` stores for character `idx`. -/
def lfnUnit (src : List UInt8) (idx : Nat) : Nat :=
  if idx < src.length then (src.getD idx 0).toNat
  else if idx = src.length then 0x0000
  else 0xFFFF

/-- `encode_lfn_chars`: `count` units from character `startIdx` on, stored in
    `dst` from byte `off` on. -/
def encodeLfnChars (src : List UInt8) (startIdx : Nat) (dst : Slot) (off count : Nat) : Slot :=
  fun i =>
    if off ≤ i ∧ i < off + 2 * count then
      let u := lfnUnit src (startIdx + (i - off) / 2)
      if (i - off) % 2 = 0 then UInt8.ofNat u else UInt8.ofNat (u / 256)
    else dst i

/-- `decode_lfn_chars`: up to `count` units from byte `off` of `src`, stored in
    `dst` from position `pos` on; a terminator or padding unit ends the copy. -/
def decodeLfnChars (src : Slot) : (off count : Nat) → (dst : Buf) → (pos : Nat) → Buf
  | _, 0, dst, _ => dst
  | off, n + 1, dst, pos =>
    let u := le16 src off
    if u = 0x0000 ∨ u = 0xFFFF then fun i => if i = pos then 0 else dst i
    else decodeLfnChars src (off + 2) n (fun i => if i = pos then UInt8.ofNat u else dst i) (pos + 1)

/-- The long-name slot `fat_write_lfn_and_short_entry` builds for number `seq`
    of `numLfn`. -/
def lfnEntry (longName : List UInt8) (numLfn : Nat) (chk : UInt8) (seq : Nat) : Slot :=
  let order := if seq = numLfn then 0x40 ||| UInt8.ofNat seq else UInt8.ofNat seq
  let blank : Slot := fun i => if i = 0 then order else if i = 11 then 0x0F
    else if i = 13 then chk else 0
  let b := (seq - 1) * 13
  encodeLfnChars longName (b + 11)
    (encodeLfnChars longName (b + 5) (encodeLfnChars longName b blank 1 5) 14 6) 28 2

/-! ### The parser -/

structure LfnParser where
  lfnName : Buf
  checksum : UInt8
  expectedSeq : Nat
  hasLfn : Bool
  isValid : Bool
  startSec : Nat
  startSlot : Int
  totalLfnEntries : Nat

def lfnParserReset : LfnParser where
  lfnName := fun _ => 0
  checksum := 0
  expectedSeq := 0
  hasLfn := false
  isValid := false
  startSec := 0
  startSlot := -1
  totalLfnEntries := 0

def LfnParser.named (p : LfnParser) : Bool := p.hasLfn && p.isValid

/-- The C string in `parser.lfn_name`. -/
def LfnParser.str (p : LfnParser) : List UInt8 := cstr ((List.range' 0 256).map p.lfnName)

/-- The three copies of `lfn_parser_feed` into `lfn_name`; slot 20 does not fit
    the bound and is left out. -/
def LfnParser.storeChars (p : LfnParser) (e : Slot) (seq : Nat) : LfnParser :=
  let base := (seq - 1) * 13
  if base + 13 < 256 then
    let n1 := decodeLfnChars e 1 5 p.lfnName base
    let n2 := decodeLfnChars e 14 6 n1 (base + 5)
    { p with lfnName := decodeLfnChars e 28 2 n2 (base + 11) }
  else p

def lfnParserFeed (p : LfnParser) (e : Slot) (sec slot : Nat) : LfnParser :=
  if e.isEnd || e.isDeleted then lfnParserReset
  else if e.isLfn then
    let order := e 0
    let seq := order.toNat % 32
    if seq = 0 ∨ seq > 20 then lfnParserReset
    else if order &&& 0x40 ≠ 0 then
      let q : LfnParser :=
        { lfnParserReset with
          expectedSeq := seq, checksum := e 13, hasLfn := true, isValid := true
          startSec := sec, startSlot := slot, totalLfnEntries := seq }
      let q := q.storeChars e seq
      { q with expectedSeq := q.expectedSeq - 1 }
    else if !p.isValid || p.checksum != e 13 || seq != p.expectedSeq then
      { p with isValid := false, hasLfn := false }
    else
      let q := p.storeChars e seq
      { q with expectedSeq := q.expectedSeq - 1 }
  else if p.hasLfn && p.isValid && p.expectedSeq == 0 &&
      p.checksum == fatLfnChecksum e.name then
    { p with lfnName := fun i => if i = 255 then 0 else p.lfnName i }
  else { p with hasLfn := false, isValid := false, totalLfnEntries := 0 }

/-! ### The two directory walks -/

section Walk

variable {σ ρ : Type}

/-- The walk over the fixed root area; `disk` is the device in the state of the
    walk, the body gets sector, slot number and slot. -/
def scanRootDir (env : Env) (fs : FatFs) (disk : σ → Disk)
    (body : Nat → Nat → Slot → σ → Ctl σ ρ) (s : σ) : Ctl σ ρ :=
  let maxRootSectors := if fs.rootDirSectors < 1024 then fs.rootDirSectors else 1024
  scan
    (fun i st =>
      let curSec := u32 (fs.rootDirStartSector + i)
      match bdevRead env (disk st) curSec with
      | none => .stop st
      | some sector =>
        scan (fun e => body curSec e (slotAt sector (32 * e))) (List.range' 0 16) st)
    (List.range' 0 maxRootSectors) s

/-- The entries of one cluster, in the order of a walk. -/
def scanCluster (fs : FatFs) (body : Nat → Nat → Slot → σ → Ctl σ ρ) (cur : Nat) (buf : Buf)
    (s : σ) : Ctl σ ρ :=
  scan
    (fun e =>
      let secOffset := e * 32 / fs.bytesPerSector
      let curSec := u32 (fs.dataStartSector + u32 ((cur - 2) * fs.sectorsPerCluster) + secOffset)
      body curSec (e % (fs.bytesPerSector / 32)) (slotAt buf (32 * e)))
    (List.range' 0 (fs.bytesPerCluster / 32)) s

/-- The walk over a cluster chain, `visits` clusters at most; `enter` is what the
    walk notes when it comes to a cluster. -/
def scanChain (env : Env) (fs : FatFs) (disk : σ → Disk) (enter : Nat → σ → σ)
    (body : Nat → Nat → Slot → σ → Ctl σ ρ) : (visits cur : Nat) → σ → Ctl σ ρ
  | 0, _, s => .next s
  | visits + 1, cur, s =>
    if 2 ≤ cur ∧ cur < fs.eofLimit then
      let s := enter cur s
      match readCluster env fs (disk s) cur with
      | none => .next s
      | some buf =>
        match (scanCluster fs body cur buf s).resume with
        | .ret r => .ret r
        | .stop s => .stop s
        | .next s =>
          let next := getNextCluster env fs (disk s) cur
          if next = cur ∨ next < 2 then .next s
          else scanChain env fs disk enter body visits next s
    else .next s

end Walk

def maxVisits : Nat := 65536

/-! ### Lookup -/

structure EntryLoc where
  entry : Slot
  sector : Nat
  slot : Nat
  hasLfn : Bool
  lfnStartSec : Nat
  lfnStartSlot : Int
  lfnCount : Nat
  lfnName : List UInt8

/-- Does the entry, under the long name the parser holds or its short name, match? -/
def entryMatches (p : LfnParser) (e : Slot) (name : List UInt8) : Bool :=
  (p.named && fatNameEquals p.str name) || fatNameEquals (cstr (formatFatName e)) name

/-- What `fat_dir_find_entry` reports of a match. -/
def entryLoc (p : LfnParser) (e : Slot) (sec slot : Nat) : EntryLoc where
  entry := e
  sector := sec
  slot := slot
  hasLfn := p.named
  lfnStartSec := p.startSec
  lfnStartSlot := p.startSlot
  lfnCount := p.totalLfnEntries
  lfnName := (if p.named then p.str else cstr (formatFatName e)).take 255

def findBody (name : List UInt8) (sec slot : Nat) (e : Slot) (p : LfnParser) :
    Ctl LfnParser (Option EntryLoc) :=
  if e.isEnd then .ret none
  else if e.isDeleted then .next lfnParserReset
  else
    let p := lfnParserFeed p e sec slot
    if e.isLfn || e.isVolumeId then .next p
    else if entryMatches p e name then .ret (some (entryLoc p e sec slot))
    else .next lfnParserReset

/-- `fat_dir_find_entry`: the entry, or `none` for -1. -/
def fatDirFindEntry (env : Env) (fs : FatFs) (d : Disk) (dir : FatDir) (name : List UInt8) :
    Option EntryLoc :=
  let result : Ctl LfnParser (Option EntryLoc) :=
    if dir.isRootFixed then scanRootDir env fs (fun _ => d) (findBody name) lfnParserReset
    else if dir.cluster < 2 ∨ fs.bytesPerCluster = 0 then .ret none
    else if !kmallocOk env fs.bytesPerCluster then .ret none
    else
      scanChain env fs (fun _ => d) (fun _ p => p) (findBody name) maxVisits dir.cluster
        lfnParserReset
  result.found

/-! ### Slot search -/

/-- The run of free slots under way in `fat_dir_find_or_alloc_lfn_slots`. -/
structure FreeRun where
  startSec : Nat
  startSlot : Nat
  count : Nat
  lastCluster : Nat

def freeRunBody (numSlots : Nat) (sec slot : Nat) (e : Slot) (r : FreeRun) :
    Ctl FreeRun (Nat × Nat) :=
  if e.isEnd || e.isDeleted then
    let r := if r.count = 0 then { r with startSec := sec, startSlot := slot } else r
    let r := { r with count := r.count + 1 }
    if r.count ≥ numSlots then .ret (r.startSec, r.startSlot) else .next r
  else .next { r with count := 0 }

/-- What the slot search hands back: the entry that already has the name, or the
    first slot of the place for a new one. -/
inductive SlotRef where
  | existing (loc : EntryLoc)
  | place (sec slot : Nat)

/-- `fat_dir_find_or_alloc_lfn_slots`; `none` for -1. -/
def fatDirFindOrAllocLfnSlots (env : Env) (fs : FatFs) (d : Disk) (dir : FatDir)
    (name : List UInt8) (numSlots : Nat) : Option SlotRef × Disk :=
  match fatDirFindEntry env fs d dir name with
  | some loc => (some (.existing loc), d)
  | none =>
    let run : FreeRun := ⟨0, 0, 0, 0⟩
    if dir.isRootFixed then
      match scanRootDir env fs (fun _ => d) (freeRunBody numSlots) run with
      | .ret (sec, slot) => (some (.place sec slot), d)
      | _ => (none, d)
    else if dir.cluster < 2 ∨ fs.bytesPerCluster = 0 then (none, d)
    else if !kmallocOk env fs.bytesPerCluster then (none, d)
    else
      match scanChain env fs (fun _ => d) (fun c r => { r with lastCluster := c })
          (freeRunBody numSlots) maxVisits dir.cluster run with
      | .ret (sec, slot) => (some (.place sec slot), d)
      | .next r | .stop r =>
        -- no run in the directory: a new cluster
        match allocFreeCluster env fs d with
        | (0, d) => (none, d)
        | (newC, d) =>
          let d := (setFatEntry env fs d r.lastCluster newC).2
          let d :=
            if kmallocOk env fs.bytesPerCluster then (writeCluster env fs d newC fun _ => 0).2
            else d
          (some (.place (clusterSector fs newC) 0), d)

/-! ### Writing a name's slots -/

def numLfnSlots (name : List UInt8) : Nat :=
  if fatNeedsLfn name then (name.length + 12) / 13 else 0

/-- The position of `fat_write_lfn_and_short_entry` in the directory. -/
structure SlotCursor where
  disk : Disk
  curSec : Nat
  curSlot : Nat
  secBuf : Buf

/-- The loop of `fat_write_lfn_and_short_entry` over `seq` downto 1; `inr` holds
    the device after an error. -/
def writeLfnLoop (env : Env) (fs : FatFs) (longName : List UInt8) (numLfn : Nat) (chk : UInt8) :
    (seq : Nat) → SlotCursor → SlotCursor ⊕ Disk
  | 0, c => .inl c
  | seq + 1, c =>
    let buf := putSlot c.secBuf (32 * c.curSlot) (lfnEntry longName numLfn chk (seq + 1))
    if c.curSlot + 1 ≥ fs.bytesPerSector / 32 then
      match bdevWrite env c.disk c.curSec 1 buf with
      | (0, d) =>
        let sec := u32 (c.curSec + 1)
        match bdevRead env d sec with
        | none => .inr d
        | some buf => writeLfnLoop env fs longName numLfn chk seq ⟨d, sec, 0, buf⟩
      | (_, d) => .inr d
    else writeLfnLoop env fs longName numLfn chk seq ⟨c.disk, c.curSec, c.curSlot + 1, buf⟩

def fatWriteLfnAndShortEntry (env : Env) (fs : FatFs) (d : Disk) (startSec startSlot : Nat)
    (longName short11 : List UInt8) (shortEntry : Slot) : Int × Disk :=
  match bdevRead env d startSec with
  | none => (-1, d)
  | some buf =>
    let numLfn := numLfnSlots longName
    match writeLfnLoop env fs longName numLfn (fatLfnChecksum short11) numLfn
        ⟨d, startSec, startSlot, buf⟩ with
    | .inr d => (-1, d)
    | .inl c =>
      bdevWrite env c.disk c.curSec 1
        (putSlot c.secBuf (32 * c.curSlot) (shortEntry.withName short11))

/-- The alias loop of `fat_write_file` and `fat_mkdir`: the first `~N` for which
    the lookup of the unterminated `short_11` fails, `~99` when none does. -/
def chooseAlias (env : Env) (fs : FatFs) (d : Disk) (dir : FatDir) (name : List UInt8) :
    List UInt8 :=
  let clashes := fun tail =>
    (fatDirFindEntry env fs d dir (fatGenerateShortAlias name tail ++ env.afterShort tail)).isSome
  fatGenerateShortAlias name (((List.range' 1 99).find? fun tail => !clashes tail).getD 99)

def chooseShortName (env : Env) (fs : FatFs) (d : Disk) (dir : FatDir) (name : List UInt8) :
    List UInt8 :=
  if numLfnSlots name > 0 then chooseAlias env fs d dir name else toFat83Name name

end Gemios
