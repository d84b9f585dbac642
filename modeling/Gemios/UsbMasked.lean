import Mathlib.Data.List.GetD
import Gemios.Bytes

/-!
# What success means for storage

`msc_bot_transfer`, `usb_msc_read_blocks` and `usb_msc_write_blocks` of `src/src/usb/usb_msc.c`,
over a device that may do anything in each of its bulk transfers.

`msc_bot_transfer` takes its verdict from the status wrapper alone.  So a read or a write that
returns 0 has moved all its data if the device never passes a command that it did not serve in
full, and on no other device.
-/

namespace Gemios.Msc

/-! ### Bytes -/

/-- A list as a buffer, with zeros behind it: `memset` and then a transfer. -/
def zeroFilled (bytes : List UInt8) : Buf := fun i => bytes.getD i 0

/-- The `n` bytes at an address. -/
def peek (mem : Buf) (addr n : Nat) : List UInt8 := (List.range n).map fun i => mem (addr + i)

def poke (mem : Buf) (addr : Nat) (bytes : List UInt8) : Buf := fun i =>
  if addr ≤ i ∧ i < addr + bytes.length then bytes.getD (i - addr) 0 else mem i

/-- The four bytes of a word, the lowest first. -/
def leBytes (v : Nat) : List UInt8 :=
  [UInt8.ofNat v, UInt8.ofNat (v / 256), UInt8.ofNat (v / 65536), UInt8.ofNat (v / 16777216)]

/-- A big-endian word and halfword, as in a SCSI command. -/
def be16 (b : Buf) (i : Nat) : Nat := 256 * (b i).toNat + (b (i + 1)).toNat
def be32 (b : Buf) (i : Nat) : Nat := 65536 * be16 b i + be16 b (i + 2)

/-! ### The device -/

/-- The result of a bulk transfer to the device, and the number of bytes that it took. -/
structure OutResult (σ : Type) where
  result : Int
  taken : Nat
  next : σ

/-- The result of a bulk transfer from the device, and the bytes that it sent. -/
structure InResult (σ : Type) where
  result : Int
  bytes : List UInt8
  next : σ

/-- A device at the end of the two bulk endpoints: `xhci_bulk_transfer` and, for the IN or the
    OUT endpoint, `xhci_clear_endpoint_stall`.  A transfer never moves more than it may. -/
structure BulkDevice (σ : Type) where
  bulkOut : σ → List UInt8 → OutResult σ
  bulkIn : σ → Nat → InResult σ
  clearStall : σ → Bool → σ
  out_le : ∀ d bytes, (bulkOut d bytes).taken ≤ bytes.length
  in_le : ∀ d len, (bulkIn d len).bytes.length ≤ len

/-- What the driver's functions change: the device, `msc_tag` and memory. -/
structure Session (σ : Type) where
  device : σ
  tag : Nat
  mem : Buf

/-! ### One command -/

def USB_MSC_CBW_SIZE : Nat := 31
def USB_MSC_CSW_SIZE : Nat := 13
def USB_MSC_CBW_SIGNATURE : Nat := 0x43425355
def USB_MSC_CSW_SIGNATURE : Nat := 0x53425355
def USB_MSC_CBW_FLAG_IN : UInt8 := 0x80
def USB_MSC_CBW_FLAG_OUT : UInt8 := 0x00
def USB_MSC_CSW_STATUS_PASSED : UInt8 := 0x00

def SCSI_READ10 : UInt8 := 0x28
def SCSI_WRITE10 : UInt8 := 0x2A

def cbwBytes (tag dataLen : Nat) (dirIn : Bool) (cdb : List UInt8) : List UInt8 :=
  [0x55, 0x53, 0x42, 0x43] ++ leBytes tag ++ leBytes dataLen ++
    [if dirIn then USB_MSC_CBW_FLAG_IN else USB_MSC_CBW_FLAG_OUT, 0, UInt8.ofNat cdb.length] ++
    cdb ++ List.replicate (16 - cdb.length) 0

/-- One command with everything that the device did: the results of the stages, the number of
    bytes of the wrapper that it took and of the data that were moved, and the status wrapper that
    it sent. -/
structure Attempt where
  cdb : List UInt8
  ptr : Nat
  len : Nat
  dirIn : Bool
  tag : Nat
  cbwResult : Int
  cbwTaken : Nat
  moved : Nat
  cswResult : Int
  csw : List UInt8

variable {σ : Type}

/-- The data stage: the number of bytes that were moved.  Its result is not looked at again. -/
def dataStage (dev : BulkDevice σ) (s : Session σ) (data dataLen : Nat) (dirIn : Bool) :
    Nat × Session σ :=
  if dataLen > 0 ∧ data ≠ 0 then
    if dirIn then
      let r := dev.bulkIn s.device dataLen
      (r.bytes.length,
        { s with
          device := if r.result < 0 then dev.clearStall r.next true else r.next
          mem := poke s.mem data r.bytes })
    else
      let r := dev.bulkOut s.device (peek s.mem data dataLen)
      (r.taken,
        { s with device := if r.result < 0 then dev.clearStall r.next false else r.next })
  else (0, s)

def statusStage (dev : BulkDevice σ) (d : σ) : InResult σ :=
  let r := dev.bulkIn d USB_MSC_CSW_SIZE
  if r.result < 0 then dev.bulkIn (dev.clearStall r.next true) USB_MSC_CSW_SIZE else r

/-- The end of `msc_bot_transfer`, with the status wrapper. -/
def cswVerdict (tag : Nat) (csw : Buf) : Int :=
  if le32 csw 0 ≠ USB_MSC_CSW_SIGNATURE ∨ le32 csw 4 ≠ tag then -1
  else if csw 12 = USB_MSC_CSW_STATUS_PASSED then 0 else -(csw 12).toNat

/-- What a function returns, the commands that it gave, and what it leaves. -/
structure Outcome (σ ρ : Type) where
  result : Int
  log : ρ
  session : Session σ

/-- `msc_bot_transfer`; a data pointer of 0 is NULL. -/
def mscBotTransfer (dev : BulkDevice σ) (s : Session σ) (cdb : List UInt8) (data dataLen : Nat)
    (dirIn : Bool) : Outcome σ Attempt :=
  let tag := u32 (s.tag + 1)
  let cbw := dev.bulkOut s.device (cbwBytes tag dataLen dirIn cdb)
  let a : Attempt := ⟨cdb, data, dataLen, dirIn, tag, cbw.result, cbw.taken, 0, 0, []⟩
  if cbw.result < 0 then ⟨cbw.result, a, ⟨dev.clearStall cbw.next false, tag, s.mem⟩⟩
  else
    let (moved, s) := dataStage dev ⟨cbw.next, tag, s.mem⟩ data dataLen dirIn
    let csw := statusStage dev s.device
    ⟨if csw.result < 0 then csw.result else cswVerdict tag (zeroFilled csw.bytes),
      { a with moved := moved, cswResult := csw.result, csw := csw.bytes },
      { s with device := csw.next }⟩

/-! ### Reading and writing blocks -/

/-- `usb_msc_dev_t`.  `usb_msc_init_device` lets no other block size through. -/
structure UsbMsc where
  ready : Bool
  blockSize : Nat
  sized : ready = true → 0 < blockSize ∧ blockSize ≤ 4096

/-- The command block of READ(10) and WRITE(10). -/
def rwCdb (op : UInt8) (lba chunk : Nat) : List UInt8 :=
  [op, 0, UInt8.ofNat (lba / 16777216), UInt8.ofNat (lba / 65536), UInt8.ofNat (lba / 256),
    UInt8.ofNat lba, 0, UInt8.ofNat (chunk / 256), UInt8.ofNat chunk, 0]

def retry (dev : BulkDevice σ) (cdb : List UInt8) (ptr bytes : Nat) (dirIn : Bool) :
    Nat → Int → Session σ → Outcome σ (List Attempt)
  | 0, res, s => ⟨res, [], s⟩
  | retries + 1, _, s =>
    let a := mscBotTransfer dev s cdb ptr bytes dirIn
    if a.result = 0 then ⟨0, [a.log], a.session⟩
    else
      let r := retry dev cdb ptr bytes dirIn retries a.result a.session
      { r with log := a.log :: r.log }

/-- The loop over the chunks, with this many turns at most. -/
def blockLoop (dev : BulkDevice σ) (msc : UsbMsc) (op : UInt8) (dirIn : Bool) :
    Nat → (ptr remaining curLba : Nat) → Session σ → Outcome σ (List Attempt)
  | 0, _, _, _, s => ⟨0, [], s⟩
  | turns + 1, ptr, remaining, curLba, s =>
    if remaining = 0 then ⟨0, [], s⟩
    else
      let chunk := if remaining > 64 then 64 else remaining
      let bytes := u32 (chunk * msc.blockSize)
      let r := retry dev (rwCdb op curLba chunk) ptr bytes dirIn 3 (-1) s
      if r.result ≠ 0 then r
      else
        let rest := blockLoop dev msc op dirIn turns (ptr + bytes) (remaining - chunk)
          (u32 (curLba + chunk)) r.session
        { rest with log := r.log ++ rest.log }

/-- Both functions; a chunk has at least one block, so `count` turns are enough. -/
def blocks (dev : BulkDevice σ) (msc : UsbMsc) (op : UInt8) (dirIn : Bool) (s : Session σ)
    (lba count buf : Nat) : Outcome σ (List Attempt) :=
  if msc.ready = false ∨ count = 0 ∨ buf = 0 then ⟨-1, [], s⟩
  else blockLoop dev msc op dirIn count buf count lba s

def usbMscReadBlocks (dev : BulkDevice σ) (msc : UsbMsc) (s : Session σ) (lba count buf : Nat) :
    Outcome σ (List Attempt) :=
  blocks dev msc SCSI_READ10 true s lba count buf

def usbMscWriteBlocks (dev : BulkDevice σ) (msc : UsbMsc) (s : Session σ) (lba count buf : Nat) :
    Outcome σ (List Attempt) :=
  blocks dev msc SCSI_WRITE10 false s lba count buf

/-! ### Bytes and words -/

theorem le32_leBytes (v : Nat) (b : Buf) (i : Nat)
    (h : ∀ k (hk : k < 4), b (i + k) = (leBytes v).get ⟨k, hk⟩) : le32 b i = u32 v := by
  have h0 := h 0 (by decide)
  have h1 := h 1 (by decide)
  have h2 := h 2 (by decide)
  have h3 := h 3 (by decide)
  simp only [leBytes, List.get_eq_getElem, List.getElem_cons_zero, List.getElem_cons_succ,
    Nat.add_zero] at h0 h1 h2 h3
  simp only [le32, le16, Nat.add_assoc, h0, h1, h2, h3, UInt8.toNat_ofNat', u32]
  omega

theorem rwCdb_lba (op : UInt8) (lba chunk : Nat) :
    be32 (zeroFilled (rwCdb op lba chunk)) 2 = u32 lba := by
  simp only [be32, be16, zeroFilled, rwCdb, List.getD_cons_succ, List.getD_cons_zero,
    UInt8.toNat_ofNat', u32]
  omega

theorem rwCdb_count (op : UInt8) (lba chunk : Nat) :
    be16 (zeroFilled (rwCdb op lba chunk)) 7 = u16 chunk := by
  simp only [be16, zeroFilled, rwCdb, List.getD_cons_succ, List.getD_cons_zero,
    UInt8.toNat_ofNat', u16]
  omega

@[simp] theorem peek_length (mem : Buf) (addr n : Nat) : (peek mem addr n).length = n := by
  simp [peek]

theorem peek_append (mem : Buf) (addr m n : Nat) :
    peek mem addr (m + n) = peek mem addr m ++ peek mem (addr + m) n := by
  simp only [peek, List.range_add, List.map_append, List.map_map]
  congr 1
  apply List.map_congr_left
  intro i _
  simp only [Function.comp_apply, Nat.add_assoc]

theorem poke_of_not_mem {mem : Buf} {addr i : Nat} {bytes : List UInt8}
    (h : i < addr ∨ addr + bytes.length ≤ i) : poke mem addr bytes i = mem i :=
  if_neg (by omega)

@[simp] theorem poke_nil (mem : Buf) (addr : Nat) : poke mem addr [] = mem := by
  funext i
  apply poke_of_not_mem
  simp only [List.length_nil]
  omega

theorem poke_append (mem : Buf) (addr : Nat) (as bs : List UInt8) :
    poke mem addr (as ++ bs) = poke (poke mem addr as) (addr + as.length) bs := by
  funext i
  simp only [poke, List.length_append]
  by_cases h1 : addr ≤ i ∧ i < addr + as.length
  · rw [if_pos (by omega), if_neg (by omega), if_pos h1, List.getD_append _ _ _ _ (by omega)]
  · by_cases h2 : addr + as.length ≤ i ∧ i < addr + as.length + bs.length
    · rw [if_pos (by omega), if_pos h2, List.getD_append_right _ _ _ _ (by omega)]
      congr 1
      omega
    · rw [if_neg (by omega), if_neg h2, if_neg h1]

theorem peek_poke (mem : Buf) (addr : Nat) (bytes : List UInt8) :
    peek (poke mem addr bytes) addr bytes.length = bytes := by
  apply List.ext_getElem
  · simp
  · intro i _ hi
    simp only [peek, List.getElem_map, List.getElem_range, poke, Nat.le_add_right, true_and]
    rw [if_pos (by omega), Nat.add_sub_cancel_left, List.getD_eq_getElem _ _ hi]

variable {σ : Type}

/-- The device took the command and passes it: the signature, the tag and the status of its
    status wrapper, where what it did not send is 0. -/
structure Attempt.Passed (a : Attempt) : Prop where
  accepted : 0 ≤ a.cbwResult
  answered : 0 ≤ a.cswResult
  signature : le32 (zeroFilled a.csw) 0 = USB_MSC_CSW_SIGNATURE
  tag : le32 (zeroFilled a.csw) 4 = a.tag
  status : zeroFilled a.csw 12 = USB_MSC_CSW_STATUS_PASSED

/-- All bytes of the three stages were moved, and the device says so. -/
structure Attempt.Whole (a : Attempt) : Prop where
  cbw : a.cbwTaken = USB_MSC_CBW_SIZE
  data : a.moved = a.len
  csw : a.csw.length = USB_MSC_CSW_SIZE
  residue : le32 (zeroFilled a.csw) 8 = 0

/-- The command block says which blocks; the data go to or come from this place. -/
structure Attempt.IsFor (a : Attempt) (op : UInt8) (dirIn : Bool) (lba n ptr len : Nat) : Prop where
  op : a.cdb[0]? = some op
  lba : be32 (zeroFilled a.cdb) 2 = lba
  count : be16 (zeroFilled a.cdb) 7 = n
  ptr : a.ptr = ptr
  len : a.len = len
  dirIn : a.dirIn = dirIn

/-- A call that returns 0 has completed a command for each chunk of 64 blocks. -/
def Moves (msc : UsbMsc) (op : UInt8) (dirIn : Bool) (lba count buf : Nat)
    (r : Outcome σ (List Attempt)) : Prop :=
  r.result = 0 → ∀ k, 64 * k < count → ∃ a ∈ r.log,
    a.IsFor op dirIn (u32 (lba + 64 * k)) (min 64 (count - 64 * k)) (buf + 64 * k * msc.blockSize)
      (min 64 (count - 64 * k) * msc.blockSize) ∧ a.Passed ∧ a.Whole

/-- The command for `n` blocks. -/
def chunkTransfer (dev : BulkDevice σ) (blockSize : Nat) (op : UInt8) (dirIn : Bool) (lba n ptr : Nat)
    (s : Session σ) : Outcome σ Attempt :=
  mscBotTransfer dev s (rwCdb op lba n) ptr (n * blockSize) dirIn

/-- What a device does when it gets a command, is given the data or asked for as many bytes, and
    is asked for the status wrapper. -/
def answers (dev : BulkDevice σ) (d : σ) (tag : Nat) (cdb data : List UInt8) (dirIn : Bool) :
    Attempt :=
  let cbw := dev.bulkOut d (cbwBytes tag data.length dirIn cdb)
  let stage : Nat × σ :=
    if dirIn then
      let r := dev.bulkIn cbw.next data.length
      (r.bytes.length, if r.result < 0 then dev.clearStall r.next true else r.next)
    else
      let r := dev.bulkOut cbw.next data
      (r.taken, if r.result < 0 then dev.clearStall r.next false else r.next)
  let csw := statusStage dev stage.2
  ⟨cdb, 0, data.length, dirIn, tag, cbw.result, cbw.taken, stage.1, csw.result, csw.bytes⟩

/-- The device passes no READ(10) or WRITE(10) of up to 64 blocks that it did not serve in full. -/
def Honest (dev : BulkDevice σ) (blockSize : Nat) : Prop :=
  ∀ (d : σ) (tag : Nat) (op : UInt8) (dirIn : Bool) (lba n : Nat) (data : List UInt8),
    op = SCSI_READ10 ∧ dirIn = true ∨ op = SCSI_WRITE10 ∧ dirIn = false →
    tag < 4294967296 → lba < 4294967296 → 0 < n → n ≤ 64 → data.length = n * blockSize →
    (answers dev d tag (rwCdb op lba n) data dirIn).Passed →
    (answers dev d tag (rwCdb op lba n) data dirIn).Whole

/-! ### One command -/

theorem cswVerdict_eq_zero (tag : Nat) (csw : Buf) :
    cswVerdict tag csw = 0 ↔ le32 csw 0 = USB_MSC_CSW_SIGNATURE ∧ le32 csw 4 = tag ∧
      csw 12 = USB_MSC_CSW_STATUS_PASSED := by
  unfold cswVerdict
  split
  · rename_i hbad
    constructor
    · intro h
      contradiction
    · rintro ⟨hsig, htag, -⟩
      exact absurd hbad (by simp [hsig, htag])
  · rename_i hgood
    simp only [not_or, Decidable.not_not] at hgood
    split
    · rename_i hstatus
      simp [hgood, hstatus]
    · rename_i hstatus
      simp only [hstatus, and_false, iff_false]
      intro hzero
      apply hstatus
      have : (csw 12).toNat = 0 := by omega
      exact UInt8.toNat_inj.mp this

theorem result_eq_zero_iff (dev : BulkDevice σ) (s : Session σ) (cdb : List UInt8)
    (data dataLen : Nat) (dirIn : Bool) :
    (mscBotTransfer dev s cdb data dataLen dirIn).result = 0 ↔
      (mscBotTransfer dev s cdb data dataLen dirIn).log.Passed := by
  unfold mscBotTransfer
  dsimp only
  split
  · rename_i hneg
    constructor
    · intro h
      simp only at h
      omega
    · intro h
      exact absurd hneg (Int.not_lt.mpr h.accepted)
  · rename_i hpos
    dsimp only
    constructor
    · intro h
      split at h
      · omega
      · rename_i hcsw
        obtain ⟨hsig, htag, hstatus⟩ := (cswVerdict_eq_zero _ _).mp h
        exact ⟨Int.not_lt.mp hpos, Int.not_lt.mp hcsw, hsig, htag, hstatus⟩
    · intro h
      rw [if_neg (Int.not_lt.mpr h.answered), cswVerdict_eq_zero]
      exact ⟨h.signature, h.tag, h.status⟩

theorem log_cbwResult (dev : BulkDevice σ) (s : Session σ) (cdb : List UInt8) (ptr len : Nat)
    (dirIn : Bool) :
    (mscBotTransfer dev s cdb ptr len dirIn).log.cbwResult =
      (answers dev s.device (u32 (s.tag + 1)) cdb (peek s.mem ptr len) dirIn).cbwResult := by
  unfold mscBotTransfer answers
  dsimp only
  rw [peek_length]
  split <;> rfl

/-- The log of a command that the device took is what it answered. -/
theorem log_eq_answers {dev : BulkDevice σ} {s : Session σ} {cdb : List UInt8} {ptr len : Nat}
    {dirIn : Bool} (hlen : 0 < len) (hptr : ptr ≠ 0)
    (h : 0 ≤ (answers dev s.device (u32 (s.tag + 1)) cdb (peek s.mem ptr len) dirIn).cbwResult) :
    (mscBotTransfer dev s cdb ptr len dirIn).log =
      { answers dev s.device (u32 (s.tag + 1)) cdb (peek s.mem ptr len) dirIn with ptr := ptr } := by
  unfold answers at h ⊢
  unfold mscBotTransfer dataStage
  dsimp only at h ⊢
  rw [peek_length] at h ⊢
  have hdata : len > 0 ∧ ptr ≠ 0 := ⟨hlen, hptr⟩
  simp only [if_neg (Int.not_lt.mpr h), if_pos hdata]
  cases dirIn <;> rfl

theorem passed_iff_answers (dev : BulkDevice σ) (s : Session σ) (cdb : List UInt8) {ptr len : Nat}
    (dirIn : Bool) (hlen : 0 < len) (hptr : ptr ≠ 0) :
    (mscBotTransfer dev s cdb ptr len dirIn).log.Passed ↔
      (answers dev s.device (u32 (s.tag + 1)) cdb (peek s.mem ptr len) dirIn).Passed := by
  constructor
  · intro h
    have hcbw := h.accepted
    rw [log_cbwResult] at hcbw
    rw [log_eq_answers hlen hptr hcbw] at h
    exact ⟨h.accepted, h.answered, h.signature, h.tag, h.status⟩
  · intro h
    rw [log_eq_answers hlen hptr h.accepted]
    exact ⟨h.accepted, h.answered, h.signature, h.tag, h.status⟩

theorem log_isFor (dev : BulkDevice σ) (s : Session σ) (op : UInt8) (lba : Nat) {n : Nat}
    (hn : n ≤ 64) (ptr len : Nat) (dirIn : Bool) :
    (mscBotTransfer dev s (rwCdb op lba n) ptr len dirIn).log.IsFor op dirIn (u32 lba) n ptr len := by
  have hcount : be16 (zeroFilled (rwCdb op lba n)) 7 = n :=
    (rwCdb_count op lba n).trans (u16_of_lt (by omega))
  unfold mscBotTransfer
  dsimp only
  split <;> exact ⟨rfl, rwCdb_lba op lba n, hcount, rfl, rfl, rfl⟩

/-! ### The loops -/

theorem retry_passed {dev : BulkDevice σ} {cdb : List UInt8} {ptr bytes : Nat} {dirIn : Bool}
    {retries : Nat} {res : Int} (hres : res ≠ 0) {s : Session σ}
    (h : (retry dev cdb ptr bytes dirIn retries res s).result = 0) :
    ∃ s', (mscBotTransfer dev s' cdb ptr bytes dirIn).log ∈ (retry dev cdb ptr bytes dirIn retries res s).log ∧
      (mscBotTransfer dev s' cdb ptr bytes dirIn).result = 0 := by
  induction retries generalizing res s with
  | zero => exact absurd h hres
  | succ retries ih =>
    rw [retry] at h ⊢
    dsimp only at h ⊢
    by_cases ha : (mscBotTransfer dev s cdb ptr bytes dirIn).result = 0
    · rw [if_pos ha]
      exact ⟨s, List.mem_singleton_self _, ha⟩
    · rw [if_neg ha] at h ⊢
      obtain ⟨s', hmem, hzero⟩ := ih ha h
      exact ⟨s', List.mem_cons_of_mem _ hmem, hzero⟩

theorem blockLoop_passed {dev : BulkDevice σ} {msc : UsbMsc} (hready : msc.ready = true) {op : UInt8}
    {dirIn : Bool} {turns ptr remaining lba : Nat} {s : Session σ} (hturns : remaining ≤ turns)
    (h : (blockLoop dev msc op dirIn turns ptr remaining (u32 lba) s).result = 0) {k : Nat}
    (hk : 64 * k < remaining) :
    ∃ s', (chunkTransfer dev msc.blockSize op dirIn (u32 (lba + 64 * k)) (min 64 (remaining - 64 * k))
        (ptr + 64 * k * msc.blockSize) s').log ∈
        (blockLoop dev msc op dirIn turns ptr remaining (u32 lba) s).log ∧
      (chunkTransfer dev msc.blockSize op dirIn (u32 (lba + 64 * k)) (min 64 (remaining - 64 * k))
        (ptr + 64 * k * msc.blockSize) s').result = 0 := by
  induction turns generalizing ptr remaining lba s k with
  | zero => omega
  | succ turns ih =>
    obtain ⟨-, hmax⟩ := msc.sized hready
    rw [blockLoop] at h ⊢
    have hchunk : (if remaining > 64 then 64 else remaining) = min 64 remaining := by
      rw [Nat.min_def]
      split <;> split <;> omega
    have hbytes : u32 (min 64 remaining * msc.blockSize) = min 64 remaining * msc.blockSize := by
      apply u32_of_lt
      have := Nat.mul_le_mul (Nat.min_le_left 64 remaining) hmax
      omega
    rw [if_neg (by omega)] at h ⊢
    simp only [hchunk, hbytes, u32_u32_add] at h ⊢
    by_cases hr : (retry dev (rwCdb op (u32 lba) (min 64 remaining)) ptr
        (min 64 remaining * msc.blockSize) dirIn 3 (-1) s).result = 0
    · simp only [hr, ne_eq, not_true, if_false] at h ⊢
      cases k with
      | zero =>
        obtain ⟨s', hmem, hzero⟩ := retry_passed (by decide) hr
        simp only [Nat.mul_zero, Nat.add_zero, Nat.zero_mul, Nat.sub_zero]
        exact ⟨s', List.mem_append_left _ hmem, hzero⟩
      | succ k =>
        -- the chunks before the last are full
        have hfull : min 64 remaining = 64 := Nat.min_eq_left (by omega)
        rw [hfull] at h ⊢
        obtain ⟨s', hmem, hzero⟩ := ih (by omega) h (k := k) (by omega)
        have hsub : remaining - 64 - 64 * k = remaining - 64 * (k + 1) := by omega
        have hlba : lba + 64 + 64 * k = lba + 64 * (k + 1) := by omega
        have hptr : ptr + 64 * msc.blockSize + 64 * k * msc.blockSize =
            ptr + 64 * (k + 1) * msc.blockSize := by
          rw [Nat.add_assoc, ← Nat.add_mul]
          congr 2
          omega
        rw [hsub, hlba, hptr] at hmem hzero
        exact ⟨s', List.mem_append_right _ hmem, hzero⟩
    · simp only [hr, ne_eq, not_false_eq_true, if_true] at h

theorem blocks_moves {dev : BulkDevice σ} {msc : UsbMsc} (hhonest : Honest dev msc.blockSize)
    {op : UInt8} {dirIn : Bool}
    (hop : op = SCSI_READ10 ∧ dirIn = true ∨ op = SCSI_WRITE10 ∧ dirIn = false) (s : Session σ)
    {lba : Nat} (hlba : lba < 4294967296) (count buf : Nat) :
    Moves msc op dirIn lba count buf (blocks dev msc op dirIn s lba count buf) := by
  intro h k hk
  unfold blocks at h ⊢
  split at h
  · contradiction
  · rename_i hargs
    rw [if_neg hargs]
    simp only [not_or, Bool.not_eq_false] at hargs
    obtain ⟨hready, -, hbuf⟩ := hargs
    rw [← u32_of_lt hlba] at h ⊢
    obtain ⟨s', hmem, hzero⟩ := blockLoop_passed hready (Nat.le_refl _) h hk
    have hpassed := (result_eq_zero_iff ..).mp hzero
    have hfor := log_isFor dev s' op (u32 (lba + 64 * k)) (Nat.min_le_left 64 (count - 64 * k))
      (buf + 64 * k * msc.blockSize) (min 64 (count - 64 * k) * msc.blockSize) dirIn
    have hu : u32 (u32 (lba + 64 * k)) = u32 (u32 lba + 64 * k) := by simp only [u32]; omega
    rw [hu] at hfor
    have hpos : 0 < min 64 (count - 64 * k) := by omega
    have hlen := Nat.mul_pos hpos (msc.sized hready).1
    have hptr : buf + 64 * k * msc.blockSize ≠ 0 := by omega
    have hanswers := (passed_iff_answers dev s' _ dirIn hlen hptr).mp hpassed
    have hwhole := hhonest s'.device _ op dirIn _ _ _ hop (u32_lt _) (u32_lt _) hpos
      (Nat.min_le_left _ _) (peek_length _ _ _) hanswers
    refine ⟨_, hmem, hfor, hpassed, ?_⟩
    rw [chunkTransfer, log_eq_answers hlen hptr hanswers.accepted]
    exact ⟨hwhole.cbw, hwhole.data, hwhole.csw, hwhole.residue⟩

theorem blockLoop_zero (dev : BulkDevice σ) (msc : UsbMsc) (op : UInt8) (dirIn : Bool)
    (turns ptr lba : Nat) (s : Session σ) :
    blockLoop dev msc op dirIn turns ptr 0 lba s = ⟨0, [], s⟩ := by
  cases turns <;> rfl

theorem blocks_one {dev : BulkDevice σ} {msc : UsbMsc} (hready : msc.ready = true) {op : UInt8}
    {dirIn : Bool} {s : Session σ} {lba n ptr : Nat} (hpos : 0 < n) (hmax : n ≤ 64) (hptr : ptr ≠ 0)
    (h : (chunkTransfer dev msc.blockSize op dirIn lba n ptr s).result = 0) :
    (blocks dev msc op dirIn s lba n ptr).result = 0 ∧
      (blocks dev msc op dirIn s lba n ptr).log =
        [(chunkTransfer dev msc.blockSize op dirIn lba n ptr s).log] := by
  obtain ⟨turns, rfl⟩ : ∃ turns, n = turns + 1 := ⟨n - 1, by omega⟩
  obtain ⟨-, hsize⟩ := msc.sized hready
  have hbytes : u32 ((turns + 1) * msc.blockSize) = (turns + 1) * msc.blockSize := by
    apply u32_of_lt
    have := Nat.mul_le_mul hmax hsize
    omega
  unfold chunkTransfer at h
  rw [blocks, if_neg (by simp [hready, hptr]), blockLoop, if_neg (by omega)]
  simp only [if_neg (show ¬turns + 1 > 64 by omega), hbytes, retry, h, if_true, ne_eq, not_true,
    if_false, Nat.sub_self, blockLoop_zero, List.append_nil, chunkTransfer, and_self]

theorem honest_of_moves {dev : BulkDevice σ} {msc : UsbMsc} (hready : msc.ready = true)
    (hread : ∀ (s : Session σ) (lba count buf : Nat), lba < 4294967296 →
      Moves msc SCSI_READ10 true lba count buf (usbMscReadBlocks dev msc s lba count buf))
    (hwrite : ∀ (s : Session σ) (lba count buf : Nat), lba < 4294967296 →
      Moves msc SCSI_WRITE10 false lba count buf (usbMscWriteBlocks dev msc s lba count buf)) :
    Honest dev msc.blockSize := by
  intro d tag op dirIn lba n data hop htag hlba hpos hmax hdata hpassed
  -- The session that gives the device this command and these data.
  let s : Session σ := ⟨d, tag + 4294967295, poke (fun _ => 0) 1 data⟩
  have htag' : u32 (s.tag + 1) = tag := by
    simp only [s, u32]
    omega
  have hpeek : peek s.mem 1 (n * msc.blockSize) = data := hdata ▸ peek_poke _ 1 data
  have hlen := Nat.mul_pos hpos (msc.sized hready).1
  have hmoves : Moves msc op dirIn lba n 1 (blocks dev msc op dirIn s lba n 1) := by
    rcases hop with ⟨rfl, rfl⟩ | ⟨rfl, rfl⟩
    · exact hread s lba n 1 hlba
    · exact hwrite s lba n 1 hlba
  rw [← htag', ← hpeek] at hpassed ⊢
  have hlogPassed := (passed_iff_answers dev s _ dirIn hlen Nat.one_ne_zero).mpr hpassed
  obtain ⟨hzero, hlog⟩ := blocks_one hready hpos hmax Nat.one_ne_zero
    ((result_eq_zero_iff ..).mpr hlogPassed)
  obtain ⟨a, hmem, -, -, hwhole⟩ := hmoves hzero 0 (by omega)
  rw [hlog, List.mem_singleton] at hmem
  rw [hmem, chunkTransfer, log_eq_answers hlen Nat.one_ne_zero hpassed.accepted] at hwhole
  exact ⟨hwhole.cbw, hwhole.data, hwhole.csw, hwhole.residue⟩

/-- **What success means for storage.**  On a device, each read and write that returns 0 has moved
    all data of each chunk, exactly if the device is honest. -/
theorem storage_success_iff (dev : BulkDevice σ) {msc : UsbMsc} (hready : msc.ready = true) :
    ((∀ (s : Session σ) (lba count buf : Nat), lba < 4294967296 →
        Moves msc SCSI_READ10 true lba count buf (usbMscReadBlocks dev msc s lba count buf)) ∧
      ∀ (s : Session σ) (lba count buf : Nat), lba < 4294967296 →
        Moves msc SCSI_WRITE10 false lba count buf (usbMscWriteBlocks dev msc s lba count buf)) ↔
      Honest dev msc.blockSize := by
  constructor
  · rintro ⟨hread, hwrite⟩
    exact honest_of_moves hready hread hwrite
  · intro h
    refine ⟨fun s lba count buf hlba => ?_, fun s lba count buf hlba => ?_⟩
    · exact blocks_moves h (.inl ⟨rfl, rfl⟩) s hlba count buf
    · exact blocks_moves h (.inr ⟨rfl, rfl⟩) s hlba count buf

/-- A device that sends at most 512 bytes of data and then passes the command; its state is the
    stage and the tag of the command. -/
def shortDevice : BulkDevice (Nat × List UInt8) where
  bulkOut _ bytes := ⟨bytes.length, bytes.length, (1, (bytes.drop 4).take 4)⟩
  bulkIn d len :=
    if d.1 = 1 then ⟨min len 512, List.replicate (min len 512) 0, (2, d.2)⟩
    else
      let csw := ([0x55, 0x53, 0x42, 0x53] ++ d.2 ++ List.replicate 5 0).take len
      ⟨csw.length, csw, (0, [])⟩
  clearStall d _ := d
  out_le _ _ := Nat.le_refl _
  in_le d len := by
    split
    · rw [List.length_replicate]
      exact Nat.min_le_left _ _
    · exact List.length_take_le _ _

def stickMsc : UsbMsc := ⟨true, 512, fun _ => by decide⟩

theorem storage_success_iff_short :
    ((∀ (s : Session (Nat × List UInt8)) (lba count buf : Nat), lba < 4294967296 →
        Moves stickMsc SCSI_READ10 true lba count buf
          (usbMscReadBlocks shortDevice stickMsc s lba count buf)) ∧
      ∀ (s : Session (Nat × List UInt8)) (lba count buf : Nat), lba < 4294967296 →
        Moves stickMsc SCSI_WRITE10 false lba count buf
          (usbMscWriteBlocks shortDevice stickMsc s lba count buf)) ↔
      Honest shortDevice 512 :=
  storage_success_iff shortDevice rfl

/-- Two blocks are read, and one of them arrives. -/
theorem short_read_succeeds :
    let r := usbMscReadBlocks shortDevice stickMsc ⟨(0, []), 0x12345678, fun _ => 0⟩ 0 2 0x1000
    r.result = 0 ∧ ¬Moves stickMsc SCSI_READ10 true 0 2 0x1000 r := by
  have hrun : (usbMscReadBlocks shortDevice stickMsc ⟨(0, []), 0x12345678, fun _ => 0⟩ 0 2 0x1000).result = 0 ∧
      ∀ a ∈ (usbMscReadBlocks shortDevice stickMsc ⟨(0, []), 0x12345678, fun _ => 0⟩ 0 2 0x1000).log,
        a.moved ≠ a.len := by
    decide +kernel
  refine ⟨hrun.1, fun h => ?_⟩
  obtain ⟨a, hmem, -, -, hwhole⟩ := h hrun.1 0 (by decide)
  exact hrun.2 a hmem hwhole.data

end Gemios.Msc
