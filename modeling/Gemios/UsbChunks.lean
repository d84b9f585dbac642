import Mathlib.Tactic.IntervalCases
import Gemios.UsbMasked

/-!
# Reading and writing in chunks

On a device that obeys its commands, the READ(10) and WRITE(10) commands of a call cover the
blocks of the request one after the other, so the call does what it says.
-/

namespace Gemios.Msc

variable {σ : Type}

/-! ### A device that obeys -/

/-- A command block wrapper with a READ(10) or WRITE(10), as the device reads it. -/
structure IsCommand (cbw : Buf) (op : UInt8) (dirIn : Bool) (start n tag blockSize : Nat) : Prop where
  signature : le32 cbw 0 = USB_MSC_CBW_SIGNATURE
  tag : le32 cbw 4 = tag
  len : le32 cbw 8 = n * blockSize
  flags : cbw 12 = if dirIn then USB_MSC_CBW_FLAG_IN else USB_MSC_CBW_FLAG_OUT
  lun : cbw 13 = 0
  cdbLen : cbw 14 = 10
  op : cbw 15 = op
  start : be32 cbw 17 = start
  count : be16 cbw 22 = n

/-- A status wrapper that passes the command. -/
structure IsPass (csw : List UInt8) (tag : Nat) : Prop where
  length : csw.length = USB_MSC_CSW_SIZE
  signature : le32 (zeroFilled csw) 0 = USB_MSC_CSW_SIGNATURE
  tag : le32 (zeroFilled csw) 4 = tag
  residue : le32 (zeroFilled csw) 8 = 0
  status : zeroFilled csw 12 = USB_MSC_CSW_STATUS_PASSED

/-- The device takes a command, moves the data of its blocks, and passes it. -/
structure Obeys (dev : BulkDevice σ) (blockSize : Nat) (idle : σ → Prop) (disk : σ → Buf) : Prop where
  read : ∀ (d : σ) (cbw : List UInt8) (start n tag : Nat), idle d → cbw.length = USB_MSC_CBW_SIZE →
    IsCommand (zeroFilled cbw) SCSI_READ10 true start n tag blockSize →
    0 < n → start + n ≤ 4294967296 → ∃ d₁ d₂ d₃ csw,
      dev.bulkOut d cbw = ⟨USB_MSC_CBW_SIZE, USB_MSC_CBW_SIZE, d₁⟩ ∧
      dev.bulkIn d₁ (n * blockSize) =
        ⟨(n * blockSize : Nat), peek (disk d) (start * blockSize) (n * blockSize), d₂⟩ ∧
      dev.bulkIn d₂ USB_MSC_CSW_SIZE = ⟨USB_MSC_CSW_SIZE, csw, d₃⟩ ∧ IsPass csw tag ∧
      idle d₃ ∧ disk d₃ = disk d
  write : ∀ (d : σ) (cbw : List UInt8) (start n tag : Nat), idle d → cbw.length = USB_MSC_CBW_SIZE →
    IsCommand (zeroFilled cbw) SCSI_WRITE10 false start n tag blockSize →
    0 < n → start + n ≤ 4294967296 → ∀ data : List UInt8, data.length = n * blockSize →
    ∃ d₁ d₂ d₃ csw,
      dev.bulkOut d cbw = ⟨USB_MSC_CBW_SIZE, USB_MSC_CBW_SIZE, d₁⟩ ∧
      dev.bulkOut d₁ data = ⟨(n * blockSize : Nat), n * blockSize, d₂⟩ ∧
      dev.bulkIn d₂ USB_MSC_CSW_SIZE = ⟨USB_MSC_CSW_SIZE, csw, d₃⟩ ∧ IsPass csw tag ∧
      idle d₃ ∧ disk d₃ = poke (disk d) (start * blockSize) data

theorem cbwBytes_isCommand (op : UInt8) (dirIn : Bool) {tag n blockSize : Nat} (start : Nat)
    (htag : tag < 4294967296) (hstart : start < 4294967296) (hn : n ≤ 64) (hsize : blockSize ≤ 4096) :
    (cbwBytes tag (n * blockSize) dirIn (rwCdb op start n)).length = USB_MSC_CBW_SIZE ∧
      IsCommand (zeroFilled (cbwBytes tag (n * blockSize) dirIn (rwCdb op start n))) op dirIn start n
        tag blockSize := by
  have hlen : n * blockSize < 4294967296 := by
    have := Nat.mul_le_mul hn hsize
    omega
  refine ⟨rfl, ⟨?_, ?_, ?_, rfl, rfl, rfl, rfl, ?_, ?_⟩⟩
  · rw [le32_leBytes USB_MSC_CBW_SIGNATURE _ 0, u32_of_lt (by decide)]
    intro k hk
    interval_cases k <;> rfl
  · rw [le32_leBytes tag _ 4, u32_of_lt htag]
    intro k hk
    interval_cases k <;> rfl
  · rw [le32_leBytes (n * blockSize) _ 8, u32_of_lt hlen]
    intro k hk
    interval_cases k <;> rfl
  · exact (rwCdb_lba op start n).trans (u32_of_lt hstart)
  · exact (rwCdb_count op start n).trans (u16_of_lt (by omega))

theorem cswVerdict_of_isPass {csw : List UInt8} {tag : Nat} (h : IsPass csw tag) :
    cswVerdict tag (zeroFilled csw) = 0 :=
  (cswVerdict_eq_zero _ _).mpr ⟨h.signature, h.tag, h.status⟩

/-- The commands are for one range of 1 to 64 blocks after the other, from `a` to `b`, each with its
    place in the buffer. -/
def Covers (op : UInt8) (dirIn : Bool) (blockSize lba buf : Nat) : Nat → Nat → List Attempt → Prop
  | a, b, [] => a = b
  | a, b, t :: ts => ∃ n, 0 < n ∧ n ≤ 64 ∧ a + n ≤ b ∧
      t.IsFor op dirIn a n (buf + (a - lba) * blockSize) (n * blockSize) ∧
      Covers op dirIn blockSize lba buf (a + n) b ts

section

variable {dev : BulkDevice σ} {blockSize : Nat} {idle : σ → Prop} {disk : σ → Buf}
  (h : Obeys dev blockSize idle disk)
include h

theorem Obeys.read_chunk (hpos : 0 < blockSize) (hsize : blockSize ≤ 4096) {s : Session σ}
    (hidle : idle s.device) {start n ptr : Nat} (hn : 0 < n) (hmax : n ≤ 64)
    (hend : start + n ≤ 4294967296) (hptr : ptr ≠ 0) :
    let r := chunkTransfer dev blockSize SCSI_READ10 true start n ptr s
    r.result = 0 ∧ idle r.session.device ∧ disk r.session.device = disk s.device ∧
      r.session.mem = poke s.mem ptr (peek (disk s.device) (start * blockSize) (n * blockSize)) := by
  have htag := u32_lt (s.tag + 1)
  obtain ⟨hlen, hcmd⟩ := cbwBytes_isCommand SCSI_READ10 true start htag (by omega) hmax hsize
  obtain ⟨d₁, d₂, d₃, csw, hcbw, hdata, hcsw, hpass, hidle', hdisk⟩ :=
    h.read s.device _ start n _ hidle hlen hcmd hn hend
  have hbytes : n * blockSize > 0 := Nat.mul_pos hn hpos
  have hneg : ∀ m : Nat, ¬(m : Int) < 0 := fun m => Int.not_lt.mpr (Int.natCast_nonneg m)
  simp only [chunkTransfer, mscBotTransfer, hcbw, dataStage, hbytes, hptr, ne_eq, not_false_eq_true,
    and_self, if_true, hdata, hneg, if_false, statusStage, hcsw, cswVerdict_of_isPass hpass]
  exact ⟨trivial, hidle', hdisk, trivial⟩

theorem Obeys.write_chunk (hpos : 0 < blockSize) (hsize : blockSize ≤ 4096) {s : Session σ}
    (hidle : idle s.device) {start n ptr : Nat} (hn : 0 < n) (hmax : n ≤ 64)
    (hend : start + n ≤ 4294967296) (hptr : ptr ≠ 0) :
    let r := chunkTransfer dev blockSize SCSI_WRITE10 false start n ptr s
    r.result = 0 ∧ idle r.session.device ∧ r.session.mem = s.mem ∧
      disk r.session.device =
        poke (disk s.device) (start * blockSize) (peek s.mem ptr (n * blockSize)) := by
  have htag := u32_lt (s.tag + 1)
  obtain ⟨hlen, hcmd⟩ := cbwBytes_isCommand SCSI_WRITE10 false start htag (by omega) hmax hsize
  obtain ⟨d₁, d₂, d₃, csw, hcbw, hdata, hcsw, hpass, hidle', hdisk⟩ :=
    h.write s.device _ start n _ hidle hlen hcmd hn hend (peek s.mem ptr (n * blockSize))
      (peek_length _ _ _)
  have hbytes : n * blockSize > 0 := Nat.mul_pos hn hpos
  have hneg : ∀ m : Nat, ¬(m : Int) < 0 := fun m => Int.not_lt.mpr (Int.natCast_nonneg m)
  simp only [chunkTransfer, mscBotTransfer, hcbw, dataStage, hbytes, hptr, ne_eq, not_false_eq_true,
    and_self, if_true, Bool.false_eq_true, hdata, hneg, if_false, statusStage, hcsw,
    cswVerdict_of_isPass hpass]
  exact ⟨trivial, hidle', trivial, hdisk⟩

end

/-! ### A disk -/

/-- What a disk does next: it waits for a command, sends or takes the data of one, or sends its
    status. -/
inductive Phase where
  | idle
  | dataIn (data : List UInt8) (tag : Nat)
  | dataOut (addr tag : Nat)
  | status (tag : Nat)

structure DiskState where
  disk : Buf
  phase : Phase

def passCsw (tag : Nat) : List UInt8 := [0x55, 0x53, 0x42, 0x53] ++ leBytes tag ++ [0, 0, 0, 0, 0]

/-- The start of a command, when the disk waits for one. -/
def diskCommand (blockSize : Nat) (d : DiskState) (cbw : Buf) : DiskState :=
  let start := be32 cbw 17
  let n := be16 cbw 22
  if cbw 15 = SCSI_READ10 then
    { d with phase := .dataIn (peek d.disk (start * blockSize) (n * blockSize)) (le32 cbw 4) }
  else { d with phase := .dataOut (start * blockSize) (le32 cbw 4) }

def diskDevice (blockSize : Nat) : BulkDevice DiskState where
  bulkOut d bytes :=
    match d.phase with
    | .idle => ⟨bytes.length, bytes.length, diskCommand blockSize d (zeroFilled bytes)⟩
    | .dataOut addr tag => ⟨bytes.length, bytes.length, ⟨poke d.disk addr bytes, .status tag⟩⟩
    | _ => ⟨-6, 0, d⟩
  bulkIn d len :=
    match d.phase with
    | .dataIn data tag => ⟨(data.take len).length, data.take len, { d with phase := .status tag }⟩
    | .status tag =>
      ⟨((passCsw tag).take len).length, (passCsw tag).take len, { d with phase := .idle }⟩
    | _ => ⟨-6, [], d⟩
  clearStall d _ := d
  out_le d bytes := by
    split <;> simp
  in_le d len := by
    split <;> simp

theorem passCsw_isPass {tag : Nat} (htag : tag < 4294967296) : IsPass (passCsw tag) tag := by
  refine ⟨rfl, ?_, ?_, ?_, rfl⟩
  · rw [le32_leBytes USB_MSC_CSW_SIGNATURE _ 0, u32_of_lt (by decide)]
    intro k hk
    interval_cases k <;> rfl
  · rw [le32_leBytes tag _ 4, u32_of_lt htag]
    intro k hk
    interval_cases k <;> rfl
  · rw [le32_leBytes 0 _ 8, u32_of_lt (by decide)]
    intro k hk
    interval_cases k <;> rfl

theorem diskDevice_obeys (blockSize : Nat) :
    Obeys (diskDevice blockSize) blockSize (fun d => d.phase = .idle) DiskState.disk := by
  constructor
  · rintro ⟨disk, phase⟩ cbw start n tag rfl hlen hcmd - -
    have htag : tag < 4294967296 := hcmd.tag ▸ le32_lt _ _
    refine ⟨⟨disk, .dataIn (peek disk (start * blockSize) (n * blockSize)) tag⟩, ⟨disk, .status tag⟩,
      ⟨disk, .idle⟩, passCsw tag, ?_, ?_, rfl, passCsw_isPass htag, rfl, rfl⟩
    · simp only [diskDevice, diskCommand, hcmd.op, hcmd.start, hcmd.count, hcmd.tag, hlen, if_true]
    · have htake : (peek disk (start * blockSize) (n * blockSize)).take (n * blockSize) =
          peek disk (start * blockSize) (n * blockSize) :=
        List.take_of_length_le (by rw [peek_length])
      simp only [diskDevice, htake, peek_length]
  · rintro ⟨disk, phase⟩ cbw start n tag rfl hlen hcmd - - data hdata
    have htag : tag < 4294967296 := hcmd.tag ▸ le32_lt _ _
    have hop : ¬SCSI_WRITE10 = SCSI_READ10 := by decide
    refine ⟨⟨disk, .dataOut (start * blockSize) tag⟩, ⟨poke disk (start * blockSize) data, .status tag⟩,
      ⟨poke disk (start * blockSize) data, .idle⟩, passCsw tag, ?_, ?_, rfl, passCsw_isPass htag, rfl, rfl⟩
    · simp only [diskDevice, diskCommand, hcmd.op, hcmd.start, hcmd.tag, hlen, hop, if_false]
    · simp only [diskDevice, hdata]

def onesDisk : DiskState := ⟨fun _ => 1, .idle⟩

/-! ### The loops -/

theorem retry_of_pass {dev : BulkDevice σ} {cdb : List UInt8} {ptr bytes : Nat} {dirIn : Bool}
    {s : Session σ} (h : (mscBotTransfer dev s cdb ptr bytes dirIn).result = 0) (retries : Nat) (res : Int) :
    retry dev cdb ptr bytes dirIn (retries + 1) res s =
      ⟨0, [(mscBotTransfer dev s cdb ptr bytes dirIn).log],
        (mscBotTransfer dev s cdb ptr bytes dirIn).session⟩ := by
  rw [retry]
  dsimp only
  rw [if_pos h]

theorem blockLoop_step {dev : BulkDevice σ} {msc : UsbMsc} (hready : msc.ready = true) {op : UInt8}
    {dirIn : Bool} {turns ptr remaining lba : Nat} {s : Session σ} (hpos : 0 < remaining)
    (hend : lba + remaining ≤ 4294967296)
    (h : (chunkTransfer dev msc.blockSize op dirIn lba (min 64 remaining) ptr s).result = 0) :
    let r := chunkTransfer dev msc.blockSize op dirIn lba (min 64 remaining) ptr s
    let rest := blockLoop dev msc op dirIn turns (ptr + min 64 remaining * msc.blockSize)
      (remaining - min 64 remaining) (lba + min 64 remaining) r.session
    blockLoop dev msc op dirIn (turns + 1) ptr remaining lba s =
      { rest with log := r.log :: rest.log } := by
  obtain ⟨-, hsize⟩ := msc.sized hready
  have hchunk : (if remaining > 64 then 64 else remaining) = min 64 remaining := by
    rw [Nat.min_def]
    split <;> split <;> omega
  have hbytes : u32 (min 64 remaining * msc.blockSize) = min 64 remaining * msc.blockSize := by
    apply u32_of_lt
    have := Nat.mul_le_mul (Nat.min_le_left 64 remaining) hsize
    omega
  unfold chunkTransfer at h ⊢
  rw [blockLoop, if_neg (by omega)]
  simp only [hchunk, hbytes, retry_of_pass h, ne_eq, not_true, if_false, List.singleton_append]
  by_cases hlast : remaining ≤ 64
  · -- nothing is left, and the address may have wrapped
    simp only [Nat.min_eq_right hlast, Nat.sub_self, blockLoop_zero]
  · rw [u32_of_lt (by omega)]

/-- The loop goes through the blocks in order, as long as each command passes; what holds at the
    start of a chunk is carried to the end. -/
theorem blockLoop_covers {dev : BulkDevice σ} {msc : UsbMsc} (hready : msc.ready = true) {op : UInt8}
    {dirIn : Bool} {base buf : Nat} {P : Nat → Session σ → Prop}
    (hstep : ∀ (a n : Nat) (s : Session σ), P a s → base ≤ a → 0 < n → n ≤ 64 → a + n ≤ 4294967296 →
      let r := chunkTransfer dev msc.blockSize op dirIn a n (buf + (a - base) * msc.blockSize) s
      r.result = 0 ∧ P (a + n) r.session)
    {turns a : Nat} (remaining : Nat) {s : Session σ} (hP : P a s) (hbase : base ≤ a)
    (hturns : remaining ≤ turns) (hend : a + remaining ≤ 4294967296) :
    let r := blockLoop dev msc op dirIn turns (buf + (a - base) * msc.blockSize) remaining a s
    r.result = 0 ∧ Covers op dirIn msc.blockSize base buf a (a + remaining) r.log ∧
      P (a + remaining) r.session := by
  induction turns generalizing remaining a s with
  | zero =>
    obtain rfl : remaining = 0 := by omega
    exact ⟨rfl, rfl, hP⟩
  | succ turns ih =>
    by_cases hzero : remaining = 0
    · subst hzero
      exact ⟨rfl, rfl, hP⟩
    · have hmax : min 64 remaining ≤ 64 := Nat.min_le_left _ _
      have hpos : 0 < min 64 remaining := by omega
      obtain ⟨hres, hP'⟩ := hstep a (min 64 remaining) s hP hbase hpos hmax (by omega)
      have hrest := ih (remaining - min 64 remaining) hP' (by omega) (by omega) (by omega)
      have hsum : a + min 64 remaining + (remaining - min 64 remaining) = a + remaining := by omega
      have hptr : buf + (a + min 64 remaining - base) * msc.blockSize =
          buf + (a - base) * msc.blockSize + min 64 remaining * msc.blockSize := by
        rw [Nat.add_assoc, ← Nat.add_mul]
        congr 2
        omega
      rw [hsum, hptr] at hrest
      rw [blockLoop_step hready (by omega) hend hres]
      refine ⟨hrest.1, ⟨_, hpos, hmax, by omega, ?_, hrest.2.1⟩, hrest.2.2⟩
      have hfor := log_isFor dev s op a hmax (buf + (a - base) * msc.blockSize)
        (min 64 remaining * msc.blockSize) dirIn
      rwa [u32_of_lt (by omega)] at hfor

theorem peek_blocks {b : Buf} {addr base a n blockSize : Nat} (hbase : base ≤ a) :
    peek b addr ((a + n - base) * blockSize) =
      peek b addr ((a - base) * blockSize) ++
        peek b (addr + (a - base) * blockSize) (n * blockSize) := by
  rw [← peek_append, ← Nat.add_mul]
  congr 2
  omega

theorem block_addr {base a blockSize : Nat} (hbase : base ≤ a) :
    base * blockSize + (a - base) * blockSize = a * blockSize := by
  rw [← Nat.add_mul]
  congr 1
  omega

theorem peek_poke_peek (m b : Buf) (addr a n : Nat) :
    peek (poke m addr (peek b a n)) addr n = peek b a n := by
  have h := peek_poke m addr (peek b a n)
  rwa [peek_length] at h

/-- A read has given one command after the other for the blocks, and their data are in the
    buffer. -/
structure ReadsBlocks (msc : UsbMsc) (disk : σ → Buf) (s : Session σ) (lba count buf : Nat)
    (r : Outcome σ (List Attempt)) : Prop where
  result : r.result = 0
  covers : Covers SCSI_READ10 true msc.blockSize lba buf lba (lba + count) r.log
  unchanged : disk r.session.device = disk s.device
  data : peek r.session.mem buf (count * msc.blockSize) =
    peek (disk s.device) (lba * msc.blockSize) (count * msc.blockSize)

/-- A write has given one command after the other for the blocks; other blocks are unchanged, and
    a read into any buffer returns the written bytes. -/
structure WritesBlocks (dev : BulkDevice σ) (msc : UsbMsc) (disk : σ → Buf) (s : Session σ)
    (lba count buf : Nat) (w : Outcome σ (List Attempt)) : Prop where
  result : w.result = 0
  covers : Covers SCSI_WRITE10 false msc.blockSize lba buf lba (lba + count) w.log
  others : ∀ a, a < lba * msc.blockSize ∨ (lba + count) * msc.blockSize ≤ a →
    disk w.session.device a = disk s.device a
  back : ∀ buf' ≠ 0, (usbMscReadBlocks dev msc w.session lba count buf').result = 0 ∧
    peek (usbMscReadBlocks dev msc w.session lba count buf').session.mem buf' (count * msc.blockSize) =
      peek s.mem buf (count * msc.blockSize)

section

variable {dev : BulkDevice σ} {msc : UsbMsc} {idle : σ → Prop} {disk : σ → Buf}
  (h : Obeys dev msc.blockSize idle disk) (hready : msc.ready = true)
include h hready

theorem read_blocks {s : Session σ} (hidle : idle s.device) {lba count buf : Nat} (hcount : 0 < count)
    (hbuf : buf ≠ 0) (hend : lba + count ≤ 4294967296) :
    let r := usbMscReadBlocks dev msc s lba count buf
    r.result = 0 ∧ Covers SCSI_READ10 true msc.blockSize lba buf lba (lba + count) r.log ∧
      idle r.session.device ∧ disk r.session.device = disk s.device ∧
      r.session.mem =
        poke s.mem buf (peek (disk s.device) (lba * msc.blockSize) (count * msc.blockSize)) := by
  obtain ⟨hpos, hsize⟩ := msc.sized hready
  have hloop := blockLoop_covers hready (P := fun a s' => idle s'.device ∧ disk s'.device = disk s.device ∧ s'.mem =
      poke s.mem buf (peek (disk s.device) (lba * msc.blockSize) ((a - lba) * msc.blockSize)))
    (by
      rintro a n s' ⟨hidle', hdisk, hmem⟩ hbase hn hmax hle
      obtain ⟨hres, hidle'', hdisk', hmem'⟩ := h.read_chunk hpos hsize hidle'
        hn hmax hle (show buf + (a - lba) * msc.blockSize ≠ 0 by omega)
      refine ⟨hres, hidle'', hdisk'.trans hdisk, ?_⟩
      rw [hmem', hdisk, hmem, peek_blocks hbase, poke_append, peek_length, block_addr hbase])
    count ⟨hidle, rfl, by simp [peek]⟩ (Nat.le_refl lba) (Nat.le_refl count) hend
  simp only [Nat.sub_self, Nat.zero_mul, Nat.add_zero, Nat.add_sub_cancel_left] at hloop
  rw [usbMscReadBlocks, blocks, if_neg (by simp [hready, hbuf]; omega)]
  exact hloop

theorem write_blocks {s : Session σ} (hidle : idle s.device) {lba count buf : Nat} (hcount : 0 < count)
    (hbuf : buf ≠ 0) (hend : lba + count ≤ 4294967296) :
    let r := usbMscWriteBlocks dev msc s lba count buf
    r.result = 0 ∧ Covers SCSI_WRITE10 false msc.blockSize lba buf lba (lba + count) r.log ∧
      idle r.session.device ∧ r.session.mem = s.mem ∧
      disk r.session.device =
        poke (disk s.device) (lba * msc.blockSize) (peek s.mem buf (count * msc.blockSize)) := by
  obtain ⟨hpos, hsize⟩ := msc.sized hready
  have hloop := blockLoop_covers hready (P := fun a s' => idle s'.device ∧ s'.mem = s.mem ∧ disk s'.device =
      poke (disk s.device) (lba * msc.blockSize) (peek s.mem buf ((a - lba) * msc.blockSize)))
    (by
      rintro a n s' ⟨hidle', hmem, hdisk⟩ hbase hn hmax hle
      obtain ⟨hres, hidle'', hmem', hdisk'⟩ := h.write_chunk hpos hsize hidle'
        hn hmax hle (show buf + (a - lba) * msc.blockSize ≠ 0 by omega)
      refine ⟨hres, hidle'', hmem'.trans hmem, ?_⟩
      rw [hdisk', hmem, hdisk, peek_blocks hbase, poke_append, peek_length, block_addr hbase])
    count ⟨hidle, rfl, by simp [peek]⟩ (Nat.le_refl lba) (Nat.le_refl count) hend
  simp only [Nat.sub_self, Nat.zero_mul, Nat.add_zero, Nat.add_sub_cancel_left] at hloop
  rw [usbMscWriteBlocks, blocks, if_neg (by simp [hready, hbuf]; omega)]
  exact hloop

/-- **Chunking.**  The commands of a read and of a write cover the request.  After a write, the
    other blocks are as they were, and a read of the same blocks returns the written bytes. -/
theorem chunks_exact {s : Session σ} (hidle : idle s.device) {lba count buf : Nat}
    (hcount : 0 < count) (hbuf : buf ≠ 0) (hend : lba + count ≤ 4294967296) :
    ReadsBlocks msc disk s lba count buf (usbMscReadBlocks dev msc s lba count buf) ∧
      WritesBlocks dev msc disk s lba count buf (usbMscWriteBlocks dev msc s lba count buf) := by
  obtain ⟨hread, hcovers, -, hdisk, hmem⟩ := read_blocks h hready hidle hcount hbuf hend
  obtain ⟨hwrite, hcovers', hidle', hmem', hdisk'⟩ := write_blocks h hready hidle hcount hbuf hend
  refine ⟨⟨hread, hcovers, hdisk, ?_⟩, ⟨hwrite, hcovers', fun a ha => ?_, fun buf' hbuf' => ?_⟩⟩
  · rw [hmem, peek_poke_peek]
  · rw [hdisk', poke_of_not_mem]
    rwa [peek_length, ← Nat.add_mul]
  · obtain ⟨hback, -, -, -, hmem''⟩ := read_blocks h hready hidle' hcount hbuf' hend
    refine ⟨hback, ?_⟩
    have hwritten : peek (disk (usbMscWriteBlocks dev msc s lba count buf).session.device)
        (lba * msc.blockSize) (count * msc.blockSize) = peek s.mem buf (count * msc.blockSize) := by
      rw [hdisk', peek_poke_peek]
    rw [hmem'', hwritten, peek_poke_peek]

end

theorem chunks_exact_disk :
    ReadsBlocks stickMsc DiskState.disk ⟨onesDisk, 7, fun _ => 0⟩ 100 130 0x1000
        (usbMscReadBlocks (diskDevice 512) stickMsc ⟨onesDisk, 7, fun _ => 0⟩ 100 130 0x1000) ∧
      WritesBlocks (diskDevice 512) stickMsc DiskState.disk ⟨onesDisk, 7, fun _ => 0⟩ 100 130 0x1000
        (usbMscWriteBlocks (diskDevice 512) stickMsc ⟨onesDisk, 7, fun _ => 0⟩ 100 130 0x1000) := by
  have hobeys : Obeys (diskDevice 512) stickMsc.blockSize (fun d => d.phase = .idle) DiskState.disk :=
    diskDevice_obeys 512
  exact chunks_exact hobeys rfl rfl (by decide) (by decide) (by decide)

end Gemios.Msc
