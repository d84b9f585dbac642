import Gemios.Align
import Gemios.Loop

/-!
# The physical page allocator

`pmm_init`, `pmm_alloc_pages`, `pmm_alloc_pages_aligned` and `pmm_free_pages` of
`src/src/kernel/mmu.c`: one bit for each page of 4096 bytes, set when the page is in
use.
-/

namespace Gemios

def pageSize : Nat := 4096

/-- The file's static variables; `pmmBitmap` is the memory behind the pointer, word by
    word. -/
structure Pmm where
  pmmBitmap : Nat → BitVec 32
  totalPages : Nat
  usedPages : Nat
  pmmStartAddr : Nat

/-! ### The bitmap -/

/-- The bit of page `bit` in its word. -/
def bitMask (bit : Nat) : BitVec 32 := 1#32 <<< (bit % 32)

def bitmapSet (w : Nat → BitVec 32) (bit : Nat) : Nat → BitVec 32 := fun i =>
  if i = bit / 32 then w i ||| bitMask bit else w i

def bitmapClear (w : Nat → BitVec 32) (bit : Nat) : Nat → BitVec 32 := fun i =>
  if i = bit / 32 then w i &&& ~~~ bitMask bit else w i

def bitmapTest (w : Nat → BitVec 32) (bit : Nat) : Bool := w (bit / 32) &&& bitMask bit != 0#32

/-- `memset(pmm_bitmap, 0xFF, n)`, seen word by word. -/
def bitmapFill (w : Nat → BitVec 32) (n : Nat) : Nat → BitVec 32 := fun i =>
  if 4 * i + 4 ≤ n then BitVec.allOnes 32
  else if 4 * i < n then w i ||| (1#32 <<< (8 * (n - 4 * i)) - 1#32)
  else w i

namespace Pmm

/-- `BITMAP_SET(p); used_pages++`. -/
def take (s : Pmm) (p : Nat) : Pmm :=
  { s with pmmBitmap := bitmapSet s.pmmBitmap p, usedPages := u32 (s.usedPages + 1) }

/-- `BITMAP_CLEAR(p); used_pages--`. -/
def drop (s : Pmm) (p : Nat) : Pmm :=
  { s with pmmBitmap := bitmapClear s.pmmBitmap p, usedPages := u32 (s.usedPages + 4294967295) }

def test (s : Pmm) (p : Nat) : Bool := bitmapTest s.pmmBitmap p

/-- The loop that takes `count` pages from `p` on. -/
def takeFrom (s : Pmm) (p count : Nat) : Pmm :=
  (List.range' p count).foldl take s

end Pmm

/-! ### `pmm_init` -/

/-- `struct multiboot_mmap_entry`, the fields that are read. -/
structure MmapEntry where
  addrLow : Nat
  addrHigh : Nat
  lenLow : Nat
  type : Nat

/-- The end of the memory that the map's entries name. -/
def mmapMaxAddr (mmap : List MmapEntry) : Nat :=
  mmap.foldl
    (fun maxAddr e =>
      if e.type = 1 ∧ e.addrHigh = 0 then
        let endAddr := u32 (e.addrLow + e.lenLow)
        if endAddr > maxAddr then endAddr else maxAddr
      else maxAddr)
    0

/-- The pages of one entry of the memory map are marked free. -/
def mmapEntryFree (s : Pmm) (e : MmapEntry) : Pmm :=
  if e.type = 1 ∧ e.addrHigh = 0 then
    let start := if e.addrLow < s.pmmStartAddr then s.pmmStartAddr else e.addrLow
    let endAddr := u32 (e.addrLow + e.lenLow)
    if start < endAddr then
      let startP := start / pageSize
      let endP := if endAddr / pageSize > s.totalPages then s.totalPages else endAddr / pageSize
      (List.range' startP (endP - startP)).foldl Pmm.drop s
    else s
  else s

/-- `pmm_init`; `kernelEnd` is the address of the linker's `_kernel_end`, `mem` what the
    memory from there on holds before, `mmap` the entries of the memory map in the order
    of the walk (none when `mmap_addr` or `mmap_length` is 0). -/
def pmmInit (kernelEnd : Nat) (mem : Nat → BitVec 32) (memSizeKb : Nat)
    (mmap : Option (List MmapEntry)) : Pmm :=
  let totalPages :=
    match mmap with
    | some es =>
      if mmapMaxAddr es > 0 then mmapMaxAddr es / pageSize else u32 (memSizeKb * 1024) / pageSize
    | none => u32 ((if memSizeKb = 0 then 128 * 1024 else memSizeKb) * 1024) / pageSize
  let bitmapSize := (totalPages + 7) / 8
  let s : Pmm :=
    { pmmBitmap := bitmapFill mem bitmapSize
      totalPages := totalPages
      usedPages := totalPages
      pmmStartAddr := alignUp (u32 (alignUp kernelEnd 4096 + bitmapSize)) pageSize }
  match mmap with
  | some es => es.foldl mmapEntryFree s
  | none =>
    let startPage := s.pmmStartAddr / pageSize
    (List.range' startPage (totalPages - startPage)).foldl Pmm.drop s

/-! ### Allocation -/

/-- One page of the search of `pmm_alloc_pages`: `contiguous` and `found_start`. -/
def allocPagesTurn (s : Pmm) (count p : Nat) (st : Nat × Nat) : Ctl (Nat × Nat) Nat :=
  if !s.test p then
    let foundStart := if st.1 = 0 then p else st.2
    let contiguous := st.1 + 1
    if contiguous = count then .ret foundStart else .next (contiguous, foundStart)
  else .next (0, st.2)

/-- `pmm_alloc_pages`: the address (0 for none) and the state after it. -/
def pmmAllocPages (s : Pmm) (count : Nat) : Nat × Pmm :=
  if count = 0 then (0, s)
  else
    let startPage := s.pmmStartAddr / pageSize
    match scan (allocPagesTurn s count) (List.range' startPage (s.totalPages - startPage))
        (0, 0) with
    | .ret foundStart => (u32 (foundStart * pageSize), s.takeFrom foundStart count)
    | _ => (0, s)

/-- The loop of `pmm_alloc_pages_aligned` over its candidates: `fuel` of them at most,
    from `p` on in steps of `alignPages`. -/
def allocAlignedLoop (s : Pmm) (count alignPages : Nat) : (fuel p : Nat) → Option Nat
  | 0, _ => none
  | fuel + 1, p =>
    if u32 (p + count) ≤ s.totalPages then
      if (List.range' p count).any s.test then
        allocAlignedLoop s count alignPages fuel (u32 (p + alignPages))
      else some p
    else none

/-- `pmm_alloc_pages_aligned`; every candidate lies below `total_pages`, so
    `total_pages + 1` turns are enough. -/
def pmmAllocPagesAligned (s : Pmm) (count alignment : Nat) : Nat × Pmm :=
  if count = 0 then (0, s)
  else
    let alignment := if alignment < pageSize then pageSize else alignment
    let alignPages := alignment / pageSize
    let startPage := alignUp (s.pmmStartAddr / pageSize) alignPages
    match allocAlignedLoop s count alignPages (s.totalPages + 1) startPage with
    | some p => (u32 (p * pageSize), s.takeFrom p count)
    | none => (0, s)

/-- One page of `pmm_free_pages`. -/
def freePage (s : Pmm) (p : Nat) : Pmm := if p < s.totalPages ∧ s.test p = true then s.drop p else s

def pmmFreePages (s : Pmm) (addr count : Nat) : Pmm :=
  if addr = 0 ∨ count = 0 then s
  else (List.range' (addr / pageSize) count).foldl freePage s

end Gemios
