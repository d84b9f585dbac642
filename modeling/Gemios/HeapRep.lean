import Mathlib.Logic.Function.Basic
import Gemios.Align
import Gemios.Arena

/-!
# The blocks in memory

`src/src/kernel/heap.c`.  The memory is a function from addresses to bytes, and a block
header is five words of it.  The loop of `kmalloc` follows pointers in memory: a list
that does not come to an end within 2^32 blocks, the number of addresses, has a cycle,
and `none` says that the call does not return.

`Links` says that a list of blocks is what the headers in memory say.  The calls of the
allocator are splits and joins of this list, and they write into headers only.
-/

namespace Gemios

/-! ### Memory -/

/-- `a - b` in `uint32_t`, for a word `b`. -/
def sub32 (a b : Nat) : Nat := u32 (a + (4294967296 - b))

def memset (m : Buf) (ptr : Nat) (v : UInt8) : Nat → Buf
  | 0 => m
  | n + 1 => Function.update (memset m ptr v n) (ptr + n) v

def memcpy (m : Buf) (dest src : Nat) : Nat → Buf
  | 0 => m
  | n + 1 => Function.update (memcpy m dest src n) (dest + n) (memcpy m dest src n (src + n))

def heapMagic : Nat := 0xCAFEBABE

/-- `heap_block_t`, 20 bytes. -/
@[ext] structure HeapBlock where
  magic : Nat
  size : Nat
  isFree : Nat
  next : Nat
  prev : Nat

def readBlock (m : Buf) (b : Nat) : HeapBlock where
  magic := le32 m b
  size := le32 m (b + 4)
  isFree := le32 m (b + 8)
  next := le32 m (b + 12)
  prev := le32 m (b + 16)

def setMagic (m : Buf) (b v : Nat) : Buf := put32 m b v
def setSize (m : Buf) (b v : Nat) : Buf := put32 m (b + 4) v
def setIsFree (m : Buf) (b v : Nat) : Buf := put32 m (b + 8) v
def setNext (m : Buf) (b v : Nat) : Buf := put32 m (b + 12) v
def setPrev (m : Buf) (b v : Nat) : Buf := put32 m (b + 16) v

/-- The memory and the variables of `heap.c`. -/
structure Heap where
  mem : Buf
  heapStart : Nat
  heapTotalSize : Nat
  blockHead : Nat

/-- `heap_init`, in a memory with any contents. -/
def heapInit (m : Buf) (startAddr size : Nat) : Heap :=
  let heapStart := alignUp startAddr 16
  let m := setMagic m heapStart heapMagic
  let m := setSize m heapStart (sub32 size 20)
  let m := setIsFree m heapStart 1
  let m := setNext m heapStart 0
  let m := setPrev m heapStart 0
  { mem := m, heapStart := heapStart, heapTotalSize := size, blockHead := heapStart }

/-! ### kmalloc -/

/-- The block `curr` is split: `size` bytes stay, and the rest becomes a free block. -/
def splitBlock (m : Buf) (curr size : Nat) : Buf :=
  let newBlock := u32 (curr + 20 + size)
  let m := setMagic m newBlock heapMagic
  let m := setSize m newBlock (sub32 (sub32 (readBlock m curr).size size) 20)
  let m := setIsFree m newBlock 1
  let m := setNext m newBlock (readBlock m curr).next
  let m := setPrev m newBlock curr
  let m := if (readBlock m curr).next ≠ 0 then setPrev m (readBlock m curr).next newBlock else m
  let m := setNext m curr newBlock
  setSize m curr size

def takeBlock (m : Buf) (curr size : Nat) : Buf :=
  setIsFree
    (if u32 (size + 36) ≤ (readBlock m curr).size then splitBlock m curr size else m) curr 0

/-- The loop of `kmalloc`: the pointer it returns and the memory after it. -/
def kmallocLoop (m : Buf) (size : Nat) : Nat → Nat → Option (Nat × Buf)
  | 0, _ => none
  | fuel + 1, curr =>
    if curr = 0 then some (0, m)
    else if (readBlock m curr).magic ≠ heapMagic then some (0, m)
    else if (readBlock m curr).isFree ≠ 0 ∧ size ≤ (readBlock m curr).size then
      some (u32 (curr + 20), takeBlock m curr size)
    else kmallocLoop m size fuel (readBlock m curr).next

def kmalloc (h : Heap) (size : Nat) : Option (Nat × Heap) :=
  if size = 0 then some (0, h)
  else
    (kmallocLoop h.mem (alignUp size 8) 4294967296 h.blockHead).map fun r =>
      (r.1, { h with mem := r.2 })

def kcalloc (h : Heap) (num size : Nat) : Option (Nat × Heap) :=
  (kmalloc h (u32 (num * size))).map fun r =>
    if r.1 ≠ 0 then (r.1, { r.2 with mem := memset r.2.mem r.1 0 (u32 (num * size)) }) else r

/-- `kmalloc_aligned`.  The word before the pointer holds the plain one. -/
def kmallocAligned (h : Heap) (size alignment : Nat) : Option (Nat × Heap) :=
  if alignment ≤ 8 then kmalloc h size
  else
    (kmalloc h (u32 (size + alignment + 4))).map fun r =>
      if r.1 = 0 then r
      else
        (alignUp (u32 (r.1 + 4)) alignment,
          { r.2 with
            mem := put32 r.2.mem (sub32 (alignUp (u32 (r.1 + 4)) alignment) 4) r.1 })

/-! ### kfree -/

def coalesceNext (m : Buf) (block : Nat) : Buf :=
  if (readBlock m block).next ≠ 0 ∧ (readBlock m (readBlock m block).next).isFree ≠ 0 then
    let m := setSize m block
      (u32 ((readBlock m block).size + (20 + (readBlock m (readBlock m block).next).size)))
    let m := setNext m block (readBlock m (readBlock m block).next).next
    if (readBlock m block).next ≠ 0 then setPrev m (readBlock m block).next block else m
  else m

def coalescePrev (m : Buf) (block : Nat) : Buf :=
  if (readBlock m block).prev ≠ 0 ∧ (readBlock m (readBlock m block).prev).isFree ≠ 0 then
    let m := setSize m (readBlock m block).prev
      (u32 ((readBlock m (readBlock m block).prev).size + (20 + (readBlock m block).size)))
    let m := setNext m (readBlock m block).prev (readBlock m block).next
    if (readBlock m block).next ≠ 0 then
      setPrev m (readBlock m block).next (readBlock m block).prev
    else m
  else m

/-- What `kfree` does with the block it has found. -/
def freeBlock (m : Buf) (block : Nat) : Buf :=
  coalescePrev (coalesceNext (setIsFree m block 1) block) block

def kfree (h : Heap) (ptr : Nat) : Heap :=
  if ptr = 0 then h
  else if (readBlock h.mem (sub32 ptr 20)).magic = heapMagic then
    { h with mem := freeBlock h.mem (sub32 ptr 20) }
  else
    -- The word before the pointer is taken for the plain pointer of an aligned one.
    let raw := le32 h.mem (sub32 ptr 4)
    if (readBlock h.mem (sub32 raw 20)).magic = heapMagic then
      { h with mem := freeBlock h.mem (sub32 raw 20) }
    else h

def krealloc (h : Heap) (ptr newSize : Nat) : Option (Nat × Heap) :=
  if ptr = 0 then kmalloc h newSize
  else if newSize = 0 then some (0, kfree h ptr)
  else if (readBlock h.mem (sub32 ptr 20)).magic ≠ heapMagic then some (0, h)
  else if newSize ≤ (readBlock h.mem (sub32 ptr 20)).size then some (ptr, h)
  else
    (kmalloc h newSize).map fun r =>
      if r.1 ≠ 0 then
        (r.1,
          kfree
            { r.2 with mem := memcpy r.2.mem r.1 ptr (readBlock h.mem (sub32 ptr 20)).size } ptr)
      else r

/-! ### Headers -/

section

variable {m m' : Buf} {a b c v : Nat}

theorem readBlock_congr (h : ∀ k, k < 20 → m' (b + k) = m (b + k)) :
    readBlock m' b = readBlock m b := by
  have hword : ∀ i, i + 4 ≤ 20 → le32 m' (b + i) = le32 m (b + i) := by
    intro i hi
    refine le32_congr fun k hk => ?_
    rw [Nat.add_assoc]
    exact h (i + k) (by omega)
  ext
  · exact hword 0 (by omega)
  · exact hword 4 (by omega)
  · exact hword 8 (by omega)
  · exact hword 12 (by omega)
  · exact hword 16 (by omega)

theorem readBlock_put32_of_ne (h : a + 4 ≤ c ∨ c + 20 ≤ a) :
    readBlock (put32 m a v) c = readBlock m c :=
  readBlock_congr fun k hk => put32_of_ne (by omega)

def Apart (b c : Nat) : Prop := b + 20 ≤ c ∨ c + 20 ≤ b

theorem Apart.symm (h : Apart b c) : Apart c b := Or.symm h

theorem readBlock_setMagic_of_ne (h : Apart b c) :
    readBlock (setMagic m b v) c = readBlock m c :=
  readBlock_put32_of_ne (by unfold Apart at h; omega)

theorem readBlock_setSize_of_ne (h : Apart b c) :
    readBlock (setSize m b v) c = readBlock m c :=
  readBlock_put32_of_ne (by unfold Apart at h; omega)

theorem readBlock_setIsFree_of_ne (h : Apart b c) :
    readBlock (setIsFree m b v) c = readBlock m c :=
  readBlock_put32_of_ne (by unfold Apart at h; omega)

theorem readBlock_setNext_of_ne (h : Apart b c) :
    readBlock (setNext m b v) c = readBlock m c :=
  readBlock_put32_of_ne (by unfold Apart at h; omega)

theorem readBlock_setPrev_of_ne (h : Apart b c) :
    readBlock (setPrev m b v) c = readBlock m c :=
  readBlock_put32_of_ne (by unfold Apart at h; omega)

@[simp] theorem readBlock_setMagic (m : Buf) (b v : Nat) :
    readBlock (setMagic m b v) b = { readBlock m b with magic := u32 v } := by
  ext
  · exact le32_put32 m b v
  all_goals exact le32_put32_of_ne (by omega)

@[simp] theorem readBlock_setSize (m : Buf) (b v : Nat) :
    readBlock (setSize m b v) b = { readBlock m b with size := u32 v } := by
  ext
  case size => exact le32_put32 m (b + 4) v
  all_goals exact le32_put32_of_ne (by omega)

@[simp] theorem readBlock_setIsFree (m : Buf) (b v : Nat) :
    readBlock (setIsFree m b v) b = { readBlock m b with isFree := u32 v } := by
  ext
  case isFree => exact le32_put32 m (b + 8) v
  all_goals exact le32_put32_of_ne (by omega)

@[simp] theorem readBlock_setNext (m : Buf) (b v : Nat) :
    readBlock (setNext m b v) b = { readBlock m b with next := u32 v } := by
  ext
  case next => exact le32_put32 m (b + 12) v
  all_goals exact le32_put32_of_ne (by omega)

@[simp] theorem readBlock_setPrev (m : Buf) (b v : Nat) :
    readBlock (setPrev m b v) b = { readBlock m b with prev := u32 v } := by
  ext
  case prev => exact le32_put32 m (b + 16) v
  all_goals exact le32_put32_of_ne (by omega)

end

/-! ### Lists of blocks -/

/-- Where a list of blocks starts, or what comes after it. -/
def firstAddr : List Block → Nat → Nat
  | [], next => next
  | b :: _, _ => b.addr

/-- Where the last block of a list is, or what comes before it. -/
def lastAddr : Nat → List Block → Nat
  | prev, [] => prev
  | _, b :: bs => lastAddr b.addr bs

/-- The headers in memory are those of the blocks, linked to each other in both ways. -/
def Links (m : Buf) : Nat → List Block → Nat → Prop
  | _, [], _ => True
  | prev, b :: bs, next =>
    readBlock m b.addr = ⟨heapMagic, b.size, b.free.toNat, firstAddr bs next, prev⟩ ∧
      Links m b.addr bs next

section

variable {m m' : Buf} {l r bs : List Block} {b c : Block} {prev next x : Nat}

theorem firstAddr_append (l r : List Block) (next : Nat) :
    firstAddr (l ++ r) next = firstAddr l (firstAddr r next) := by
  cases l with
  | nil => rfl
  | cons b l => rfl

theorem links_append : Links m prev (l ++ r) next ↔
    Links m prev l (firstAddr r next) ∧ Links m (lastAddr prev l) r next := by
  induction l generalizing prev with
  | nil =>
    constructor
    · intro h
      exact ⟨trivial, h⟩
    · intro h
      exact h.2
  | cons b l ih =>
    have hfirst := firstAddr_append l r next
    rw [List.cons_append]
    constructor
    · rintro ⟨hb, h⟩
      rw [hfirst] at hb
      obtain ⟨hl, hr⟩ := ih.mp h
      exact ⟨⟨hb, hl⟩, hr⟩
    · rintro ⟨⟨hb, hl⟩, hr⟩
      rw [← hfirst] at hb
      exact ⟨hb, ih.mpr ⟨hl, hr⟩⟩

theorem Links.congr (h : Links m prev bs next)
    (heq : ∀ b ∈ bs, readBlock m' b.addr = readBlock m b.addr) : Links m' prev bs next := by
  induction bs generalizing prev with
  | nil => exact trivial
  | cons b bs ih =>
    refine ⟨?_, ih h.2 fun c hc => heq c (List.mem_cons_of_mem b hc)⟩
    rw [heq b List.mem_cons_self]
    exact h.1

theorem Links.mem (h : Links m prev bs next) (hb : b ∈ bs) : ∃ next prev,
    readBlock m b.addr = ⟨heapMagic, b.size, b.free.toNat, next, prev⟩ := by
  induction bs generalizing prev with
  | nil => cases hb
  | cons c bs ih =>
    rcases List.mem_cons.mp hb with rfl | hb'
    · exact ⟨_, _, h.1⟩
    · exact ih h.2 hb'

/-- The byte `x` is in no header of the blocks. -/
def Outside (bs : List Block) (x : Nat) : Prop := ∀ b ∈ bs, x < b.addr ∨ b.addr + 20 ≤ x

theorem Links.relink (h : Links m prev r 0) (hpos : ∀ c ∈ r, c.addr ≠ 0)
    (hr : r.Pairwise fun c d => Apart c.addr d.addr) {p : Nat} (hp : p < 4294967296) :
    Links (if firstAddr r 0 ≠ 0 then setPrev m (firstAddr r 0) p else m) p r 0 := by
  cases r with
  | nil => exact trivial
  | cons c r =>
    have hc : firstAddr (c :: r) 0 ≠ 0 := hpos c List.mem_cons_self
    rw [if_pos hc]
    refine ⟨?_, h.2.congr fun d hd => ?_⟩
    · rw [firstAddr, readBlock_setPrev, h.1, u32_of_lt hp]
    · exact readBlock_setPrev_of_ne ((List.pairwise_cons.mp hr).1 d hd)

theorem readBlock_relink {p a : Nat} (h : ∀ c ∈ r, Apart c.addr a) :
    readBlock (if firstAddr r 0 ≠ 0 then setPrev m (firstAddr r 0) p else m) a = readBlock m a := by
  cases r with
  | nil => rfl
  | cons c r =>
    split
    · exact readBlock_setPrev_of_ne (h c List.mem_cons_self)
    · rfl

theorem relink_of_outside {p : Nat} (h : Outside r x) :
    (if firstAddr r 0 ≠ 0 then setPrev m (firstAddr r 0) p else m) x = m x := by
  cases r with
  | nil => rfl
  | cons c r =>
    have hx := h c List.mem_cons_self
    split
    · exact put32_of_ne (by dsimp only [firstAddr]; omega)
    · rfl

end

/-! ### Well-formed heaps -/

/-- The blocks `bs` tile the addresses from `a` to `e`, and the memory says so. -/
structure Rep (m : Buf) (a e : Nat) (bs : List Block) : Prop where
  tiles : Tiles 20 a bs e
  links : Links m 0 bs 0
  pos : 16 ≤ a
  lt : a < e
  bound : e ≤ 4294967296
  word : ∀ b ∈ bs, b.addr % 4 = 0

section

variable {m m' : Buf} {a e : Nat} {l r bs : List Block} {b c : Block}

theorem Rep.addr_pos (h : Rep m a e bs) (hb : b ∈ bs) : b.addr ≠ 0 := by
  have hle := (h.tiles.bounds hb).1
  have hpos := h.pos
  omega

theorem Rep.first (h : Rep m a e bs) : firstAddr bs 0 = a := by
  cases bs with
  | nil => exact absurd h.tiles (Nat.ne_of_lt h.lt)
  | cons b bs => exact h.tiles.1

theorem Tiles.outside (h : Tiles 20 a bs e) (hb : b ∈ bs) {x : Nat} (hx : b.addr + 20 ≤ x)
    (hx' : x < b.addr + 20 + b.size) : Outside bs x := by
  intro c hc
  rcases h.apart hb hc with rfl | hlt | hlt
  · exact Or.inr hx
  · exact Or.inl (by omega)
  · exact Or.inr (by omega)

theorem Tiles.pairwise (h : Tiles 20 a bs e) : bs.Pairwise fun b c => Apart b.addr c.addr := by
  induction bs generalizing a with
  | nil => exact List.Pairwise.nil
  | cons b bs ih =>
    refine List.pairwise_cons.mpr ⟨fun c hc => Or.inl ?_, ih h.2⟩
    have hle := (h.2.bounds hc).1
    have haddr := h.1
    omega

theorem Rep.middle (h : Rep m a e (l ++ b :: r)) :
    Links m 0 l b.addr ∧
      readBlock m b.addr = ⟨heapMagic, b.size, b.free.toNat, firstAddr r 0, lastAddr 0 l⟩ ∧
      Links m b.addr r 0 := by
  obtain ⟨hl, hb, hr⟩ := links_append.mp h.links
  exact ⟨hl, hb, hr⟩

theorem Tiles.apart_middle (h : Tiles 20 a (l ++ b :: r) e) :
    (∀ c ∈ l, c.addr + 20 + c.size ≤ b.addr) ∧
      ∀ c ∈ r, b.addr + 20 + b.size ≤ c.addr := by
  obtain ⟨hl, hr⟩ := h.middle
  exact ⟨fun c hc => (hl.bounds hc).2, fun c hc => (hr.bounds hc).1⟩

end

end Gemios
