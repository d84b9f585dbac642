import Gemios.HeapSpec

/-!
# Sizes that wrap around

The request of a caller is rounded up, multiplied, or enlarged by the alignment in 32 bits
before the loop of `kmalloc` compares it with the blocks.  Each entry point keeps its promise
exactly up to the size where the sum, the product or the rounding does not wrap around any
more: from there on the loop looks for zero bytes and takes the first free block.
-/

namespace Gemios

/-! ### Rounding to eight bytes -/

theorem alignUp_eight (n : Nat) : alignUp n 8 = u32 (n + 7) / 8 * 8 :=
  land_two_pow_sub (k := 3) (Nat.mod_lt _ (by decide)) (by decide)

theorem alignUp_eight_mod (n : Nat) : alignUp n 8 % 8 = 0 := by
  rw [alignUp_eight]
  exact Nat.mul_mod_left _ _

theorem le_alignUp_eight {n : Nat} (hn : n ≤ 4294967288) : n ≤ alignUp n 8 ∧ alignUp n 8 < n + 8 :=
  ⟨le_alignUp (k := 3) (by decide) (by omega), alignUp_lt (k := 3) (by decide) (by omega)⟩

theorem alignUp_eight_wraps {n : Nat} (hn : 4294967288 < n) (hlt : n < 4294967296) :
    alignUp n 8 = 0 := by
  have hsmall : u32 (n + 7) < 8 := by
    unfold u32
    omega
  rw [alignUp_eight, Nat.div_eq_of_lt hsmall]

/-! ### The block that is taken -/

/-- The size in the header before `ptr`. -/
def blockSize (m : Buf) (ptr : Nat) : Nat := (readBlock m (sub32 ptr 20)).size

theorem readBlock_size_takeBlock (m : Buf) (curr n : Nat) :
    (readBlock (takeBlock m curr n) curr).size =
      if u32 (n + 36) ≤ (readBlock m curr).size then u32 n else (readBlock m curr).size := by
  unfold takeBlock
  rw [readBlock_setIsFree]
  dsimp only
  split
  · unfold splitBlock
    rw [readBlock_setSize]
  · rfl

section

variable {k k' : Heap} {a e n m p : Nat} {bs : List Block}

/-- A heap whose block list is sound: what every run leads to. -/
structure SoundHeap (k : Heap) (a e : Nat) (bs : List Block) : Prop where
  rep : Rep k.mem a e bs
  coalesced : Coalesced bs
  head : k.blockHead = a

theorem HInv.soundHeap {s : HSys} (h : HInv s bs) :
    SoundHeap s.heap s.heap.heapStart (s.heap.heapStart + s.heap.heapTotalSize) bs :=
  ⟨h.rep, h.coalesced, h.head⟩

/-- What `kmalloc` does with any request: the block is at most 35 bytes longer than the
    request rounded up. -/
structure Served (k k' : Heap) (a e : Nat) (bs : List Block) (n p : Nat) (c : Block)
    (bs' : List Block) : Prop where
  ptr : p = c.addr + 20
  lt : p < 4294967296
  mem : k' = { k with mem := k'.mem }
  taken : Taken k.mem k'.mem a e bs (alignUp n 8) c bs'
  size : c.size < alignUp n 8 + 36

theorem kmalloc_served (h : SoundHeap k a e bs) (hk : kmalloc k n = some (p, k')) (hp : p ≠ 0) :
    ∃ c bs', Served k k' a e bs n p c bs' := by
  have hlen := h.rep.tiles.length
  have hend := h.rep.bound
  have hfuel : bs.length < 4294967296 := by omega
  have hstart : k.blockHead = firstAddr bs 0 := h.head.trans h.rep.first.symm
  have hn : n ≠ 0 := by
    intro hn
    rw [kmalloc, if_pos hn] at hk
    cases hk
    exact hp rfl
  rw [kmalloc, if_neg hn, hstart] at hk
  rcases kmallocLoop_spec (n := alignUp n 8) h.rep.links (fun b hb => h.rep.addr_pos hb) hfuel with
    ⟨l, b, r, rfl, hfree, hsize, hloop⟩ | ⟨_, hloop⟩
  · have h8 := alignUp_eight_mod n
    obtain ⟨c, bs', haddr, htaken⟩ := h.rep.takeBlock h.coalesced hfree hsize h8
    have hbound := h.rep.tiles.bounds (mem_middle l b r)
    have hpos := h.rep.pos
    rw [hloop, Option.map_some, ← hstart] at hk
    cases hk
    have hptr : u32 (b.addr + 20) = b.addr + 20 := by
      unfold u32 at hp ⊢
      dsimp only at hp
      omega
    refine ⟨c, bs', hptr.trans (by rw [haddr]), Nat.mod_lt _ (by decide), rfl, htaken, ?_⟩
    -- The size in the header is the one of the list.
    obtain ⟨next, prev, hread⟩ :=
      htaken.rep.links.mem ((htaken.used c htaken.block).mpr (Or.inr rfl))
    have hheader := readBlock_size_takeBlock k.mem b.addr (alignUp n 8)
    have hold := congrArg HeapBlock.size h.rep.middle.2.1
    dsimp only at hold
    rw [haddr] at hread
    rw [hread, hold] at hheader
    dsimp only at hheader
    rw [hheader, u32_of_lt (show alignUp n 8 + 36 < 4294967296 by omega),
      u32_of_lt (show alignUp n 8 < 4294967296 by omega)]
    split <;> omega
  · rw [hloop] at hk
    cases hk
    exact absurd rfl hp

theorem Served.mem_block {c : Block} {bs' : List Block} (h : Served k k' a e bs n p c bs') :
    c ∈ bs' :=
  (h.taken.used c h.taken.block).mpr (Or.inr rfl)

theorem Served.bounds {c : Block} {bs' : List Block} (h : Served k k' a e bs n p c bs') :
    36 ≤ p ∧ p + c.size ≤ 4294967296 := by
  have hbound := h.taken.rep.tiles.bounds h.mem_block
  have hpos := h.taken.rep.pos
  have hend := h.taken.rep.bound
  have hptr := h.ptr
  omega

theorem Served.blockSize_eq {c : Block} {bs' : List Block} (h : Served k k' a e bs n p c bs')
    {m' : Buf} (hm : ∀ i, i < p → p ≤ i + 20 → m' i = k'.mem i) : blockSize m' p = c.size := by
  obtain ⟨next, prev, hread⟩ := h.taken.rep.links.mem h.mem_block
  have hbounds := h.bounds
  have hptr := h.ptr
  have hlt := h.lt
  have hsub : sub32 p 20 = c.addr := by
    rw [sub32_of_le (by omega) (by omega)]
    omega
  have hsame : readBlock m' c.addr = readBlock k'.mem c.addr := by
    apply readBlock_congr
    intro j hj
    exact hm _ (by omega) (by omega)
  rw [blockSize, hsub, hsame, hread]

/-- **The block behind the pointer** has room for a request that is reduced to 32 bits exactly
    when neither the reduction nor the rounding wraps around. -/
theorem Served.room_iff {t : Nat} {c : Block} {bs' : List Block}
    (h : Served k k' a e bs (u32 t) p c bs') : t ≤ c.size ↔ t ≤ 4294967288 := by
  have hlow := h.taken.size
  have hhigh := h.size
  have hbounds := h.bounds
  constructor
  · intro hroom
    by_contra hwrap
    have hword : u32 t = t := u32_of_lt (by omega)
    have hzero := alignUp_eight_wraps (n := t) (by omega) (by omega)
    rw [hword, hzero] at hhigh
    omega
  · intro hle
    have hword : u32 t = t := u32_of_lt (by omega)
    have hround := le_alignUp_eight hle
    rw [hword] at hlow
    omega

/-! ### kmalloc_aligned -/

theorem alignUp_cases {x j : Nat} (hj : j ≤ 32) (hx : x < 4294967296) :
    alignUp x (2 ^ j) = 0 ∨ x ≤ alignUp x (2 ^ j) ∧ alignUp x (2 ^ j) < x + 2 ^ j := by
  by_cases hround : x + 2 ^ j - 1 < 4294967296
  · exact Or.inr ⟨le_alignUp hj hround, alignUp_lt hj hround⟩
  · left
    have hpow : 2 ^ j ≤ 2 ^ 32 := Nat.pow_le_pow_right (by decide) hj
    have hsmall : u32 (x + 2 ^ j - 1) < 2 ^ j := by
      unfold u32
      omega
    rw [alignUp, land_two_pow_sub (Nat.lt_of_lt_of_le hsmall hpow) hj, Nat.div_eq_of_lt hsmall]
    exact Nat.zero_mul _

/-- The pointer that `kmalloc` gave out for `ptr`. -/
def plainPtr (m : Buf) (ptr alignment : Nat) : Nat :=
  if alignment ≤ 8 then ptr else le32 m (sub32 ptr 4)

/-- The largest sum that `kmalloc` is asked for without a wrap. -/
def AlignedFits (n alignment : Nat) : Prop :=
  if alignment ≤ 8 then n ≤ 4294967288 else n + alignment + 4 ≤ 4294967288

/-- `size` bytes from `ptr` on lie in the block behind it. -/
def RoomBehind (m : Buf) (ptr alignment size : Nat) : Prop :=
  ptr + size ≤ plainPtr m ptr alignment + blockSize m (plainPtr m ptr alignment)

theorem kmallocAligned_room_iff (h : SoundHeap k a e bs) {j : Nat} (hj : j < 32)
    (hn : n < 4294967296) (hk : kmallocAligned k n (2 ^ j) = some (p, k')) (hp : p ≠ 0) :
    RoomBehind k'.mem p (2 ^ j) n ↔ AlignedFits n (2 ^ j) := by
  unfold RoomBehind AlignedFits plainPtr
  by_cases hsmall : 2 ^ j ≤ 8
  · rw [kmallocAligned, if_pos hsmall] at hk
    rw [if_pos hsmall, if_pos hsmall]
    obtain ⟨c, bs', hserved⟩ := kmalloc_served h hk hp
    have hroom := Served.room_iff (t := n) (by rw [u32_of_lt hn]; exact hserved)
    rw [hserved.blockSize_eq fun i _ _ => rfl]
    omega
  · rw [kmallocAligned, if_neg hsmall] at hk
    rw [if_neg hsmall, if_neg hsmall]
    obtain ⟨⟨raw, k₁⟩, hk₁, hrest⟩ := Option.map_eq_some_iff.mp hk
    dsimp only at hrest
    by_cases hraw : raw = 0
    · rw [if_pos hraw] at hrest
      cases hrest
      exact absurd hraw hp
    · rw [if_neg hraw] at hrest
      obtain ⟨c, bs', hserved⟩ := kmalloc_served h hk₁ hraw
      have hbounds := hserved.bounds
      have hptr := hserved.ptr
      have hword := hserved.taken.rep.word c hserved.mem_block
      have hpow : 2 ^ j ≤ 2 ^ 31 := Nat.pow_le_pow_right (by decide) (by omega)
      have hplace := alignUp_cases (x := u32 (raw + 4)) (j := j) (by omega)
        (Nat.mod_lt _ (by decide))
      have hsum : u32 (raw + 4) = raw + 4 ∨ u32 (raw + 4) = 0 := by
        have hlt := hserved.lt
        unfold u32
        omega
      generalize hq : alignUp (u32 (raw + 4)) (2 ^ j) = q at hrest hplace
      cases hrest
      -- The aligned pointer lies behind the word that leads back.
      have hge : raw + 4 ≤ p ∧ p < raw + 4 + 2 ^ j := by
        rcases hsum with heq | hzero
        · omega
        · have hround := alignUp_eq (x := 0) (k := j) (by omega) (by omega)
          rw [hzero, hround, Nat.div_eq_of_lt (by omega)] at hq
          omega
      have hlt : p < 4294967296 := by
        rw [← hq, alignUp]
        exact Nat.lt_of_le_of_lt Nat.and_le_left (Nat.mod_lt _ (by decide))
      have hsub : sub32 p 4 = p - 4 := sub32_of_le (by omega) hlt
      have hback : le32 (put32 k₁.mem (p - 4) raw) (p - 4) = raw := by
        rw [le32_put32]
        exact Nat.mod_eq_of_lt hserved.lt
      have hsize : blockSize (put32 k₁.mem (p - 4) raw) raw = c.size := by
        apply hserved.blockSize_eq
        intro i hi _
        exact put32_of_ne (by omega)
      dsimp only
      rw [hsub, hback, hsize]
      have hlow := hserved.taken.size
      have hhigh := hserved.size
      constructor
      · intro hroom
        by_contra hwrap
        by_cases hcarry : n + 2 ^ j + 4 < 4294967296
        · rw [u32_of_lt hcarry, alignUp_eight_wraps (by omega) hcarry] at hhigh
          omega
        · have hrest : u32 (n + 2 ^ j + 4) = n + 2 ^ j + 4 - 4294967296 := by
            unfold u32
            omega
          have hup := le_alignUp_eight (n := n + 2 ^ j + 4 - 4294967296) (by omega)
          rw [hrest] at hhigh
          omega
      · intro hle
        have hup := le_alignUp_eight hle
        rw [u32_of_lt (by omega)] at hlow
        omega

/-! ### kmalloc and kcalloc -/

theorem kmalloc_room_iff (h : SoundHeap k a e bs) (hn : n < 4294967296)
    (hk : kmalloc k n = some (p, k')) (hp : p ≠ 0) :
    n ≤ blockSize k'.mem p ↔ n ≤ 4294967288 := by
  obtain ⟨c, bs', hserved⟩ := kmalloc_served h hk hp
  rw [hserved.blockSize_eq fun i _ _ => rfl]
  apply Served.room_iff
  rw [u32_of_lt hn]
  exact hserved

theorem kcalloc_room_iff (h : SoundHeap k a e bs) {num : Nat}
    (hk : kcalloc k num n = some (p, k')) (hp : p ≠ 0) :
    num * n ≤ blockSize k'.mem p ↔ num * n ≤ 4294967288 := by
  obtain ⟨⟨q, k₁⟩, hk₁, hrest⟩ := Option.map_eq_some_iff.mp hk
  dsimp only at hrest
  by_cases hq : q = 0
  · rw [if_neg fun hno => hno hq] at hrest
    cases hrest
    exact absurd hq hp
  · rw [if_pos hq] at hrest
    cases hrest
    obtain ⟨c, bs', hserved⟩ := kmalloc_served h hk₁ hp
    have hsize : blockSize (memset k₁.mem p 0 (u32 (num * n))) p = c.size := by
      apply hserved.blockSize_eq
      intro i hi _
      exact memset_of_outside (Or.inl hi)
    dsimp only
    rw [hsize]
    exact hserved.room_iff

/-! ### rtos_queue_create -/

/-- The words `ws` are written one after the other. -/
def putWords (m : Buf) (ptr : Nat) : List Nat → Buf
  | [] => m
  | w :: ws => putWords (put32 m ptr w) (ptr + 4) ws

theorem putWords_of_outside {ws : List Nat} {m : Buf} {ptr i : Nat}
    (h : i < ptr ∨ ptr + 4 * ws.length ≤ i) : putWords m ptr ws i = m i := by
  induction ws generalizing m ptr with
  | nil => rfl
  | cons w ws ih =>
    rw [List.length_cons] at h
    rw [putWords, ih (by omega)]
    exact put32_of_ne (by omega)

/-- `rtos_sem_init`: the count, the largest count, and no task that waits. -/
def rtosSemInitAt (m : Buf) (sem initialCount maxCount : Nat) : Buf :=
  putWords m sem [initialCount, maxCount, 0, 0]

/-- `rtos_mutex_init`. -/
def rtosMutexInitAt (m : Buf) (mutex : Nat) : Buf := putWords m mutex [0, 0, 0, 0, 0]

/-- The fields of the `rtos_queue_t` at `q`, after `buffer`. -/
def rtosQueueInitAt (m : Buf) (q itemSize capacity : Nat) : Buf :=
  let m := putWords m (q + 4) [itemSize, capacity, 0, 0, 0]
  let m := rtosSemInitAt m (q + 24) 0 capacity
  let m := rtosSemInitAt m (q + 40) capacity capacity
  rtosMutexInitAt m (q + 56)

/-- `rtos_queue_create` in memory: `rtos_queue_t` has 76 bytes. -/
def rtosQueueCreateIn (k : Heap) (itemSize capacity : Nat) : Option (Nat × Heap) :=
  (kmalloc k 76).bind fun q =>
    if q.1 = 0 then some (0, q.2)
    else
      (kmalloc q.2 (u32 (itemSize * capacity))).map fun buffer =>
        let k := { buffer.2 with mem := put32 buffer.2.mem q.1 buffer.1 }
        if buffer.1 = 0 then (0, kfree k q.1)
        else (q.1, { k with mem := rtosQueueInitAt k.mem q.1 itemSize capacity })

theorem rtosQueueInitAt_of_outside {m : Buf} {q itemSize capacity i : Nat}
    (h : i < q + 4 ∨ q + 76 ≤ i) : rtosQueueInitAt m q itemSize capacity i = m i := by
  unfold rtosQueueInitAt rtosMutexInitAt rtosSemInitAt
  rw [putWords_of_outside (by simp; omega), putWords_of_outside (by simp; omega),
    putWords_of_outside (by simp; omega), putWords_of_outside (by simp; omega)]

theorem rtosQueueCreateIn_room_iff (h : SoundHeap k a e bs) {itemSize capacity : Nat}
    (hk : rtosQueueCreateIn k itemSize capacity = some (p, k')) (hp : p ≠ 0) :
    itemSize * capacity ≤ blockSize k'.mem (le32 k'.mem p) ↔ itemSize * capacity ≤ 4294967288 := by
  obtain ⟨⟨q, k₁⟩, hk₁, hrest⟩ := Option.bind_eq_some_iff.mp hk
  dsimp only at hrest
  by_cases hq : q = 0
  · rw [if_pos hq] at hrest
    cases hrest
    exact absurd rfl hp
  · rw [if_neg hq] at hrest
    obtain ⟨⟨buffer, k₂⟩, hk₂, hrest⟩ := Option.map_eq_some_iff.mp hrest
    dsimp only at hrest
    by_cases hbuffer : buffer = 0
    · rw [if_pos hbuffer] at hrest
      cases hrest
      exact absurd rfl hp
    · rw [if_neg hbuffer] at hrest
      cases hrest
      obtain ⟨b, bs₁, hqueue⟩ := kmalloc_served h hk₁ hp
      have hhead : k₁.blockHead = a := by
        rw [hqueue.mem]
        exact h.head
      obtain ⟨c, bs₂, hserved⟩ :=
        kmalloc_served ⟨hqueue.taken.rep, hqueue.taken.coalesced, hhead⟩ hk₂ hbuffer
      have hroom : 76 ≤ b.size := Nat.le_trans (by decide) hqueue.taken.size
      -- The block of the queue is not the block of its buffer.
      have hb := (hserved.taken.used b hqueue.taken.block).mpr (Or.inl hqueue.mem_block)
      have hne : b ≠ c := by
        rintro rfl
        obtain ⟨d, hd, hfree, haddr, _⟩ := hserved.taken.free
        have hsame := hqueue.taken.rep.tiles.eq_of_addr hd hqueue.mem_block haddr
        rw [hsame, hqueue.taken.block] at hfree
        cases hfree
      have hptr := hqueue.ptr
      have hptr' := hserved.ptr
      have hapart : b.addr + 20 + b.size ≤ c.addr ∨ c.addr + 20 + c.size ≤ b.addr := by
        rcases hserved.taken.rep.tiles.apart hb hserved.mem_block with heq | hlt
        · exact absurd heq hne
        · exact hlt
      dsimp only
      have hfirst : le32 (rtosQueueInitAt (put32 k₂.mem p buffer) p itemSize capacity) p =
          buffer := by
        have hsame : le32 (rtosQueueInitAt (put32 k₂.mem p buffer) p itemSize capacity) p =
            le32 (put32 k₂.mem p buffer) p := by
          apply le32_congr
          intro i hi
          exact rtosQueueInitAt_of_outside (by omega)
        rw [hsame, le32_put32]
        exact Nat.mod_eq_of_lt hserved.lt
      have hsize : blockSize (rtosQueueInitAt (put32 k₂.mem p buffer) p itemSize capacity) buffer =
          c.size := by
        apply hserved.blockSize_eq
        intro i hi hi'
        rw [rtosQueueInitAt_of_outside (by omega)]
        exact put32_of_ne (by omega)
      rw [hfirst, hsize]
      exact hserved.room_iff

/-! ### All entry points -/

/-- **Allocation sizes.**  On a sound heap, an entry point that does not return `NULL` has got
    a block with room for what it was asked for exactly when the request, with the alignment and
    the word before the pointer, is at most 2^32 - 8. -/
theorem alloc_sizes_iff (h : SoundHeap k a e bs) :
    (∀ n p k', n < 4294967296 → kmalloc k n = some (p, k') → p ≠ 0 →
      (n ≤ blockSize k'.mem p ↔ n ≤ 4294967288)) ∧
    (∀ num n p k', kcalloc k num n = some (p, k') → p ≠ 0 →
      (num * n ≤ blockSize k'.mem p ↔ num * n ≤ 4294967288)) ∧
    (∀ n j p k', n < 4294967296 → j < 32 → kmallocAligned k n (2 ^ j) = some (p, k') → p ≠ 0 →
      (RoomBehind k'.mem p (2 ^ j) n ↔ AlignedFits n (2 ^ j))) ∧
    ∀ itemSize capacity p k', rtosQueueCreateIn k itemSize capacity = some (p, k') → p ≠ 0 →
      (itemSize * capacity ≤ blockSize k'.mem (le32 k'.mem p) ↔
        itemSize * capacity ≤ 4294967288) := by
  refine ⟨?_, ?_, ?_, ?_⟩
  · intro n p k' hn hk hp
    exact kmalloc_room_iff h hn hk hp
  · intro num n p k' hk hp
    exact kcalloc_room_iff h hk hp
  · intro n j p k' hn hj hk hp
    exact kmallocAligned_room_iff h hj hn hk hp
  · intro itemSize capacity p k' hk hp
    exact rtosQueueCreateIn_room_iff h hk hp

end

theorem freshHeap_sound : SoundHeap freshHeap.heap 4096 8192 [⟨4096, 4076, true⟩] :=
  freshHeap_inv.soundHeap

/-- On a fresh heap, 16 bytes of zeros are behind what `kcalloc(4, 4)` returns. -/
theorem alloc_sizes_fresh : ∃ p k, kcalloc freshHeap.heap 4 4 = some (p, k) ∧
    4 * 4 ≤ blockSize k.mem p := by
  obtain ⟨k, hk⟩ := freshHeap_malloc (n := 16) (by decide) (by decide)
  have hcall : kcalloc freshHeap.heap 4 4 = some (4116, { k with mem := memset k.mem 4116 0 16 }) := by
    have htotal : u32 (4 * 4) = 16 := by decide
    have hne : (4116 : Nat) ≠ 0 := by decide
    rw [kcalloc, htotal, hk, Option.map_some, if_pos hne]
  obtain ⟨_, hcalloc, _⟩ := alloc_sizes_iff freshHeap_sound
  exact ⟨_, _, hcall, (hcalloc 4 4 _ _ hcall (by decide)).mpr (by decide)⟩

/-- A fresh heap of 4096 bytes answers a request for 2^32 - 1 bytes. -/
theorem kmalloc_huge : ∃ p k, kmalloc freshHeap.heap 4294967295 = some (p, k) ∧ p ≠ 0 ∧
    ¬ 4294967295 ≤ blockSize k.mem p := by
  have hrep := freshHeap_inv.rep
  have hround : alignUp 4294967295 8 = 0 := by decide
  have hfuel : [(⟨4096, 4076, true⟩ : Block)].length < 4294967296 := by decide
  rcases kmallocLoop_spec (n := 0) hrep.links (fun b hb => hrep.addr_pos hb) hfuel with ⟨l, b, r, hbs, _, _, hloop⟩ | ⟨hnone, _⟩
  · have hb : b ∈ [(⟨4096, 4076, true⟩ : Block)] := by
      rw [hbs]
      exact mem_middle l b r
    cases List.mem_singleton.mp hb
    have hk : kmalloc freshHeap.heap 4294967295 =
        some (4116, { freshHeap.heap with mem := takeBlock freshHeap.heap.mem 4096 0 }) := by
      rw [kmalloc, if_neg (by decide), hround]
      exact congrArg _ hloop
    refine ⟨_, _, hk, by decide, ?_⟩
    rw [kmalloc_room_iff freshHeap_sound (by decide) hk (by decide)]
    decide
  · exact absurd (hnone _ List.mem_cons_self rfl) (by decide)

end Gemios
