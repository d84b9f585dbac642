import Gemios.HeapCalls

/-!
# Runs of the heap

Callers ask for memory, write into what they got, and give it back.  `HInv` relates the
pointers that are out to the used blocks of the list in memory; every call keeps it, as
long as the sizes do not wrap around and an aligned pointer that comes back is not taken
for a plain one.
-/

namespace Gemios

open Function

/-! ### Callers -/

/-- A pointer that is out: what was asked for, and the payload it lies in.  The two
    addresses are the same for a plain pointer. -/
structure Live where
  ptr : Nat
  size : Nat
  raw : Nat
deriving DecidableEq

structure HSys where
  heap : Heap
  live : List Live

inductive HOp where
  | malloc (size : Nat)
  | calloc (num size : Nat)
  | aligned (size alignment : Nat)
  | realloc (ptr size : Nat)
  | free (ptr : Nat)
  /-- A byte of what `ptr` points to is written. -/
  | write (ptr i : Nat) (v : UInt8)

/-- The result of an allocation is out, unless it is `NULL`. -/
def handOut (live : List Live) (x : Live) : List Live := if x.ptr = 0 then live else x :: live

def takeBack (live : List Live) (x : Live) : List Live := live.filter fun y => y ≠ x

/-- The steps, each with the pointer that the call returns. -/
inductive HStep : HSys → HOp → Nat → HSys → Prop
  | malloc {s : HSys} {n p : Nat} {k : Heap} (h : kmalloc s.heap n = some (p, k)) :
      HStep s (.malloc n) p ⟨k, handOut s.live ⟨p, n, p⟩⟩
  | calloc {s : HSys} {num n p : Nat} {k : Heap} (h : kcalloc s.heap num n = some (p, k)) :
      HStep s (.calloc num n) p ⟨k, handOut s.live ⟨p, num * n, p⟩⟩
  | aligned {s : HSys} {n alignment p : Nat} {k : Heap}
      (h : kmallocAligned s.heap n alignment = some (p, k)) :
      HStep s (.aligned n alignment) p
        ⟨k, handOut s.live ⟨p, n, if alignment ≤ 8 then p else le32 k.mem (p - 4)⟩⟩
  | realloc {s : HSys} {x : Live} {n p : Nat} {k : Heap} (hx : x ∈ s.live)
      (h : krealloc s.heap x.ptr n = some (p, k)) :
      HStep s (.realloc x.ptr n) p
        ⟨k, if n = 0 then takeBack s.live x
          else if p = 0 then s.live
          else ⟨p, n, if p = x.ptr then x.raw else p⟩ :: takeBack s.live x⟩
  | reallocNull {s : HSys} {n p : Nat} {k : Heap} (h : krealloc s.heap 0 n = some (p, k)) :
      HStep s (.realloc 0 n) p ⟨k, handOut s.live ⟨p, n, p⟩⟩
  | free {s : HSys} {x : Live} (hx : x ∈ s.live) :
      HStep s (.free x.ptr) 0 ⟨kfree s.heap x.ptr, takeBack s.live x⟩
  | freeNull (s : HSys) : HStep s (.free 0) 0 ⟨kfree s.heap 0, s.live⟩
  | write {s : HSys} {x : Live} {i : Nat} (hx : x ∈ s.live) (hi : i < x.size) (v : UInt8) :
      HStep s (.write x.ptr i v) 0
        ⟨{ s.heap with mem := update s.heap.mem (x.ptr + i) v }, s.live⟩

/-- The memory that `heap_init` gets: its first aligned address is not `NULL`, it has room
    for a header, and it ends within the address space. -/
structure ArenaOk (startAddr size : Nat) : Prop where
  pos : 0 < startAddr
  aligned : startAddr + 15 < 4294967296
  room : 20 ≤ size
  bound : alignUp startAddr 16 + size ≤ 4294967296

/-- The states that a run leads to, when each step meets `ok`. -/
inductive HReach (ok : HSys → HOp → Prop) : HSys → Prop
  | init {startAddr size : Nat} (m : Buf) (h : ArenaOk startAddr size) :
      HReach ok ⟨heapInit m startAddr size, []⟩
  | step {s s' : HSys} {op : HOp} {p : Nat} (h : HReach ok s) (hok : ok s op)
      (hs : HStep s op p s') : HReach ok s'

/-! ### The invariant -/

/-- The pointer lies in the payload of `b`; the word before an aligned one leads there. -/
structure Live.At (x : Live) (m : Buf) (b : Block) : Prop where
  used : b.free = false
  raw : x.raw = b.addr + 20
  le : x.raw ≤ x.ptr
  size : x.ptr + x.size ≤ x.raw + b.size
  slot : x.ptr = x.raw ∨ x.raw + 4 ≤ x.ptr ∧ le32 m (x.ptr - 4) = x.raw

/-- What holds of the heap and the pointers in every state of a run. -/
structure HInv (s : HSys) (bs : List Block) : Prop where
  rep : Rep s.heap.mem s.heap.heapStart (s.heap.heapStart + s.heap.heapTotalSize) bs
  head : s.heap.blockHead = s.heap.heapStart
  coalesced : Coalesced bs
  live : ∀ x ∈ s.live, ∃ b ∈ bs, x.At s.heap.mem b
  used : ∀ b ∈ bs, b.free = false → ∃ x ∈ s.live, x.raw = b.addr + 20
  distinct : ∀ x ∈ s.live, ∀ y ∈ s.live, x.raw = y.raw → x = y

section

variable {s : HSys} {bs bs' : List Block} {m m' : Buf} {a e n : Nat} {b c : Block} {x y : Live}

theorem Tiles.eq_of_addr (h : Tiles 20 a bs e) (hb : b ∈ bs) (hc : c ∈ bs)
    (heq : b.addr = c.addr) : b = c := by
  rcases h.apart hb hc with hbc | hlt | hlt
  · exact hbc
  · omega
  · omega

theorem Live.At.congr (h : x.At m b)
    (hm : ∀ i, b.addr + 20 ≤ i → i < b.addr + 20 + b.size → m' i = m i) : x.At m' b := by
  refine ⟨h.used, h.raw, h.le, h.size, ?_⟩
  rcases h.slot with heq | ⟨hle, hword⟩
  · exact Or.inl heq
  · refine Or.inr ⟨hle, ?_⟩
    rw [← hword]
    have hraw := h.raw
    have hsize := h.size
    exact le32_congr fun k hk => hm _ (by omega) (by omega)

theorem mem_takeBack {live : List Live} : y ∈ takeBack live x ↔ y ∈ live ∧ y ≠ x := by
  simp [takeBack]

theorem heapInit_inv (m : Buf) {startAddr size : Nat} (h : ArenaOk startAddr size) :
    HInv ⟨heapInit m startAddr size, []⟩ [⟨alignUp startAddr 16, size - 20, true⟩] := by
  have hround : startAddr + 2 ^ 4 - 1 < 4294967296 := by
    have hlt := h.aligned
    omega
  have hge : startAddr ≤ alignUp startAddr 16 := le_alignUp (k := 4) (by decide) hround
  have hdvd : 16 ∣ alignUp startAddr 16 := alignUp_dvd (k := 4) (by decide) hround
  have hpos := h.pos
  have hbound := h.bound
  have hroom := h.room
  have hmem : (heapInit m startAddr size).mem =
      writeBlock m (alignUp startAddr 16) ⟨heapMagic, sub32 size 20, 1, 0, 0⟩ := rfl
  have hstart : (heapInit m startAddr size).heapStart = alignUp startAddr 16 := rfl
  have htotal : (heapInit m startAddr size).heapTotalSize = size := rfl
  have hsize : sub32 size 20 = size - 20 := sub32_of_le hroom (by omega)
  refine ⟨⟨⟨rfl, ?_⟩, ⟨?_, trivial⟩, ?_, ?_, ?_, fun b hb => ?_⟩, rfl, List.isChain_singleton _,
    fun x hx => ?_, fun b hb hf => ?_, fun x hx => ?_⟩
  · dsimp only
    rw [hstart, htotal]
    have hend : alignUp startAddr 16 + 20 + (size - 20) = alignUp startAddr 16 + size := by omega
    exact hend
  · dsimp only
    rw [hmem, readBlock_writeBlock]
    dsimp only
    rw [hsize, u32_of_lt (show size - 20 < 4294967296 by omega)]
    rfl
  · rw [hstart]
    have hle := Nat.le_of_dvd (by omega) hdvd
    exact hle
  · rw [htotal]
    omega
  · exact hbound
  · cases List.mem_singleton.mp hb
    dsimp only
    omega
  · cases hx
  · cases List.mem_singleton.mp hb
    cases hf
  · cases hx

theorem HInv.taken_keeps (h : HInv s bs)
    (ht : Taken s.heap.mem m' s.heap.heapStart (s.heap.heapStart + s.heap.heapTotalSize) bs n c bs')
    (hm : ∀ i, i < c.addr + 20 ∨ c.addr + 20 + c.size ≤ i → m i = m' i) :
    Keeps bs s.heap.mem m := by
  intro b hb hf i hi hi'
  have hc : c ∈ bs' := (ht.used c ht.block).mpr (Or.inr rfl)
  have hb' : b ∈ bs' := (ht.used b hf).mpr (Or.inl hb)
  obtain ⟨d, hd, hdf, hda, _⟩ := ht.free
  rw [← ht.keeps b hb hf i hi hi']
  refine hm i ?_
  rcases ht.rep.tiles.apart hb' hc with heq | hlt | hlt
  · have hbd := h.rep.tiles.eq_of_addr hb hd (by rw [hda, heq])
    rw [hbd, hdf] at hf
    cases hf
  · exact Or.inl (by omega)
  · exact Or.inr (by omega)

/-- A block is taken for a new pointer `x`, and only its payload is written after that. -/
theorem HInv.taken (h : HInv s bs)
    (ht : Taken s.heap.mem m' s.heap.heapStart (s.heap.heapStart + s.heap.heapTotalSize) bs n c bs')
    (hm : ∀ i, i < c.addr + 20 ∨ c.addr + 20 + c.size ≤ i → m i = m' i) (hx : x.At m c) :
    HInv ⟨{ s.heap with mem := m }, x :: s.live⟩ bs' := by
  have hc : c ∈ bs' := (ht.used c ht.block).mpr (Or.inr rfl)
  have hkeep := h.taken_keeps ht hm
  have hfresh : ∀ y ∈ s.live, x.raw ≠ y.raw := by
    intro y hy heq
    obtain ⟨b, hb, hat⟩ := h.live y hy
    obtain ⟨d, hd, hdf, hda, _⟩ := ht.free
    have haddr : b.addr = d.addr := by
      have h1 := hat.raw
      have h2 := hx.raw
      omega
    have hbd := h.rep.tiles.eq_of_addr hb hd haddr
    rw [← hbd, hat.used] at hdf
    cases hdf
  refine ⟨⟨ht.rep.tiles, ?_, ht.rep.pos, ht.rep.lt, ht.rep.bound, ht.rep.word⟩, h.head,
    ht.coalesced, fun y hy => ?_, fun b hb hf => ?_, fun y hy z hz heq => ?_⟩
  · refine ht.rep.links.congr fun b hb => readBlock_congr fun k hk => hm _ ?_
    rcases ht.rep.tiles.apart hb hc with rfl | hlt | hlt
    · exact Or.inl (by omega)
    · exact Or.inl (by omega)
    · exact Or.inr (by omega)
  · rcases List.mem_cons.mp hy with rfl | hy'
    · exact ⟨c, hc, hx⟩
    · obtain ⟨b, hb, hat⟩ := h.live y hy'
      exact ⟨b, (ht.used b hat.used).mpr (Or.inl hb), hat.congr (hkeep b hb hat.used)⟩
  · rcases (ht.used b hf).mp hb with hb' | rfl
    · obtain ⟨y, hy, hraw⟩ := h.used b hb' hf
      exact ⟨y, List.mem_cons_of_mem x hy, hraw⟩
    · exact ⟨x, List.mem_cons_self, hx.raw⟩
  · rcases List.mem_cons.mp hy with rfl | hy'
    · rcases List.mem_cons.mp hz with rfl | hz'
      · rfl
      · exact absurd heq (hfresh z hz')
    · rcases List.mem_cons.mp hz with rfl | hz'
      · exact absurd heq.symm (hfresh y hy')
      · exact h.distinct y hy' z hz' heq

theorem HInv.freed (h : HInv s bs) (hx : x ∈ s.live) (hat : x.At s.heap.mem b)
    (hf : Freed s.heap.mem m s.heap.heapStart (s.heap.heapStart + s.heap.heapTotalSize) bs b bs') :
    HInv ⟨{ s.heap with mem := m }, takeBack s.live x⟩ bs' := by
  refine ⟨hf.rep, h.head, hf.coalesced, fun y hy => ?_, fun d hd hdf => ?_,
    fun y hy z hz heq => ?_⟩
  · obtain ⟨hyl, hne⟩ := mem_takeBack.mp hy
    obtain ⟨d, hd, hdat⟩ := h.live y hyl
    have haddr : d.addr ≠ b.addr := by
      intro heq
      refine hne (h.distinct y hyl x hx ?_)
      rw [hdat.raw, hat.raw, heq]
    exact ⟨d, (hf.used d hdat.used).mpr ⟨hd, haddr⟩, hdat.congr (hf.keeps d hd hdat.used)⟩
  · obtain ⟨hd', hne⟩ := (hf.used d hdf).mp hd
    obtain ⟨y, hy, hraw⟩ := h.used d hd' hdf
    refine ⟨y, mem_takeBack.mpr ⟨hy, fun heq => hne ?_⟩, hraw⟩
    have hb := hat.raw
    rw [← heq] at hb
    omega
  · exact h.distinct y (mem_takeBack.mp hy).1 z (mem_takeBack.mp hz).1 heq

theorem HInv.write (h : HInv s bs) (hx : x ∈ s.live) {i : Nat} (hi : i < x.size) (v : UInt8) :
    HInv ⟨{ s.heap with mem := update s.heap.mem (x.ptr + i) v }, s.live⟩ bs := by
  obtain ⟨b, hb, hat⟩ := h.live x hx
  have hraw := hat.raw
  have hle := hat.le
  have hsize := hat.size
  have hmem : ∀ j, j < x.ptr ∨ x.ptr + x.size ≤ j →
      update s.heap.mem (x.ptr + i) v j = s.heap.mem j :=
    fun j hj => update_of_ne (by omega) _ _
  refine ⟨⟨h.rep.tiles, ?_, h.rep.pos, h.rep.lt, h.rep.bound, h.rep.word⟩, h.head, h.coalesced,
    fun y hy => ?_, h.used, h.distinct⟩
  · refine h.rep.links.congr fun d hd => readBlock_congr fun k hk => hmem _ ?_
    rcases h.rep.tiles.apart hd hb with rfl | hlt | hlt
    · exact Or.inl (by omega)
    · exact Or.inl (by omega)
    · exact Or.inr (by omega)
  · obtain ⟨d, hd, hdat⟩ := h.live y hy
    refine ⟨d, hd, ?_⟩
    by_cases hdb : d = b
    · -- The word before `x` is not part of what was asked for.
      subst hdb
      have hyx : y = x := h.distinct y hy x hx (by rw [hdat.raw, hat.raw])
      rw [hyx]
      refine ⟨hat.used, hat.raw, hat.le, hat.size, ?_⟩
      rcases hat.slot with heq | ⟨hslot, hword⟩
      · exact Or.inl heq
      · refine Or.inr ⟨hslot, ?_⟩
        rw [← hword]
        exact le32_congr fun k hk => hmem _ (by omega)
    · refine hdat.congr fun j hj hj' => hmem j ?_
      rcases h.rep.tiles.apart hd hb with heq | hlt | hlt
      · exact absurd heq hdb
      · exact Or.inl (by omega)
      · exact Or.inr (by omega)

theorem memset_of_outside {ptr i : Nat} {v : UInt8} (h : i < ptr ∨ ptr + n ≤ i) :
    memset m ptr v n i = m i := by
  induction n with
  | zero => rfl
  | succ n ih =>
    rw [memset, update_of_ne (by omega), ih (by omega)]

theorem memcpy_of_outside {dest src i : Nat} (h : i < dest ∨ dest + n ≤ i) :
    memcpy m dest src n i = m i := by
  induction n with
  | zero => rfl
  | succ n ih =>
    rw [memcpy, update_of_ne (by omega), ih (by omega)]

theorem memcpy_apart {dest src i : Nat} (h : src + n ≤ dest ∨ dest + n ≤ src) (hi : i < n) :
    memcpy m dest src n (dest + i) = m (src + i) := by
  induction n with
  | zero => cases hi
  | succ n ih =>
    rw [memcpy]
    by_cases hin : i = n
    · rw [hin, update_self]
      exact memcpy_of_outside (by omega)
    · rw [update_of_ne (by omega)]
      exact ih (by omega) (by omega)

/-! ### The calls -/

theorem HInv.ptr_bounds (h : HInv s bs) (hb : b ∈ bs) (hat : x.At s.heap.mem b) :
    36 ≤ x.raw ∧ x.ptr + x.size ≤ 4294967296 ∧ x.raw ≤ 4294967296 ∧ b.addr + 20 + b.size ≤ 4294967296 := by
  have hbound := h.rep.tiles.bounds hb
  have hpos := h.rep.pos
  have hend := h.rep.bound
  have hraw := hat.raw
  have hsize := hat.size
  omega

theorem HInv.ptr_inj (h : HInv s bs) (hx : x ∈ s.live) (hy : y ∈ s.live) (heq : x.ptr = y.ptr) :
    x = y := by
  obtain ⟨b, hb, hbat⟩ := h.live x hx
  obtain ⟨c, hc, hcat⟩ := h.live y hy
  have h1 := hbat.raw
  have h2 := hbat.le
  have h3 := hbat.size
  have h4 := hcat.raw
  have h5 := hcat.le
  have h6 := hcat.size
  refine h.distinct x hx y hy ?_
  rcases h.rep.tiles.apart hb hc with rfl | hlt | hlt
  · rw [hbat.raw, hcat.raw]
  · omega
  · omega

theorem HInv.magic (h : HInv s bs) (hb : b ∈ bs) :
    (readBlock s.heap.mem b.addr).magic = heapMagic := by
  obtain ⟨next, prev, hread⟩ := h.rep.links.mem hb
  rw [hread]

theorem HInv.kfree_eq (h : HInv s bs) (hb : b ∈ bs) (hat : x.At s.heap.mem b)
    (htold : x.ptr ≠ x.raw → (readBlock s.heap.mem (x.ptr - 20)).magic ≠ heapMagic) :
    kfree s.heap x.ptr = { s.heap with mem := freeBlock s.heap.mem b.addr } := by
  obtain ⟨hlow, hhigh, hhigh', hend⟩ := h.ptr_bounds hb hat
  have hraw := hat.raw
  have hle := hat.le
  have hsize := hat.size
  have hmagic := h.magic hb
  have hne : x.ptr ≠ 0 := by omega
  have hblock : x.raw - 20 = b.addr := by omega
  unfold kfree
  rw [if_neg hne]
  rcases hat.slot with heq | ⟨hslot, hword⟩
  · have hsub : sub32 x.ptr 20 = b.addr := by
      unfold sub32 u32
      omega
    rw [hsub, if_pos hmagic]
  · have hptr : x.ptr ≠ x.raw := by omega
    have hsub : sub32 x.ptr 20 = x.ptr - 20 := by
      unfold sub32 u32
      omega
    have hsub4 : sub32 x.ptr 4 = x.ptr - 4 := by
      unfold sub32 u32
      omega
    have hsubr : sub32 x.raw 20 = b.addr := by
      unfold sub32 u32
      omega
    dsimp only
    rw [hsub, if_neg (htold hptr), hsub4, hword, hsubr, if_pos hmagic]

theorem HInv.free (h : HInv s bs) (hx : x ∈ s.live) (hb : b ∈ bs) (hat : x.At s.heap.mem b)
    (htold : x.ptr ≠ x.raw → (readBlock s.heap.mem (x.ptr - 20)).magic ≠ heapMagic) :
    ∃ bs', HInv ⟨kfree s.heap x.ptr, takeBack s.live x⟩ bs' ∧
      Freed s.heap.mem (kfree s.heap x.ptr).mem s.heap.heapStart
        (s.heap.heapStart + s.heap.heapTotalSize) bs b bs' := by
  obtain ⟨bs', hfreed⟩ := h.rep.freeBlock h.coalesced hb
  have hinv := h.freed hx hat hfreed
  have hmem : (kfree s.heap x.ptr).mem = freeBlock s.heap.mem b.addr := by
    rw [h.kfree_eq hb hat htold]
  refine ⟨bs', ?_, ?_⟩
  · rw [h.kfree_eq hb hat htold]
    exact hinv
  · rw [hmem]
    exact hfreed

theorem HInv.malloc (h : HInv s bs) (hn : n ≤ 4294967288) :
    kmalloc s.heap n = some (0, s.heap) ∨
      ∃ m' c bs', kmalloc s.heap n = some (c.addr + 20, { s.heap with mem := m' }) ∧ n ≤ c.size ∧
        Taken s.heap.mem m' s.heap.heapStart (s.heap.heapStart + s.heap.heapTotalSize) bs
          (alignUp n 8) c bs' := by
  by_cases hn0 : n = 0
  · left
    rw [kmalloc, if_pos hn0]
  · rcases kmalloc_spec h.rep h.coalesced h.head (Nat.pos_of_ne_zero hn0) hn with
      ⟨m', c, bs', hk, ht⟩ | ⟨hk, _⟩
    · have hge : n ≤ alignUp n 8 := le_alignUp (k := 3) (by decide) (by omega)
      exact Or.inr ⟨m', c, bs', hk, Nat.le_trans hge ht.size, ht⟩
    · exact Or.inl hk

/-- What a step does to the pointers that stay out. -/
structure Effect (s : HSys) (op : HOp) (p : Nat) (s' : HSys) : Prop where
  others : ∀ y ∈ s.live, y ∈ s'.live → (∀ i v, op ≠ .write y.ptr i v) →
    ∀ i < y.size, s'.heap.mem (y.ptr + i) = s.heap.mem (y.ptr + i)
  realloc : ∀ y ∈ s.live, ∀ n, op = .realloc y.ptr n → p ≠ 0 →
    ∀ i < min y.size n, s'.heap.mem (p + i) = s.heap.mem (y.ptr + i)

theorem HInv.keeps (h : HInv s bs) (hm : Keeps bs s.heap.mem m) (hy : y ∈ s.live) {i : Nat}
    (hi : i < y.size) : m (y.ptr + i) = s.heap.mem (y.ptr + i) := by
  obtain ⟨b, hb, hat⟩ := h.live y hy
  have hraw := hat.raw
  have hle := hat.le
  have hsize := hat.size
  exact hm b hb hat.used _ (by omega) (by omega)

section

variable {p : Nat} {k : Heap}

theorem handOut_null (live : List Live) (n raw : Nat) : handOut live ⟨0, n, raw⟩ = live := if_pos rfl

theorem handOut_of_ne (live : List Live) (n raw : Nat) (hp : p ≠ 0) :
    handOut live ⟨p, n, raw⟩ = ⟨p, n, raw⟩ :: live := if_neg hp

theorem keeps_refl (bs : List Block) (m : Buf) : Keeps bs m m := fun _ _ _ _ _ _ => rfl

theorem HInv.step_malloc (h : HInv s bs) (hn : n ≤ 4294967288)
    (hk : kmalloc s.heap n = some (p, k)) :
    ∃ bs', HInv ⟨k, handOut s.live ⟨p, n, p⟩⟩ bs' ∧ Keeps bs s.heap.mem k.mem := by
  rcases h.malloc hn with hnull | ⟨m', c, bs', hsome, hsize, ht⟩
  · cases hnull.symm.trans hk
    rw [handOut_null]
    exact ⟨bs, h, keeps_refl bs _⟩
  · cases hsome.symm.trans hk
    rw [handOut_of_ne _ _ _ (by omega)]
    exact ⟨bs', h.taken ht (fun _ _ => rfl)
      ⟨ht.block, rfl, Nat.le_refl _, by dsimp only; omega, Or.inl rfl⟩, ht.keeps⟩

theorem HInv.step_calloc (h : HInv s bs) {num : Nat} (hn : num * n ≤ 4294967288)
    (hk : kcalloc s.heap num n = some (p, k)) :
    ∃ bs', HInv ⟨k, handOut s.live ⟨p, num * n, p⟩⟩ bs' ∧ Keeps bs s.heap.mem k.mem := by
  have htotal : u32 (num * n) = num * n := u32_of_lt (by omega)
  rw [kcalloc, htotal] at hk
  rcases h.malloc hn with hnull | ⟨m', c, bs', hsome, hsize, ht⟩
  · rw [hnull, Option.map_some, if_neg fun hno => hno rfl] at hk
    cases hk
    rw [handOut_null]
    exact ⟨bs, h, keeps_refl bs _⟩
  · have hp : c.addr + 20 ≠ 0 := by omega
    rw [hsome, Option.map_some, if_pos hp] at hk
    cases hk
    have hset : ∀ i, i < c.addr + 20 ∨ c.addr + 20 + c.size ≤ i →
        memset m' (c.addr + 20) 0 (num * n) i = m' i := by
      intro i hi
      exact memset_of_outside (by omega)
    rw [handOut_of_ne _ _ _ hp]
    exact ⟨bs', h.taken ht hset ⟨ht.block, rfl, Nat.le_refl _, by dsimp only; omega, Or.inl rfl⟩,
      h.taken_keeps ht hset⟩

/-- The block of an aligned pointer has room for the padding, the word and the bytes. -/
theorem HInv.step_aligned (h : HInv s bs) {j : Nat} (hn : n + 2 ^ j + 4 ≤ 4294967288)
    (hk : kmallocAligned s.heap n (2 ^ j) = some (p, k)) :
    ∃ bs', HInv ⟨k, handOut s.live ⟨p, n, if 2 ^ j ≤ 8 then p else le32 k.mem (p - 4)⟩⟩ bs' ∧
      Keeps bs s.heap.mem k.mem ∧ (8 < 2 ^ j → 2 ^ j ∣ p) := by
  have hpow := Nat.two_pow_pos j
  by_cases hj : 2 ^ j ≤ 8
  · rw [kmallocAligned, if_pos hj] at hk
    obtain ⟨bs', hinv, hkeep⟩ := h.step_malloc (n := n) (by omega) hk
    rw [if_pos hj]
    exact ⟨bs', hinv, hkeep, fun hlt => absurd hj (by omega)⟩
  · have hsum : u32 (n + 2 ^ j + 4) = n + 2 ^ j + 4 := u32_of_lt (by omega)
    rw [kmallocAligned, if_neg hj, hsum] at hk
    rw [if_neg hj]
    rcases h.malloc hn with hnull | ⟨m', c, bs', hsome, hsize, ht⟩
    · rw [hnull, Option.map_some, if_pos rfl] at hk
      cases hk
      rw [handOut_null]
      exact ⟨bs, h, keeps_refl bs _, fun _ => Nat.dvd_zero _⟩
    · have hp : c.addr + 20 ≠ 0 := by omega
      have hc : c ∈ bs' := (ht.used c ht.block).mpr (Or.inr rfl)
      have hbound := ht.rep.tiles.bounds hc
      have hend := ht.rep.bound
      have hsum4 : u32 (c.addr + 20 + 4) = c.addr + 20 + 4 := u32_of_lt (by omega)
      have hj32 : j ≤ 32 := by
        by_contra hno
        have hbig : 2 ^ 33 ≤ 2 ^ j := Nat.pow_le_pow_right (by decide) (by omega)
        omega
      have hround : c.addr + 20 + 4 + 2 ^ j - 1 < 4294967296 := by omega
      have hge := le_alignUp hj32 hround
      have hlt := alignUp_lt hj32 hround
      have hdvd := alignUp_dvd hj32 hround
      rw [hsome, Option.map_some, if_neg hp, hsum4] at hk
      generalize alignUp (c.addr + 20 + 4) (2 ^ j) = q at hk hge hlt hdvd
      have hsub : sub32 q 4 = q - 4 := sub32_of_le (by omega) (by omega)
      rw [hsub] at hk
      cases hk
      have hput : ∀ i, i < c.addr + 20 ∨ c.addr + 20 + c.size ≤ i →
          put32 m' (p - 4) (c.addr + 20) i = m' i := by
        intro i hi
        exact put32_of_ne (by omega)
      have hword : le32 (put32 m' (p - 4) (c.addr + 20)) (p - 4) = c.addr + 20 := by
        rw [le32_put32]
        exact Nat.mod_eq_of_lt (by omega)
      dsimp only
      rw [hword, handOut_of_ne _ _ _ (by omega)]
      refine ⟨bs', h.taken ht hput ⟨ht.block, rfl, ?_, ?_, ?_⟩, h.taken_keeps ht hput,
        fun _ => hdvd⟩
      · dsimp only
        omega
      · dsimp only
        omega
      · exact Or.inr ⟨hge, hword⟩

theorem HInv.step_realloc (h : HInv s bs) (hn : n ≤ 4294967288) (hn0 : n ≠ 0) (hx : x ∈ s.live)
    (hplain : x.ptr = x.raw) (hk : krealloc s.heap x.ptr n = some (p, k)) :
    (p = 0 ∧ k = s.heap) ∨ (p = x.ptr ∧ k = s.heap ∧
      ∃ bs', HInv ⟨k, ⟨x.ptr, n, x.raw⟩ :: takeBack s.live x⟩ bs') ∨
    (p ≠ 0 ∧ p ≠ x.ptr ∧ ∃ bs', HInv ⟨k, ⟨p, n, p⟩ :: takeBack s.live x⟩ bs' ∧
      Keeps bs s.heap.mem k.mem ∧
      ∀ i < x.size, k.mem (p + i) = s.heap.mem (x.ptr + i)) := by
  obtain ⟨b, hb, hat⟩ := h.live x hx
  obtain ⟨hlow, hhigh, hhigh', hend⟩ := h.ptr_bounds hb hat
  have hraw := hat.raw
  have hsize := hat.size
  have hsub : sub32 x.ptr 20 = b.addr := by
    unfold sub32 u32
    omega
  obtain ⟨next, prev, hread⟩ := h.rep.links.mem hb
  have hp0 : x.ptr ≠ 0 := by omega
  rw [krealloc, if_neg hp0, if_neg hn0, hsub, hread, if_neg fun hno => hno rfl] at hk
  dsimp only at hk
  by_cases hfits : n ≤ b.size
  · rw [if_pos hfits] at hk
    cases hk
    refine Or.inr (Or.inl ⟨rfl, rfl, bs, h.rep, h.head, h.coalesced, fun y hy => ?_,
      fun d hd hf => ?_, fun y hy z hz heq => ?_⟩)
    · rcases List.mem_cons.mp hy with rfl | hy'
      · exact ⟨b, hb, hat.used, hat.raw, hat.le, by dsimp only; omega, Or.inl hplain⟩
      · exact h.live y (mem_takeBack.mp hy').1
    · obtain ⟨y, hy, hyraw⟩ := h.used d hd hf
      by_cases hyx : y = x
      · rw [hyx] at hyraw
        exact ⟨_, List.mem_cons_self, hyraw⟩
      · exact ⟨y, List.mem_cons_of_mem _ (mem_takeBack.mpr ⟨hy, hyx⟩), hyraw⟩
    · rcases List.mem_cons.mp hy with rfl | hy'
      · rcases List.mem_cons.mp hz with rfl | hz'
        · rfl
        · obtain ⟨hzl, hne⟩ := mem_takeBack.mp hz'
          exact absurd (h.distinct x hx z hzl heq).symm hne
      · rcases List.mem_cons.mp hz with rfl | hz'
        · obtain ⟨hyl, hne⟩ := mem_takeBack.mp hy'
          exact absurd (h.distinct y hyl x hx heq) hne
        · exact h.distinct y (mem_takeBack.mp hy').1 z (mem_takeBack.mp hz').1 heq
  · rw [if_neg hfits] at hk
    rcases h.malloc hn with hnull | ⟨m', c, bs', hsome, hcsize, ht⟩
    · rw [hnull, Option.map_some, if_neg fun hno => hno rfl] at hk
      cases hk
      exact Or.inl ⟨rfl, rfl⟩
    · have hp : c.addr + 20 ≠ 0 := by omega
      rw [hsome, Option.map_some, if_pos hp] at hk
      cases hk
      have hc : c ∈ bs' := (ht.used c ht.block).mpr (Or.inr rfl)
      have hb' : b ∈ bs' := (ht.used b hat.used).mpr (Or.inl hb)
      have hcopy : ∀ i, i < c.addr + 20 ∨ c.addr + 20 + c.size ≤ i →
          memcpy m' (c.addr + 20) x.ptr b.size i = m' i := by
        intro i hi
        exact memcpy_of_outside (by omega)
      have hkeep := h.taken_keeps ht hcopy
      have hnew : (⟨c.addr + 20, n, c.addr + 20⟩ : Live).At
          (memcpy m' (c.addr + 20) x.ptr b.size) c :=
        ⟨ht.block, rfl, Nat.le_refl _, by dsimp only; omega, Or.inl rfl⟩
      have hinv := h.taken ht hcopy hnew
      have hx' : x ∈ (⟨c.addr + 20, n, c.addr + 20⟩ : Live) :: s.live := List.mem_cons_of_mem _ hx
      have hat' : x.At (memcpy m' (c.addr + 20) x.ptr b.size) b :=
        hat.congr fun i hi hi' => hkeep b hb hat.used i hi hi'
      -- The old block and the new one are different.
      have hapart : b.addr + 20 + b.size ≤ c.addr ∨ c.addr + 20 + c.size ≤ b.addr := by
        rcases ht.rep.tiles.apart hb' hc with heq | hlt
        · rw [heq] at hfits
          omega
        · exact hlt
      have hne : (⟨c.addr + 20, n, c.addr + 20⟩ : Live) ≠ x := by
        intro heq
        have hptr : c.addr + 20 = x.ptr := congrArg Live.ptr heq
        omega
      obtain ⟨bs'', hinv', hfreed⟩ := hinv.free hx' hb' hat' fun hno => absurd hplain hno
      have hback : takeBack (⟨c.addr + 20, n, c.addr + 20⟩ :: s.live) x =
          ⟨c.addr + 20, n, c.addr + 20⟩ :: takeBack s.live x := by
        simp [takeBack, hne]
      dsimp only at hinv' hfreed
      rw [hback] at hinv'
      refine Or.inr (Or.inr ⟨hp, by omega, bs'', hinv', fun d hd hdf i hi hi' => ?_, fun i hi => ?_⟩)
      · rw [hfreed.keeps d ((ht.used d hdf).mpr (Or.inl hd)) hdf i hi hi']
        exact hkeep d hd hdf i hi hi'
      · rw [hfreed.keeps c hc ht.block _ (by omega) (by omega), memcpy_apart (by omega) (by omega)]
        exact ht.keeps b hb hat.used _ (by omega) (by omega)

end

end

end Gemios
