import Gemios.HeapSpec

/-!
# Aligned pointers

`kmalloc_aligned` keeps the plain pointer in the word before the aligned one, and `kfree`
looks there when it finds no header before the pointer.  The payload of a block is a
multiple of 4 and not always of 8, and the bytes before an aligned pointer can look like a
header.
-/

namespace Gemios

structure InMemory (s : HSys) (bs : List Block) : Prop where
  tiles : Tiles 20 s.heap.heapStart bs (s.heap.heapStart + s.heap.heapTotalSize)
  links : Links s.heap.mem 0 bs 0
  head : firstAddr bs 0 = s.heap.blockHead

/-- The bytes from `ptr` on lie in the payload of a used block. -/
structure Block.Holds (b : Block) (ptr size : Nat) : Prop where
  used : b.free = false
  start : b.addr + 20 ≤ ptr
  bound : ptr + size ≤ b.addr + 20 + b.size

/-- Pointers are safe to use and to free, in steps that meet `ok`. -/
structure AlignedOk (ok : HSys → HOp → Prop) (s : HSys) : Prop where
  aligned : ∀ n alignment p s', ok s (.aligned n alignment) →
    HStep s (.aligned n alignment) p s' → p ≠ 0 →
      alignment ∣ p ∧ ∃ bs, InMemory s' bs ∧ ∃ b ∈ bs, b.Holds p n
  free : ∀ x ∈ s.live, ∀ p s', ok s (.free x.ptr) → HStep s (.free x.ptr) p s' →
    ∃ bs bs' b, InMemory s bs ∧ InMemory s' bs' ∧ b ∈ bs ∧ b.Holds x.ptr x.size ∧
      ∀ c, c.free = false → (c ∈ bs' ↔ c ∈ bs ∧ c ≠ b)
  realloc : ∀ x ∈ s.live, ∀ n p s', ok s (.realloc x.ptr n) → HStep s (.realloc x.ptr n) p s' →
    p = 0 ∨ ∀ i < min x.size n, s'.heap.mem (p + i) = s.heap.mem (x.ptr + i)
  others : ∀ op p s', ok s op → HStep s op p s' → ∀ y ∈ s.live, y ∈ s'.live →
    (∀ i v, op ≠ .write y.ptr i v) →
      ∀ i < y.size, s'.heap.mem (y.ptr + i) = s.heap.mem (y.ptr + i)
  returns : ∀ op, ok s op → op.On s → ∃ p s', HStep s op p s'

section

variable {s s' : HSys} {bs : List Block} {p : Nat} {x : Live} {b : Block}

theorem HInv.inMemory (h : HInv s bs) : InMemory s bs :=
  ⟨h.rep.tiles, h.rep.links, h.rep.first.trans h.head.symm⟩

theorem Live.At.holds {m : Buf} (h : x.At m b) : b.Holds x.ptr x.size := by
  have hraw := h.raw
  have hle := h.le
  have hsize := h.size
  exact ⟨h.used, by omega, by omega⟩

theorem dvd_four {j : Nat} (hle : 2 ^ j ≤ 8) (hne : 2 ^ j ≠ 8) : 2 ^ j ∣ 4 := by
  have hj : j ≤ 2 := by
    by_contra hno
    have hpow : 2 ^ 3 ≤ 2 ^ j := Nat.pow_le_pow_right (by decide) (by omega)
    omega
  exact Nat.pow_dvd_pow 2 hj

theorem HInv.aligned_result (h : HInv s bs) {n alignment : Nat}
    (hok : (HOp.aligned n alignment).Ok s) (hs : HStep s (.aligned n alignment) p s') (hp : p ≠ 0) :
    alignment ∣ p ∧ ∃ bs, InMemory s' bs ∧ ∃ b ∈ bs, b.Holds p n := by
  obtain ⟨⟨j, rfl⟩, hne, hn⟩ := hok
  cases hs with
  | aligned hk =>
    obtain ⟨bs', hinv, _, hdvd⟩ := h.step_aligned hn hk
    have hmem : ∀ raw, (⟨p, n, raw⟩ : Live) ∈ handOut s.live ⟨p, n, raw⟩ := by
      intro raw
      rw [handOut_of_ne _ _ _ hp]
      exact List.mem_cons_self
    obtain ⟨b, hb, hat⟩ := hinv.live _ (hmem _)
    refine ⟨?_, bs', hinv.inMemory, b, hb, hat.holds⟩
    by_cases hj : 2 ^ j ≤ 8
    · -- A plain payload is a multiple of 4.
      have hraw := hat.raw
      have hword := hinv.rep.word b hb
      rw [if_pos hj] at hraw
      dsimp only at hraw
      have hfour : 4 ∣ p := by omega
      exact Nat.dvd_trans (dvd_four hj hne) hfour
    · exact hdvd (by omega)

/-- **Aligned pointers are safe** in every run in which no alignment is 8, no size wraps around
    when it is rounded up, and no aligned pointer looks like a plain one when it comes back. -/
theorem heap_aligned (h : HReach HOp.Ok s) : AlignedOk HOp.Ok s := by
  obtain ⟨bs, hinv⟩ := h.inv
  refine ⟨fun n alignment p s' hok hs hp => hinv.aligned_result hok hs hp,
    fun x hx p s' hok hs => ?_, fun x hx n p s' hok hs => ?_, fun op p s' hok hs => ?_,
    fun op hok hon => hinv.returns hok hon⟩
  · obtain ⟨b, hb, hat⟩ := hinv.live x hx
    obtain ⟨bs', hinv', hfreed⟩ := hinv.free hx hb hat (hok x hx rfl)
    have hstate : s'.heap = kfree s.heap x.ptr := by
      generalize hop : HOp.free x.ptr = op at hs
      cases hs with
      | @free y hy =>
        injection hop with hptr
        rw [hptr]
      | freeNull =>
        injection hop with hptr
        exact absurd hptr (hinv.ptr_ne_zero hx)
      | _ => cases hop
    have hwf := hinv'.inMemory
    refine ⟨bs, bs', b, hinv.inMemory, ⟨?_, ?_, ?_⟩, hb, hat.holds, fun c hc => ?_⟩
    · rw [hstate]
      exact hwf.tiles
    · rw [hstate]
      exact hwf.links
    · rw [hstate]
      exact hwf.head
    · rw [hfreed.used c hc]
      constructor
      · rintro ⟨hmem, hne⟩
        exact ⟨hmem, fun heq => hne (by rw [heq])⟩
      · rintro ⟨hmem, hne⟩
        exact ⟨hmem, fun heq => hne (hinv.rep.tiles.eq_of_addr hmem hb heq)⟩
  · obtain ⟨_, _, heffect⟩ := hinv.step hok hs
    by_cases hp : p = 0
    · exact Or.inl hp
    · exact Or.inr (heffect.realloc x hx n rfl hp)
  · obtain ⟨_, _, heffect⟩ := hinv.step hok hs
    exact heffect.others

end

/-- 8 bytes at a multiple of 64 are out. -/
theorem heap_aligned_line : ∃ s, HReach HOp.Ok s ∧ s.live = [⟨4160, 8, 4116⟩] ∧
    AlignedOk HOp.Ok s := by
  obtain ⟨k, hk⟩ := freshHeap_malloc (n := 76) (by decide) (by decide)
  have hround : alignUp (u32 (4116 + 4)) 64 = 4160 := by decide
  have hsub : sub32 4160 4 = 4156 := by decide
  have hcall : kmallocAligned freshHeap.heap 8 64 =
      some (4160, { k with mem := put32 k.mem 4156 4116 }) := by
    have hsum : u32 (8 + 64 + 4) = 76 := by decide
    have hne : (4116 : Nat) ≠ 0 := by decide
    rw [kmallocAligned, if_neg (by decide), hsum, hk, Option.map_some, if_neg hne, hround, hsub]
  have hinit : HReach HOp.Ok freshHeap := HReach.init _ freshHeap_arena
  have hok : (HOp.aligned 8 64).Ok freshHeap := ⟨⟨6, rfl⟩, by decide, by decide⟩
  have hreach := hinit.step hok (HStep.aligned hcall)
  refine ⟨_, hreach, ?_, heap_aligned hreach⟩
  have hword : le32 (put32 k.mem 4156 4116) 4156 = 4116 := le32_put32 _ _ _
  dsimp only
  rw [if_neg (by decide), hword]
  rfl

/-! ### Where it fails -/

/-- All calls with powers of two as alignments and without wrap of the sum. -/
def HOp.Wide (_ : HSys) : HOp → Prop
  | .aligned n alignment => (∃ j, alignment = 2 ^ j) ∧ n + alignment + 4 < 4294967296
  | _ => True

/-- The first payload of a fresh heap is handed out for the alignment 8: it is 20 bytes after
    a multiple of 16. -/
theorem aligned_eight : ¬ ∀ s, HReach HOp.Wide s → AlignedOk HOp.Wide s := by
  intro h
  obtain ⟨k, hk⟩ := freshHeap_malloc (n := 8) (by decide) (by decide)
  have hinit : HReach HOp.Wide freshHeap := HReach.init _ freshHeap_arena
  have hcall : kmallocAligned freshHeap.heap 8 8 = some (4116, k) := by
    rw [kmallocAligned, if_pos (by decide), hk]
  have hok : (HOp.aligned 8 8).Wide freshHeap := ⟨⟨3, rfl⟩, by decide⟩
  have hdvd := ((h _ hinit).aligned 8 8 4116 _ hok (HStep.aligned hcall) (by decide)).1
  exact absurd hdvd (by decide)

end Gemios
