import Gemios.HeapRun

/-!
# The heap in every run

The blocks tile the arena and no two neighbours are free, the pointers that are out lie in
used blocks of their own, and a call leaves what they point to alone.
-/

namespace Gemios

/-! ### One step -/

/-- An aligned pointer with this address is not taken for a plain one: the word where the
    header of a plain one would start is not `HEAP_MAGIC`. -/
def HSys.Told (s : HSys) (ptr : Nat) : Prop :=
  ∀ x ∈ s.live, x.ptr = ptr → x.ptr ≠ x.raw →
    (readBlock s.heap.mem (x.ptr - 20)).magic ≠ heapMagic

/-- Sizes do not wrap around when they are rounded up, and aligned pointers are told from
    plain ones. -/
def HOp.Ok (s : HSys) : HOp → Prop
  | .malloc n => n ≤ 4294967288
  | .calloc num n => num * n ≤ 4294967288
  | .aligned n alignment =>
    (∃ j, alignment = 2 ^ j) ∧ alignment ≠ 8 ∧ n + alignment + 4 ≤ 4294967288
  | .realloc ptr n => n ≤ 4294967288 ∧ s.Told ptr
  | .free ptr => s.Told ptr
  | .write _ _ _ => True

def HOp.Plain (_ : HSys) : HOp → Prop
  | .malloc n => n ≤ 4294967288
  | .calloc num n => num * n ≤ 4294967288
  | .aligned _ _ => False
  | .realloc _ n => n ≤ 4294967288
  | .free _ => True
  | .write _ _ _ => True

section

variable {s s' : HSys} {bs : List Block} {op : HOp} {p : Nat}

theorem HInv.ptr_ne_zero (h : HInv s bs) {x : Live} (hx : x ∈ s.live) : x.ptr ≠ 0 := by
  obtain ⟨b, hb, hat⟩ := h.live x hx
  have hlow := (h.ptr_bounds hb hat).1
  have hle := hat.le
  omega

theorem HInv.effect (h : HInv s bs) {k : Heap} {live : List Live}
    (hkeep : Keeps bs s.heap.mem k.mem) (hop : ∀ y ∈ s.live, ∀ n, op ≠ .realloc y.ptr n) :
    Effect s op p ⟨k, live⟩ where
  others := fun _ hy _ _ _ hi => h.keeps hkeep hy hi
  realloc := fun y hy n heq => absurd heq (hop y hy n)

theorem HInv.realloc_aligned (h : HInv s bs) {x : Live} (hx : x ∈ s.live) (hne : x.ptr ≠ x.raw)
    (htold : s.Told x.ptr) {n : Nat} (hn : n ≠ 0) :
    krealloc s.heap x.ptr n = some (0, s.heap) := by
  obtain ⟨b, hb, hat⟩ := h.live x hx
  obtain ⟨hlow, hhigh, _, _⟩ := h.ptr_bounds hb hat
  have hle := hat.le
  have hsub : sub32 x.ptr 20 = x.ptr - 20 := by
    unfold sub32 u32
    omega
  rw [krealloc, if_neg (h.ptr_ne_zero hx), if_neg hn, hsub, if_pos (htold x hx rfl hne)]

theorem HInv.step (h : HInv s bs) (hok : op.Ok s) (hs : HStep s op p s') :
    ∃ bs', HInv s' bs' ∧ Effect s op p s' := by
  cases hs with
  | malloc hk =>
    obtain ⟨bs', hinv, hkeep⟩ := h.step_malloc hok hk
    exact ⟨bs', hinv, h.effect hkeep fun y _ n heq => by cases heq⟩
  | calloc hk =>
    obtain ⟨bs', hinv, hkeep⟩ := h.step_calloc hok hk
    exact ⟨bs', hinv, h.effect hkeep fun y _ n heq => by cases heq⟩
  | aligned hk =>
    obtain ⟨⟨j, rfl⟩, _, hn⟩ := hok
    obtain ⟨bs', hinv, hkeep, _⟩ := h.step_aligned hn hk
    exact ⟨bs', hinv, h.effect hkeep fun y _ n heq => by cases heq⟩
  | @realloc x n p k hx hk =>
    obtain ⟨hn, htold⟩ := hok
    have hx0 := h.ptr_ne_zero hx
    have hsame : ∀ y ∈ s.live, ∀ n', HOp.realloc x.ptr n = .realloc y.ptr n' → y = x ∧ n' = n := by
      intro y hy n' heq
      injection heq with hptr hn'
      exact ⟨(h.ptr_inj hx hy hptr).symm, hn'.symm⟩
    by_cases hn0 : n = 0
    · -- `krealloc` frees.
      obtain ⟨b, hb, hat⟩ := h.live x hx
      obtain ⟨bs', hinv, hfreed⟩ := h.free hx hb hat (htold x hx rfl)
      rw [krealloc, if_neg hx0, if_pos hn0] at hk
      cases hk
      rw [if_pos hn0]
      exact ⟨bs', hinv, fun y hy _ _ i hi => h.keeps hfreed.keeps hy hi,
        fun y _ n' _ hp => absurd rfl hp⟩
    · rw [if_neg hn0]
      by_cases hplain : x.ptr = x.raw
      · rcases h.step_realloc hn hn0 hx hplain hk with
          ⟨rfl, rfl⟩ | ⟨rfl, rfl, bs', hinv⟩ | ⟨hp, hpx, bs', hinv, hkeep, hcopy⟩
        · rw [if_pos rfl]
          exact ⟨bs, h, fun y _ _ _ i _ => rfl, fun y _ n' _ hp => absurd rfl hp⟩
        · rw [if_neg hx0, if_pos rfl]
          refine ⟨bs', hinv, fun y _ _ _ i _ => rfl, fun y hy n' heq _ i _ => ?_⟩
          rw [(hsame y hy n' heq).1]
        · rw [if_neg hp, if_neg hpx]
          refine ⟨bs', hinv, fun y hy _ _ i hi => h.keeps hkeep hy hi, fun y hy n' heq _ i hi => ?_⟩
          obtain ⟨rfl, rfl⟩ := hsame y hy n' heq
          exact hcopy i (by omega)
      · rw [h.realloc_aligned hx hplain htold hn0] at hk
        cases hk
        rw [if_pos rfl]
        exact ⟨bs, h, fun y _ _ _ i _ => rfl, fun y _ n' _ hp => absurd rfl hp⟩
  | reallocNull hk =>
    rw [krealloc, if_pos rfl] at hk
    obtain ⟨bs', hinv, hkeep⟩ := h.step_malloc hok.1 hk
    refine ⟨bs', hinv, h.effect hkeep fun y hy n heq => ?_⟩
    injection heq with hptr
    exact h.ptr_ne_zero hy hptr.symm
  | @free x hx =>
    obtain ⟨b, hb, hat⟩ := h.live x hx
    obtain ⟨bs', hinv, hfreed⟩ := h.free hx hb hat (hok x hx rfl)
    exact ⟨bs', hinv, h.effect hfreed.keeps fun y _ n heq => by cases heq⟩
  | freeNull =>
    have hnull : kfree s.heap 0 = s.heap := if_pos rfl
    rw [hnull]
    exact ⟨bs, h, h.effect (keeps_refl bs _) fun y _ n heq => by cases heq⟩
  | @write x i hx hi v =>
    refine ⟨bs, h.write hx hi v, fun y hy _ hop j hj => ?_, fun y _ n heq => by cases heq⟩
    -- Another pointer lies in another block.
    have hyx : y ≠ x := fun heq => hop i v (by rw [heq])
    obtain ⟨b, hb, hbat⟩ := h.live x hx
    obtain ⟨c, hc, hcat⟩ := h.live y hy
    refine Function.update_of_ne (fun heq => ?_) _ _
    have h1 := hbat.raw
    have h2 := hbat.le
    have h3 := hbat.size
    have h4 := hcat.raw
    have h5 := hcat.le
    have h6 := hcat.size
    rcases h.rep.tiles.apart hb hc with rfl | hlt | hlt
    · exact hyx (h.distinct y hy x hx (by rw [hcat.raw, hbat.raw]))
    · omega
    · omega

def HOp.On (s : HSys) : HOp → Prop
  | .realloc ptr _ => ptr = 0 ∨ ∃ x ∈ s.live, x.ptr = ptr
  | .free ptr => ptr = 0 ∨ ∃ x ∈ s.live, x.ptr = ptr
  | .write ptr i _ => ∃ x ∈ s.live, x.ptr = ptr ∧ i < x.size
  | _ => True

theorem HInv.kmalloc_returns (h : HInv s bs) {n : Nat} (hn : n ≤ 4294967288) :
    ∃ r, kmalloc s.heap n = some r := by
  rcases h.malloc hn with hnull | ⟨m', c, bs', hsome, _⟩
  · exact ⟨_, hnull⟩
  · exact ⟨_, hsome⟩

theorem HInv.returns (h : HInv s bs) (hok : op.Ok s) (hon : op.On s) : ∃ p s', HStep s op p s' := by
  cases op with
  | malloc n =>
    obtain ⟨r, hr⟩ := h.kmalloc_returns hok
    exact ⟨_, _, HStep.malloc hr⟩
  | calloc num n =>
    have htotal : u32 (num * n) = num * n := u32_of_lt (Nat.lt_of_le_of_lt hok (by decide))
    obtain ⟨r, hr⟩ := h.kmalloc_returns hok
    have hcall : ∃ r', kcalloc s.heap num n = some r' := by
      rw [kcalloc, htotal, hr]
      exact ⟨_, rfl⟩
    obtain ⟨r', hr'⟩ := hcall
    exact ⟨_, _, HStep.calloc hr'⟩
  | aligned n alignment =>
    obtain ⟨_, _, hn⟩ := hok
    have hsum : u32 (n + alignment + 4) = n + alignment + 4 := u32_of_lt (by omega)
    have hcall : ∃ r, kmallocAligned s.heap n alignment = some r := by
      rw [kmallocAligned, hsum]
      split
      · exact h.kmalloc_returns (by omega)
      · obtain ⟨r, hr⟩ := h.kmalloc_returns hn
        rw [hr]
        exact ⟨_, rfl⟩
    obtain ⟨r, hr⟩ := hcall
    exact ⟨_, _, HStep.aligned hr⟩
  | realloc ptr n =>
    obtain ⟨r, hr⟩ := h.kmalloc_returns hok.1
    have hcall : ∃ r', krealloc s.heap ptr n = some r' := by
      rw [krealloc, hr]
      split
      · exact ⟨_, rfl⟩
      · split
        · exact ⟨_, rfl⟩
        · split
          · exact ⟨_, rfl⟩
          · split
            · exact ⟨_, rfl⟩
            · exact ⟨_, rfl⟩
    obtain ⟨r', hr'⟩ := hcall
    rcases hon with rfl | ⟨x, hx, rfl⟩
    · exact ⟨_, _, HStep.reallocNull hr'⟩
    · exact ⟨_, _, HStep.realloc hx hr'⟩
  | free ptr =>
    rcases hon with rfl | ⟨x, hx, rfl⟩
    · exact ⟨_, _, HStep.freeNull s⟩
    · exact ⟨_, _, HStep.free hx⟩
  | write ptr i v =>
    obtain ⟨x, hx, rfl, hi⟩ := hon
    exact ⟨_, _, HStep.write hx hi v⟩

/-! ### Whole runs -/

theorem HReach.inv (h : HReach HOp.Ok s) : ∃ bs, HInv s bs := by
  induction h with
  | init m ha => exact ⟨_, heapInit_inv m ha⟩
  | step _ hok hs ih =>
    obtain ⟨bs, hinv⟩ := ih
    obtain ⟨bs', hinv', _⟩ := hinv.step hok hs
    exact ⟨bs', hinv'⟩

theorem HOp.Plain.ok (h : op.Plain s) (hlive : ∀ x ∈ s.live, x.ptr = x.raw) : op.Ok s := by
  have htold : ∀ ptr, s.Told ptr := fun ptr x hx _ hne => absurd (hlive x hx) hne
  cases op with
  | malloc n => exact h
  | calloc num n => exact h
  | aligned n alignment => exact False.elim h
  | realloc ptr n => exact ⟨h, htold ptr⟩
  | free ptr => exact htold ptr
  | write ptr i v => exact trivial

theorem handOut_plain {live : List Live} (h : ∀ x ∈ live, x.ptr = x.raw) (p n : Nat) :
    ∀ x ∈ handOut live ⟨p, n, p⟩, x.ptr = x.raw := by
  intro x hx
  unfold handOut at hx
  split at hx
  · exact h x hx
  · rcases List.mem_cons.mp hx with rfl | hx'
    · rfl
    · exact h x hx'

theorem HReach.plain (h : HReach HOp.Plain s) :
    HReach HOp.Ok s ∧ ∀ x ∈ s.live, x.ptr = x.raw := by
  induction h with
  | init m ha =>
    refine ⟨HReach.init m ha, fun x hx => ?_⟩
    cases hx
  | @step s s' op p _ hok hs ih =>
    obtain ⟨hreach, hlive⟩ := ih
    refine ⟨hreach.step (hok.ok hlive) hs, ?_⟩
    have hback : ∀ y, ∀ x ∈ takeBack s.live y, x.ptr = x.raw :=
      fun y x hx => hlive x (mem_takeBack.mp hx).1
    cases hs with
    | malloc _ => exact handOut_plain hlive _ _
    | calloc _ => exact handOut_plain hlive _ _
    | aligned _ => exact False.elim hok
    | @realloc y n p k hy _ =>
      dsimp only
      split
      · exact hback y
      · split
        · exact hlive
        · intro x hx
          rcases List.mem_cons.mp hx with rfl | hx'
          · dsimp only
            split
            · next heq => rw [heq, hlive y hy]
            · rfl
          · exact hback y x hx'
    | reallocNull _ => exact handOut_plain hlive _ _
    | @free y hy => exact hback y
    | freeNull => exact hlive
    | write _ _ _ => exact hlive

/-! ### Tiling -/

/-- The blocks in memory tile the arena, and the pointers that are out lie in them. -/
structure HeapOk (s : HSys) (bs : List Block) : Prop where
  tiles : Tiles 20 s.heap.heapStart bs (s.heap.heapStart + s.heap.heapTotalSize)
  sum : (bs.map fun b => 20 + b.size).sum = s.heap.heapTotalSize
  head : firstAddr bs 0 = s.heap.blockHead
  /-- Every header has the magic value, its size and its mark, and leads to the next block and
      back to the one before. -/
  links : Links s.heap.mem 0 bs 0
  live : ∀ x ∈ s.live, ∃ b ∈ bs, b.free = false ∧ x.ptr = b.addr + 20 ∧ x.size ≤ b.size
  disjoint : ∀ x ∈ s.live, ∀ y ∈ s.live, x ≠ y → ∀ b ∈ bs, ∀ c ∈ bs,
    x.ptr = b.addr + 20 → y.ptr = c.addr + 20 →
      b.addr + 20 + b.size ≤ c.addr ∨ c.addr + 20 + c.size ≤ b.addr

theorem HInv.heapOk (h : HInv s bs) (hplain : ∀ x ∈ s.live, x.ptr = x.raw) : HeapOk s bs := by
  refine ⟨h.rep.tiles, ?_, h.rep.first.trans h.head.symm, h.rep.links, fun x hx => ?_,
    fun x hx y hy hne b hb c hc hxb hyc => ?_⟩
  · have hsum := h.rep.tiles.sum
    omega
  · obtain ⟨b, hb, hat⟩ := h.live x hx
    have hptr := hplain x hx
    have hsize := hat.size
    exact ⟨b, hb, hat.used, hptr.trans hat.raw, by omega⟩
  · rcases h.rep.tiles.apart hb hc with rfl | hlt
    · exact absurd (h.ptr_inj hx hy (hxb.trans hyc.symm)) hne
    · exact hlt

/-- **The heap tiles its arena** in every run on plain pointers, every call returns, and no
    call changes what another pointer points to. -/
theorem heap_tiling (h : HReach HOp.Plain s) :
    (∃ bs, HeapOk s bs) ∧ (∀ op, op.Plain s → op.On s → ∃ p s', HStep s op p s') ∧
      ∀ op p s', op.Plain s → HStep s op p s' → Effect s op p s' := by
  obtain ⟨hreach, hplain⟩ := h.plain
  obtain ⟨bs, hinv⟩ := hreach.inv
  refine ⟨⟨bs, hinv.heapOk hplain⟩, fun op hop hon => hinv.returns (hop.ok hplain) hon,
    fun op p s' hop hs => ?_⟩
  obtain ⟨_, _, heffect⟩ := hinv.step (hop.ok hplain) hs
  exact heffect

end

def freshHeap : HSys := ⟨heapInit (fun _ => 0) 4096 4096, []⟩

theorem freshHeap_arena : ArenaOk 4096 4096 := ⟨by decide, by decide, by decide, by decide⟩

theorem freshHeap_inv : HInv freshHeap [⟨4096, 4076, true⟩] := heapInit_inv _ freshHeap_arena

theorem freshHeap_malloc {n : Nat} (hpos : 0 < n) (hn : n ≤ 4000) :
    ∃ k, kmalloc freshHeap.heap n = some (4116, k) := by
  have hround : alignUp n 8 < n + 8 := alignUp_lt (k := 3) (by decide) (by omega)
  rcases kmalloc_spec freshHeap_inv.rep freshHeap_inv.coalesced freshHeap_inv.head hpos (by omega)
    with ⟨m', c, bs', hsome, ht⟩ | ⟨_, hnone⟩
  · obtain ⟨b, hb, _, haddr, _⟩ := ht.free
    cases List.mem_singleton.mp hb
    rw [← haddr] at hsome
    exact ⟨_, hsome⟩
  · have hlt := hnone _ List.mem_cons_self rfl
    dsimp only at hlt
    omega

theorem freshHeap_malloc_twice : ∃ k₁ k₂, kmalloc freshHeap.heap 16 = some (4116, k₁) ∧
    kmalloc k₁ 16 = some (4152, k₂) := by
  have h : ((kmalloc freshHeap.heap 16).bind fun r => (kmalloc r.2 16).map fun q => (r.1, q.1)) =
      some (4116, 4152) := by decide +kernel
  obtain ⟨⟨p, k₁⟩, h₁, h⟩ := Option.bind_eq_some_iff.mp h
  obtain ⟨⟨q, k₂⟩, h₂, h⟩ := Option.map_eq_some_iff.mp h
  obtain ⟨rfl, rfl⟩ := Prod.mk.inj h
  exact ⟨k₁, k₂, h₁, h₂⟩

/-- Two blocks of 16 bytes are split off a fresh heap. -/
theorem heap_tiling_two : ∃ s, HReach HOp.Plain s ∧ s.live = [⟨4152, 16, 4152⟩, ⟨4116, 16, 4116⟩] ∧
    (∃ bs, HeapOk s bs) ∧ (∀ op, op.Plain s → op.On s → ∃ p s', HStep s op p s') ∧
      ∀ op p s', op.Plain s → HStep s op p s' → Effect s op p s' := by
  obtain ⟨k₁, k₂, hk₁, hk₂⟩ := freshHeap_malloc_twice
  have hinit : HReach HOp.Plain freshHeap := HReach.init _ freshHeap_arena
  have hplain : ∀ s, (HOp.malloc 16).Plain s := fun _ => show 16 ≤ 4294967288 by decide
  have hreach := (hinit.step (hplain _) (HStep.malloc hk₁)).step (hplain _) (HStep.malloc hk₂)
  exact ⟨_, hreach, rfl, heap_tiling hreach⟩

section

variable {s s' : HSys} {bs : List Block} {op : HOp} {p : Nat}

/-! ### Free regions -/

/-- The bytes that a run of neighbouring free blocks would have as one block. -/
def regionSize (run : List Block) : Nat := (run.map fun b => 20 + b.size).sum - 20

/-- No free neighbours are left, `kmalloc` fails only when no free region is large enough, and
    when no pointer is out the heap is as `heap_init` left it. -/
structure CoalescedOk (s : HSys) (bs : List Block) : Prop where
  coalesced : Coalesced bs
  full : ∀ n k, 0 < n → n ≤ 4294967288 → kmalloc s.heap n = some (0, k) →
    ∀ l run r, bs = l ++ run ++ r → run ≠ [] → (∀ b ∈ run, b.free = true) →
      regionSize run < alignUp n 8
  empty : s.live = [] → bs = [⟨s.heap.heapStart, s.heap.heapTotalSize - 20, true⟩] ∧
    readBlock s.heap.mem s.heap.blockHead = ⟨heapMagic, s.heap.heapTotalSize - 20, 1, 0, 0⟩

theorem HInv.coalescedOk (h : HInv s bs) : CoalescedOk s bs := by
  refine ⟨h.coalesced, fun n k hpos hn hnull l run r hbs hrun hfree => ?_, fun hlive => ?_⟩
  · -- The region is one free block, and that is too small.
    rw [hbs] at h
    have hlen := h.coalesced.free_run hfree
    cases run with
    | nil => exact absurd rfl hrun
    | cons b run =>
      cases run with
      | cons c run =>
        rw [List.length_cons, List.length_cons] at hlen
        omega
      | nil =>
        rcases kmalloc_spec h.rep h.coalesced h.head hpos hn with
          ⟨m', c, bs', hsome, _⟩ | ⟨_, hnone⟩
        · rw [hsome] at hnull
          injection hnull with hpair
          injection hpair with hp _
          omega
        · have hb : b ∈ l ++ [b] ++ r := by simp
          have hlt := hnone b hb (hfree b List.mem_cons_self)
          unfold regionSize
          simpa using hlt
  · have hall : ∀ b ∈ bs, b.free = true := by
      intro b hb
      cases hf : b.free with
      | true => rfl
      | false =>
        obtain ⟨x, hx, _⟩ := h.used b hb hf
        rw [hlive] at hx
        cases hx
    have hlen : bs.length ≤ 1 := by
      refine Coalesced.free_run (l := []) (r := []) ?_ hall
      simpa using h.coalesced
    have hfirst := h.rep.first
    cases bs with
    | nil => exact absurd h.rep.tiles (Nat.ne_of_lt h.rep.lt)
    | cons b bs =>
      cases bs with
      | cons c bs =>
        rw [List.length_cons, List.length_cons] at hlen
        omega
      | nil =>
        have hfree := hall b List.mem_cons_self
        have haddr : b.addr = s.heap.heapStart := hfirst
        have hsize : b.size = s.heap.heapTotalSize - 20 := by
          have hend : s.heap.heapStart + 20 + b.size =
              s.heap.heapStart + s.heap.heapTotalSize := h.rep.tiles.2
          omega
        refine ⟨?_, ?_⟩
        · rw [← haddr, ← hsize, ← hfree]
        · have hread := h.rep.links.1
          rw [h.head, ← haddr, hread, hfree, hsize]
          rfl

/-- **Coalescing is complete** in every run on plain pointers. -/
theorem heap_coalescing (h : HReach HOp.Plain s) : ∃ bs, HeapOk s bs ∧ CoalescedOk s bs := by
  obtain ⟨hreach, hplain⟩ := h.plain
  obtain ⟨bs, hinv⟩ := hreach.inv
  exact ⟨bs, hinv.heapOk hplain, hinv.coalescedOk⟩

end

/-- Two neighbours are given back, the first one first, and the heap is one free block again. -/
theorem heap_coalescing_back : ∃ s, HReach HOp.Plain s ∧ s.live = [] ∧
    ∃ bs, HeapOk s bs ∧ CoalescedOk s bs := by
  obtain ⟨k₁, k₂, hk₁, hk₂⟩ := freshHeap_malloc_twice
  have hinit : HReach HOp.Plain freshHeap := HReach.init _ freshHeap_arena
  have hplain : ∀ s, (HOp.malloc 16).Plain s := fun _ => show 16 ≤ 4294967288 by decide
  have hout := (hinit.step (hplain _) (HStep.malloc hk₁)).step (hplain _) (HStep.malloc hk₂)
  have hfirst := hout.step (by exact trivial)
    (HStep.free (x := ⟨4116, 16, 4116⟩) (List.mem_cons_of_mem _ List.mem_cons_self))
  have hback := hfirst.step (by exact trivial)
    (HStep.free (x := ⟨4152, 16, 4152⟩) List.mem_cons_self)
  exact ⟨_, hback, rfl, heap_coalescing hback⟩

/-- `kmalloc(0)` returns `NULL` with all of the arena free. -/
theorem kmalloc_zero_null :
    ¬ ∀ s bs, HReach HOp.Plain s → HeapOk s bs → ∀ n k, kmalloc s.heap n = some (0, k) →
      ∀ l run r, bs = l ++ run ++ r → run ≠ [] → (∀ b ∈ run, b.free = true) →
        regionSize run < alignUp n 8 := by
  intro h
  have hinit : HReach HOp.Plain freshHeap := HReach.init _ freshHeap_arena
  have hok := freshHeap_inv.heapOk fun x hx => by cases hx
  have hlt := h _ _ hinit hok 0 freshHeap.heap (if_pos rfl) [] [⟨4096, 4076, true⟩] [] rfl (by simp)
    (by simp)
  have hround : alignUp 0 8 = 0 := by decide
  omega

end Gemios
