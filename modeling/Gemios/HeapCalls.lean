import Gemios.HeapRep

/-!
# What the calls do to the blocks

`kmalloc` takes the first free block that is large enough and gives the rest of it back as
a free block; `kfree` marks a block and joins it with its free neighbours.
-/

namespace Gemios

theorem sub32_of_le {a b : Nat} (hb : b ≤ a) (ha : a < 4294967296) : sub32 a b = a - b := by
  unfold sub32 u32
  omega

/-! ### New headers -/

def writeBlock (m : Buf) (b : Nat) (v : HeapBlock) : Buf :=
  setPrev (setNext (setIsFree (setSize (setMagic m b v.magic) b v.size) b v.isFree) b v.next) b
    v.prev

section

variable {m : Buf} {b c x : Nat} {v : HeapBlock}

theorem readBlock_writeBlock (m : Buf) (b : Nat) (v : HeapBlock) :
    readBlock (writeBlock m b v) b =
      ⟨u32 v.magic, u32 v.size, u32 v.isFree, u32 v.next, u32 v.prev⟩ := by
  simp [writeBlock]

theorem readBlock_writeBlock_of_ne (h : Apart b c) :
    readBlock (writeBlock m b v) c = readBlock m c := by
  rw [writeBlock, readBlock_setPrev_of_ne h, readBlock_setNext_of_ne h,
    readBlock_setIsFree_of_ne h, readBlock_setSize_of_ne h, readBlock_setMagic_of_ne h]

theorem writeBlock_of_outside (h : x < b ∨ b + 20 ≤ x) : writeBlock m b v x = m x := by
  unfold writeBlock setPrev setNext setIsFree setSize setMagic
  rw [put32_of_ne (by omega), put32_of_ne (by omega), put32_of_ne (by omega),
    put32_of_ne (by omega), put32_of_ne (by omega)]

end

section

variable {m : Buf} {a e n : Nat} {l r bs : List Block} {b c : Block}

theorem splitBlock_eq {curr new : Nat} {v : HeapBlock} (hread : readBlock m curr = v)
    (hnew : u32 (curr + 20 + n) = new) (hapart : Apart new curr) :
    splitBlock m curr n =
      setSize
        (setNext
          (if v.next ≠ 0 then
            setPrev
              (writeBlock m new ⟨heapMagic, sub32 (sub32 v.size n) 20, 1, v.next, curr⟩) v.next new
          else writeBlock m new ⟨heapMagic, sub32 (sub32 v.size n) 20, 1, v.next, curr⟩)
          curr new)
        curr n := by
  unfold splitBlock
  simp only [hnew, readBlock_setMagic_of_ne hapart, readBlock_setSize_of_ne hapart,
    readBlock_setIsFree_of_ne hapart, readBlock_setNext_of_ne hapart,
    readBlock_setPrev_of_ne hapart, hread]
  rfl

theorem mem_middle (l : List Block) (b : Block) (r : List Block) : b ∈ l ++ b :: r :=
  List.mem_append_right l List.mem_cons_self

theorem Rep.apart (h : Rep m a e (l ++ b :: r)) :
    (∀ c ∈ l, Apart b.addr c.addr) ∧ ∀ c ∈ r, Apart b.addr c.addr := by
  obtain ⟨hl, hr⟩ := h.tiles.apart_middle
  constructor
  · intro c hc
    have hle := hl c hc
    exact Or.inr (by omega)
  · intro c hc
    have hle := hr c hc
    exact Or.inl (by omega)

theorem word_middle {r' : List Block} {s : Nat} {f : Bool}
    (h : ∀ y ∈ l ++ b :: r', y.addr % 4 = 0) : ∀ y ∈ l ++ ⟨b.addr, s, f⟩ :: r', y.addr % 4 = 0 := by
  intro y hy
  rcases List.mem_append.mp hy with hyl | hyr
  · exact h y (by simp [hyl])
  · rcases List.mem_cons.mp hyr with rfl | hyr'
    · exact h b (by simp)
    · exact h y (by simp [hyr'])

theorem Rep.mark (h : Rep m a e (l ++ b :: r)) (f : Bool) :
    Rep (setIsFree m b.addr f.toNat) a e (l ++ ⟨b.addr, b.size, f⟩ :: r) := by
  obtain ⟨hl, hb, hr⟩ := h.middle
  obtain ⟨hbefore, hafter⟩ := h.apart
  refine ⟨h.tiles.replace rfl fun hr => hr, links_append.mpr ⟨?_, ?_, ?_⟩, h.pos, h.lt, h.bound,
    word_middle h.word⟩
  · exact hl.congr fun c hc => readBlock_setIsFree_of_ne (hbefore c hc)
  · rw [readBlock_setIsFree, hb]
    cases f <;> rfl
  · exact hr.congr fun c hc => readBlock_setIsFree_of_ne (hafter c hc)

theorem Rep.split (h : Rep m a e (l ++ b :: r)) (hn : n + 36 ≤ b.size) (h8 : n % 8 = 0) :
    Rep (setIsFree (splitBlock m b.addr n) b.addr 0) a e
      (l ++ ⟨b.addr, n, false⟩ :: ⟨b.addr + 20 + n, b.size - n - 20, true⟩ :: r) := by
  obtain ⟨hl, hb, hr⟩ := h.middle
  obtain ⟨hbefore, hafter⟩ := h.apart
  obtain ⟨hleft, hright⟩ := h.tiles.apart_middle
  have hbound := h.tiles.bounds (mem_middle l b r)
  have hend := h.bound
  have hnew : u32 (b.addr + 20 + n) = b.addr + 20 + n := u32_of_lt (by omega)
  have hnb : Apart (b.addr + 20 + n) b.addr := Or.inr (by omega)
  have hsize : sub32 (sub32 b.size n) 20 = b.size - n - 20 := by
    have hrest : sub32 b.size n = b.size - n := sub32_of_le (by omega) (by omega)
    rw [hrest, sub32_of_le (by omega) (by omega)]
  have hnl : ∀ c ∈ l, Apart (b.addr + 20 + n) c.addr := by
    intro c hc
    have hle := hleft c hc
    exact Or.inr (by omega)
  have hnr : ∀ c ∈ r, Apart (b.addr + 20 + n) c.addr := by
    intro c hc
    have hle := hright c hc
    exact Or.inl (by omega)
  rw [splitBlock_eq hb hnew hnb]
  dsimp only
  rw [hsize]
  generalize hw : writeBlock m (b.addr + 20 + n)
    ⟨heapMagic, b.size - n - 20, 1, firstAddr r 0, b.addr⟩ = w
  have hother : ∀ {d : Nat}, Apart (b.addr + 20 + n) d → readBlock w d = readBlock m d := by
    intro d hd
    rw [← hw]
    exact readBlock_writeBlock_of_ne hd
  -- The header of `b` is written last.
  have hlast : ∀ {w' : Buf} {d : Nat}, Apart b.addr d →
      readBlock (setIsFree (setSize (setNext w' b.addr (b.addr + 20 + n)) b.addr n) b.addr 0) d =
        readBlock w' d := by
    intro w' d hd
    rw [readBlock_setIsFree_of_ne hd, readBlock_setSize_of_ne hd, readBlock_setNext_of_ne hd]
  have hword : ∀ y ∈ l ++ b :: ⟨b.addr + 20 + n, b.size - n - 20, true⟩ :: r, y.addr % 4 = 0 := by
    intro y hy
    by_cases hold : y ∈ l ++ b :: r
    · exact h.word y hold
    · have hy' : y = ⟨b.addr + 20 + n, b.size - n - 20, true⟩ := by
        simp only [List.mem_append, List.mem_cons, not_or] at hy hold
        rcases hy with hyl | rfl | rfl | hyr
        · exact absurd hyl hold.1
        · exact absurd rfl hold.2.1
        · rfl
        · exact absurd hyr hold.2.2
      have hb4 := h.word b (mem_middle l b r)
      rw [hy']
      dsimp only
      omega
  refine ⟨h.tiles.split (by omega) false true, links_append.mpr ⟨?_, ?_, ?_, ?_⟩, h.pos, h.lt,
    h.bound, word_middle hword⟩
  · refine hl.congr fun c hc => ?_
    have hrc : ∀ d ∈ r, Apart d.addr c.addr := by
      intro d hd
      have hle := hleft c hc
      have hle' := hright d hd
      exact Or.inr (by omega)
    rw [hlast (hbefore c hc), readBlock_relink hrc, hother (hnl c hc)]
  · have hrb : ∀ d ∈ r, Apart d.addr b.addr := fun d hd => (hafter d hd).symm
    dsimp only
    rw [readBlock_setIsFree, readBlock_setSize, readBlock_setNext, readBlock_relink hrb,
      hother hnb, hb, hnew, u32_of_lt (show n < 4294967296 by omega)]
    rfl
  · have hrn : ∀ d ∈ r, Apart d.addr (b.addr + 20 + n) := fun d hd => (hnr d hd).symm
    dsimp only
    rw [hlast hnb.symm, readBlock_relink hrn, ← hw, readBlock_writeBlock]
    have hnext : firstAddr r 0 < 4294967296 := by
      cases r with
      | nil => decide
      | cons c r =>
        have hc := h.tiles.bounds (b := c) (by simp)
        exact Nat.lt_of_lt_of_le (show c.addr < e by omega) hend
    dsimp only
    rw [u32_of_lt (show b.size - n - 20 < 4294967296 by omega), u32_of_lt hnext,
      u32_of_lt (show b.addr < 4294967296 by omega)]
    rfl
  · have hlinks : Links w b.addr r 0 := hr.congr fun c hc => hother (hnr c hc)
    have hpos : ∀ c ∈ r, c.addr ≠ 0 := fun c hc => h.addr_pos (by simp [hc])
    have hpair : r.Pairwise fun c d => Apart c.addr d.addr := h.tiles.middle.2.pairwise
    refine (hlinks.relink hpos hpair (show b.addr + 20 + n < 4294967296 by omega)).congr
      fun c hc => hlast (hafter c hc)

/-! ### Joins -/

/-- The block at `x` grows to `size` bytes, and `next` comes after it. -/
def joinBlocks (m : Buf) (x size next : Nat) : Buf :=
  if next ≠ 0 then setPrev (setNext (setSize m x size) x next) next x
  else setNext (setSize m x size) x next

theorem Rep.joined (h : Rep m a e (l ++ b :: c :: r)) :
    Rep (joinBlocks m b.addr (b.size + 20 + c.size) (firstAddr r 0)) a e
      (l ++ ⟨b.addr, b.size + 20 + c.size, b.free⟩ :: r) := by
  obtain ⟨hl, hb, _, hr⟩ := h.middle
  obtain ⟨hbefore, hafter⟩ := h.apart
  obtain ⟨hleft, hright⟩ := h.tiles.apart_middle
  have htiles := h.tiles.join b.free
  have hbound := htiles.bounds (mem_middle _ _ _)
  have hend := h.bound
  dsimp only at hbound
  have hnext : firstAddr r 0 < 4294967296 := by
    cases r with
    | nil => decide
    | cons d r =>
      have hd := h.tiles.bounds (b := d) (by simp)
      exact Nat.lt_of_lt_of_le (show d.addr < e by omega) hend
  have hrb : ∀ d ∈ r, Apart b.addr d.addr := fun d hd => hafter d (by simp [hd])
  have hother : ∀ {d v w : Nat}, Apart b.addr d →
      readBlock (setNext (setSize m b.addr v) b.addr w) d = readBlock m d := by
    intro d v w hd
    rw [readBlock_setNext_of_ne hd, readBlock_setSize_of_ne hd]
  unfold joinBlocks
  have hword : ∀ y ∈ l ++ b :: r, y.addr % 4 = 0 := by
    intro y hy
    refine h.word y ?_
    rcases List.mem_append.mp hy with hyl | hyr
    · simp [hyl]
    · rcases List.mem_cons.mp hyr with rfl | hyr'
      · simp
      · simp [hyr']
  refine ⟨htiles, links_append.mpr ⟨?_, ?_, ?_⟩, h.pos, h.lt, h.bound, word_middle hword⟩
  · refine hl.congr fun d hd => ?_
    have hrd : ∀ y ∈ r, Apart y.addr d.addr := by
      intro y hy
      have hle := hleft d hd
      have hle' := hright y (by simp [hy])
      exact Or.inr (by omega)
    rw [readBlock_relink hrd, hother (hbefore d hd)]
  · have hrb' : ∀ d ∈ r, Apart d.addr b.addr := fun d hd => (hrb d hd).symm
    dsimp only
    rw [readBlock_relink hrb', readBlock_setNext, readBlock_setSize, hb, u32_of_lt hnext,
      u32_of_lt (show b.size + 20 + c.size < 4294967296 by omega)]
  · have hlinks : Links (setNext (setSize m b.addr (b.size + 20 + c.size)) b.addr (firstAddr r 0))
        c.addr r 0 := hr.congr fun d hd => hother (hrb d hd)
    have hpos : ∀ d ∈ r, d.addr ≠ 0 := fun d hd => h.addr_pos (by simp [hd])
    have hpair : r.Pairwise fun x y => Apart x.addr y.addr := h.tiles.middle.2.2.pairwise
    exact hlinks.relink hpos hpair (show b.addr < 4294967296 by omega)

theorem Rep.neighbours (h : Rep m a e (l ++ b :: c :: r)) :
    readBlock m b.addr = ⟨heapMagic, b.size, b.free.toNat, c.addr, lastAddr 0 l⟩ ∧
      readBlock m c.addr = ⟨heapMagic, c.size, c.free.toNat, firstAddr r 0, b.addr⟩ ∧
      b.addr ≠ 0 ∧ c.addr ≠ 0 ∧ Apart b.addr c.addr ∧ firstAddr r 0 < 4294967296 ∧
      b.addr < 4294967296 ∧ b.size + 20 + c.size < 4294967296 := by
  obtain ⟨_, hb, hc, _⟩ := h.middle
  have hbound := (h.tiles.join true).bounds (mem_middle _ _ _)
  have hend := h.bound
  dsimp only at hbound
  refine ⟨hb, hc, h.addr_pos (by simp), h.addr_pos (by simp), h.apart.2 c (by simp), ?_, by omega,
    by omega⟩
  cases r with
  | nil => decide
  | cons d r =>
    have hd := h.tiles.bounds (b := d) (by simp)
    exact Nat.lt_of_lt_of_le (show d.addr < e by omega) hend

theorem Rep.coalesceNext_eq (h : Rep m a e (l ++ b :: c :: r)) (hc : c.free = true) :
    coalesceNext m b.addr = joinBlocks m b.addr (b.size + 20 + c.size) (firstAddr r 0) := by
  obtain ⟨hb, hread, _, hc0, hapart, hnext, _, hsize⟩ := h.neighbours
  have hsum : u32 (b.size + (20 + c.size)) = b.size + 20 + c.size := by
    rw [u32_of_lt (by omega)]
    omega
  have hone : Bool.toNat true ≠ 0 := by decide
  unfold coalesceNext
  rw [hb]
  dsimp only
  rw [hread, hc, if_pos ⟨hc0, hone⟩]
  dsimp only
  simp only [readBlock_setSize, readBlock_setNext, readBlock_setSize_of_ne hapart, hb, hread, hsum,
    u32_of_lt hnext]
  rfl

theorem Rep.coalescePrev_eq (h : Rep m a e (l ++ b :: c :: r)) (hb' : b.free = true) :
    coalescePrev m c.addr = joinBlocks m b.addr (b.size + 20 + c.size) (firstAddr r 0) := by
  obtain ⟨hread, hc, hb0, _, hapart, hnext, _, hsize⟩ := h.neighbours
  have hsum : u32 (b.size + (20 + c.size)) = b.size + 20 + c.size := by
    rw [u32_of_lt (by omega)]
    omega
  have hone : Bool.toNat true ≠ 0 := by decide
  unfold coalescePrev
  rw [hc]
  dsimp only
  rw [hread, hb', if_pos ⟨hb0, hone⟩]
  dsimp only
  simp only [readBlock_setNext_of_ne hapart, readBlock_setSize_of_ne hapart, hc, hsum]
  rfl

theorem joinBlocks_of_outside {x size : Nat} (h : Outside (b :: r) x) :
    joinBlocks m b.addr size (firstAddr r 0) x = m x := by
  have hb := h b List.mem_cons_self
  have hr : Outside r x := fun d hd => h d (List.mem_cons_of_mem b hd)
  unfold joinBlocks
  rw [relink_of_outside hr, setNext, setSize, put32_of_ne (by omega), put32_of_ne (by omega)]

/-! ### kfree -/

/-- A free block takes the place of `b` and of the free block after it, if there is one. -/
theorem Rep.coalesceNext (h : Rep m a e (l ++ b :: r)) (hb : b.free = true) (hr : Coalesced r) :
    ∃ d r', Rep (coalesceNext m b.addr) a e (l ++ d :: r') ∧ d.addr = b.addr ∧ d.free = true ∧
      Coalesced r' ∧ (∀ y ∈ r'.head?, y.free = false) ∧ (∀ y ∈ r', y ∈ r) ∧
      (∀ y, y.free = false → y ∈ r → y ∈ r') ∧
      ∀ x, Outside (b :: r) x → Gemios.coalesceNext m b.addr x = m x := by
  cases r with
  | nil =>
    obtain ⟨_, hread, _⟩ := h.middle
    have hsame : Gemios.coalesceNext m b.addr = m := by
      unfold Gemios.coalesceNext
      rw [hread]
      exact if_neg fun hno => hno.1 rfl
    rw [hsame]
    refine ⟨b, [], h, rfl, hb, hr, fun y hy => ?_, fun y hy => hy, fun y _ hy => hy,
      fun _ _ => rfl⟩
    cases hy
  | cons c r =>
    obtain ⟨hhead, hchain⟩ := List.isChain_cons.mp hr
    cases hc : c.free with
    | true =>
      rw [h.coalesceNext_eq hc]
      refine ⟨_, r, h.joined, rfl, hb, hchain, fun y hy => ?_, fun y hy => by simp [hy],
        fun y hy hmem => ?_, fun x hx => ?_⟩
      · have hno := hhead y hy
        simpa [hc] using hno
      · rcases List.mem_cons.mp hmem with rfl | hmem'
        · rw [hc] at hy
          cases hy
        · exact hmem'
      · refine joinBlocks_of_outside fun d hd => hx d ?_
        rcases List.mem_cons.mp hd with rfl | hd'
        · exact List.mem_cons_self
        · simp [hd']
    | false =>
      obtain ⟨hread, hnext, _⟩ := h.neighbours
      have hsame : Gemios.coalesceNext m b.addr = m := by
        unfold Gemios.coalesceNext
        rw [hread]
        dsimp only
        rw [hnext, hc]
        exact if_neg fun hno => hno.2 rfl
      rw [hsame]
      refine ⟨b, c :: r, h, rfl, hb, hr, fun y hy => ?_, fun y hy => hy, fun y _ hy => hy,
        fun _ _ => rfl⟩
      cases hy
      exact hc

theorem Rep.coalescePrev (h : Rep m a e (l ++ b :: r)) (hb : b.free = true) (hl : Coalesced l)
    (hr : Coalesced r) (hhead : ∀ y ∈ r.head?, y.free = false) :
    ∃ bs', Rep (coalescePrev m b.addr) a e bs' ∧ Coalesced bs' ∧
      (∀ y, y.free = false → (y ∈ bs' ↔ y ∈ l ∨ y ∈ r)) ∧
      ∀ x, Outside (l ++ b :: r) x → Gemios.coalescePrev m b.addr x = m x := by
  have hheadb : ∀ {d : Block}, ∀ y ∈ r.head?, ¬ (d.free = true ∧ y.free = true) := by
    intro d y hy
    simp [hhead y hy]
  have hnotb : ∀ {d y : Block}, d.free = true → y.free = false → y ≠ d := by
    rintro d y hd hy rfl
    rw [hd] at hy
    cases hy
  rcases List.eq_nil_or_concat l with rfl | ⟨l', p, hconcat⟩
  · obtain ⟨_, hread, _⟩ := h.middle
    have hsame : Gemios.coalescePrev m b.addr = m := by
      unfold Gemios.coalescePrev
      rw [hread]
      exact if_neg fun hno => hno.1 rfl
    rw [hsame]
    refine ⟨_, h, coalesced_middle hl hr (fun x hx => by cases hx) hheadb, fun y hy => ?_,
      fun _ _ => rfl⟩
    simp [hnotb hb hy]
  · rw [List.concat_eq_append] at hconcat
    subst hconcat
    rw [List.append_assoc] at h ⊢
    obtain ⟨hl', _, hlast, _⟩ := Coalesced.middle (r := []) hl
    cases hp : p.free with
    | true =>
      rw [h.coalescePrev_eq hp]
      refine ⟨_, h.joined, coalesced_middle hl' hr (fun x hx => ?_) hheadb, fun y hy => ?_,
        fun x hx => joinBlocks_of_outside fun d hd => hx d ?_⟩
      · have hno := hlast x hx
        simpa [hp] using hno
      · have h1 := hnotb hp hy
        have h2 : y ≠ ⟨p.addr, p.size + 20 + b.size, p.free⟩ := hnotb hp hy
        simp [h1, h2]
      · rcases List.mem_cons.mp hd with rfl | hd'
        · simp
        · simp [hd']
    | false =>
      obtain ⟨hread, hnext, _⟩ := h.neighbours
      have hsame : Gemios.coalescePrev m b.addr = m := by
        unfold Gemios.coalescePrev
        rw [hnext]
        dsimp only
        rw [hread, hp]
        exact if_neg fun hno => hno.2 rfl
      rw [hsame]
      refine ⟨_, h, ?_, fun y hy => ?_, fun _ _ => rfl⟩
      · have hmid : Coalesced (l' ++ [p] ++ b :: r) := by
          refine coalesced_middle hl hr (fun x hx => ?_) hheadb
          rw [List.getLast?_concat] at hx
          cases hx
          simp [hp]
        rw [List.append_assoc] at hmid
        exact hmid
      · simp [hnotb hb hy, or_assoc]

/-- The payloads of the used blocks are kept. -/
def Keeps (bs : List Block) (m m' : Buf) : Prop :=
  ∀ d ∈ bs, d.free = false → ∀ x, d.addr + 20 ≤ x → x < d.addr + 20 + d.size → m' x = m x

structure Freed (m m' : Buf) (a e : Nat) (bs : List Block) (b : Block) (bs' : List Block) :
    Prop where
  rep : Rep m' a e bs'
  coalesced : Coalesced bs'
  used : ∀ y, y.free = false → (y ∈ bs' ↔ y ∈ bs ∧ y.addr ≠ b.addr)
  keeps : Keeps bs m m'

theorem Rep.freeBlock (h : Rep m a e bs) (hco : Coalesced bs) (hb : b ∈ bs) :
    ∃ bs', Freed m (freeBlock m b.addr) a e bs b bs' := by
  obtain ⟨l, r, rfl⟩ := List.append_of_mem hb
  obtain ⟨hl, hr, _, _⟩ := hco.middle
  obtain ⟨hleft, hright⟩ := h.tiles.apart_middle
  have hmark := h.mark true
  obtain ⟨d, r', hnext, haddr, hfree, hr', hhead, hsub, hsup, hout⟩ := hmark.coalesceNext rfl hr
  obtain ⟨bs', hrep, hco', hused, hout'⟩ := hnext.coalescePrev hfree hl hr' hhead
  rw [haddr] at hrep hout'
  refine ⟨bs', hrep, hco', fun y hy => ?_, fun x hx hxf y hxy hyx => ?_⟩
  · have hmem : y ∈ r' ↔ y ∈ r := ⟨hsub y, hsup y hy⟩
    rw [hused y hy, hmem, List.mem_append, List.mem_cons]
    constructor
    · rintro (hyl | hyr)
      · have hle := hleft y hyl
        exact ⟨Or.inl hyl, by omega⟩
      · have hle := hright y hyr
        exact ⟨Or.inr (Or.inr hyr), by omega⟩
    · rintro ⟨hyl | rfl | hyr, hne⟩
      · exact Or.inl hyl
      · exact absurd rfl hne
      · exact Or.inr hyr
  · have houtside := h.tiles.outside hx hxy hyx
    have hb' := houtside b (mem_middle l b r)
    have hstep : Outside (⟨b.addr, b.size, true⟩ :: r) y := by
      intro c hc
      rcases List.mem_cons.mp hc with rfl | hc'
      · exact hb'
      · exact houtside c (by simp [hc'])
    have hstep' : Outside (l ++ d :: r') y := by
      intro c hc
      rcases List.mem_append.mp hc with hc' | hc'
      · exact houtside c (by simp [hc'])
      · rcases List.mem_cons.mp hc' with rfl | hc''
        · rw [haddr]
          exact hb'
        · exact houtside c (by simp [hsub c hc''])
    unfold Gemios.freeBlock
    refine (hout' y hstep').trans ((hout y hstep).trans ?_)
    exact put32_of_ne (by omega)

/-! ### kmalloc -/

/-- The block `c` of at least `n` bytes is taken, from the front of a free block. -/
structure Taken (m m' : Buf) (a e : Nat) (bs : List Block) (n : Nat) (c : Block)
    (bs' : List Block) : Prop where
  rep : Rep m' a e bs'
  coalesced : Coalesced bs'
  block : c.free = false
  size : n ≤ c.size
  free : ∃ b ∈ bs, b.free = true ∧ b.addr = c.addr ∧ c.size ≤ b.size
  used : ∀ y, y.free = false → (y ∈ bs' ↔ y ∈ bs ∨ y = c)
  keeps : Keeps bs m m'

theorem Rep.split_of_outside (h : Rep m a e (l ++ b :: r)) (hn : n + 36 ≤ b.size) {x : Nat}
    (hx : Outside (l ++ b :: r) x) (hb : x < b.addr ∨ b.addr + 20 + b.size ≤ x) :
    setIsFree (splitBlock m b.addr n) b.addr 0 x = m x := by
  obtain ⟨_, hread, _⟩ := h.middle
  have hbound := h.tiles.bounds (mem_middle l b r)
  have hend := h.bound
  have hnew : u32 (b.addr + 20 + n) = b.addr + 20 + n := u32_of_lt (by omega)
  have hr : Outside r x := fun c hc => hx c (by simp [hc])
  rw [splitBlock_eq hread hnew (Or.inr (by omega))]
  dsimp only
  rw [setIsFree, put32_of_ne (by omega), setSize, put32_of_ne (by omega), setNext,
    put32_of_ne (by omega), relink_of_outside hr, writeBlock_of_outside (by omega)]

theorem Rep.takeBlock (h : Rep m a e (l ++ b :: r)) (hco : Coalesced (l ++ b :: r))
    (hfree : b.free = true) (hn : n ≤ b.size) (h8 : n % 8 = 0) :
    ∃ c bs', c.addr = b.addr ∧ Taken m (takeBlock m b.addr n) a e (l ++ b :: r) n c bs' := by
  obtain ⟨hl, hr, _, hhead⟩ := hco.middle
  obtain ⟨_, hread, _⟩ := h.middle
  obtain ⟨hleft, hright⟩ := h.tiles.apart_middle
  have hbound := h.tiles.bounds (mem_middle l b r)
  have hpos := h.pos
  have hend := h.bound
  have hwrap : u32 (n + 36) = n + 36 := u32_of_lt (by omega)
  have hsize : (readBlock m b.addr).size = b.size := by
    rw [hread]
  have hnotb : ∀ {d y : Block}, d.free = true → y.free = false → y ≠ d := by
    rintro d y hd hy rfl
    rw [hd] at hy
    cases hy
  -- A used block is not `b`, so its payload is apart from all of `b`.
  have hkeep : ∀ {m' : Buf},
      (∀ x, Outside (l ++ b :: r) x → (x < b.addr ∨ b.addr + 20 + b.size ≤ x) → m' x = m x) →
      Keeps (l ++ b :: r) m m' := by
    intro m' hm d hd hdf x hx hx'
    refine hm x (h.tiles.outside hd hx hx') ?_
    rcases h.tiles.apart hd (mem_middle l b r) with heq | hlt | hlt
    · exact absurd heq (hnotb hfree hdf)
    · exact Or.inl (by omega)
    · exact Or.inr (by omega)
  unfold Gemios.takeBlock
  rw [hwrap, hsize]
  by_cases hsplit : n + 36 ≤ b.size
  · rw [if_pos hsplit]
    refine ⟨⟨b.addr, n, false⟩, _, rfl, h.split hsplit h8, ?_, rfl, Nat.le_refl n,
      ⟨b, mem_middle l b r, hfree, rfl, hn⟩, fun y hy => ?_,
      hkeep fun x hx hb => h.split_of_outside hsplit hx hb⟩
    · refine coalesced_used hl (List.isChain_cons.mpr ⟨fun y hy => ?_, hr⟩) rfl
      have hno := hhead y hy
      simpa [hfree] using hno
    · have h1 := hnotb hfree hy
      have h2 : y ≠ ⟨b.addr + 20 + n, b.size - n - 20, true⟩ := hnotb rfl hy
      simp [h1, h2, or_assoc, or_comm]
  · rw [if_neg hsplit]
    refine ⟨⟨b.addr, b.size, false⟩, _, rfl, h.mark false, coalesced_used hl hr rfl, rfl, hn,
      ⟨b, mem_middle l b r, hfree, rfl, Nat.le_refl _⟩, fun y hy => ?_,
      hkeep fun x hx _ => ?_⟩
    · have h1 := hnotb hfree hy
      simp [h1, or_assoc, or_comm]
    · have hb := hx b (mem_middle l b r)
      exact put32_of_ne (by omega)

theorem kmallocLoop_spec {prev fuel : Nat} (h : Links m prev bs 0) (hpos : ∀ b ∈ bs, b.addr ≠ 0)
    (hfuel : bs.length < fuel) :
    (∃ l b r, bs = l ++ b :: r ∧ b.free = true ∧ n ≤ b.size ∧
      kmallocLoop m n fuel (firstAddr bs 0) = some (u32 (b.addr + 20), takeBlock m b.addr n)) ∨
    ((∀ b ∈ bs, b.free = true → b.size < n) ∧
      kmallocLoop m n fuel (firstAddr bs 0) = some (0, m)) := by
  induction bs generalizing prev fuel with
  | nil =>
    cases fuel with
    | zero => cases hfuel
    | succ fuel =>
      refine Or.inr ⟨fun b hb => ?_, ?_⟩
      · cases hb
      · rw [kmallocLoop, firstAddr, if_pos rfl]
  | cons b bs ih =>
    cases fuel with
    | zero => cases hfuel
    | succ fuel =>
      have hb0 : b.addr ≠ 0 := hpos b List.mem_cons_self
      have hread := h.1
      have hturn : kmallocLoop m n (fuel + 1) (firstAddr (b :: bs) 0) =
          if b.free.toNat ≠ 0 ∧ n ≤ b.size then some (u32 (b.addr + 20), takeBlock m b.addr n)
          else kmallocLoop m n fuel (firstAddr bs 0) := by
        rw [kmallocLoop, firstAddr, if_neg hb0, hread]
        exact if_neg fun hno => hno rfl
      rw [hturn]
      by_cases hfits : b.free = true ∧ n ≤ b.size
      · have hcond : b.free.toNat ≠ 0 ∧ n ≤ b.size := by
          rw [hfits.1]
          exact ⟨by decide, hfits.2⟩
        rw [if_pos hcond]
        exact Or.inl ⟨[], b, bs, rfl, hfits.1, hfits.2, rfl⟩
      · have hcond : ¬ (b.free.toNat ≠ 0 ∧ n ≤ b.size) := by
          rintro ⟨hne, hle⟩
          cases hfree : b.free with
          | true => exact hfits ⟨hfree, hle⟩
          | false =>
            rw [hfree] at hne
            exact hne rfl
        rw [if_neg hcond]
        rcases ih h.2 (fun c hc => hpos c (List.mem_cons_of_mem b hc))
          (Nat.lt_of_succ_lt_succ hfuel) with ⟨l, c, r, rfl, hc⟩ | ⟨hnone, heq⟩
        · exact Or.inl ⟨b :: l, c, r, rfl, hc⟩
        · refine Or.inr ⟨fun c hc hcf => ?_, heq⟩
          rcases List.mem_cons.mp hc with rfl | hc'
          · exact Nat.lt_of_not_le fun hle => hfits ⟨hcf, hle⟩
          · exact hnone c hc' hcf

/-- **`kmalloc`** of a size whose rounding up does not wrap around. -/
theorem kmalloc_spec {k : Heap} (h : Rep k.mem a e bs) (hco : Coalesced bs) (hhead : k.blockHead = a)
    (hpos : 0 < n) (hle : n ≤ 4294967288) :
    (∃ m' c bs', kmalloc k n = some (c.addr + 20, { k with mem := m' }) ∧
      Taken k.mem m' a e bs (alignUp n 8) c bs') ∨
    (kmalloc k n = some (0, k) ∧ ∀ b ∈ bs, b.free = true → b.size < alignUp n 8) := by
  have hround : n + 2 ^ 3 - 1 < 4294967296 := by omega
  have hge : n ≤ alignUp n 8 := le_alignUp (k := 3) (by decide) hround
  have hdvd : 8 ∣ alignUp n 8 := alignUp_dvd (k := 3) (by decide) hround
  have hlen := h.tiles.length
  have hend := h.bound
  have hfuel : bs.length < 4294967296 := by omega
  have hstart : k.blockHead = firstAddr bs 0 := hhead.trans h.first.symm
  unfold kmalloc
  rw [if_neg (Nat.ne_of_gt hpos)]
  rcases kmallocLoop_spec (n := alignUp n 8) h.links (fun b hb => h.addr_pos hb) hfuel with
    ⟨l, b, r, rfl, hfree, hsize, hloop⟩ | ⟨hnone, hloop⟩
  · obtain ⟨c, bs', haddr, htaken⟩ := h.takeBlock hco hfree hsize (Nat.mod_eq_zero_of_dvd hdvd)
    have hbound := h.tiles.bounds (mem_middle l b r)
    refine Or.inl ⟨_, c, bs', ?_, htaken⟩
    rw [hstart, hloop, haddr, Option.map_some, u32_of_lt (by omega), ← hstart]
  · refine Or.inr ⟨?_, hnone⟩
    rw [hstart, hloop, Option.map_some, ← hstart]

end

end Gemios
