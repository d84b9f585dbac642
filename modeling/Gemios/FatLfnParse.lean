import Gemios.FatDirFormat

/-!
# The long-name parser over any slots

What the parser of a directory walk holds after an arbitrary sequence of slots.  It reports
a name exactly when the slots end in a numbered run of long-name slots, with nothing behind
it but volume labels of the same checksum.  The walk feeds these to the parser but does not
reset it there, so a run in front of a label is taken for the long name of the next entry.
-/

namespace Gemios

/-- A slot as a walk meets it, with its sector and its number there. -/
structure SeenSlot where
  entry : Slot
  sec : Nat
  slot : Nat

/-- The number of a long-name slot and the mark of the last one: the other two bits of the
    order byte are not used. -/
def Slot.lfnOrder (e : Slot) : UInt8 := e 0 &&& 0x5F

/-- A long-name slot with a given order and checksum. -/
structure Slot.IsPiece (e : Slot) (order chk : UInt8) : Prop where
  notDeleted : e.isDeleted = false
  lfn : e.isLfn = true
  order : e.lfnOrder = order
  chk : e 13 = chk

/-- Slots with the numbers from `m + n` down to `m + 1`. -/
def PieceTail (chk : UInt8) (m : Nat) : List SeenSlot → Prop
  | [] => True
  | x :: xs => x.entry.IsPiece (UInt8.ofNat (m + xs.length + 1)) chk ∧ PieceTail chk m xs

/-- Such slots from the last number of a name on, which is marked. -/
def PieceRun (chk : UInt8) (m : Nat) : List SeenSlot → Prop
  | [] => False
  | x :: xs => m + xs.length < 20 ∧
      x.entry.IsPiece (0x40 ||| UInt8.ofNat (m + xs.length + 1)) chk ∧ PieceTail chk m xs

/-! ### The text of a run -/

/-- Where the 13 characters of a long-name slot stand. -/
def lfnOffsets : List Nat := [1, 3, 5, 7, 9, 14, 16, 18, 20, 22, 24, 28, 30]

/-- The byte a stored unit stands for; the terminator and the padding end the text. -/
def lfnChar (u : Nat) : UInt8 := if u = 0x0000 ∨ u = 0xFFFF then 0 else UInt8.ofNat u

/-- Character `j` of a slot. -/
def pieceChar (e : Slot) (j : Nat) : UInt8 := lfnChar (le16 e (lfnOffsets.getD j 0))

def piece (e : Slot) : List UInt8 := (List.range' 0 13).map (pieceChar e)

/-- The characters of a run, in the order of the name. -/
def runChars (xs : List SeenSlot) : List UInt8 := xs.reverse.flatMap fun x => piece x.entry

def lfnText (xs : List SeenSlot) : List UInt8 := cstr (runChars xs)

theorem length_runChars (xs : List SeenSlot) : (runChars xs).length = 13 * xs.length := by
  induction xs with
  | nil => rfl
  | cons x xs ih =>
    rw [runChars, List.reverse_cons, List.flatMap_append, List.length_append, ← runChars, ih,
      List.length_cons]
    rfl

theorem getD_runChars (us vs : List SeenSlot) (x : SeenSlot) {j : Nat} (hj : j < 13) :
    (runChars (us ++ x :: vs)).getD (13 * vs.length + j) 0 = pieceChar x.entry j := by
  have hsplit : runChars (us ++ x :: vs) = runChars vs ++ (piece x.entry ++ runChars us) := by
    rw [runChars, List.reverse_append, List.reverse_cons, List.flatMap_append, List.flatMap_append,
      List.append_assoc, ← runChars, ← runChars, List.flatMap_singleton]
  have hlen := length_runChars vs
  have hpiece : (piece x.entry).length = 13 := rfl
  rw [hsplit, List.getD_append_right _ _ _ _ (by omega), hlen, Nat.add_sub_cancel_left,
    List.getD_append _ _ _ _ (by omega), List.getD_eq_getElem _ _ (by omega)]
  simp [piece]

/-- Bytes `13 k` to `13 k + 12` of the parser's buffer hold the characters of a slot, up to
    the one that ends the text. -/
def Spells (b : Buf) (k : Nat) (e : Slot) : Prop :=
  ∀ j, j < 13 → (∀ i, i < j → pieceChar e i ≠ 0) → b (13 * k + j) = pieceChar e j

theorem Spells.congr {b b' : Buf} {k : Nat} {e : Slot} (h : Spells b k e)
    (heq : ∀ i, 13 * k ≤ i → i < 13 * k + 13 → b' i = b i) : Spells b' k e := by
  intro j hj hpre
  rw [heq _ (by omega) (by omega)]
  exact h j hj hpre

/-! ### Storing the characters of a slot -/

theorem decodeLfnChars_spec (src : Slot) : ∀ (count off pos : Nat) (dst : Buf),
    (∀ i, i < pos ∨ pos + count ≤ i → decodeLfnChars src off count dst pos i = dst i) ∧
    (∀ j, j < count → (∀ i, i < j → lfnChar (le16 src (off + 2 * i)) ≠ 0) →
      decodeLfnChars src off count dst pos (pos + j) = lfnChar (le16 src (off + 2 * j))) := by
  intro count
  induction count with
  | zero =>
    intro off pos dst
    exact ⟨fun _ _ => rfl, fun j hj => absurd hj (Nat.not_lt_zero j)⟩
  | succ count ih =>
    intro off pos dst
    rw [decodeLfnChars]
    by_cases hend : le16 src off = 0x0000 ∨ le16 src off = 0xFFFF
    · have hchar : lfnChar (le16 src off) = 0 := if_pos hend
      rw [if_pos hend]
      constructor
      · intro i hi
        rw [if_neg (by omega)]
      · intro j _ hpre
        cases j with
        | zero =>
          rw [if_pos (by omega)]
          exact hchar.symm
        | succ j => exact absurd hchar (hpre 0 (by omega))
    · rw [if_neg hend]
      obtain ⟨hout, hin⟩ := ih (off + 2) (pos + 1)
        (fun i => if i = pos then UInt8.ofNat (le16 src off) else dst i)
      constructor
      · intro i hi
        rw [hout i (by omega)]
        rw [if_neg (by omega)]
      · intro j hj hpre
        cases j with
        | zero =>
          rw [hout (pos + 0) (by omega)]
          rw [if_pos (by omega)]
          exact (if_neg hend).symm
        | succ j =>
          have hrest := hin j (by omega) fun i hi => by
            rw [Nat.add_assoc, Nat.add_comm 2, ← Nat.mul_succ]
            exact hpre (i + 1) (by omega)
          rw [show pos + (j + 1) = pos + 1 + j by omega, hrest]
          congr 2
          omega

/-- `storeChars` puts the characters of slot `k + 1` in their place; slot 20 is left out. -/
theorem storeChars_spec (p : LfnParser) (e : Slot) {k : Nat} (hk : k < 20) :
    ∃ b, p.storeChars e (k + 1) = { p with lfnName := b } ∧ (k < 19 → Spells b k e) ∧
      ∀ i, (i < 13 * k ∨ 13 * k + 13 ≤ i ∨ 247 ≤ i) → b i = p.lfnName i := by
  unfold LfnParser.storeChars
  rw [Nat.add_sub_cancel]
  dsimp only
  split
  · next hfit =>
    obtain ⟨hout1, hin1⟩ := decodeLfnChars_spec e 5 1 (k * 13) p.lfnName
    obtain ⟨hout2, hin2⟩ := decodeLfnChars_spec e 6 14 (k * 13 + 5)
      (decodeLfnChars e 1 5 p.lfnName (k * 13))
    obtain ⟨hout3, hin3⟩ := decodeLfnChars_spec e 2 28 (k * 13 + 11)
      (decodeLfnChars e 14 6 (decodeLfnChars e 1 5 p.lfnName (k * 13)) (k * 13 + 5))
    refine ⟨_, rfl, ?_, ?_⟩
    · intro _ j hj hpre
      -- the three fields hold characters 0 to 4, 5 to 10, 11 and 12
      have hfield : ∀ (off first n : Nat),
          (∀ i, i < n → lfnOffsets.getD (first + i) 0 = off + 2 * i) → first ≤ j → j < first + n →
          (∀ i, i < j - first → lfnChar (le16 e (off + 2 * i)) ≠ 0) ∧
            lfnChar (le16 e (off + 2 * (j - first))) = pieceChar e j := by
        intro off first n hoff h1 h2
        constructor
        · intro i hi
          rw [← hoff i (by omega)]
          exact hpre (first + i) (by omega)
        · rw [← hoff (j - first) (by omega), pieceChar]
          congr 3
          omega
      by_cases h1 : j < 5
      · obtain ⟨hnz, hchar⟩ := hfield 1 0 5 (by decide) (by omega) (by omega)
        rw [hout3 _ (by omega), hout2 _ (by omega), ← hchar, ← hin1 (j - 0) (by omega) hnz]
        congr 1
        omega
      · by_cases h2 : j < 11
        · obtain ⟨hnz, hchar⟩ := hfield 14 5 6 (by decide) (by omega) (by omega)
          rw [hout3 _ (by omega), ← hchar, ← hin2 (j - 5) (by omega) hnz]
          congr 1
          omega
        · obtain ⟨hnz, hchar⟩ := hfield 28 11 2 (by decide) (by omega) (by omega)
          rw [← hchar, ← hin3 (j - 11) (by omega) hnz]
          congr 1
          omega
    · intro i hi
      rw [hout3 i (by omega), hout2 i (by omega), hout1 i (by omega)]
  · next hfit =>
    refine ⟨p.lfnName, rfl, ?_, fun _ _ => rfl⟩
    intro hlt
    omega

/-! ### Runs -/

theorem PieceTail.concat {chk : UInt8} {m : Nat} {x : SeenSlot}
    (hx : x.entry.IsPiece (UInt8.ofNat (m + 1)) chk) :
    ∀ {xs : List SeenSlot}, PieceTail chk (m + 1) xs → PieceTail chk m (xs ++ [x])
  | [], _ => ⟨hx, trivial⟩
  | y :: ys, h => by
    rw [List.cons_append]
    refine ⟨?_, PieceTail.concat hx h.2⟩
    have hnum : m + (ys ++ [x]).length + 1 = m + 1 + ys.length + 1 := by
      rw [List.length_append, List.length_singleton]
      omega
    rw [hnum]
    exact h.1

theorem PieceTail.of_concat {chk : UInt8} {m : Nat} {x : SeenSlot} :
    ∀ {xs : List SeenSlot}, PieceTail chk m (xs ++ [x]) →
      PieceTail chk (m + 1) xs ∧ x.entry.IsPiece (UInt8.ofNat (m + 1)) chk
  | [], h => ⟨trivial, h.1⟩
  | y :: ys, h => by
    rw [List.cons_append] at h
    obtain ⟨htail, hx⟩ := PieceTail.of_concat h.2
    have hy := h.1
    rw [List.length_append, List.length_singleton,
      show m + (ys.length + 1) + 1 = m + 1 + ys.length + 1 by omega] at hy
    exact ⟨⟨hy, htail⟩, hx⟩

theorem PieceRun.concat {chk : UInt8} {m : Nat} {xs : List SeenSlot} {x : SeenSlot}
    (h : PieceRun chk (m + 1) xs) (hx : x.entry.IsPiece (UInt8.ofNat (m + 1)) chk) :
    PieceRun chk m (xs ++ [x]) := by
  cases xs with
  | nil => exact h.elim
  | cons y ys =>
    obtain ⟨hlt, hy, htail⟩ := h
    have hnum : m + (ys ++ [x]).length = m + 1 + ys.length := by
      rw [List.length_append, List.length_singleton]
      omega
    rw [List.cons_append]
    refine ⟨?_, ?_, htail.concat hx⟩
    · rw [hnum]
      exact hlt
    · rw [hnum]
      exact hy

theorem PieceRun.of_concat {chk : UInt8} {m : Nat} {xs : List SeenSlot} {x : SeenSlot}
    (h : PieceRun chk m (xs ++ [x])) (hne : xs ≠ []) :
    PieceRun chk (m + 1) xs ∧ x.entry.IsPiece (UInt8.ofNat (m + 1)) chk := by
  cases xs with
  | nil => exact absurd rfl hne
  | cons y ys =>
    rw [List.cons_append] at h
    obtain ⟨hlt, hy, htail⟩ := h
    have hnum : m + (ys ++ [x]).length = m + 1 + ys.length := by
      rw [List.length_append, List.length_singleton]
      omega
    rw [hnum] at hlt hy
    exact ⟨⟨hlt, hy, htail.of_concat.1⟩, htail.of_concat.2⟩

theorem PieceRun.lt {chk : UInt8} {m : Nat} : ∀ {xs : List SeenSlot}, PieceRun chk m xs →
    m + xs.length < 21
  | _ :: xs, h => by
    have := h.1
    rw [List.length_cons]
    omega

/-! ### The number of a slot -/

theorem Slot.lfnOrder_eq (e : Slot) :
    e.lfnOrder = (if e 0 &&& 0x40 ≠ 0 then 0x40 ||| UInt8.ofNat ((e 0).toNat % 32)
      else UInt8.ofNat ((e 0).toNat % 32)) ∧
    e.lfnOrder.toNat % 32 = (e 0).toNat % 32 ∧ e.lfnOrder &&& 0x40 = e 0 &&& 0x40 := by
  have hall : ∀ b : UInt8,
      b &&& 0x5F = (if b &&& 0x40 ≠ 0 then 0x40 ||| UInt8.ofNat (b.toNat % 32)
        else UInt8.ofNat (b.toNat % 32)) ∧
      (b &&& 0x5F).toNat % 32 = b.toNat % 32 ∧ (b &&& 0x5F) &&& 0x40 = b &&& 0x40 :=
    forall_byte (by decide +kernel)
  exact hall (e 0)

theorem Slot.IsPiece.number {e : Slot} {k : Nat} {chk : UInt8} (hk : k < 20) :
    (e.IsPiece (0x40 ||| UInt8.ofNat (k + 1)) chk →
      (e 0).toNat % 32 = k + 1 ∧ e 0 &&& 0x40 ≠ 0) ∧
    (e.IsPiece (UInt8.ofNat (k + 1)) chk → (e 0).toNat % 32 = k + 1 ∧ e 0 &&& 0x40 = 0) := by
  obtain ⟨⟨_, _, hmod, hmask⟩, _, _, hmod', hmask'⟩ := order_facts (k + 1) (by omega) (by omega)
  obtain ⟨_, hnum, hlast⟩ := e.lfnOrder_eq
  constructor
  · intro h
    rw [← hnum, ← hlast, h.order]
    exact ⟨hmod', hmask'⟩
  · intro h
    rw [← hnum, ← hlast, h.order]
    exact ⟨hmod, hmask⟩

theorem Slot.notEnd_of_number {e : Slot} (h : (e 0).toNat % 32 ≠ 0) : e.isEnd = false := by
  rw [Slot.isEnd, beq_eq_false_iff_ne]
  intro h0
  rw [h0] at h
  exact h rfl

/-! ### The parser on its way through a run -/

/-- The parser has read the slots `xs` of a name whose numbers `m` to 1 are still to come. -/
structure Reading (xs : List SeenSlot) (m : Nat) (p : LfnParser) : Prop where
  run : PieceRun p.checksum m xs
  hasLfn : p.hasLfn = true
  isValid : p.isValid = true
  expectedSeq : p.expectedSeq = m
  total : p.totalLfnEntries = m + xs.length
  start : ∀ x ∈ xs.head?, p.startSec = x.sec ∧ p.startSlot = x.slot
  text : ∀ us x vs, xs = us ++ x :: vs → m + vs.length < 19 →
    Spells p.lfnName (m + vs.length) x.entry
  rest : ∀ i, i < 13 * m ∨ 13 * (m + xs.length) ≤ i ∨ 247 ≤ i → p.lfnName i = 0

theorem Reading.named {xs : List SeenSlot} {m : Nat} {p : LfnParser} (h : Reading xs m p) :
    p.named = true := by
  rw [LfnParser.named, h.hasLfn, h.isValid]
  rfl

theorem reading_first {x : SeenSlot} {m : Nat} {chk : UInt8} (hm : m < 20)
    (hx : x.entry.IsPiece (0x40 ||| UInt8.ofNat (m + 1)) chk) (p : LfnParser) :
    Reading [x] m (lfnParserFeed p x.entry x.sec x.slot) ∧
      (lfnParserFeed p x.entry x.sec x.slot).checksum = chk := by
  obtain ⟨hnum, hmask⟩ := (Slot.IsPiece.number hm).1 hx
  have hend := Slot.notEnd_of_number (e := x.entry) (by omega)
  rw [lfnParserFeed, hend, hx.notDeleted, hx.lfn]
  simp only [Bool.or_self, Bool.false_eq_true, if_false, if_true, hnum, hx.chk]
  rw [if_neg (by omega), if_pos hmask]
  obtain ⟨b, hstore, hspells, hsame⟩ := storeChars_spec
    { lfnParserReset with
      expectedSeq := m + 1, checksum := chk, hasLfn := true, isValid := true
      startSec := x.sec, startSlot := x.slot, totalLfnEntries := m + 1 } x.entry hm
  rw [hstore]
  refine ⟨?_, rfl⟩
  constructor
  · exact ⟨hm, hx, trivial⟩
  · rfl
  · rfl
  · rfl
  · rfl
  · intro y hy
    obtain rfl : x = y := Option.some.inj hy
    exact ⟨rfl, rfl⟩
  · intro us y vs hsplit hlt
    cases us with
    | nil =>
      rw [List.nil_append, List.cons.injEq] at hsplit
      obtain ⟨rfl, rfl⟩ := hsplit
      exact hspells hlt
    | cons u us => simp at hsplit
  · intro i hi
    rw [List.length_singleton] at hi
    exact hsame i (by omega)

theorem reading_next {xs : List SeenSlot} {x : SeenSlot} {m : Nat} {p : LfnParser}
    (h : Reading xs (m + 1) p) (hx : x.entry.IsPiece (UInt8.ofNat (m + 1)) p.checksum) :
    Reading (xs ++ [x]) m (lfnParserFeed p x.entry x.sec x.slot) ∧
      (lfnParserFeed p x.entry x.sec x.slot).checksum = p.checksum := by
  have hlt := h.run.lt
  have hm : m < 20 := by omega
  obtain ⟨hnum, hmask⟩ := (Slot.IsPiece.number hm).2 hx
  have hend := Slot.notEnd_of_number (e := x.entry) (by omega)
  rw [lfnParserFeed, hend, hx.notDeleted, hx.lfn]
  simp only [Bool.or_self, Bool.false_eq_true, if_false, if_true, hnum, hx.chk, h.isValid,
    h.expectedSeq, bne_self_eq_false, Bool.not_true]
  rw [if_neg (by omega), if_neg (fun hne => hne hmask)]
  obtain ⟨b, hstore, hspells, hsame⟩ := storeChars_spec p x.entry hm
  rw [hstore]
  refine ⟨?_, rfl⟩
  constructor
  · exact h.run.concat hx
  · exact h.hasLfn
  · exact h.isValid
  · show p.expectedSeq - 1 = m
    rw [h.expectedSeq, Nat.add_sub_cancel]
  · show p.totalLfnEntries = m + (xs ++ [x]).length
    rw [h.total, List.length_append, List.length_singleton]
    omega
  · intro y hy
    cases xs with
    | nil => exact h.run.elim
    | cons z zs => exact h.start y hy
  · intro us y vs hsplit hfit
    rcases List.eq_nil_or_concat' vs with rfl | ⟨vs, v, rfl⟩
    · obtain ⟨rfl, hxy⟩ := List.append_inj' hsplit rfl
      obtain rfl : x = y := List.head_eq_of_cons_eq hxy
      exact hspells hfit
    · have hcut : us ++ y :: (vs ++ [v]) = (us ++ y :: vs) ++ [v] := by simp
      rw [hcut] at hsplit
      obtain ⟨rfl, _⟩ := List.append_inj' hsplit rfl
      rw [List.length_append, List.length_singleton] at hfit ⊢
      have hold := h.text us y vs rfl (by omega)
      rw [show m + 1 + vs.length = m + (vs.length + 1) by omega] at hold
      exact hold.congr fun i h1 _ => hsame i (by omega)
  · intro i hi
    rw [List.length_append, List.length_singleton] at hi
    show b i = 0
    rw [hsame i (by omega)]
    exact h.rest i (by omega)

/-! ### The text the parser holds -/

theorem Reading.byte {xs : List SeenSlot} {p : LfnParser} (h : Reading xs 0 p) {i : Nat}
    (hi : i < 247) (hpre : ∀ j, j < i → (runChars xs).getD j 0 ≠ 0) :
    p.lfnName i = (runChars xs).getD i 0 := by
  have hlen := length_runChars xs
  by_cases hin : i < 13 * xs.length
  · -- the slot with `i / 13` slots behind it
    obtain ⟨us, x, vs, hsplit, hvs⟩ : ∃ us x vs, xs = us ++ x :: vs ∧ vs.length = i / 13 := by
      refine ⟨xs.take (xs.length - 1 - i / 13), xs[xs.length - 1 - i / 13],
        xs.drop (xs.length - 1 - i / 13 + 1), ?_, ?_⟩
      · rw [List.getElem_cons_drop, List.take_append_drop]
      · rw [List.length_drop]
        omega
    have hchar : ∀ j, j < 13 → (runChars xs).getD (13 * vs.length + j) 0 = pieceChar x.entry j := by
      intro j hj
      rw [hsplit]
      exact getD_runChars us vs x hj
    have hspells := h.text us x vs hsplit (by omega) (i % 13) (by omega) fun j hj => by
      rw [← hchar j (by omega)]
      exact hpre _ (by omega)
    rw [← hchar _ (by omega), Nat.zero_add,
      show 13 * vs.length + i % 13 = i by omega] at hspells
    exact hspells
  · rw [h.rest i (by omega), List.getD_eq_default _ _ (by omega)]

theorem cstr_getD : ∀ l : List UInt8,
    (∀ i, i < (cstr l).length → l.getD i 0 = (cstr l).getD i 0 ∧ l.getD i 0 ≠ 0) ∧
      l.getD (cstr l).length 0 = 0
  | [] => ⟨fun _ hi => absurd hi (Nat.not_lt_zero _), rfl⟩
  | c :: l => by
    by_cases hc : c = 0
    · have hnil : cstr (c :: l) = [] := by
        rw [cstr, List.takeWhile_cons_of_neg (by simp [hc])]
      rw [hnil]
      exact ⟨fun _ hi => absurd hi (Nat.not_lt_zero _), hc⟩
    · have hcons : cstr (c :: l) = c :: cstr l := by
        rw [cstr, List.takeWhile_cons_of_pos (by simp [hc]), ← cstr]
      obtain ⟨hin, hout⟩ := cstr_getD l
      rw [hcons]
      refine ⟨fun i hi => ?_, hout⟩
      cases i with
      | zero => exact ⟨rfl, hc⟩
      | succ i => exact hin i (Nat.lt_of_succ_lt_succ hi)

theorem zero_notMem_cstr (l : List UInt8) : (0 : UInt8) ∉ cstr l := fun h => by
  have := List.mem_takeWhile_imp h
  exact absurd this (by decide)

theorem Reading.str {xs : List SeenSlot} {p : LfnParser} (h : Reading xs 0 p) :
    p.str = (lfnText xs).take 247 := by
  obtain ⟨hin, hout⟩ := cstr_getD (runChars xs)
  rw [← lfnText] at hin hout
  have hlen : ((lfnText xs).take 247).length = min 247 (lfnText xs).length := List.length_take
  refine cstr_range p.lfnName (l := (lfnText xs).take 247)
    (fun hmem => zero_notMem_cstr _ (List.mem_of_mem_take hmem)) 0 256 (by omega)
    (fun i hi => ?_) ?_
  · rw [hlen] at hi
    obtain ⟨hchar, _⟩ := hin i (by omega)
    rw [Nat.zero_add, h.byte (by omega) fun j hj => (hin j (by omega)).2, hchar,
      List.getD_eq_getElem _ _ (by omega), List.getD_eq_getElem _ _ (by omega), List.getElem_take]
  · rw [hlen, Nat.zero_add]
    by_cases hfit : (lfnText xs).length < 247
    · rw [Nat.min_eq_right (by omega), h.byte hfit fun j hj => (hin j hj).2, hout]
    · rw [Nat.min_eq_left (by omega)]
      exact h.rest 247 (by omega)

theorem Reading.feed {xs : List SeenSlot} {p : LfnParser} (h : Reading xs 0 p) {e : Slot}
    (hend : e.isEnd = false) (hdel : e.isDeleted = false) (hlfn : e.isLfn = false)
    (hchk : fatLfnChecksum e.name = p.checksum) (sec slot : Nat) :
    lfnParserFeed p e sec slot = p := by
  have hnul : (fun i => if i = 255 then (0 : UInt8) else p.lfnName i) = p.lfnName := by
    funext i
    split
    · next hi =>
      rw [h.rest i (by omega)]
    · rfl
  have hnamed : (p.hasLfn && p.isValid && p.expectedSeq == 0 &&
      p.checksum == fatLfnChecksum e.name) = true := by
    rw [h.hasLfn, h.isValid, h.expectedSeq, hchk]
    simp
  rw [lfnParserFeed, hend, hdel, hlfn]
  simp only [Bool.or_self, Bool.false_eq_true, if_false, hnamed, if_true, hnul]

theorem valid_feed {p : LfnParser} {e : Slot} (hend : e.isEnd = false) (hdel : e.isDeleted = false)
    (hlfn : e.isLfn = false) {sec slot : Nat}
    (hvalid : (lfnParserFeed p e sec slot).isValid = true) :
    p.isValid = true ∧ p.expectedSeq = 0 ∧ fatLfnChecksum e.name = p.checksum := by
  rw [lfnParserFeed, hend, hdel, hlfn] at hvalid
  simp only [Bool.or_self, Bool.false_eq_true, if_false] at hvalid
  split at hvalid
  · next h =>
    simp only [Bool.and_eq_true, beq_iff_eq] at h
    obtain ⟨⟨⟨_, hvalid⟩, hseq⟩, hchk⟩ := h
    exact ⟨hvalid, hseq, hchk.symm⟩
  · cases hvalid

/-! ### The walk -/

/-- What the lookup does with the parser at a slot it goes past. -/
def walkFeed (p : LfnParser) (x : SeenSlot) : LfnParser :=
  if x.entry.isDeleted then lfnParserReset
  else if x.entry.isLfn || x.entry.isVolumeId then lfnParserFeed p x.entry x.sec x.slot
  else lfnParserReset

theorem findBody_next {name : List UInt8} {x : SeenSlot} {p q : LfnParser}
    (h : findBody name x.sec x.slot x.entry p = .next q) :
    x.entry.isEnd = false ∧ q = walkFeed p x := by
  unfold findBody at h
  unfold walkFeed
  split at h
  · cases h
  · next hend =>
    refine ⟨Bool.eq_false_iff.mpr hend, ?_⟩
    split at h
    · next hdel =>
      cases h
      rw [if_pos hdel]
    · next hdel =>
      rw [if_neg hdel]
      dsimp only at h
      split at h
      · next hkind =>
        cases h
        rw [if_pos hkind]
      · next hkind =>
        rw [if_neg hkind]
        split at h
        · cases h
        · cases h
          rfl

theorem scan_findBody {name : List UInt8} : ∀ {L : List SeenSlot} {p q : LfnParser},
    scan (fun x => findBody name x.sec x.slot x.entry) L p = .next q →
      (∀ x ∈ L, x.entry.isEnd = false) ∧ q = L.foldl walkFeed p
  | [], _, _, h => by
    cases h
    exact ⟨fun _ hx => absurd hx List.not_mem_nil, rfl⟩
  | x :: L, p, q, h => by
    rw [scan_cons] at h
    cases hx : findBody name x.sec x.slot x.entry p with
    | next p' =>
      rw [hx] at h
      obtain ⟨hend, rfl⟩ := findBody_next hx
      obtain ⟨hrest, hq⟩ := scan_findBody h
      refine ⟨fun y hy => ?_, hq⟩
      rcases List.mem_cons.mp hy with rfl | hy
      · exact hend
      · exact hrest y hy
    | stop p' => rw [hx] at h; cases h
    | ret r => rw [hx] at h; cases h

/-- What the parser holds behind the slots `L`: when it reports a name, they end in a run,
    and once that is complete labels with its checksum may follow. -/
def Held (L : List SeenSlot) (p : LfnParser) : Prop :=
  p.isValid = true → ∃ pre xs labels m, L = pre ++ xs ++ labels ∧ Reading xs m p ∧
    (labels = [] ∨ m = 0) ∧
    ∀ l ∈ labels, l.entry.Label ∧ fatLfnChecksum l.entry.name = p.checksum

theorem Held.lfn {L : List SeenSlot} {p : LfnParser} (h : Held L p) {x : SeenSlot}
    (hend : x.entry.isEnd = false) (hdel : x.entry.isDeleted = false)
    (hlfn : x.entry.isLfn = true) : Held (L ++ [x]) (lfnParserFeed p x.entry x.sec x.slot) := by
  intro hvalid
  by_cases hseq : (x.entry 0).toNat % 32 = 0 ∨ (x.entry 0).toNat % 32 > 20
  · rw [lfnParserFeed, hend, hdel, hlfn] at hvalid
    simp only [Bool.or_self, Bool.false_eq_true, if_false, if_true, if_pos hseq] at hvalid
    cases hvalid
  · obtain ⟨m, hm⟩ : ∃ m, (x.entry 0).toNat % 32 = m + 1 :=
      ⟨(x.entry 0).toNat % 32 - 1, by omega⟩
    have horder := x.entry.lfnOrder_eq.1
    rw [hm] at horder hseq
    by_cases hmask : x.entry 0 &&& 0x40 ≠ 0
    · rw [if_pos hmask] at horder
      have hread := (reading_first (by omega) ⟨hdel, hlfn, horder, rfl⟩ p).1
      refine ⟨L, [x], [], m, (List.append_nil _).symm, hread, Or.inl rfl, ?_⟩
      exact fun l hl => absurd hl List.not_mem_nil
    · rw [if_neg hmask] at horder
      by_cases hnext : (!p.isValid || p.checksum != x.entry 13 || m + 1 != p.expectedSeq) = true
      · rw [lfnParserFeed, hend, hdel, hlfn] at hvalid
        simp only [Bool.or_self, Bool.false_eq_true, if_false, if_true, if_neg hseq,
          if_neg hmask, hm, hnext] at hvalid
      · rw [Bool.not_eq_true, Bool.or_eq_false_iff, Bool.or_eq_false_iff, Bool.not_eq_false',
          bne_eq_false_iff_eq, bne_eq_false_iff_eq] at hnext
        obtain ⟨⟨hpvalid, hchk⟩, hexp⟩ := hnext
        obtain ⟨pre, xs, labels, m', rfl, hread, hlabels, _⟩ := h hpvalid
        have hm' : m' = m + 1 := by
          rw [← hread.expectedSeq, hexp]
        subst hm'
        have hnone : labels = [] := by
          rcases hlabels with h | h
          · exact h
          · exact absurd h (Nat.succ_ne_zero m)
        subst hnone
        have hread' := (reading_next hread ⟨hdel, hlfn, horder, hchk.symm⟩).1
        refine ⟨pre, xs ++ [x], [], m, by simp, hread', Or.inl rfl, ?_⟩
        exact fun l hl => absurd hl List.not_mem_nil

theorem Held.step {L : List SeenSlot} {p : LfnParser} (h : Held L p) {x : SeenSlot}
    (hend : x.entry.isEnd = false) : Held (L ++ [x]) (walkFeed p x) := by
  unfold walkFeed
  split
  · intro hvalid
    cases hvalid
  · next hdel =>
    rw [Bool.not_eq_true] at hdel
    split
    · next hkind =>
      cases hlfn : x.entry.isLfn with
      | true => exact h.lfn hend hdel hlfn
      | false =>
        rw [hlfn, Bool.false_or] at hkind
        intro hvalid
        obtain ⟨hpvalid, hexp, hchk⟩ := valid_feed hend hdel hlfn hvalid
        obtain ⟨pre, xs, labels, m, rfl, hread, _, hlabels⟩ := h hpvalid
        obtain rfl : m = 0 := by
          rw [← hread.expectedSeq, hexp]
        rw [hread.feed hend hdel hlfn hchk]
        refine ⟨pre, xs, labels ++ [x], 0, by simp, hread, Or.inr rfl, fun l hl => ?_⟩
        rcases List.mem_append.mp hl with hl | hl
        · exact hlabels l hl
        · rw [List.mem_singleton.mp hl]
          exact ⟨⟨hend, hdel, hlfn, hkind⟩, hchk⟩
    · intro hvalid
      cases hvalid

theorem held_walk {L : List SeenSlot} (h : ∀ x ∈ L, x.entry.isEnd = false) :
    Held L (L.foldl walkFeed lfnParserReset) := by
  induction L using List.reverseRecOn with
  | nil =>
    intro hvalid
    cases hvalid
  | append_singleton L x ih =>
    rw [List.foldl_append, List.foldl_cons, List.foldl_nil]
    exact (ih fun y hy => h y (List.mem_append_left _ hy)).step (h x (by simp))

theorem reading_run {chk : UInt8} (p : LfnParser) (xs : List SeenSlot) : ∀ m,
    PieceRun chk m xs → Reading xs m (xs.foldl walkFeed p) ∧
      (xs.foldl walkFeed p).checksum = chk := by
  induction xs using List.reverseRecOn with
  | nil => exact fun m h => h.elim
  | append_singleton xs x ih =>
    intro m h
    rw [List.foldl_append, List.foldl_cons, List.foldl_nil]
    have hwalk : ∀ {order : UInt8} (q : LfnParser), x.entry.IsPiece order chk →
        walkFeed q x = lfnParserFeed q x.entry x.sec x.slot := by
      intro order q hx
      rw [walkFeed, hx.notDeleted, hx.lfn]
      rfl
    by_cases hne : xs = []
    · subst hne
      obtain ⟨hlt, hx, _⟩ := h
      rw [hwalk _ hx]
      exact reading_first hlt hx p
    · obtain ⟨hrun, hx⟩ := h.of_concat hne
      obtain ⟨hread, hchk⟩ := ih (m + 1) hrun
      rw [hwalk _ hx]
      rw [← hchk] at hx ⊢
      exact reading_next hread hx

theorem Reading.labels {xs : List SeenSlot} {p : LfnParser} (h : Reading xs 0 p) :
    ∀ {labels : List SeenSlot},
      (∀ l ∈ labels, l.entry.Label ∧ fatLfnChecksum l.entry.name = p.checksum) →
      labels.foldl walkFeed p = p
  | [], _ => rfl
  | l :: labels, hlabels => by
    obtain ⟨hl, hchk⟩ := hlabels l List.mem_cons_self
    have hfeed : walkFeed p l = p := by
      rw [walkFeed, hl.notDeleted, hl.notLfn, hl.volume]
      exact h.feed hl.notEnd hl.notDeleted hl.notLfn hchk _ _
    rw [List.foldl_cons, hfeed]
    exact h.labels fun l' hl' => hlabels l' (List.mem_cons_of_mem l hl')

/-! ### The name reported at an entry -/

/-- The slots right before an entry are the long name the parser reports there. -/
def NamedBy (L : List SeenSlot) (e : Slot) (q : LfnParser) : Prop :=
  ∃ pre xs, L = pre ++ xs ∧ xs.length = q.totalLfnEntries ∧
    PieceRun (fatLfnChecksum e.name) 0 xs ∧
    (∀ x ∈ xs.head?, q.startSec = x.sec ∧ q.startSlot = x.slot) ∧ q.str = lfnText xs

theorem named_run {L : List SeenSlot} (hends : ∀ x ∈ L, x.entry.isEnd = false) {e : Slot}
    (he : e.Live) {sec slot : Nat}
    (hnamed : (lfnParserFeed (L.foldl walkFeed lfnParserReset) e sec slot).named = true) :
    ∃ pre xs labels, L = pre ++ xs ++ labels ∧
      Reading xs 0 (lfnParserFeed (L.foldl walkFeed lfnParserReset) e sec slot) ∧
      (lfnParserFeed (L.foldl walkFeed lfnParserReset) e sec slot).checksum =
        fatLfnChecksum e.name ∧
      ∀ l ∈ labels, l.entry.Label ∧ fatLfnChecksum l.entry.name = fatLfnChecksum e.name := by
  have hvalid : (lfnParserFeed (L.foldl walkFeed lfnParserReset) e sec slot).isValid = true := by
    rw [LfnParser.named, Bool.and_eq_true] at hnamed
    exact hnamed.2
  obtain ⟨hpvalid, hexp, hchk⟩ := valid_feed he.notEnd he.notDeleted he.notLfn hvalid
  obtain ⟨pre, xs, labels, m, hL, hread, _, hlabels⟩ := held_walk hends hpvalid
  obtain rfl : m = 0 := by
    rw [← hread.expectedSeq, hexp]
  rw [hread.feed he.notEnd he.notDeleted he.notLfn hchk]
  exact ⟨pre, xs, labels, hL, hread, hchk.symm, fun l hl => ⟨(hlabels l hl).1,
    (hlabels l hl).2.trans hchk.symm⟩⟩

theorem PieceRun.last {chk : UInt8} {xs ys zs : List SeenSlot} {l : SeenSlot}
    (h : PieceRun chk 0 xs) (heq : ys ++ xs = zs ++ [l]) : l.entry.isLfn = true := by
  rcases List.eq_nil_or_concat' xs with rfl | ⟨xs, x, rfl⟩
  · exact h.elim
  · rw [← List.append_assoc] at heq
    obtain ⟨_, hxl⟩ := List.append_inj' heq rfl
    obtain rfl : x = l := List.head_eq_of_cons_eq hxl
    by_cases hne : xs = []
    · subst hne
      exact h.2.1.lfn
    · exact (h.of_concat hne).2.lfn

/-- The walk over any slots reports at an entry exactly the long name in front of it, if and
    only if no run with the entry's checksum has labels of the same checksum behind it, or
    a text of more than 247 characters. -/
theorem lfn_parser_sound_iff {name : List UInt8} {L : List SeenSlot} {p : LfnParser}
    (hwalk : scan (fun x => findBody name x.sec x.slot x.entry) L lfnParserReset = .next p)
    {e : Slot} (he : e.Live) (sec slot : Nat) :
    ((lfnParserFeed p e sec slot).named = true → NamedBy L e (lfnParserFeed p e sec slot)) ↔
      ∀ pre xs labels, L = pre ++ xs ++ labels → PieceRun (fatLfnChecksum e.name) 0 xs →
        (∀ l ∈ labels, l.entry.Label ∧ fatLfnChecksum l.entry.name = fatLfnChecksum e.name) →
        labels = [] ∧ (lfnText xs).length ≤ 247 := by
  obtain ⟨hends, rfl⟩ := scan_findBody hwalk
  constructor
  · intro h pre xs labels hL hrun hlabels
    obtain ⟨hread, hchk⟩ := reading_run (pre.foldl walkFeed lfnParserReset) xs 0 hrun
    have hheld : L.foldl walkFeed lfnParserReset =
        xs.foldl walkFeed (pre.foldl walkFeed lfnParserReset) := by
      rw [hL, List.foldl_append, List.foldl_append]
      exact hread.labels fun l hl => ⟨(hlabels l hl).1, (hlabels l hl).2.trans hchk.symm⟩
    rw [hheld, hread.feed he.notEnd he.notDeleted he.notLfn hchk.symm] at h
    obtain ⟨pre', xs', hL', hlen, hrun', _, htext⟩ := h hread.named
    rw [hL] at hL'
    have hnone : labels = [] := by
      rcases List.eq_nil_or_concat' labels with h | ⟨ls, l, rfl⟩
      · exact h
      · have hlast := hrun'.last (hL'.symm.trans (List.append_assoc _ ls [l]).symm)
        rw [(hlabels l (by simp)).1.notLfn] at hlast
        cases hlast
    subst hnone
    rw [List.append_nil] at hL'
    rw [hread.total, Nat.zero_add] at hlen
    obtain ⟨_, rfl⟩ := List.append_inj' hL' hlen.symm
    refine ⟨rfl, ?_⟩
    rw [hread.str] at htext
    have := congrArg List.length htext
    rw [List.length_take] at this
    omega
  · intro h hnamed
    obtain ⟨pre, xs, labels, hL, hread, hchk, hlabels⟩ := named_run hends he hnamed
    have hrun := hread.run
    rw [hchk] at hrun
    obtain ⟨rfl, hfit⟩ := h pre xs labels hL hrun hlabels
    rw [List.append_nil] at hL
    refine ⟨pre, xs, hL, ?_, hrun, hread.start, ?_⟩
    · rw [hread.total, Nat.zero_add]
    · rw [hread.str, List.take_of_length_le hfit]

/-- The long name `b` for the short name `AAAAAAAAAAA`. -/
def runOfB : SeenSlot := ⟨lfnEntry [0x62] 1 (fatLfnChecksum (List.replicate 11 0x41)) 1, 8, 0⟩

def labelA : SeenSlot := ⟨newEntry 0x08 0 0 (List.replicate 11 0x41), 8, 1⟩

def fileA : Slot := newEntry 0x20 0 0 (List.replicate 11 0x41)

theorem fileA_live : fileA.Live := by
  constructor <;> decide

theorem lfn_parser_sound_iff_run :
    NamedBy [runOfB] fileA (lfnParserFeed (walkFeed lfnParserReset runOfB) fileA 8 1) := by
  have hrun : ∀ p, findBody [] 8 0 runOfB.entry p = .next (walkFeed p runOfB) := fun _ => rfl
  have hwalk : scan (fun x => findBody [] x.sec x.slot x.entry) [runOfB] lfnParserReset =
      .next (walkFeed lfnParserReset runOfB) := scan_cons_next (hrun _) []
  refine (lfn_parser_sound_iff hwalk fileA_live 8 1).mpr (fun pre xs labels hL _ hlabels => ?_)
    (by decide +kernel)
  have hlen := congrArg List.length hL
  rw [List.length_append, List.length_append, List.length_singleton] at hlen
  constructor
  · rcases List.eq_nil_or_concat' labels with h | ⟨ls, l, rfl⟩
    · exact h
    · have hlast : [] ++ [runOfB] = (pre ++ xs ++ ls) ++ [l] := by
        rw [List.append_assoc _ ls, ← hL]
        rfl
      obtain ⟨_, hl⟩ := List.append_inj' hlast rfl
      obtain rfl : runOfB = l := List.head_eq_of_cons_eq hl
      exact absurd (hlabels runOfB (by simp)).1.notLfn (by decide)
  · have htext : (lfnText xs).length ≤ 13 * xs.length := by
      rw [← length_runChars xs]
      exact (List.takeWhile_prefix _).length_le
    omega

/-- A volume label with the entry's own 11 bytes stands between the run and the entry. -/
theorem lfn_parser_label_between :
    scan (fun x => findBody [] x.sec x.slot x.entry) [runOfB, labelA] lfnParserReset =
        .next (walkFeed (walkFeed lfnParserReset runOfB) labelA) ∧
      fileA.Live ∧
      (lfnParserFeed (walkFeed (walkFeed lfnParserReset runOfB) labelA) fileA 8 2).named = true ∧
      ¬NamedBy [runOfB, labelA] fileA
        (lfnParserFeed (walkFeed (walkFeed lfnParserReset runOfB) labelA) fileA 8 2) := by
  have hlabel : ∀ p, findBody [] 8 1 labelA.entry p = .next (walkFeed p labelA) := fun _ => rfl
  refine ⟨scan_cons_next (hlabel _) [], fileA_live, by decide +kernel, ?_⟩
  rintro ⟨pre, xs, hL, _, hrun, _⟩
  have hcut : pre ++ xs = [runOfB] ++ [labelA] := hL.symm
  have hlast := hrun.last hcut
  exact absurd hlast (by decide)

/-! ### The slots of a name -/

def feedAll (p : LfnParser) (xs : List SeenSlot) : LfnParser :=
  xs.foldl (fun p x => lfnParserFeed p x.entry x.sec x.slot) p

theorem PieceTail.kind {chk : UInt8} {m : Nat} : ∀ {xs : List SeenSlot}, PieceTail chk m xs →
    ∀ x ∈ xs, x.entry.isDeleted = false ∧ x.entry.isLfn = true
  | [], _, _, hx => absurd hx List.not_mem_nil
  | _ :: _, h, x, hx => by
    rcases List.mem_cons.mp hx with rfl | hx
    · exact ⟨h.1.notDeleted, h.1.lfn⟩
    · exact PieceTail.kind h.2 x hx

theorem PieceRun.foldl_walkFeed {chk : UInt8} {m : Nat} {xs : List SeenSlot}
    (h : PieceRun chk m xs) (p : LfnParser) : xs.foldl walkFeed p = feedAll p xs := by
  have hkind : ∀ x ∈ xs, x.entry.isDeleted = false ∧ x.entry.isLfn = true := by
    cases xs with
    | nil => exact h.elim
    | cons y ys =>
      intro x hx
      rcases List.mem_cons.mp hx with rfl | hx
      · exact ⟨h.2.1.notDeleted, h.2.1.lfn⟩
      · exact h.2.2.kind x hx
  apply List.foldl_ext
  intro q x hx
  rw [walkFeed, (hkind x hx).1, (hkind x hx).2]
  rfl

/-- Slots at the positions `pos 0`, `pos 1`, ... -/
def seenAt : (pos : Nat → Nat × Nat) → List Slot → List SeenSlot
  | _, [] => []
  | pos, e :: es => ⟨e, (pos 0).1, (pos 0).2⟩ :: seenAt (fun i => pos (i + 1)) es

theorem length_seenAt : ∀ (es : List Slot) (pos : Nat → Nat × Nat),
    (seenAt pos es).length = es.length
  | [], _ => rfl
  | _ :: es, _ => congrArg (· + 1) (length_seenAt es _)

theorem seenAt_append : ∀ (es es' : List Slot) (pos : Nat → Nat × Nat),
    seenAt pos (es ++ es') = seenAt pos es ++ seenAt (fun i => pos (i + es.length)) es'
  | [], _, _ => rfl
  | e :: es, es', pos => by
    rw [List.cons_append, seenAt, seenAt, seenAt_append es es', List.cons_append]
    simp only [List.length_cons, Nat.add_assoc]

theorem order_masked : ∀ k, k < 21 → UInt8.ofNat k &&& 0x5F = UInt8.ofNat k ∧
    (0x40 ||| UInt8.ofNat k) &&& 0x5F = 0x40 ||| UInt8.ofNat k := by
  decide

theorem isPiece_of_notFree {s : Slot} {order chk : UInt8} (h : s.isFree = false ∧ s.isLfn = true)
    (hchk : s 13 = chk) (horder : s 0 = order) (hmask : order &&& 0x5F = order) :
    s.IsPiece order chk where
  notDeleted := (Bool.or_eq_false_iff.mp h.1).2
  lfn := h.2
  order := by rw [Slot.lfnOrder, horder, hmask]
  chk := hchk

/-- The parser takes the run of an entry as it is stored. -/
theorem LfnTail.pieceTail {chk : UInt8} : ∀ {ss : List Slot} (pos : Nat → Nat × Nat),
    LfnTail chk ss → ss.length ≤ 20 → PieceTail chk 0 (seenAt pos ss)
  | [], _, _, _ => trivial
  | s :: ss, pos, h, hlen => by
    obtain ⟨hlow, _⟩ := order_masked (ss.length + 1) (by rw [List.length_cons] at hlen; omega)
    have hpiece := isPiece_of_notFree (h.notFree hlen s List.mem_cons_self) h.2.2.1 h.1 hlow
    refine ⟨?_, pieceTail _ h.2.2.2 (Nat.le_of_succ_le hlen)⟩
    rw [length_seenAt, Nat.zero_add]
    exact hpiece

theorem LfnRun.pieceRun {chk : UInt8} {ss : List Slot} (h : LfnRun chk ss) (hne : ss ≠ [])
    (pos : Nat → Nat × Nat) : PieceRun chk 0 (seenAt pos ss) := by
  cases ss with
  | nil => exact absurd rfl hne
  | cons s ss =>
    have hfree := h.notFree s List.mem_cons_self
    obtain ⟨hlen, horder, _, hchk, htail⟩ := h
    obtain ⟨_, hlast⟩ := order_masked (ss.length + 1) (Nat.succ_lt_succ hlen)
    have hpiece := isPiece_of_notFree hfree hchk horder hlast
    refine ⟨?_, ?_, htail.pieceTail _ (Nat.le_of_lt hlen)⟩
    · rw [length_seenAt, Nat.zero_add]
      exact hlen
    · rw [length_seenAt, Nat.zero_add]
      exact hpiece

theorem lfnChar_lfnUnit {name : List UInt8} (h0 : (0 : UInt8) ∉ name) (i : Nat) :
    lfnChar (lfnUnit name i) = name.getD i 0 := by
  unfold lfnUnit
  by_cases hi : i < name.length
  · have hne : name.getD i 0 ≠ 0 := by
      rw [List.getD_eq_getElem _ _ hi]
      exact fun heq => h0 (heq ▸ List.getElem_mem hi)
    have hlt := (name.getD i 0).toNat_lt
    have hne' : (name.getD i 0).toNat ≠ 0 := fun heq => hne (UInt8.toNat_inj.mp heq)
    rw [if_pos hi, lfnChar, if_neg (by omega), UInt8.ofNat_toNat]
  · rw [if_neg hi, List.getD_eq_default _ _ (by omega)]
    split <;> rfl

theorem lfnOffsets_getD : ∀ j, j < 13 → lfnOffsets.getD j 0 =
    if j < 5 then 1 + 2 * j else if j < 11 then 14 + 2 * (j - 5) else 28 + 2 * (j - 11) := by
  decide

theorem pieceChar_lfnEntry {name : List UInt8} (h0 : (0 : UInt8) ∉ name) (numLfn : Nat)
    (chk : UInt8) (seq : Nat) {j : Nat} (hj : j < 13) :
    pieceChar (lfnEntry name numLfn chk (seq + 1)) j = name.getD (13 * seq + j) 0 := by
  have hunit : le16 (lfnEntry name numLfn chk (seq + 1)) (lfnOffsets.getD j 0) =
      lfnUnit name (13 * seq + j) := by
    rw [lfnOffsets_getD j hj]
    by_cases h1 : j < 5
    · rw [if_pos h1, lfnEntry_name1 _ _ _ _ h1]
      congr 1
      omega
    · rw [if_neg h1]
      by_cases h2 : j < 11
      · rw [if_pos h2, lfnEntry_name2 _ _ _ _ (show j - 5 < 6 by omega)]
        congr 1
        omega
      · rw [if_neg h2, lfnEntry_name3 _ _ _ _ (show j - 11 < 2 by omega)]
        congr 1
        omega
  rw [pieceChar, hunit, lfnChar_lfnUnit h0]

theorem runChars_cons (x : SeenSlot) (xs : List SeenSlot) :
    runChars (x :: xs) = runChars xs ++ piece x.entry := by
  rw [runChars, List.reverse_cons, List.flatMap_append, ← runChars, List.flatMap_singleton]

theorem runChars_lfnSlots {name : List UInt8} (h0 : (0 : UInt8) ∉ name) (numLfn : Nat)
    (chk : UInt8) : ∀ (seq : Nat) (pos : Nat → Nat × Nat),
    runChars (seenAt pos (lfnSlots name numLfn chk seq)) =
      (List.range' 0 (13 * seq)).map fun i => name.getD i 0
  | 0, _ => rfl
  | seq + 1, pos => by
    have hpiece : piece (lfnEntry name numLfn chk (seq + 1)) =
        (List.range' (13 * seq) 13).map fun i => name.getD i 0 := by
      rw [piece, ← Nat.add_zero (13 * seq), ← List.map_add_range', List.map_map]
      apply List.map_congr_left
      intro j hj
      rw [List.mem_range'_1] at hj
      exact pieceChar_lfnEntry h0 numLfn chk seq (by omega)
    have hrange : List.range' 0 (13 * (seq + 1)) =
        List.range' 0 (13 * seq) ++ List.range' (13 * seq) 13 := by
      have := List.range'_append_1 (s := 0) (m := 13 * seq) (n := 13)
      rw [Nat.zero_add] at this
      rw [this, Nat.mul_succ]
    rw [lfnSlots, seenAt, runChars_cons, runChars_lfnSlots h0 numLfn chk seq, hpiece, hrange,
      List.map_append]

theorem cstr_pad {l : List UInt8} (h0 : (0 : UInt8) ∉ l) (n : Nat) :
    cstr (l ++ List.replicate n 0) = l := by
  rw [cstr, List.takeWhile_append_of_pos]
  · cases n with
    | zero => simp
    | succ n => simp [List.replicate_succ]
  · intro c hc
    exact bne_iff_ne.mpr fun heq => h0 (heq ▸ hc)

theorem lfnText_lfnSlots {name : List UInt8} (h0 : (0 : UInt8) ∉ name) {numLfn : Nat}
    (chk : UInt8) (hlen : name.length ≤ 13 * numLfn) (pos : Nat → Nat × Nat) :
    lfnText (seenAt pos (lfnSlots name numLfn chk numLfn)) = name := by
  have hpad : ((List.range' 0 (13 * numLfn)).map fun i => name.getD i 0) =
      name ++ List.replicate (13 * numLfn - name.length) 0 := by
    refine List.ext_getElem (by simp; omega) fun i h1 h2 => ?_
    rw [List.getElem_map, List.getElem_range', Nat.zero_add, Nat.one_mul, List.getElem_append]
    split
    · next hi => exact List.getD_eq_getElem _ _ hi
    · next hi =>
      rw [List.getElem_replicate]
      exact List.getD_eq_default _ _ (Nat.le_of_not_lt hi)
  rw [lfnText, runChars_lfnSlots h0, hpad, cstr_pad h0]

/-- **The slots of a name, read back**: the parser has the first 247 characters. -/
theorem feedAll_nameSlots {name short11 : List UInt8} (h0 : (0 : UInt8) ∉ name)
    (hlen : 1 ≤ name.length ∧ name.length ≤ 255) (hlfn : fatNeedsLfn name = true)
    (hshort : ShortOk short11) {e : Slot} (hattr : e.isLfn = false) (pos : Nat → Nat × Nat) :
    let p := feedAll lfnParserReset (seenAt pos (nameSlots name short11 e))
    p.hasLfn = true ∧ p.isValid = true ∧ p.str = name.take 247 ∧ p.startSec = (pos 0).1 ∧
      p.startSlot = (pos 0).2 ∧ p.totalLfnEntries = numLfnSlots name := by
  have hnum : numLfnSlots name = (name.length + 12) / 13 := if_pos hlfn
  have hle : numLfnSlots name ≤ 20 := by omega
  have hne : numLfnSlots name ≠ 0 := by omega
  rw [nameSlots, seenAt_append, seenAt, seenAt]
  dsimp only
  have hnonempty : lfnSlots name (numLfnSlots name) (fatLfnChecksum short11) (numLfnSlots name) ≠ [] :=
    List.ne_nil_of_length_pos (by rw [length_lfnSlots]; exact Nat.pos_of_ne_zero hne)
  have hrun := (lfnRun_lfnSlots name (fatLfnChecksum short11) hle).pieceRun hnonempty pos
  have htext := lfnText_lfnSlots h0 (fatLfnChecksum short11) (length_le_numLfnSlots hne) pos
  have hlength := length_seenAt
    (lfnSlots name (numLfnSlots name) (fatLfnChecksum short11) (numLfnSlots name)) pos
  rw [length_lfnSlots] at hlength
  have hfirst : ∀ x ∈ (seenAt pos (lfnSlots name (numLfnSlots name) (fatLfnChecksum short11)
      (numLfnSlots name))).head?, x.sec = (pos 0).1 ∧ x.slot = (pos 0).2 := by
    obtain ⟨seq, hseq⟩ := Nat.exists_eq_succ_of_ne_zero hne
    rw [hseq, lfnSlots, seenAt]
    intro x hx
    rw [← Option.some.inj hx]
    exact ⟨rfl, rfl⟩
  generalize seenAt pos (lfnSlots name (numLfnSlots name) (fatLfnChecksum short11)
    (numLfnSlots name)) = xs at hrun htext hlength hfirst
  obtain ⟨hread, hchk⟩ := reading_run lfnParserReset xs 0 hrun
  rw [hrun.foldl_walkFeed] at hread hchk
  -- the short entry leaves the parser as it is
  have hname := Slot.withName_name e hshort.length
  have hbyte : e.withName short11 0 = short11.getD 0 0 := Slot.withName_of_lt _ _ (by omega)
  have hend : (e.withName short11).isEnd = false := by
    rw [Slot.isEnd, hbyte]
    exact beq_eq_false_iff_ne.mpr hshort.notEnd
  have hdel : (e.withName short11).isDeleted = false := by
    rw [Slot.isDeleted, hbyte]
    exact beq_eq_false_iff_ne.mpr hshort.notDeleted
  have hlast : ∀ a b, feedAll lfnParserReset (xs ++ [⟨e.withName short11, a, b⟩]) =
      feedAll lfnParserReset xs := by
    intro a b
    rw [feedAll, List.foldl_append, List.foldl_cons, List.foldl_nil, ← feedAll]
    exact hread.feed hend hdel hattr (by rw [hname, hchk]) _ _
  rw [hlast, hread.str, htext, hread.total, hlength, Nat.zero_add]
  cases xs with
  | nil => exact hrun.elim
  | cons x xs =>
    obtain ⟨h1, h2⟩ := hread.start x rfl
    obtain ⟨h3, h4⟩ := hfirst x rfl
    exact ⟨hread.hasLfn, hread.isValid, rfl, h1.trans h3, h2.trans (congrArg Nat.cast h4), rfl⟩

theorem slots_written {fs : FatFs} (hbps : fs.bytesPerSector = 512) (env : Env) [env.NoFault]
    (d : Disk) {sec slot : Nat} (hslot : slot < 16) {name short11 : List UInt8}
    (hroom : 16 * sec + slot + numLfnSlots name < 68719476736) {e : Slot} (he : e.Proper) :
    (slotsFrom (sec * 512 + 32 * slot) (numLfnSlots name + 1)).map
        (slotAt (fatWriteLfnAndShortEntry env fs d sec slot name short11 e).2) =
      nameSlots name short11 e := by
  have hback := slotAt_putSlots d (sec * 512 + 32 * slot) (nameSlots_proper name short11 he)
  rw [length_nameSlots] at hback
  rw [fatWriteLfnAndShortEntry_eq hbps env d hslot name short11 e hroom]
  exact hback

/-- The slots that `fat_write_lfn_and_short_entry` stores give a fresh parser the name, the
    position of the first of them and their number if and only if the name has at most 247
    characters. -/
theorem lfn_round_trip_iff {name short11 : List UInt8} (h0 : (0 : UInt8) ∉ name)
    (hlen : 1 ≤ name.length ∧ name.length ≤ 255) (hlfn : fatNeedsLfn name = true)
    (hshort : ShortOk short11) {e : Slot} (he : e.Proper) (hattr : e.isLfn = false)
    (pos : Nat → Nat × Nat) :
    (∀ (fs : FatFs) (env : Env) [env.NoFault] (d : Disk) (sec slot : Nat),
      fs.bytesPerSector = 512 → slot < 16 → 16 * sec + slot + numLfnSlots name < 68719476736 →
      (slotsFrom (sec * 512 + 32 * slot) (numLfnSlots name + 1)).map
          (slotAt (fatWriteLfnAndShortEntry env fs d sec slot name short11 e).2) =
        nameSlots name short11 e) ∧
    (let p := feedAll lfnParserReset (seenAt pos (nameSlots name short11 e))
     (p.hasLfn = true ∧ p.isValid = true ∧ p.str = name ∧ p.startSec = (pos 0).1 ∧
       p.startSlot = (pos 0).2 ∧ p.totalLfnEntries = numLfnSlots name) ↔ name.length ≤ 247) := by
  refine ⟨fun fs env _ d sec slot hbps hslot hroom => slots_written hbps env d hslot hroom he, ?_⟩
  obtain ⟨hhas, hvalid, htext, hsec, hstart, htotal⟩ :=
    feedAll_nameSlots h0 hlen hlfn hshort hattr pos
  dsimp only
  rw [htext]
  constructor
  · rintro ⟨_, _, hstr, _⟩
    have := congrArg List.length hstr
    rw [List.length_take] at this
    omega
  · intro hfit
    exact ⟨hhas, hvalid, List.take_of_length_le hfit, hsec, hstart, htotal⟩

theorem shortOk_replicate : ShortOk (List.replicate 11 0x41) := ⟨rfl, by decide, by decide⟩

theorem lfn_round_trip_full_slot :
    (feedAll lfnParserReset (seenAt (fun i => (35 + (15 + i) / 16, (15 + i) % 16))
      (nameSlots (List.replicate 13 0x61) (List.replicate 11 0x41) (Slot.fresh 0x20 0 0)))).str =
        List.replicate 13 0x61 :=
  ((lfn_round_trip_iff (show (0 : UInt8) ∉ List.replicate 13 0x61 by decide) (by decide)
    (by decide) shortOk_replicate (Slot.fresh_proper 0x20 0 0) (by decide) _).2.mpr
    (by decide)).2.2.1

/-- A name of 248 characters loses the last one. -/
theorem lfn_round_trip_cut :
    let name := List.replicate 248 0x61
    let p := feedAll lfnParserReset (seenAt (fun i => (35 + i / 16, i % 16))
      (nameSlots name (List.replicate 11 0x41) (Slot.fresh 0x20 0 0)))
    (0 : UInt8) ∉ name ∧ fatNeedsLfn name = true ∧ ShortOk (List.replicate 11 0x41) ∧
      p.str ≠ name := by
  have h0 : (0 : UInt8) ∉ List.replicate 248 (0x61 : UInt8) := fun h =>
    absurd (List.eq_of_mem_replicate h) (by decide)
  have hlen : (List.replicate 248 (0x61 : UInt8)).length = 248 := List.length_replicate
  have hlfn : fatNeedsLfn (List.replicate 248 0x61) = true := by
    rw [fatNeedsLfn, if_pos (by rw [hlen]; decide)]
  refine ⟨h0, hlfn, shortOk_replicate, fun heq => ?_⟩
  obtain ⟨_, _, htext, _⟩ := feedAll_nameSlots h0 (by rw [hlen]; decide) hlfn shortOk_replicate
    (e := Slot.fresh 0x20 0 0) (by decide) fun i => (35 + i / 16, i % 16)
  rw [heq] at htext
  have := congrArg List.length htext
  rw [List.length_take, hlen] at this
  omega

end Gemios
