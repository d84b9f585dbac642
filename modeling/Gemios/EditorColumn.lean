import Gemios.Editor
import Mathlib.Tactic.SplitIfs

/-!
# The columns of a line

The loop of `editor_render` over one line, with the bytes that it reads, and those that
`utf8_byte_to_column` reads, by which the cursor is placed.

`editor_render` goes over a line by the decoder, which takes the first byte of a sequence that is
cut short for a character of its own; `utf8_byte_to_column` goes by the length that the first byte
announces.  Both as walks over the text, and which texts they measure alike.
-/

namespace Gemios.Editor

/-! ### UTF-8 -/

/-- What `utf8_decode` returns, and the bytes that it reads. -/
structure Decoded where
  length : Nat
  codepoint : Nat
  reads : List Nat
deriving DecidableEq, Repr

def utf8Decode (mem : Buf) (str : Nat) : Decoded :=
  let b0 := mem str
  let b1 := mem (str + 1)
  let b2 := mem (str + 2)
  let b3 := mem (str + 3)
  if b0 = 0 then ⟨0, 0, [str]⟩
  else if b0 &&& 0x80 = 0 then ⟨1, b0.toNat, [str]⟩
  else if b0 &&& 0xE0 = 0xC0 then
    let reads := [str, str + 1]
    if !isCont b1 then ⟨1, b0.toNat, reads⟩
    else ⟨2, (b0 &&& 0x1F).toNat <<< 6 ||| (b1 &&& 0x3F).toNat, reads⟩
  else if b0 &&& 0xF0 = 0xE0 then
    let reads := [str, str + 1, str + 2]
    if !isCont b1 || !isCont b2 then ⟨1, b0.toNat, reads⟩
    else ⟨3, (b0 &&& 0x0F).toNat <<< 12 ||| (b1 &&& 0x3F).toNat <<< 6 ||| (b2 &&& 0x3F).toNat, reads⟩
  else if b0 &&& 0xF8 = 0xF0 then
    let reads := [str, str + 1, str + 2, str + 3]
    if !isCont b1 || !isCont b2 || !isCont b3 then ⟨1, b0.toNat, reads⟩
    else
      ⟨4, (b0 &&& 0x07).toNat <<< 18 ||| (b1 &&& 0x3F).toNat <<< 12 ||| (b2 &&& 0x3F).toNat <<< 6 |||
        (b3 &&& 0x3F).toNat, reads⟩
  else ⟨1, b0.toNat, [str]⟩

/-- The bytes that the loop of `utf8_byte_to_column` reads. -/
def columnReads (mem : Buf) (line byteIdx : Nat) : Nat → Nat → List Nat
  | 0, _ => []
  | n + 1, idx =>
    if idx < byteIdx then
      (line + idx) :: if mem (line + idx) ≠ 0 then
        if mem (line + idx) = 9 then columnReads mem line byteIdx n (idx + 1)
        else columnReads mem line byteIdx n (idx + utf8CharLength (mem (line + idx)))
      else []
    else []

/-! ### One line of the text area -/

/-- A call of `vga_putc_at` for a byte of the line: the text column and the code point. -/
structure Cell where
  byteIdx : Nat
  textCol : Nat
  codepoint : Nat
deriving DecidableEq, Repr

/-- What the loop over a line does: where it starts to draw a character (the byte and its text
    column), the cells that it draws and the bytes that it reads. -/
structure Rendered where
  starts : List (Nat × Nat)
  cells : List Cell
  reads : List Nat
deriving DecidableEq, Repr

/-- The blanks of a tab, up to the next tab stop or the end of the row: the text column behind
    them, and those that are drawn. -/
def tabLoop (leftCol limit : Int) (nextTab : Nat) : Nat → Nat → Nat × List Nat
  | 0, textCol => (textCol, [])
  | n + 1, textCol =>
    if textCol < nextTab ∧ (textCol : Int) < limit then
      let r := tabLoop leftCol limit nextTab n (textCol + 1)
      (r.1, if leftCol ≤ textCol then textCol :: r.2 else r.2)
    else (textCol, [])

def renderLoop (mem : Buf) (line lineBytes : Nat) (leftCol limit : Int) : Nat → Nat → Nat → Rendered
  | 0, _, _ => ⟨[], [], []⟩
  | n + 1, bIdx, textCol =>
    if bIdx < lineBytes ∧ (textCol : Int) < limit then
      let start := if leftCol ≤ textCol then [(bIdx, textCol)] else []
      if mem (line + bIdx) = 9 then
        let tab := tabLoop leftCol limit (textCol + (4 - textCol % 4)) 4 textCol
        let r := renderLoop mem line lineBytes leftCol limit n (bIdx + 1) tab.1
        ⟨start ++ r.starts, tab.2.map (fun col => ⟨bIdx, col, 0x20⟩) ++ r.cells, (line + bIdx) :: r.reads⟩
      else
        let dec := utf8Decode mem (line + bIdx)
        if dec.length = 0 then ⟨[], [], (line + bIdx) :: dec.reads⟩
        else
          let r := renderLoop mem line lineBytes leftCol limit n (bIdx + dec.length) (textCol + 1)
          ⟨start ++ r.starts,
            (if leftCol ≤ textCol then [⟨bIdx, textCol, dec.codepoint⟩] else []) ++ r.cells,
            (line + bIdx) :: dec.reads ++ r.reads⟩
    else ⟨[], [], []⟩

/-- A line as `editor_render` draws it, with its `strlen`. -/
def renderLine (mem : Buf) (line lineBytes termW leftCol : Nat) : Rendered :=
  renderLoop mem line lineBytes leftCol ((termW : Int) - GUTTER_WIDTH + leftCol) lineBytes 0 0

/-! ### Both walks, on the text -/

def colAfter (b : UInt8) (col : Nat) : Nat := if b = 9 then col + (4 - col % 4) else col + 1

/-- The first byte announces all bytes, and the others are continuation bytes. -/
def IsChar (p : List UInt8) : Prop :=
  ∃ b t, p = b :: t ∧ utf8CharLength b = t.length + 1 ∧ ∀ x ∈ t, isCont x = true

/-- The bytes that are drawn as the first character. -/
def pieceLen : List UInt8 → Nat
  | [] => 0
  | b :: t =>
    let more := utf8CharLength b - 1
    if more ≤ t.length ∧ (t.take more).all isCont then more + 1 else 1

/-- Where the characters are drawn: the byte, counted from `k`, and the text column. -/
def startsFrom (k : Nat) : Nat → List UInt8 → Nat → List (Nat × Nat)
  | _, [], _ => []
  | skip + 1, _ :: t, col => startsFrom (k + 1) skip t col
  | 0, b :: t, col => (k, col) :: startsFrom (k + 1) (pieceLen (b :: t) - 1) t (colAfter b col)

/-- The column that is counted for a byte of the text. -/
def columnOf : Nat → List UInt8 → Nat → Nat → Nat
  | _, [], _, col => col
  | _, _ :: _, 0, col => col
  | skip + 1, _ :: t, b + 1, col => columnOf skip t b col
  | 0, x :: t, b + 1, col => columnOf (utf8CharLength x - 1) t b (colAfter x col)

/-- Each character is drawn in the column that is counted for it. -/
def Agrees (l : List UInt8) (col : Nat) : Prop :=
  ∀ st ∈ startsFrom 0 0 l col, columnOf 0 l st.1 col = st.2

theorem utf8CharLength_pos (b : UInt8) : 0 < utf8CharLength b := by
  unfold utf8CharLength
  split_ifs <;> decide

theorem lt_colAfter (b : UInt8) (col : Nat) : col < colAfter b col := by
  unfold colAfter
  split <;> omega

theorem colAfter_of_length {b : UInt8} (h : 1 < utf8CharLength b) (col : Nat) :
    colAfter b col = col + 1 := by
  refine if_neg ?_
  rintro rfl
  exact absurd h (by decide)

theorem utf8CharLength_of_isCont {b : UInt8} (h : isCont b = true) : utf8CharLength b = 1 := by
  have hall : ∀ b, isCont b = true → utf8CharLength b = 1 := forall_byte (by decide +kernel)
  exact hall b h

theorem pieceLen_cons (b : UInt8) (t : List UInt8) : 0 < pieceLen (b :: t) := by
  unfold pieceLen
  dsimp only
  split <;> omega

theorem pieceLen_le (l : List UInt8) : pieceLen l ≤ l.length := by
  unfold pieceLen
  split
  · exact Nat.le_refl _
  · dsimp only
    split
    · rename_i h
      exact Nat.succ_le_succ h.1
    · exact Nat.succ_le_succ (Nat.zero_le _)

theorem columnOf_skip (skip : Nat) (l : List UInt8) (b col : Nat) :
    columnOf skip l b col = columnOf 0 (l.drop skip) (b - skip) col := by
  induction l generalizing skip b with
  | nil => rw [List.drop_nil, columnOf, columnOf]
  | cons x t ih =>
    cases skip with
    | zero => rfl
    | succ skip =>
      rw [List.drop_succ_cons]
      cases b with
      | zero =>
        rw [Nat.zero_sub, columnOf]
        cases t.drop skip <;> rw [columnOf]
      | succ b => rw [columnOf, ih, Nat.succ_sub_succ]

theorem columnOf_zero (l : List UInt8) (col : Nat) : columnOf 0 l 0 col = col := by
  cases l <;> rw [columnOf]

theorem columnOf_cons {x : UInt8} {t : List UInt8} {b col : Nat} (hb : 0 < b) :
    columnOf 0 (x :: t) b col =
      columnOf 0 ((x :: t).drop (utf8CharLength x)) (b - utf8CharLength x) (colAfter x col) := by
  obtain ⟨n, hn⟩ := Nat.exists_eq_add_of_lt (utf8CharLength_pos x)
  obtain ⟨b, rfl⟩ := Nat.exists_eq_add_of_lt hb
  rw [Nat.zero_add] at hn ⊢
  rw [columnOf, columnOf_skip, hn, Nat.add_sub_cancel, List.drop_succ_cons, Nat.add_sub_add_right]

theorem startsFrom_skip (k skip : Nat) (l : List UInt8) (col : Nat) :
    startsFrom k skip l col = startsFrom (k + skip) 0 (l.drop skip) col := by
  induction l generalizing skip k with
  | nil => rw [List.drop_nil, startsFrom, startsFrom]
  | cons x t ih =>
    cases skip with
    | zero => rfl
    | succ skip =>
      rw [startsFrom, ih, List.drop_succ_cons]
      congr 1
      omega

theorem startsFrom_cons (k : Nat) (b : UInt8) (t : List UInt8) (col : Nat) :
    startsFrom k 0 (b :: t) col =
      (k, col) :: startsFrom (k + pieceLen (b :: t)) 0 ((b :: t).drop (pieceLen (b :: t)))
        (colAfter b col) := by
  obtain ⟨n, hn⟩ := Nat.exists_eq_add_of_lt (pieceLen_cons b t)
  rw [Nat.zero_add] at hn
  rw [startsFrom, startsFrom_skip, hn, Nat.add_sub_cancel, List.drop_succ_cons]
  congr 2
  omega

theorem startsFrom_shift (k skip : Nat) (l : List UInt8) (col : Nat) :
    startsFrom k skip l col = (startsFrom 0 skip l col).map fun st => (k + st.1, st.2) := by
  induction l generalizing k skip col with
  | nil => rfl
  | cons b t ih =>
    have hmap : ∀ skip col, startsFrom (k + 1) skip t col =
        (startsFrom 1 skip t col).map fun st => (k + st.1, st.2) := by
      intro skip col
      rw [ih (k + 1), ih 1, List.map_map]
      refine List.map_congr_left fun st _ => ?_
      simp [Nat.add_assoc]
    cases skip with
    | succ skip => exact hmap skip col
    | zero =>
      rw [startsFrom, startsFrom, List.map_cons, hmap]
      rfl

/-! ### One character after the other -/

theorem IsChar.pieceLen_append {p : List UInt8} (hp : IsChar p) (rest : List UInt8) :
    pieceLen (p ++ rest) = p.length := by
  obtain ⟨b, t, rfl, hlen, hcont⟩ := hp
  have hmore : utf8CharLength b - 1 = t.length := by omega
  have hall : (((t ++ rest).take t.length).all isCont) = true := by
    rw [List.take_left, List.all_eq_true]
    exact hcont
  rw [List.cons_append, pieceLen]
  rw [hmore, if_pos ⟨by simp, hall⟩]
  rfl

theorem agrees_char {b : UInt8} {t : List UInt8} (hp : IsChar (b :: t)) (rest : List UInt8)
    (col : Nat) : Agrees (b :: t ++ rest) col ↔ Agrees rest (colAfter b col) := by
  have hpiece := hp.pieceLen_append rest
  obtain ⟨b', t', heq, hlen, -⟩ := hp
  obtain ⟨rfl, rfl⟩ := List.cons.inj heq
  have hcount : ∀ k, columnOf 0 (b :: t ++ rest) ((b :: t).length + k) col =
      columnOf 0 rest k (colAfter b col) := by
    intro k
    rw [List.cons_append, columnOf_cons (by simp only [List.length_cons]; omega), hlen,
      ← List.cons_append, ← List.length_cons, List.drop_left, Nat.add_sub_cancel_left]
  unfold Agrees
  rw [List.cons_append] at hpiece ⊢
  rw [startsFrom_cons, hpiece, List.forall_mem_cons, columnOf_zero]
  simp only [true_and]
  rw [← List.cons_append, List.drop_left, Nat.zero_add, startsFrom_shift, List.forall_mem_map]
  simp only [hcount]

theorem char_or_stray (b : UInt8) (t : List UInt8) :
    (∃ p rest, b :: t = p ++ rest ∧ IsChar p) ∨ pieceLen (b :: t) = 1 ∧ 1 < utf8CharLength b := by
  have hpos := utf8CharLength_pos b
  by_cases h : utf8CharLength b - 1 ≤ t.length ∧ (t.take (utf8CharLength b - 1)).all isCont = true
  · refine .inl ⟨b :: t.take (utf8CharLength b - 1), t.drop (utf8CharLength b - 1), by simp, b, _, rfl, ?_,
      List.all_eq_true.mp h.2⟩
    rw [List.length_take_of_le h.1]
    omega
  · refine .inr ⟨if_neg h, ?_⟩
    rcases Nat.lt_or_ge 1 (utf8CharLength b) with hlen | hlen
    · exact hlen
    · have hmore : utf8CharLength b - 1 = 0 := by omega
      rw [hmore] at h
      exact absurd ⟨Nat.zero_le _, rfl⟩ h

theorem columnOf_cont {q : List UInt8} (hq : ∀ x ∈ q, isCont x = true) (rest : List UInt8) (k col : Nat) :
    columnOf 0 (q ++ rest) (q.length + k) col = columnOf 0 rest k (col + q.length) := by
  induction q generalizing col with
  | nil => simp
  | cons x q ih =>
    obtain ⟨hx, hq⟩ := List.forall_mem_cons.mp hq
    have htab : x ≠ 9 := by
      rintro rfl
      exact absurd hx (by decide)
    have hcount : 0 < (x :: q).length + k := by
      rw [List.length_cons]
      omega
    rw [List.cons_append, columnOf_cons hcount, utf8CharLength_of_isCont hx, List.drop_one,
      List.tail_cons, List.length_cons, show q.length + 1 + k - 1 = q.length + k by omega, ih hq,
      colAfter, if_neg htab]
    congr 1
    omega

theorem agrees_pair {b x : UInt8} {t : List UInt8} (hq : IsChar (x :: t))
    (hlen : utf8CharLength b = t.length + 1) (rest : List UInt8) (col : Nat) :
    Agrees (b :: x :: t ++ rest) col ↔ Agrees rest (colAfter x (colAfter b col)) := by
  have hq' := hq
  obtain ⟨x', t', heq, hx, hcont⟩ := hq'
  obtain ⟨rfl, rfl⟩ := List.cons.inj heq
  cases t with
  | nil =>
    have hb : IsChar [b] := ⟨b, [], rfl, hlen, by simp⟩
    exact (agrees_char hb (x :: rest) col).trans (agrees_char hq rest _)
  | cons y t =>
    have hstray : pieceLen (b :: x :: y :: t ++ rest) = 1 := by
      have hnot : isCont x ≠ true := by
        intro h
        rw [utf8CharLength_of_isCont h] at hx
        simp at hx
      rw [List.cons_append, pieceLen, hlen, if_neg]
      simp [hnot]
    have hsecond := hq.pieceLen_append rest
    have hskip : (b :: x :: y :: t ++ rest).drop (utf8CharLength b) =
        (y :: t).drop t.length ++ rest := by
      rw [hlen, List.length_cons]
      simp only [List.cons_append, List.drop_succ_cons]
      rw [← List.cons_append, List.drop_append_of_le_length (by simp)]
    have hcount : ∀ k, columnOf 0 (b :: x :: y :: t ++ rest) (1 + (x :: y :: t).length + k) col =
        columnOf 0 rest k (colAfter x (colAfter b col)) := by
      intro k
      have hbytes : ((y :: t).drop t.length).length = 1 := by simp
      have hcol : colAfter x (colAfter b col) = colAfter b col + 1 :=
        colAfter_of_length (by rw [hx]; simp) _
      rw [List.cons_append, columnOf_cons (by omega), ← List.cons_append, hskip, hlen, hcol, ← hbytes,
        ← columnOf_cont (fun z hz => hcont z (List.mem_of_mem_drop hz)), hbytes]
      congr 1
      simp only [List.length_cons]
      omega
    have hone : columnOf 0 (b :: x :: y :: t ++ rest) 1 col = colAfter b col := by
      rw [List.cons_append, columnOf_cons (by omega), hlen,
        show 1 - ((y :: t).length + 1) = 0 by simp, columnOf_zero]
    unfold Agrees
    rw [List.cons_append] at hstray hone hcount ⊢
    rw [startsFrom_cons, hstray, List.drop_one, List.tail_cons]
    rw [List.cons_append] at hsecond hone hcount ⊢
    rw [startsFrom_cons, hsecond]
    simp only [List.forall_mem_cons, columnOf_zero, true_and, Nat.zero_add, hone]
    rw [← List.cons_append, List.drop_left, startsFrom_shift, List.forall_mem_map]
    simp only [List.cons_append] at hcount ⊢
    simp only [hcount]

/-- A stray byte that is followed by two characters is counted right only before one of the
    length that it announces. -/
theorem Agrees.stray {b : UInt8} {q rest : List UInt8} (hb : 1 < utf8CharLength b)
    (hstray : pieceLen (b :: q ++ rest) = 1) (hq : q ≠ []) (hpiece : pieceLen (q ++ rest) = q.length)
    (hrest : rest ≠ []) {col : Nat} (h : Agrees (b :: q ++ rest) col) :
    IsChar q ∧ utf8CharLength b = q.length := by
  obtain ⟨x, t, rfl⟩ := List.exists_cons_of_ne_nil hq
  obtain ⟨y, r, rfl⟩ := List.exists_cons_of_ne_nil hrest
  -- the column of the character behind `q`
  have hthird : columnOf 0 (b :: x :: t ++ y :: r) (1 + (x :: t).length) col =
      colAfter x (colAfter b col) := by
    refine h (1 + (x :: t).length, colAfter x (colAfter b col)) ?_
    rw [List.cons_append] at hstray hpiece ⊢
    rw [startsFrom_cons, hstray, List.drop_one, List.tail_cons, List.cons_append, startsFrom_cons,
      hpiece, ← List.cons_append, List.drop_left, startsFrom_cons]
    simp
  have hlt := lt_colAfter x (colAfter b col)
  rw [List.cons_append, columnOf_cons (by omega)] at hthird
  have hlong : utf8CharLength b ≤ (x :: t).length := by
    by_contra hle
    rw [show 1 + (x :: t).length - utf8CharLength b = 0 by omega, columnOf_zero] at hthird
    omega
  rcases char_or_stray x (t ++ y :: r) with ⟨p, rest', heq, hp⟩ | ⟨hone, -⟩
  · have hlen : p.length = (x :: t).length := by
      rw [← hp.pieceLen_append rest', ← heq]
      exact hpiece
    have hsplit : x :: t ++ (y :: r) = p ++ rest' := heq
    obtain ⟨rfl, -⟩ := List.append_inj hsplit hlen.symm
    refine ⟨hp, ?_⟩
    obtain ⟨x', t', heq', hx, hcont⟩ := hp
    obtain ⟨rfl, rfl⟩ := List.cons.inj heq'
    have hcol : colAfter x (colAfter b col) = colAfter b col + 1 :=
      colAfter_of_length (by simp only [List.length_cons] at hlong; omega) _
    -- the rest of `q` is counted byte by byte
    obtain ⟨m, hm⟩ : ∃ m, utf8CharLength b = m + 1 := ⟨utf8CharLength b - 1, by omega⟩
    have hskip : (b :: (x :: t ++ y :: r)).drop (utf8CharLength b) = (x :: t).drop m ++ y :: r := by
      rw [hm, List.drop_succ_cons, List.drop_append_of_le_length (by omega)]
    have htail : ∀ z ∈ (x :: t).drop m, isCont z = true := by
      intro z hz
      obtain ⟨m', rfl⟩ : ∃ m', m = m' + 1 := ⟨m - 1, by omega⟩
      rw [List.drop_succ_cons] at hz
      exact hcont z (List.mem_of_mem_drop hz)
    have hcount := columnOf_cont htail (y :: r) 0 (colAfter b col)
    rw [columnOf_zero, List.length_drop, Nat.add_zero] at hcount
    rw [hskip, show 1 + (x :: t).length - utf8CharLength b = (x :: t).length - m by omega, hcount,
      hcol] at hthird
    omega
  · have hlen : (x :: t).length = 1 := by
      rw [← hpiece]
      exact hone
    omega

/-! ### The lines that are measured alike -/

/-- Every stray first byte of a longer character is followed by a whole character of the length that
    it announces, or by one more piece at most. -/
inductive Steady : List UInt8 → Prop
  | nil : Steady []
  | whole {p rest : List UInt8} (hp : IsChar p) (h : Steady rest) : Steady (p ++ rest)
  | pair {b : UInt8} {q rest : List UInt8} (hq : IsChar q) (hlen : utf8CharLength b = q.length)
      (h : Steady rest) : Steady (b :: q ++ rest)
  | last {b : UInt8} {q : List UInt8} (hq : q = [] ∨ IsChar q ∨ q.length = 1) : Steady (b :: q)

theorem agrees_nil (col : Nat) : Agrees [] col := by
  unfold Agrees
  simp [startsFrom]

theorem agrees_last {b : UInt8} {q : List UInt8} (hq : pieceLen q = q.length) (col : Nat) :
    Agrees (b :: q) col := by
  rcases char_or_stray b q with ⟨p, rest, heq, hp⟩ | ⟨hstray, -⟩
  · obtain ⟨b', t, rfl, hlen, hcont⟩ := hp
    rw [List.cons_append] at heq
    obtain ⟨rfl, rfl⟩ := List.cons.inj heq
    have hp : IsChar (b :: t) := ⟨b, t, rfl, hlen, hcont⟩
    rw [← List.cons_append, agrees_char hp]
    cases t with
    | nil =>
      rw [List.nil_append] at hq
      cases rest with
      | nil => exact agrees_nil _
      | cons x r =>
        unfold Agrees
        rw [startsFrom_cons, hq, List.drop_length, startsFrom]
        simp [columnOf_zero]
    | cons y t =>
      -- `q` begins with a continuation byte, which is a piece of its own
      have hy : utf8CharLength y = 1 := utf8CharLength_of_isCont (hcont y (by simp))
      have hone : IsChar [y] := ⟨y, [], rfl, hy, by simp⟩
      have hlen' : (y :: t ++ rest).length = 1 := by
        rw [← hq, List.cons_append]
        exact hone.pieceLen_append (t ++ rest)
      have hrest : rest = [] := List.eq_nil_of_length_eq_zero (by
        simp only [List.length_append, List.length_cons] at hlen'
        omega)
      rw [hrest]
      exact agrees_nil _
  · unfold Agrees
    have hone : columnOf 0 (b :: q) 1 col = colAfter b col := by
      rw [columnOf_cons Nat.one_pos, show 1 - utf8CharLength b = 0 by
        have := utf8CharLength_pos b
        omega, columnOf_zero]
    rw [startsFrom_cons, hstray, List.drop_one, List.tail_cons]
    cases q with
    | nil => simp [startsFrom, columnOf_zero]
    | cons x t =>
      rw [startsFrom_cons, hq, List.drop_length, startsFrom]
      simp [columnOf_zero, hone]

/-- **The columns.**  Both walks measure a line alike exactly if it is steady. -/
theorem agrees_iff_steady (l : List UInt8) (col : Nat) : Agrees l col ↔ Steady l := by
  constructor
  · intro h
    induction hn : l.length using Nat.strongRecOn generalizing l col with
    | ind n ih =>
      cases l with
      | nil => exact .nil
      | cons b r =>
        rcases char_or_stray b r with ⟨p, rest, heq, hp⟩ | ⟨hstray, hb⟩
        · rw [heq] at h hn ⊢
          have hp' := hp
          obtain ⟨c, t, rfl, -, -⟩ := hp'
          refine .whole hp (ih rest.length ?_ rest _ ((agrees_char hp rest col).mp h) rfl)
          rw [← hn, List.length_append, List.length_cons]
          omega
        · have hsplit := List.take_append_drop (pieceLen r) r
          generalize hqdef : r.take (pieceLen r) = q at hsplit
          generalize r.drop (pieceLen r) = rest at hsplit
          have hpiece : pieceLen r = q.length := by
            rw [← hqdef, List.length_take_of_le (pieceLen_le r)]
          rw [← hsplit] at hpiece hstray h hn ⊢
          by_cases hrest : rest = []
          · subst hrest
            rw [List.append_nil] at hpiece ⊢
            refine .last ?_
            cases q with
            | nil => exact .inl rfl
            | cons x t =>
              rcases char_or_stray x t with ⟨p, rest, heq, hp⟩ | ⟨hone, -⟩
              · have hlen := hp.pieceLen_append rest
                rw [← heq, hpiece, heq, List.length_append] at hlen
                have hnil : rest = [] := List.eq_nil_of_length_eq_zero (by omega)
                rw [heq, hnil, List.append_nil]
                exact .inr (.inl hp)
              · exact .inr (.inr (hpiece.symm.trans hone))
          · have hq : q ≠ [] := by
              rintro rfl
              obtain ⟨y, t, rfl⟩ := List.exists_cons_of_ne_nil hrest
              have hpos := pieceLen_cons y t
              rw [List.nil_append, List.length_nil] at hpiece
              omega
            obtain ⟨hchar, hlen⟩ := Agrees.stray hb hstray hq hpiece hrest h
            have hchar' := hchar
            obtain ⟨x, t, rfl, -, -⟩ := hchar'
            refine .pair hchar hlen (ih rest.length ?_ rest _ ((agrees_pair hchar hlen rest col).mp h) rfl)
            rw [← hn, List.length_cons, List.length_append]
            omega
  · intro h
    induction h generalizing col with
    | nil => exact agrees_nil col
    | whole hp _ ih =>
      have hp' := hp
      obtain ⟨b, t, rfl, -, -⟩ := hp'
      exact (agrees_char hp _ col).mpr (ih _)
    | pair hq hlen _ ih =>
      have hq' := hq
      obtain ⟨x, t, rfl, -, -⟩ := hq'
      exact (agrees_pair hq hlen _ col).mpr (ih _)
    | @last b q hq =>
      refine agrees_last ?_ col
      rcases hq with rfl | hq | hq
      · rfl
      · have hlen := hq.pieceLen_append []
        rwa [List.append_nil] at hlen
      · obtain ⟨x, rfl⟩ := List.length_eq_one_iff.mp hq
        have hpos := pieceLen_cons x []
        have hle := pieceLen_le [x]
        rw [List.length_singleton] at hle ⊢
        omega

end Gemios.Editor
