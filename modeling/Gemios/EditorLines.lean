import Gemios.Editor
import Mathlib.Data.List.Basic

/-!
# The editing commands keep to their lines

What the editor is for: a text is a list of byte strings, and the cursor is a line and a place in
it.  A command has its full effect, or none when a line or the text would get too long.

What the commands of the editor do to the line buffers, as a table of strings, and that they do to
the text what the abstract ones do.
-/

namespace Gemios.Editor

open Function

/-! ### Texts -/

/-- The lines of a file: up to a NUL; a line ends in LF, CR or CR LF, and the last one may end
    without. -/
def toLines : List UInt8 → List (List UInt8)
  | [] => []
  | b :: p =>
    if b = 0 then []
    else if b = 13 ∧ p.head? = some 10 then [] :: toLines p.tail
    else if b = 10 ∨ b = 13 then [] :: toLines p
    else
      match toLines p with
      | [] => [[b]]
      | l :: ls => (b :: l) :: ls
termination_by p => p.length
decreasing_by all_goals simp only [List.length_cons, List.length_tail]; omega

structure Doc where
  lines : List (List UInt8)
  row : Nat
  col : Nat

namespace Doc

/-- A line; there is none behind the last one. -/
def line (d : Doc) (i : Nat) : List UInt8 := d.lines.getD i []

def cur (d : Doc) : List UInt8 := d.line d.row

/-- The text of a file: lines are cut at 511 bytes, and the text at 1024 lines. -/
def load (file : List UInt8) : Doc :=
  let lines := ((toLines file).take MAX_EDITOR_LINES).map fun l => l.take (MAX_LINE_LEN - 1)
  ⟨if lines = [] then [[]] else lines, 0, 0⟩

def clamp (d : Doc) : Doc :=
  let row := min d.row (d.lines.length - 1)
  { d with row := row, col := min d.col (d.line row).length }

/-! ### Characters -/

def back (l : List UInt8) : Nat → Nat
  | 0 => 0
  | k + 1 => if isCont (l.getD (k + 1) 0) then back l k else k + 1

def prevChar (l : List UInt8) (k : Nat) : Nat := back l (k - 1)

def nextChar (l : List UInt8) (k : Nat) : Nat :=
  min (k + utf8CharLength (l.getD k 0)) l.length

/-! ### Commands -/

def setCur (d : Doc) (l : List UInt8) (col : Nat) : Doc :=
  { d with lines := d.lines.set d.row l, col := col }

def insert (d : Doc) (c : UInt8) : Doc :=
  if d.cur.length ≥ MAX_LINE_LEN - 2 then d
  else d.setCur (d.cur.take d.col ++ c :: d.cur.drop d.col) (d.col + 1)

/-- The line is split at the cursor, if the text has room. -/
def split (d : Doc) : Doc :=
  if d.lines.length ≥ MAX_EDITOR_LINES - 1 then d
  else
    { lines := d.lines.take d.row ++ d.cur.take d.col :: d.cur.drop d.col :: d.lines.drop (d.row + 1)
      row := d.row + 1
      col := 0 }

/-- Line i + 1 is joined to line i, if that has room. -/
def join (d : Doc) (i : Nat) : List (List UInt8) :=
  d.lines.take i ++ (d.line i ++ d.line (i + 1)) :: d.lines.drop (i + 2)

def Fits (d : Doc) (i : Nat) : Prop := (d.line i).length + (d.line (i + 1)).length < MAX_LINE_LEN

instance (d : Doc) (i : Nat) : Decidable (d.Fits i) := inferInstanceAs (Decidable (_ < _))

/-- The character before the cursor goes, or the end of the line before. -/
def backspace (d : Doc) : Doc :=
  if d.col > 0 then
    let prev := prevChar d.cur d.col
    d.setCur (d.cur.take prev ++ d.cur.drop d.col) prev
  else if d.row > 0 then
    if d.Fits (d.row - 1) then ⟨d.join (d.row - 1), d.row - 1, (d.line (d.row - 1)).length⟩ else d
  else d

/-- The character at the cursor goes, or the end of its line. -/
def delete (d : Doc) : Doc :=
  if d.col < d.cur.length then
    d.setCur (d.cur.take d.col ++ d.cur.drop (nextChar d.cur d.col)) d.col
  else if d.row + 1 < d.lines.length then
    if d.Fits d.row then { d with lines := d.join d.row } else d
  else d

/-- The line of the cursor goes; the last one stays as an empty one. -/
def deleteLine (d : Doc) : Doc :=
  if d.lines.length ≤ 1 then ⟨[[]], 0, 0⟩
  else ⟨d.lines.eraseIdx d.row, min d.row (d.lines.length - 2), 0⟩

/-- What a key does to the text and to the cursor. -/
def command (d : Doc) (c : Nat) : Doc :=
  if c = KEY_CTRL_S ∨ c = KEY_CTRL_Q ∨ c = KEY_CTRL_X ∨ c = KEY_ESC then d
  else if c = KEY_CTRL_N then ⟨[[]], 0, 0⟩
  else if c = KEY_CTRL_K then d.deleteLine
  else if c = KEY_UP then { d with row := d.row - 1 }
  else if c = KEY_DOWN then { d with row := d.row + 1 }
  else if c = KEY_LEFT then { d with col := prevChar d.cur d.col }
  else if c = KEY_RIGHT then { d with col := nextChar d.cur d.col }
  else if c = KEY_HOME then { d with col := 0 }
  else if c = KEY_END then { d with col := d.cur.length }
  else if c = KEY_PGUP then { d with row := d.row - 20 }
  else if c = KEY_PGDN then { d with row := d.row + 20 }
  else if c = 8 ∨ c = 127 then d.backspace
  else if c = KEY_DELETE then d.delete
  else if c = 10 ∨ c = 13 then d.split
  else if c = 9 then (((d.insert 32).insert 32).insert 32).insert 32
  else if c ≥ 32 ∧ c ≤ 255 then d.insert (UInt8.ofNat c)
  else d

/-- A command, after which the cursor is put on the text. -/
def key (d : Doc) (c : Nat) : Doc := (d.command c).clamp

end Doc

theorem ite_of {α : Type} {P : α → Prop} {p : Prop} [Decidable p] {x y : α} (hx : p → P x)
    (hy : ¬ p → P y) : P (if p then x else y) := by
  split
  · rename_i hp
    exact hx hp
  · rename_i hp
    exact hy hp

/-! ### The text in the memory of the editor -/

/-- The rows of the line buffers hold these strings, and the first ones are the text. -/
structure Holds (s : Ed) (row : Nat → List UInt8) (d : Doc) : Prop where
  table : StrTable s.mem MAX_LINE_LEN MAX_EDITOR_LINES row
  lines : d.lines = (List.range s.numLines).map row
  curRow : s.curRow = d.row
  curCol : s.curCol = d.col
  pos : 0 < s.numLines
  le : s.numLines ≤ MAX_EDITOR_LINES

structure OnText (d : Doc) : Prop where
  row : d.row < d.lines.length
  col : d.col ≤ d.cur.length

/-- The text of the editor, read from its memory. -/
def Ed.doc (s : Ed) : Doc :=
  ⟨(List.range s.numLines).map s.lineBytes, s.curRow.toNat, s.curCol.toNat⟩

/-! ### Moving lines -/

section Move

variable {mem : Buf} {row : Nat → List UInt8} {w n : Nat}

/-- The rows after lines were shifted down: those behind `stop` come from one above. -/
def rowsDown (row : Nat → List UInt8) (stop n : Nat) : Nat → List UInt8 :=
  fun i => if stop < i ∧ i ≤ n then row (i - 1) else row i

/-- The rows after `n` lines were replaced by those behind them. -/
def rowsUp (row : Nat → List UInt8) (i n : Nat) : Nat → List UInt8 :=
  fun j => if i ≤ j ∧ j < i + n then row (j + 1) else row j

theorem copy_line (h : StrTable mem MAX_LINE_LEN n row) {i j : Nat} (hi : i < n) (hne : i ≠ j) :
    StrTable (strncpy mem (Ed.line j) (Ed.line i) MAX_LINE_LEN) MAX_LINE_LEN n
      (update row j (row i)) :=
  h.copy hi hne (Nat.zero_le _)

theorem shiftDown_rows {stop k : Nat} (h : StrTable mem MAX_LINE_LEN n row) (hk : k ≤ n) :
    StrTable (Ed.shiftDown stop mem k) MAX_LINE_LEN n (rowsDown row stop k) := by
  induction k generalizing mem row with
  | zero =>
    have heq : rowsDown row stop 0 = row := by
      funext i
      exact if_neg (by omega)
    rwa [Ed.shiftDown, heq]
  | succ k ih =>
    rw [Ed.shiftDown]
    by_cases hstop : k + 1 > stop
    · rw [if_pos hstop]
      have heq : rowsDown row stop (k + 1) = rowsDown (update row (k + 1) (row k)) stop k := by
        funext i
        unfold rowsDown
        by_cases hi : i = k + 1
        · rw [if_pos (by omega), if_neg (by omega), hi, update_self, Nat.add_sub_cancel]
        · by_cases hin : stop < i ∧ i ≤ k
          · rw [if_pos (by omega), if_pos hin, update_of_ne (by omega)]
          · rw [if_neg (by omega), if_neg hin, update_of_ne hi]
      rw [heq]
      exact ih (copy_line h (by omega) (by omega)) (by omega)
    · rw [if_neg hstop]
      have heq : rowsDown row stop (k + 1) = row := by
        funext i
        exact if_neg (by omega)
      rwa [heq]

theorem moveUp_rows {i k : Nat} (h : StrTable mem MAX_LINE_LEN n row) (hk : i + k < n) :
    StrTable (Ed.moveUp mem i k) MAX_LINE_LEN n (rowsUp row i k) := by
  induction k generalizing mem row i with
  | zero =>
    have heq : rowsUp row i 0 = row := by
      funext j
      exact if_neg (by omega)
    rwa [Ed.moveUp, heq]
  | succ k ih =>
    rw [Ed.moveUp]
    have heq : rowsUp row i (k + 1) = rowsUp (update row i (row (i + 1))) (i + 1) k := by
      funext j
      unfold rowsUp
      by_cases hj : j = i
      · rw [if_pos (by omega), if_neg (by omega), hj, update_self]
      · by_cases hin : i + 1 ≤ j ∧ j < i + 1 + k
        · rw [if_pos (by omega), if_pos hin, update_of_ne (by omega)]
        · rw [if_neg (by omega), if_neg hin, update_of_ne hj]
    rw [heq]
    exact ih (copy_line h (by omega) (by omega)) (by omega)

theorem split_rows {i m k : Nat} (h : StrTable mem MAX_LINE_LEN n row) (hm : m ≤ n) (hi : i < n)
    (hk : k ≤ (row i).length) :
    StrTable
      (update (strncpy (Ed.shiftDown (i + 1) mem m) (Ed.line (i + 1)) (Ed.line i + k)
        MAX_LINE_LEN) (Ed.line i + k) 0) MAX_LINE_LEN n
      (update (update (rowsDown row (i + 1) m) (i + 1) ((row i).drop k)) i
        ((row i).take k)) := by
  have hdown : StrTable (Ed.shiftDown (i + 1) mem m) MAX_LINE_LEN n (rowsDown row (i + 1) m) :=
    shiftDown_rows h hm
  have hkeep : rowsDown row (i + 1) m i = row i := if_neg (by omega)
  have hcopy := hdown.copy (j := i + 1) (k := k) hi (by omega) (by rwa [hkeep])
  rw [hkeep] at hcopy
  have hkeep' :
      update (rowsDown row (i + 1) m) (i + 1) ((row i).drop k) i = row i := by
    rw [update_of_ne (by omega), hkeep]
  have hcut := hcopy.cut (k := k) hi (by rwa [hkeep'])
  rw [hkeep'] at hcut
  exact hcut

theorem join_rows {i k : Nat} (h : StrTable mem MAX_LINE_LEN MAX_EDITOR_LINES row)
    (hk : i + 1 + k < MAX_EDITOR_LINES)
    (hroom : (row i).length + (row (i + 1)).length < MAX_LINE_LEN) :
    StrTable (Ed.moveUp (strcat mem (Ed.line i) (Ed.line (i + 1))) (i + 1) k) MAX_LINE_LEN
      MAX_EDITOR_LINES (rowsUp (update row i (row i ++ row (i + 1))) (i + 1) k) := by
  have hsize : MAX_LINE_LEN ≤ LINES_SIZE := by decide
  refine moveUp_rows ?_ hk
  rw [strcat, strlen, show strlenIn mem (Ed.line i) LINES_SIZE = (row i).length from
    h.strlen (by omega) hsize]
  exact h.join (by omega) (by omega) (by omega) hroom hsize

end Move

/-! ### Rows as lists -/

section Rows

variable {row : Nat → List UInt8} {n i : Nat}

theorem rows_update (row : Nat → List UInt8) (n i : Nat) (s : List UInt8) :
    (List.range n).map (update row i s) = ((List.range n).map row).set i s := by
  refine List.ext_getElem (by simp) fun j hj hj' => ?_
  rw [List.getElem_map, List.getElem_range, List.getElem_set, List.getElem_map, List.getElem_range]
  by_cases hij : i = j
  · rw [if_pos hij, hij, update_self]
  · rw [if_neg hij, update_of_ne (Ne.symm hij)]

theorem rows_split (hi : i < n) (a b : List UInt8) :
    (List.range (n + 1)).map
        (update (update (rowsDown row (i + 1) n) (i + 1) b) i a) =
      ((List.range n).map row).take i ++ a :: b :: ((List.range n).map row).drop (i + 1) := by
  have hmin : min i n = i := Nat.min_eq_left (Nat.le_of_lt hi)
  refine List.ext_getElem (by simp; omega) fun j hj hj' => ?_
  rw [List.getElem_map, List.getElem_range]
  simp only [List.getElem_append, List.length_take, List.length_map, List.length_range, hmin]
  rcases Nat.lt_trichotomy j i with hlt | rfl | hgt
  · rw [dif_pos hlt, update_of_ne (by omega), update_of_ne (by omega), rowsDown,
      if_neg (by omega)]
    simp
  · rw [dif_neg (Nat.lt_irrefl _), update_self]
    simp
  · obtain ⟨k, rfl⟩ := Nat.exists_eq_add_of_lt hgt
    have hsub : i + k + 1 - i = k + 1 := by omega
    simp only [List.length_map, List.length_range] at hj
    rw [dif_neg (by omega), update_of_ne (by omega)]
    simp only [hsub, List.getElem_cons_succ]
    cases k with
    | zero => simp
    | succ k =>
      rw [update_of_ne (by omega), rowsDown, if_pos (by omega)]
      simp only [List.getElem_cons_succ, List.getElem_drop, List.getElem_map, List.getElem_range]
      congr 1
      omega

theorem rows_join (hi : i + 1 < n) (a : List UInt8) :
    (List.range (n - 1)).map (rowsUp (update row i a) (i + 1) (n - 1 - (i + 1))) =
      ((List.range n).map row).take i ++ a :: ((List.range n).map row).drop (i + 2) := by
  have hmin : min i n = i := Nat.min_eq_left (by omega)
  refine List.ext_getElem (by simp; omega) fun j hj hj' => ?_
  rw [List.getElem_map, List.getElem_range, rowsUp]
  simp only [List.getElem_append, List.length_take, List.length_map, List.length_range, hmin]
  rcases Nat.lt_trichotomy j i with hlt | rfl | hgt
  · rw [dif_pos hlt, if_neg (by omega), update_of_ne (by omega)]
    simp
  · rw [dif_neg (Nat.lt_irrefl _), if_neg (by omega), update_self]
    simp
  · obtain ⟨k, rfl⟩ := Nat.exists_eq_add_of_lt hgt
    have hsub : i + k + 1 - i = k + 1 := by omega
    simp only [List.length_map, List.length_range] at hj
    rw [dif_neg (by omega), if_pos (by omega), update_of_ne (by omega)]
    simp only [hsub, List.getElem_cons_succ, List.getElem_drop, List.getElem_map,
      List.getElem_range]
    congr 1
    omega

theorem rows_eraseIdx (hi : i < n) :
    (List.range (n - 1)).map (rowsUp row i (n - 1 - i)) = ((List.range n).map row).eraseIdx i := by
  refine List.ext_getElem (by simp [List.length_eraseIdx, hi]) fun j hj hj' => ?_
  simp only [List.length_map, List.length_range] at hj
  rw [List.getElem_map, List.getElem_range, List.getElem_eraseIdx, rowsUp]
  by_cases hji : j < i
  · rw [if_neg (by omega), dif_pos hji]
    simp
  · rw [if_pos (by omega), dif_neg hji]
    simp

end Rows

/-! ### Reading the text -/

namespace Holds

variable {s : Ed} {row : Nat → List UInt8} {d : Doc} {i : Nat}

theorem length (h : Holds s row d) : d.lines.length = s.numLines := by
  rw [h.lines, List.length_map, List.length_range]

theorem line (h : Holds s row d) (hi : i < s.numLines) : d.line i = row i := by
  unfold Doc.line
  rw [h.lines, List.getD_eq_getElem _ _ (by simpa using hi), List.getElem_map, List.getElem_range]

theorem cur_eq (h : Holds s row d) : s.cur = Ed.line d.row := by
  rw [Ed.cur, h.curRow, Int.toNat_natCast]

theorem row_lt (h : Holds s row d) (ht : OnText d) : d.row < s.numLines := by
  rw [← h.length]
  exact ht.row

theorem cur (h : Holds s row d) (ht : OnText d) : d.cur = row d.row := h.line (h.row_lt ht)

theorem inTable (h : Holds s row d) (hi : i < s.numLines) : i < MAX_EDITOR_LINES :=
  Nat.lt_of_lt_of_le hi h.le

theorem strlen (h : Holds s row d) (hi : i < s.numLines) :
    strlen s.mem (Ed.line i) = (row i).length :=
  h.table.strlen (h.inTable hi) (by decide)

theorem strlen_cur (h : Holds s row d) (ht : OnText d) :
    Editor.strlen s.mem s.cur = d.cur.length := by
  rw [h.cur_eq, h.strlen (h.row_lt ht), h.cur ht]

theorem byte (h : Holds s row d) (hi : i < s.numLines) {k : Nat} (hk : k ≤ (row i).length) :
    s.mem (Ed.line i + k) = (row i).getD k 0 := by
  have hstr := h.table.str i (h.inTable hi)
  rcases Nat.lt_or_eq_of_le hk with hlt | rfl
  · rw [List.getD_eq_getElem _ _ hlt]
    exact hstr.bytes k hlt
  · rw [List.getD_eq_default _ _ (Nat.le_refl _)]
    exact hstr.nul

theorem backOver (h : Holds s row d) (hi : i < s.numLines) {k : Nat} (hk : k ≤ (row i).length) :
    backOver s.mem (Ed.line i) k = Doc.back (row i) k := by
  induction k with
  | zero => rfl
  | succ k ih => rw [Editor.backOver, Doc.back, h.byte hi hk, ih (Nat.le_of_succ_le hk)]

theorem prevChar (h : Holds s row d) (ht : OnText d) :
    utf8PrevChar s.mem s.cur s.curCol = Doc.prevChar d.cur d.col := by
  have hcol := ht.col
  rw [h.cur ht] at hcol ⊢
  unfold utf8PrevChar Doc.prevChar
  rw [h.curCol, h.cur_eq]
  by_cases hzero : d.col = 0
  · rw [if_pos (by omega), hzero]
    rfl
  · rw [if_neg (by omega), show ((d.col : Int) - 1).toNat = d.col - 1 by omega,
      h.backOver (h.row_lt ht) (by omega)]

theorem nextChar (h : Holds s row d) (ht : OnText d) :
    utf8NextChar s.mem s.cur s.curCol = Doc.nextChar d.cur d.col := by
  have hlen := h.strlen_cur ht
  have hcol := ht.col
  unfold utf8NextChar Doc.nextChar
  rw [hlen, h.curCol, h.cur_eq, Int.toNat_natCast, h.byte (h.row_lt ht) (by rwa [← h.cur ht]),
    ← h.cur ht]
  dsimp only
  by_cases hend : d.col = d.cur.length
  · rw [if_pos (.inr (by omega)), hend, Nat.min_eq_right (Nat.le_add_right _ _)]
  · rw [if_neg (by omega)]
    split
    · rw [Nat.min_eq_right (by omega)]
    · rw [Nat.min_eq_left (by omega)]
      rfl

end Holds

theorem back_le (l : List UInt8) (k : Nat) : Doc.back l k ≤ k := by
  induction k with
  | zero => exact Nat.le_refl _
  | succ k ih =>
    unfold Doc.back
    split
    · exact Nat.le_succ_of_le ih
    · exact Nat.le_refl _

theorem prevChar_le (l : List UInt8) (k : Nat) : Doc.prevChar l k ≤ k :=
  Nat.le_trans (back_le l _) (Nat.sub_le k 1)

theorem le_nextChar {l : List UInt8} {k : Nat} (hk : k ≤ l.length) : k ≤ Doc.nextChar l k :=
  Nat.le_min.mpr ⟨Nat.le_add_right _ _, hk⟩

theorem nextChar_le (l : List UInt8) (k : Nat) : Doc.nextChar l k ≤ l.length := Nat.min_le_right _ _

/-! ### The commands -/

theorem Doc.setCur_cur {d : Doc} (hrow : d.row < d.lines.length) (l : List UInt8) (col : Nat) :
    (d.setCur l col).cur = l := by
  unfold Doc.cur Doc.line Doc.setCur
  rw [List.getD_eq_getElem _ _ (by rwa [List.length_set]), List.getElem_set_self]

theorem OnText.setCur {d : Doc} (ht : OnText d) {l : List UInt8} {col : Nat} (hcol : col ≤ l.length) :
    OnText (d.setCur l col) := by
  refine ⟨?_, ?_⟩
  · rw [Doc.setCur, List.length_set]
    exact ht.row
  · rwa [Doc.setCur_cur ht.row]

namespace Holds

variable {s : Ed} {row : Nat → List UInt8} {d : Doc}

theorem setCur (h : Holds s row d) {s' : Ed} {l : List UInt8} {col : Nat}
    (htable : StrTable s'.mem MAX_LINE_LEN MAX_EDITOR_LINES (update row d.row l))
    (hlines : s'.numLines = s.numLines) (hrow : s'.curRow = s.curRow) (hcol : s'.curCol = col) :
    Holds s' (update row d.row l) (d.setCur l col) where
  table := htable
  lines := by rw [hlines, rows_update, ← h.lines]; rfl
  curRow := by rw [hrow, h.curRow]; rfl
  curCol := hcol
  pos := by rw [hlines]; exact h.pos
  le := by rw [hlines]; exact h.le

theorem insertChar (h : Holds s row d) (ht : OnText d) {c : UInt8} (hc : c ≠ 0) :
    (∃ row', Holds (s.insertChar c) row' (d.insert c)) ∧ OnText (d.insert c) := by
  unfold Ed.insertChar Doc.insert
  rw [h.strlen_cur ht]
  dsimp only
  split
  · exact ⟨⟨row, h⟩, ht⟩
  · rename_i hroom
    have hcol := ht.col
    refine ⟨⟨_, h.setCur ?_ rfl rfl ?_⟩, ht.setCur ?_⟩
    · have hins := h.table.insert (h.inTable (h.row_lt ht)) (k := d.col) (by rwa [← h.cur ht]) hc
        (by rw [← h.cur ht]; exact Nat.lt_of_not_le fun hle => hroom (by unfold MAX_LINE_LEN at *; omega))
      rw [← h.cur ht] at hins
      rw [h.cur_eq, h.curCol]
      exact hins
    · show s.curCol + 1 = ((d.col + 1 : Nat) : Int)
      rw [h.curCol]
      rfl
    · rw [List.length_append, List.length_cons, List.length_take_of_le hcol]
      omega

theorem insertNewline (h : Holds s row d) (ht : OnText d) :
    (∃ row', Holds s.insertNewline row' d.split) ∧ OnText d.split := by
  unfold Ed.insertNewline Doc.split
  rw [h.length]
  split
  · exact ⟨⟨row, h⟩, ht⟩
  · rename_i hroom
    have hrow := h.row_lt ht
    have hcol := ht.col
    rw [h.cur ht] at hcol
    have htable := split_rows h.table h.le (h.inTable hrow) hcol
    refine ⟨⟨_, by rw [h.cur_eq, h.curRow, h.curCol]; exact htable, ?_, ?_, rfl, Nat.succ_pos _,
      ?_⟩, ?_, Nat.zero_le _⟩
    · rw [h.cur ht, h.lines]
      exact (rows_split hrow _ _).symm
    · show s.curRow + 1 = ((d.row + 1 : Nat) : Int)
      rw [h.curRow]
      rfl
    · show s.numLines + 1 ≤ MAX_EDITOR_LINES
      omega
    · have hlen := h.length
      simp only [List.length_append, List.length_cons, List.length_take, List.length_drop]
      omega

theorem joinLines (h : Holds s row d) {s' : Ed} {i col : Nat} (hi : i + 1 < s.numLines)
    (hfits : d.Fits i)
    (hmem : s'.mem = Ed.moveUp (strcat s.mem (Ed.line i) (Ed.line (i + 1))) (i + 1)
      (s.numLines - 1 - (i + 1)))
    (hlines : s'.numLines = s.numLines - 1) (hrow : s'.curRow = i) (hcol : s'.curCol = col) :
    ∃ row', Holds s' row' ⟨d.join i, i, col⟩ := by
  have hle := h.le
  unfold Doc.Fits at hfits
  rw [h.line hi, h.line (Nat.lt_of_succ_lt hi)] at hfits
  have htable := join_rows h.table (k := s.numLines - 1 - (i + 1)) (by omega) hfits
  refine ⟨_, by rw [hmem]; exact htable, ?_, hrow, hcol, by omega, by omega⟩
  rw [hlines, rows_join hi, Doc.join, h.line hi, h.line (Nat.lt_of_succ_lt hi), h.lines]

theorem backspace (h : Holds s row d) (ht : OnText d) : ∃ row', Holds s.backspace row' d.backspace := by
  have hrow := h.row_lt ht
  have hcol := ht.col
  unfold Ed.backspace Doc.backspace
  by_cases hpos : d.col > 0
  · rw [if_pos (show s.curCol > 0 by rw [h.curCol]; omega), if_pos hpos]
    refine ⟨_, h.setCur ?_ rfl rfl (h.prevChar ht)⟩
    rw [h.cur ht] at hcol ⊢
    have herase := h.table.erase (h.inTable hrow) (prevChar_le (row d.row) d.col) hcol
    rw [h.strlen_cur ht, h.prevChar ht, h.cur ht, h.cur_eq, h.curCol]
    exact herase
  · rw [if_neg (show ¬ s.curCol > 0 by rw [h.curCol]; omega), if_neg hpos]
    by_cases hfirst : d.row > 0
    · rw [if_pos (show s.curRow > 0 by rw [h.curRow]; omega), if_pos hfirst]
      obtain ⟨i, hi⟩ : ∃ i, d.row = i + 1 := ⟨d.row - 1, by omega⟩
      have hline : s.cur = Ed.line (i + 1) := by rw [h.cur_eq, hi]
      have hprev : s.curRow.toNat - 1 = i := by rw [h.curRow, hi]; omega
      dsimp only
      rw [hline, hprev, h.strlen (by omega), h.strlen (by omega), show d.row - 1 = i by omega]
      by_cases hfits : d.Fits i
      · rw [if_pos hfits, if_pos (by rwa [Doc.Fits, h.line (by omega), h.line (by omega)] at hfits)]
        refine h.joinLines (by omega) hfits ?_ rfl ?_ ?_
        · rw [h.curRow, hi]
          rfl
        · show s.curRow - 1 = i
          rw [h.curRow]
          omega
        · rw [h.line (by omega)]
          rfl
      · rw [if_neg hfits, if_neg (by rwa [Doc.Fits, h.line (by omega), h.line (by omega)] at hfits)]
        exact ⟨row, h⟩
    · rw [if_neg (show ¬ s.curRow > 0 by rw [h.curRow]; omega), if_neg hfirst]
      exact ⟨row, h⟩

theorem delete (h : Holds s row d) (ht : OnText d) : ∃ row', Holds s.delete row' d.delete := by
  have hrow := h.row_lt ht
  have hcol := ht.col
  unfold Ed.delete Doc.delete
  dsimp only
  rw [h.strlen_cur ht, h.length]
  by_cases hlt : d.col < d.cur.length
  · rw [if_pos (show s.curCol < d.cur.length by rw [h.curCol]; omega), if_pos hlt]
    refine ⟨_, h.setCur ?_ rfl rfl h.curCol⟩
    have herase := h.table.erase (h.inTable hrow) (p := d.col) (q := Doc.nextChar d.cur d.col)
      (le_nextChar hcol) (by rw [← h.cur ht]; exact nextChar_le _ _)
    rw [← h.cur ht] at herase
    rw [h.nextChar ht, h.cur_eq, h.curCol]
    exact herase
  · rw [if_neg (show ¬ s.curCol < d.cur.length by rw [h.curCol]; omega), if_neg hlt]
    by_cases hlast : d.row + 1 < s.numLines
    · rw [if_pos (show s.curRow < (s.numLines : Int) - 1 by rw [h.curRow]; omega), if_pos hlast]
      have htoNat : s.curRow.toNat = d.row := by rw [h.curRow]; rfl
      rw [htoNat, h.strlen hlast, h.cur ht]
      by_cases hfits : d.Fits d.row
      · rw [if_pos hfits, if_pos (by rwa [Doc.Fits, h.line hrow, h.line hlast] at hfits)]
        refine h.joinLines hlast hfits ?_ rfl h.curRow h.curCol
        rw [h.cur_eq]
        rfl
      · rw [if_neg hfits, if_neg (by rwa [Doc.Fits, h.line hrow, h.line hlast] at hfits)]
        exact ⟨row, h⟩
    · rw [if_neg (show ¬ s.curRow < (s.numLines : Int) - 1 by rw [h.curRow]; omega), if_neg hlast]
      exact ⟨row, h⟩

theorem emptied (h : Holds s row d) {s' : Ed} (hmem : s'.mem = update s.mem (Ed.line 0) 0)
    (hlines : s'.numLines = 1) (hrow : s'.curRow = 0) (hcol : s'.curCol = 0) :
    ∃ row', Holds s' row' ⟨[[]], 0, 0⟩ := by
  have hcut := h.table.cut (i := 0) (by decide) (k := 0) (Nat.zero_le _)
  refine ⟨_, by rw [hmem]; exact hcut, ?_, hrow, hcol, by omega, by rw [hlines]; decide⟩
  rw [hlines]
  rfl

theorem deleteLine (h : Holds s row d) (ht : OnText d) :
    ∃ row', Holds s.deleteLine row' d.deleteLine := by
  have hrow := h.row_lt ht
  have hle := h.le
  unfold Ed.deleteLine Doc.deleteLine
  rw [h.length]
  by_cases hone : s.numLines ≤ 1
  · rw [if_pos hone, if_pos hone]
    exact h.emptied rfl (show s.numLines = 1 by have hpos := h.pos; omega) rfl rfl
  · rw [if_neg hone, if_neg hone]
    have htable := moveUp_rows h.table (i := d.row) (k := s.numLines - 1 - d.row) (by omega)
    refine ⟨_, by rw [h.curRow]; exact htable, ?_, ?_, rfl, ?_, ?_⟩
    · rw [h.lines]
      exact (rows_eraseIdx hrow).symm
    · show (if s.curRow ≥ _ then _ else s.curRow) = ((min d.row (s.numLines - 2) : Nat) : Int)
      rw [h.curRow]
      split <;> omega
    · show 0 < s.numLines - 1
      omega
    · show s.numLines - 1 ≤ _
      omega

end Holds

end Gemios.Editor
