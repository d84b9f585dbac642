import Gemios.Bytes
import Mathlib.Data.List.GetD
import Mathlib.Logic.Function.Basic

/-!
# The text terminal

`vga_putc` of `src/src/kernel/vga.c` with its scrolling, characters without their colours; and what
printing and backspaces do to a row, as long as they stay on it.
-/

namespace Gemios.Vga

open Function

/-- `term_cols`, `term_rows`, `scroll_top` and `scroll_bottom`. -/
structure Terminal where
  cols : Nat
  rows : Nat
  top : Nat
  bottom : Nat
  cols_pos : 0 < cols
  bottom_lt : bottom < rows

/-- What is shown, by row and column, and where the cursor is. -/
@[ext]
structure Screen where
  cells : Nat → Nat → UInt8
  x : Nat
  y : Nat

variable (t : Terminal)

def Screen.putcAt (s : Screen) (c : UInt8) (x y : Nat) : Screen :=
  if x < t.cols ∧ y < t.rows then
    { s with cells := fun y' x' => if y' = y ∧ x' = x then c else s.cells y' x' }
  else s

def Screen.scroll (s : Screen) : Screen :=
  { s with
    cells := fun y x =>
      if x < t.cols then
        if t.top ≤ y ∧ y < t.bottom then s.cells (y + 1) x else if y = t.bottom then 0x20 else s.cells y x
      else s.cells y x
    y := t.bottom }

def Screen.setCursor (s : Screen) (x y : Nat) : Screen :=
  { s with x := if x ≥ t.cols then t.cols - 1 else x, y := if y ≥ t.rows then t.rows - 1 else y }

/-- What `vga_putc` does with the character, before it looks at the margins. -/
def Screen.emit (s : Screen) (c : UInt8) : Screen :=
  if c = 0x0A then { s with x := 0, y := s.y + 1 }
  else if c = 0x0D then { s with x := 0 }
  else if c = 0x09 then { s with x := (s.x + 8) / 8 * 8 }
  else if c = 0x08 then { s with x := if s.x > 0 then s.x - 1 else s.x }
  else { s.putcAt t c s.x s.y with x := s.x + 1 }

def Screen.putc (s : Screen) (c : UInt8) : Screen :=
  let s := s.emit t c
  let s := if s.x ≥ t.cols then { s with x := 0, y := s.y + 1 } else s
  let s := if s.y > t.bottom then s.scroll t else s
  s.setCursor t s.x s.y

def Screen.puts (s : Screen) (str : List UInt8) : Screen := str.foldl (Screen.putc t) s

variable {t}

theorem Screen.puts_append (s : Screen) (a b : List UInt8) : s.puts t (a ++ b) = (s.puts t a).puts t b :=
  List.foldl_append

theorem Screen.putc_inside (s : Screen) (c : UInt8) : (s.putc t c).x < t.cols ∧ (s.putc t c).y ≤ t.bottom := by
  have hcols := t.cols_pos
  have hbottom := t.bottom_lt
  unfold putc
  dsimp only
  generalize s.emit t c = s
  have hwrap : (if s.x ≥ t.cols then { s with x := 0, y := s.y + 1 } else s).x < t.cols := by
    split
    · exact hcols
    · omega
  generalize (if s.x ≥ t.cols then { s with x := 0, y := s.y + 1 } else s) = s at hwrap ⊢
  have hscroll : (if s.y > t.bottom then s.scroll t else s).x < t.cols ∧
      (if s.y > t.bottom then s.scroll t else s).y ≤ t.bottom := by
    split
    · exact ⟨hwrap, Nat.le_refl _⟩
    · exact ⟨hwrap, by omega⟩
  generalize (if s.y > t.bottom then s.scroll t else s) = s at hscroll ⊢
  unfold setCursor
  dsimp only
  rw [if_neg (by omega), if_neg (by omega)]
  exact hscroll

theorem Screen.puts_inside (s : Screen) {str : List UInt8} (hne : str ≠ []) :
    (s.puts t str).x < t.cols ∧ (s.puts t str).y ≤ t.bottom := by
  rw [← List.dropLast_concat_getLast hne, puts_append]
  exact putc_inside _ _

/-! ### One row -/

def Printable (c : UInt8) : Prop := 32 ≤ c.toNat ∧ c.toNat ≤ 126

/-- The screen with `f` in the row of the cursor, from the cursor on, and the cursor `col` columns
    further. -/
def Screen.draw (base : Screen) (f : Nat → UInt8) (col : Nat) : Screen where
  cells := fun y x => if y = base.y ∧ base.x ≤ x then f (x - base.x) else base.cells y x
  x := base.x + col
  y := base.y

theorem Screen.draw_self (base : Screen) : base.draw (fun i => base.cells base.y (base.x + i)) 0 = base := by
  refine Screen.ext (funext fun y => funext fun x => ?_) rfl rfl
  simp only [draw]
  split
  · rename_i h
    rw [h.1, Nat.add_sub_cancel' h.2]
  · rfl

section

variable {base : Screen} {f : Nat → UInt8} {col : Nat}

theorem Screen.putc_of_inside {s : Screen} {c : UInt8} (hx : (s.emit t c).x < t.cols)
    (hy : (s.emit t c).y ≤ t.bottom) : s.putc t c = s.emit t c := by
  have hbottom := t.bottom_lt
  unfold putc
  dsimp only
  generalize s.emit t c = s at hx hy ⊢
  rw [if_neg (Nat.not_le.mpr hx), if_neg (Nat.not_lt.mpr hy)]
  unfold setCursor
  rw [if_neg (Nat.not_le.mpr hx), if_neg (by omega)]

theorem Screen.putc_printable (hy : base.y ≤ t.bottom) {c : UInt8} (hc : Printable c)
    (hfits : base.x + col + 1 < t.cols) :
    (base.draw f col).putc t c = base.draw (update f col c) (col + 1) := by
  obtain ⟨hlo, hhi⟩ := hc
  have hbottom := t.bottom_lt
  have hemit : (base.draw f col).emit t c = base.draw (update f col c) (col + 1) := by
    unfold emit
    rw [if_neg (by rintro rfl; revert hlo; decide), if_neg (by rintro rfl; revert hlo; decide),
      if_neg (by rintro rfl; revert hlo; decide), if_neg (by rintro rfl; revert hlo; decide)]
    have hplace : (base.draw f col).x < t.cols ∧ (base.draw f col).y < t.rows :=
      ⟨show base.x + col < t.cols by omega, show base.y < t.rows by omega⟩
    rw [putcAt, if_pos hplace]
    refine Screen.ext (funext fun y => funext fun x => ?_) rfl rfl
    show (if y = base.y ∧ x = base.x + col then c else
        if y = base.y ∧ base.x ≤ x then f (x - base.x) else base.cells y x) =
      if y = base.y ∧ base.x ≤ x then update f col c (x - base.x) else base.cells y x
    rw [update_apply]
    by_cases hrow : y = base.y ∧ base.x ≤ x
    · rw [if_pos hrow, if_pos hrow]
      by_cases hcol : x = base.x + col
      · rw [if_pos ⟨hrow.1, hcol⟩, if_pos (by omega)]
      · rw [if_neg fun h => hcol h.2, if_neg (by omega)]
    · rw [if_neg hrow, if_neg hrow, if_neg (by omega)]
  rw [putc_of_inside, hemit]
  · rw [hemit]
    exact hfits
  · rw [hemit]
    exact hy

theorem Screen.putc_backspace (hy : base.y ≤ t.bottom) (hpos : 0 < col) (hfits : base.x + col < t.cols) :
    (base.draw f col).putc t 0x08 = base.draw f (col - 1) := by
  have hx : (base.draw f col).x = base.x + col := rfl
  have hemit : (base.draw f col).emit t 0x08 = base.draw f (col - 1) := by
    unfold emit
    rw [if_neg (by decide), if_neg (by decide), if_neg (by decide), if_pos rfl, hx, if_pos (by omega),
      Nat.add_sub_assoc hpos]
    rfl
  rw [putc_of_inside, hemit]
  · rw [hemit]
    show base.x + (col - 1) < t.cols
    omega
  · rw [hemit]
    exact hy

def splice (f : Nat → UInt8) (col : Nat) (text : List UInt8) : Nat → UInt8 := fun i =>
  if col ≤ i ∧ i < col + text.length then text.getD (i - col) 0 else f i

theorem Screen.puts_printable (hy : base.y ≤ t.bottom) {text : List UInt8} (htext : ∀ c ∈ text, Printable c)
    (hfits : base.x + col + text.length < t.cols) :
    (base.draw f col).puts t text = base.draw (splice f col text) (col + text.length) := by
  induction text generalizing f col with
  | nil =>
    have hsame : splice f col [] = f := funext fun i => if_neg fun h => by simp at h; omega
    rw [hsame]
    rfl
  | cons c text ih =>
    rw [List.length_cons] at hfits
    obtain ⟨hc, htext⟩ := List.forall_mem_cons.mp htext
    have hstep : (base.draw f col).puts t (c :: text) =
        ((base.draw f col).putc t c).puts t text := rfl
    rw [hstep, putc_printable hy hc (by omega), ih htext (by omega), List.length_cons]
    have hsplice : splice (update f col c) (col + 1) text = splice f col (c :: text) := by
      funext i
      simp only [splice, List.length_cons, update_apply]
      rcases Nat.lt_trichotomy i col with hlt | rfl | hgt
      · rw [if_neg (by omega), if_neg (by omega), if_neg (by omega)]
      · rw [if_neg (by omega), if_pos rfl, if_pos (by omega), Nat.sub_self]
        rfl
      · obtain ⟨k, rfl⟩ := Nat.exists_eq_add_of_lt hgt
        have hk : col + k + 1 - col = k + 1 := by omega
        have hk' : col + k + 1 - (col + 1) = k := by omega
        rw [hk, hk', List.getD_cons_succ]
        by_cases hin : k < text.length
        · rw [if_pos (by omega), if_pos (by omega)]
        · rw [if_neg (by omega), if_neg (by omega), if_neg (by omega)]
    rw [hsplice, Nat.add_assoc, Nat.add_comm 1]

theorem Screen.puts_backspaces (hy : base.y ≤ t.bottom) {n : Nat} (hn : n ≤ col)
    (hfits : base.x + col < t.cols) :
    (base.draw f col).puts t (List.replicate n 0x08) = base.draw f (col - n) := by
  induction n generalizing col with
  | zero => rfl
  | succ n ih =>
    have hstep : (base.draw f col).puts t (List.replicate (n + 1) 0x08) =
        ((base.draw f col).putc t 0x08).puts t (List.replicate n 0x08) := rfl
    rw [hstep, putc_backspace hy (by omega) hfits, ih (by omega) (by omega), Nat.sub_sub, Nat.add_comm 1 n]

/-- `"\b \b"`, so many times: the characters before the cursor are gone. -/
def rubout (n : Nat) : List UInt8 := (List.replicate n [0x08, 0x20, 0x08]).flatten

theorem Screen.puts_rubout (hy : base.y ≤ t.bottom) {n : Nat} (hn : n ≤ col) (hfits : base.x + col < t.cols) :
    (base.draw f col).puts t (rubout n) = base.draw (splice f (col - n) (List.replicate n 0x20)) (col - n) := by
  have hspace : Printable 0x20 := by unfold Printable; decide
  induction n generalizing f col with
  | zero =>
    have hsame : splice f (col - 0) (List.replicate 0 0x20) = f :=
      funext fun i => if_neg fun h => by simp at h; omega
    rw [hsame]
    rfl
  | succ n ih =>
    have hstep : (base.draw f col).puts t (rubout (n + 1)) =
        ((((base.draw f col).putc t 0x08).putc t 0x20).putc t 0x08).puts t (rubout n) := rfl
    rw [hstep, putc_backspace hy (by omega) hfits, putc_printable hy hspace (by omega),
      putc_backspace hy (Nat.succ_pos _) (by omega), ih (by omega) (by omega)]
    have hcol : col - 1 + 1 - 1 - n = col - (n + 1) := by omega
    have hsplice : splice (update f (col - 1) 0x20) (col - (n + 1)) (List.replicate n 0x20) =
        splice f (col - (n + 1)) (List.replicate (n + 1) 0x20) := by
      funext i
      simp only [splice, List.length_replicate, update_apply]
      by_cases hlast : i = col - 1
      · rw [if_neg (by omega), if_pos hlast, if_pos (by omega), List.getD_replicate _ (by omega)]
      · by_cases hin : col - (n + 1) ≤ i ∧ i < col - (n + 1) + n
        · rw [if_pos hin, if_pos (by omega), List.getD_replicate _ (by omega), List.getD_replicate _ (by omega)]
        · rw [if_neg hin, if_neg hlast, if_neg (by omega)]
    rw [hcol, hsplice]

end

end Gemios.Vga
