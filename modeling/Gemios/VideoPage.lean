import Gemios.Vga
import Gemios.VideoRun

/-!
# The console as a page

What a program prints is an unbounded page, and the console shows the part of it around the cursor.
Between the two stands the terminal that knows characters and margins only: it scrolls like
`vga_scroll`, and the page never does.
-/

namespace Gemios.Vga

/-! ### The page -/

/-- Rows without end, and where the next character goes. -/
structure Page where
  cells : Nat → Nat → UInt8
  x : Nat
  y : Nat

/-- An empty page, with the cursor at the beginning of a row. -/
def Page.blank (y : Nat) : Page := ⟨fun _ _ => 0x20, 0, y⟩

def Page.emit (p : Page) (c : UInt8) : Page :=
  if c = 0x0A then { p with x := 0, y := p.y + 1 }
  else if c = 0x0D then { p with x := 0 }
  else if c = 0x09 then { p with x := (p.x + 8) / 8 * 8 }
  else if c = 0x08 then { p with x := if p.x > 0 then p.x - 1 else p.x }
  else { p with cells := fun y x => if y = p.y ∧ x = p.x then c else p.cells y x, x := p.x + 1 }

/-- The page has `cols` columns: behind the last one, the next row begins. -/
def Page.putc (cols : Nat) (p : Page) (c : UInt8) : Page :=
  let p := p.emit c
  if p.x ≥ cols then { p with x := 0, y := p.y + 1 } else p

def Page.puts (cols : Nat) (p : Page) (s : List UInt8) : Page := s.foldl (Page.putc cols) p

/-- A terminal shows the page around the cursor: all of it, until the last row is reached, and then
    the last rows; below the cursor the page is empty. -/
structure Window (t : Terminal) (p : Page) (s : Screen) : Prop where
  x_eq : s.x = p.x
  y_eq : s.y = min p.y t.bottom
  top_le : t.top ≤ s.y
  cells : ∀ y x, t.top ≤ y → y ≤ t.bottom → x < t.cols → s.cells y x = p.cells (y + (p.y - s.y)) x
  empty : ∀ y x, p.y < y → x < t.cols → p.cells y x = 0x20

/-- A terminal on the new row that it has still to make room for. -/
structure Ahead (t : Terminal) (p : Page) (s : Screen) : Prop where
  x_eq : s.x = p.x
  y_eq : s.y = t.bottom + 1
  y_le : s.y ≤ p.y
  cells : ∀ y x, t.top ≤ y → y ≤ t.bottom → x < t.cols → s.cells y x = p.cells (y + (p.y - s.y)) x
  empty : ∀ y x, p.y ≤ y → x < t.cols → p.cells y x = 0x20

variable {t : Terminal} {p : Page} {s : Screen}

theorem Window.moveTo (h : Window t p s) (x : Nat) : Window t { p with x := x } { s with x := x } :=
  ⟨rfl, h.y_eq, h.top_le, h.cells, h.empty⟩

theorem Window.newRow (h : Window t p s) :
    Window t { p with x := 0, y := p.y + 1 } { s with x := 0, y := s.y + 1 } ∨
      Ahead t { p with x := 0, y := p.y + 1 } { s with x := 0, y := s.y + 1 } := by
  have hy := h.y_eq
  have htop := h.top_le
  have hshift : p.y + 1 - (s.y + 1) = p.y - s.y := by omega
  by_cases hroom : s.y < t.bottom
  · left
    refine ⟨rfl, ?_, ?_, ?_, ?_⟩
    · show s.y + 1 = min (p.y + 1) t.bottom
      omega
    · show t.top ≤ s.y + 1
      omega
    · intro y x hlo hhi hx
      show s.cells y x = p.cells (y + (p.y + 1 - (s.y + 1))) x
      rw [hshift]
      exact h.cells y x hlo hhi hx
    · intro y x hlt hx
      exact h.empty y x (Nat.lt_of_succ_lt hlt) hx
  · right
    refine ⟨rfl, ?_, ?_, ?_, ?_⟩
    · show s.y + 1 = t.bottom + 1
      omega
    · show s.y + 1 ≤ p.y + 1
      omega
    · intro y x hlo hhi hx
      show s.cells y x = p.cells (y + (p.y + 1 - (s.y + 1))) x
      rw [hshift]
      exact h.cells y x hlo hhi hx
    · intro y x hle hx
      exact h.empty y x hle hx

theorem Window.put (h : Window t p s) (hx : s.x < t.cols) (c : UInt8) :
    Window t { p with cells := fun y x => if y = p.y ∧ x = p.x then c else p.cells y x, x := p.x + 1 }
      { s.putcAt t c s.x s.y with x := s.x + 1 } := by
  have hy := h.y_eq
  have hbottom := t.bottom_lt
  have hplace : s.x < t.cols ∧ s.y < t.rows := ⟨hx, by omega⟩
  unfold Screen.putcAt
  rw [if_pos hplace]
  refine ⟨?_, hy, h.top_le, ?_, ?_⟩
  · show s.x + 1 = p.x + 1
    rw [h.x_eq]
  · intro y x hlo hhi hx
    show (if y = s.y ∧ x = s.x then c else s.cells y x) =
      if y + (p.y - s.y) = p.y ∧ x = p.x then c else p.cells (y + (p.y - s.y)) x
    have hsame : (y = s.y ∧ x = s.x) ↔ y + (p.y - s.y) = p.y ∧ x = p.x := by
      rw [h.x_eq]
      omega
    simp only [hsame]
    split
    · rfl
    · exact h.cells y x hlo hhi hx
  · intro y x hlt hx
    show (if y = p.y ∧ x = p.x then c else p.cells y x) = 0x20
    rw [if_neg fun heq => Nat.ne_of_gt hlt heq.1]
    exact h.empty y x hlt hx

theorem Ahead.scroll (h : Ahead t p s) (htop : t.top ≤ t.bottom) : Window t p (s.scroll t) := by
  have hy := h.y_eq
  have hle := h.y_le
  refine ⟨h.x_eq, ?_, htop, ?_, ?_⟩
  · show t.bottom = min p.y t.bottom
    omega
  · intro y x hlo hhi hx
    show (if x < t.cols then if t.top ≤ y ∧ y < t.bottom then s.cells (y + 1) x else
      if y = t.bottom then 0x20 else s.cells y x else s.cells y x) = p.cells (y + (p.y - t.bottom)) x
    rw [if_pos hx]
    split
    · rename_i hin
      rw [h.cells (y + 1) x (by omega) (by omega) hx]
      congr 1
      omega
    · rw [if_pos (by omega)]
      exact (h.empty _ x (by omega) hx).symm
  · intro y x hlt hx
    exact h.empty y x (Nat.le_of_lt hlt) hx

theorem Window.wrap (h : Window t p s) :
    let p' : Page := if p.x ≥ t.cols then { p with x := 0, y := p.y + 1 } else p
    let s' : Screen := if s.x ≥ t.cols then { s with x := 0, y := s.y + 1 } else s
    (Window t p' s' ∨ Ahead t p' s') ∧ s'.x < t.cols := by
  have hcols := t.cols_pos
  dsimp only
  rw [h.x_eq]
  split
  · exact ⟨h.newRow, hcols⟩
  · rename_i hin
    refine ⟨.inl h, ?_⟩
    rw [h.x_eq]
    omega

theorem settle (htop : t.top ≤ t.bottom) (h : Window t p s ∨ Ahead t p s) (hx : s.x < t.cols) :
    let s' := if s.y > t.bottom then s.scroll t else s
    Window t p (s'.setCursor t s'.x s'.y) ∧ (s'.setCursor t s'.x s'.y).x < t.cols := by
  have hbottom := t.bottom_lt
  have hclamp : ∀ s' : Screen, s'.x < t.cols → Window t p s' →
      Window t p (s'.setCursor t s'.x s'.y) ∧ (s'.setCursor t s'.x s'.y).x < t.cols := by
    intro s' hx' h'
    have hy := h'.y_eq
    have hsame : s'.setCursor t s'.x s'.y = s' := by
      unfold Screen.setCursor
      rw [if_neg (by omega), if_neg (by omega)]
    rw [hsame]
    exact ⟨h', hx'⟩
  dsimp only
  rcases h with h | h
  · have hy := h.y_eq
    rw [if_neg (by omega)]
    exact hclamp s hx h
  · have hy := h.y_eq
    rw [if_pos (by omega)]
    exact hclamp (s.scroll t) hx (h.scroll htop)

theorem Window.putc (htop : t.top ≤ t.bottom) (h : Window t p s) (hx : s.x < t.cols) (c : UInt8) :
    Window t (p.putc t.cols c) (s.putc t c) ∧ (s.putc t c).x < t.cols := by
  have hcols := t.cols_pos
  have hemit : Window t (p.emit c) (s.emit t c) ∨ c = 0x0A := by
    unfold Page.emit Screen.emit
    split
    · rename_i hc
      exact .inr hc
    · left
      rw [← h.x_eq]
      split
      · exact h.moveTo 0
      · split
        · exact h.moveTo _
        · split
          · exact h.moveTo _
          · have hput := h.put hx c
            rw [← h.x_eq] at hput
            exact hput
  rcases hemit with hemit | rfl
  · obtain ⟨hstep, hx'⟩ := hemit.wrap
    exact settle htop hstep hx'
  · have hp : p.putc t.cols 0x0A = { p with x := 0, y := p.y + 1 } := by
      unfold Page.putc Page.emit
      rw [if_pos rfl]
      exact if_neg (Nat.not_le.mpr hcols)
    have hs : s.emit t 0x0A = { s with x := 0, y := s.y + 1 } := if_pos rfl
    have hrow := settle htop h.newRow hcols
    unfold Screen.putc
    rw [hp, hs]
    dsimp only at hrow ⊢
    rw [if_neg (Nat.not_le.mpr hcols)]
    exact hrow

/-! ### The console and the terminal -/

/-- The margins that `vga_init` has set. -/
def Mode.terminal (m : Mode) (hm : m.Good) : Terminal := ⟨m.cols, m.rows, m.top, m.bottom, hm.cols_pos, hm.bottom_lt⟩

variable {m : Mode} {font : Font}

/-- The terminal has the characters of the shadow buffer, and its cursor. -/
structure Video.Matches (m : Mode) (v : Video) (s : Screen) : Prop where
  cells : ∀ p : m.Spot, (v.entry p).uc = s.cells p.row p.col
  x_eq : v.x = s.x
  y_eq : v.y = s.y

section

variable (hm : m.Good)
include hm

theorem Video.Matches.putcAt (font : Font) {v : Video} (h : v.Matches m s) (c color : UInt8) (x y : Nat) :
    (v.putcAt m font c color x y).Matches m (s.putcAt (m.terminal hm) c x y) := by
  have hpaint := putcAt_paints hm font v c color x y
  have hdrew := putcAt_drew hm font v c color x y
  have hcursor : (s.putcAt (m.terminal hm) c x y).x = s.x ∧ (s.putcAt (m.terminal hm) c x y).y = s.y := by
    unfold Screen.putcAt
    split <;> exact ⟨rfl, rfl⟩
  refine ⟨?_, ?_, ?_⟩
  · intro p
    have hcol := p.col_lt
    have hrow := p.row_lt
    have hcells : (s.putcAt (m.terminal hm) c x y).cells p.row p.col =
        if p.row = y ∧ p.col = x then c else s.cells p.row p.col := by
      unfold Screen.putcAt
      split
      · rfl
      · rename_i hout
        rw [if_neg]
        rintro ⟨rfl, rfl⟩
        exact hout ⟨hcol, hrow⟩
    rw [hcells]
    by_cases hp : p.col = x ∧ p.row = y
    · rw [if_pos hp.symm]
      have hlook := hpaint.inside p hp
      exact congrArg (fun e => e.1.uc) hlook
    · rw [if_neg fun h => hp h.symm, ← h.cells p]
      have hlook := hpaint.outside p hp
      exact congrArg (fun e => e.1.uc) hlook
  · rw [hdrew.x, hcursor.1]
    exact h.x_eq
  · rw [hdrew.y, hcursor.2]
    exact h.y_eq

theorem Video.Matches.scroll {v : Video} (h : v.Matches m s) : (v.scroll m).Matches m (s.scroll (m.terminal hm)) := by
  have hbottom := hm.bottom_lt
  refine ⟨?_, ?_, rfl⟩
  · intro p
    have hcells : (s.scroll (m.terminal hm)).cells p.row p.col =
        if m.top ≤ p.row ∧ p.row < m.bottom then s.cells (p.row + 1) p.col
        else if p.row = m.bottom then 0x20 else s.cells p.row p.col := if_pos p.col_lt
    rw [scroll_entry hm, hcells]
    split
    · rename_i hin
      exact h.cells (p.below (by omega))
    · split
      · rfl
      · exact h.cells p
  · have hx : (v.scroll m).x = v.x :=
      ((scrollCells_drew v).trans ((blankCells_drew _ _).trans (scrollPixels_drew hm _))).x
    rw [hx]
    exact h.x_eq

theorem Video.Matches.setCursor {v : Video} (h : v.Matches m s) (x y : Nat) :
    (v.setCursor m x y).Matches m (s.setCursor (m.terminal hm) x y) := by
  obtain ⟨hshadow, -, -⟩ := setCursor_screen (m := m) v x y
  obtain ⟨hx, hy⟩ := setCursor_cursor (m := m) v x y
  refine ⟨?_, hx, hy⟩
  intro p
  unfold entry
  rw [hshadow]
  exact h.cells p

theorem Video.Matches.emit (font : Font) {v : Video} (h : v.Matches m s) (c : UInt8) :
    (v.emit m font c).Matches m (s.emit (m.terminal hm) c) := by
  obtain ⟨hcells, hx, hy⟩ := h
  unfold Video.emit Screen.emit
  rw [← hx, ← hy]
  split
  · exact ⟨hcells, rfl, rfl⟩
  · split
    · exact ⟨hcells, rfl, rfl⟩
    · split
      · exact ⟨hcells, rfl, rfl⟩
      · split
        · exact ⟨hcells, rfl, rfl⟩
        · have hput := putcAt hm font ⟨hcells, hx, hy⟩ c v.color v.x v.y
          exact ⟨hput.cells, rfl, hput.y_eq⟩

theorem Video.Matches.putc {v : Video} (h : v.Matches m s) (c : UInt8) :
    (v.putc m font c).Matches m (s.putc (m.terminal hm) c) := by
  have hemit := h.emit hm font c
  unfold Video.putc Screen.putc
  dsimp only
  generalize v.emit m font c = v at hemit ⊢
  generalize s.emit (m.terminal hm) c = s at hemit ⊢
  have hwrap : (if v.x ≥ m.cols then { v with x := 0, y := v.y + 1 } else v).Matches m
      (if s.x ≥ (m.terminal hm).cols then { s with x := 0, y := s.y + 1 } else s) := by
    rw [← hemit.x_eq]
    show Matches m _ (if v.x ≥ m.cols then _ else _)
    split
    · exact ⟨hemit.cells, rfl, congrArg (· + 1) hemit.y_eq⟩
    · exact hemit
  generalize (if v.x ≥ m.cols then { v with x := 0, y := v.y + 1 } else v) = v at hwrap ⊢
  generalize (if s.x ≥ (m.terminal hm).cols then { s with x := 0, y := s.y + 1 } else s) = s at hwrap ⊢
  have hscroll : (if v.y > m.bottom then v.scroll m else v).Matches m
      (if s.y > (m.terminal hm).bottom then s.scroll (m.terminal hm) else s) := by
    rw [← hwrap.y_eq]
    show Matches m _ (if v.y > m.bottom then _ else _)
    split
    · exact hwrap.scroll hm
    · exact hwrap
  have hcursor := hscroll.setCursor hm (if v.y > m.bottom then v.scroll m else v).x
    (if v.y > m.bottom then v.scroll m else v).y
  rw [hscroll.x_eq, hscroll.y_eq] at hcursor ⊢
  exact hcursor

/-! ### What printing does not touch -/

/-- Between the margins everything is in the colour of the text, and the other rows are as in `u`. -/
structure Video.Printed (m : Mode) (u v : Video) : Prop where
  color : v.color = u.color
  inside : ∀ s : m.Spot, m.top ≤ s.row → s.row ≤ m.bottom → (v.entry s).color = u.color
  outside : ∀ s : m.Spot, ¬ (m.top ≤ s.row ∧ s.row ≤ m.bottom) → v.entry s = u.entry s

omit hm in
theorem Video.Printed.of_shadow {u v v' : Video} (h : u.Printed m v) (hshadow : v'.shadow = v.shadow)
    (hcolor : v'.color = v.color) : u.Printed m v' := by
  have hentry : ∀ s : m.Spot, v'.entry s = v.entry s := fun s => congrFun hshadow _
  refine ⟨hcolor.trans h.color, ?_, ?_⟩
  · intro s hlo hhi
    rw [hentry]
    exact h.inside s hlo hhi
  · intro s hs
    rw [hentry]
    exact h.outside s hs

theorem Video.Printed.emit (font : Font) {u v : Video} (h : u.Printed m v) (htop : m.top ≤ v.y) (hbottom : v.y ≤ m.bottom)
    (c : UInt8) : u.Printed m (v.emit m font c) := by
  have hput : u.Printed m (v.putcAt m font c v.color v.x v.y) := by
    have hpaint := putcAt_paints hm font v c v.color v.x v.y
    refine ⟨(putcAt_drew hm font v c v.color v.x v.y).color.trans h.color, ?_, ?_⟩
    · intro s hlo hhi
      by_cases hs : s.col = v.x ∧ s.row = v.y
      · have hentry := congrArg Prod.fst (hpaint.inside s hs)
        dsimp only [look] at hentry
        rw [hentry]
        exact h.color
      · have hentry := congrArg Prod.fst (hpaint.outside s hs)
        dsimp only [look] at hentry
        rw [hentry]
        exact h.inside s hlo hhi
    · intro s hs
      have hentry := congrArg Prod.fst (hpaint.outside s (by omega))
      dsimp only [look] at hentry
      rw [hentry]
      exact h.outside s hs
  unfold Video.emit
  split
  · exact h.of_shadow rfl rfl
  · split
    · exact h.of_shadow rfl rfl
    · split
      · exact h.of_shadow rfl rfl
      · split
        · exact h.of_shadow rfl rfl
        · exact hput.of_shadow rfl rfl

theorem Video.Printed.scroll {u v : Video} (h : u.Printed m v) : u.Printed m (v.scroll m) := by
  have hlt := hm.bottom_lt
  have hle := hm.top_le
  have hcolor : (v.scroll m).color = v.color :=
    ((scrollCells_drew v).trans ((blankCells_drew _ _).trans (scrollPixels_drew hm _))).color
  refine ⟨hcolor.trans h.color, ?_, ?_⟩
  · intro s hlo hhi
    rw [scroll_entry hm]
    split
    · rename_i hin
      have hrow : m.top ≤ s.row + 1 ∧ s.row + 1 ≤ m.bottom := by omega
      exact h.inside (s.below (by omega)) hrow.1 hrow.2
    · rw [if_pos (by omega)]
      exact h.color
  · intro s hs
    rw [scroll_entry hm, if_neg (by omega), if_neg (by omega)]
    exact h.outside s hs

theorem Video.Printed.putc {u v : Video} (h : u.Printed m v) (htop : m.top ≤ v.y) (hbottom : v.y ≤ m.bottom)
    (c : UInt8) : u.Printed m (v.putc m font c) := by
  have hemit := h.emit hm font htop hbottom c
  unfold Video.putc
  dsimp only
  generalize v.emit m font c = v at hemit
  have hwrap : u.Printed m (if v.x ≥ m.cols then { v with x := 0, y := v.y + 1 } else v) := by
    split
    · exact hemit.of_shadow rfl rfl
    · exact hemit
  generalize (if v.x ≥ m.cols then { v with x := 0, y := v.y + 1 } else v) = v at hwrap
  have hscroll : u.Printed m (if v.y > m.bottom then v.scroll m else v) := by
    split
    · exact hwrap.scroll hm
    · exact hwrap
  obtain ⟨hshadow, -, hcolor⟩ := setCursor_screen (m := m) (if v.y > m.bottom then v.scroll m else v)
    (if v.y > m.bottom then v.scroll m else v).x (if v.y > m.bottom then v.scroll m else v).y
  exact hscroll.of_shadow hshadow hcolor

/-! ### From the page to the display -/

theorem Video.putsAt_other (font : Font) (color : UInt8) {y : Nat} {s : m.Spot} (hs : s.row ≠ y)
    (text : List UInt8) (x : Nat) (v : Video) : (putsAt m font color y text x v).entry s = v.entry s := by
  induction text generalizing x v with
  | nil => rfl
  | cons c text ih =>
    unfold putsAt
    split
    · rw [ih]
      have hlook := (putcAt_paints hm font v c color x y).outside s fun h => hs h.2
      exact congrArg Prod.fst hlook
    · rfl

theorem Video.drawStatusBar_other (font : Font) (v : Video) {s : m.Spot} (hzero : s.row ≠ 0)
    (hfooter : s.row ≠ footerRow m) : (v.drawStatusBar m font).entry s = v.entry s := by
  have hblank : ∀ (color : UInt8) (y : Nat) (v : Video), s.row ≠ y → (v.blankRow m font color y).entry s = v.entry s := by
    intro color y v hs
    exact congrArg Prod.fst ((blankRow_paints hm v color y).outside s hs)
  unfold drawStatusBar
  rw [putsAt_other hm font _ hfooter, hblank _ _ _ hfooter, putsAt_other hm font _ hzero, hblank _ _ _ hzero]

theorem Video.clear_blank (font : Font) (hfooter : m.bottom + 1 < m.rows) (v : Video) {s : m.Spot} (hlo : m.top ≤ s.row)
    (hhi : s.row ≤ m.bottom) : (v.clear m font).entry s = ⟨0x20, v.color⟩ := by
  have htop := hm.top_eq
  have hrow : s.row ≠ footerRow m := by
    unfold footerRow
    split <;> omega
  have hclear := (clear_paints hm font v).inside s ⟨hlo, hhi⟩
  obtain ⟨hshadow, -, -⟩ := setCursor_screen (m := m) ((v.clearCells m).clearPixels m) 0 m.top
  unfold clear
  rw [drawStatusBar_other hm font _ (by omega) hrow]
  unfold entry
  rw [hshadow]
  exact congrArg Prod.fst hclear

/-- The console shows a page: in the rows between the margins, all of it or, when it is longer, the
    part that ends at the row of the cursor; the other rows are as in `u`. -/
structure Video.ShowsPage (m : Mode) (font : Font) (v u : Video) (p : Page) : Prop where
  x_eq : v.x = p.x
  y_eq : v.y = min p.y m.bottom
  text : ∀ s : m.Spot, m.top ≤ s.row → s.row ≤ m.bottom →
    m.shown v.mem s = s.drawn font ⟨p.cells (s.row + (p.y - v.y)) s.col, u.color⟩
  bars : ∀ s : m.Spot, ¬ (m.top ≤ s.row ∧ s.row ≤ m.bottom) → m.shown v.mem s = s.drawn font (u.entry s)

/-- The console has printed the page `p` since `u`, and a terminal has followed it. -/
structure Video.Follows (hm : m.Good) (font : Font) (v u : Video) (p : Page) (s : Screen) : Prop where
  matches_terminal : v.Matches m s
  window : Window (m.terminal hm) p s
  x_lt : s.x < m.cols
  printed : u.Printed m v
  showing : v.Showing m font u.mem

theorem Video.Follows.putc {u v : Video} (h : v.Follows hm font u p s) (c : UInt8) :
    (v.putc m font c).Follows hm font u (p.putc m.cols c) (s.putc (m.terminal hm) c) := by
  have hy : s.y = min p.y m.bottom := h.window.y_eq
  have htop : m.top ≤ v.y := by
    rw [h.matches_terminal.y_eq]
    exact h.window.top_le
  have hbottom : v.y ≤ m.bottom := by
    rw [h.matches_terminal.y_eq]
    omega
  obtain ⟨hwindow, hx⟩ := h.window.putc hm.top_le h.x_lt c
  exact ⟨h.matches_terminal.putc hm c, hwindow, hx, h.printed.putc hm htop hbottom c, putc_showing hm h.showing c⟩

theorem Video.Follows.puts {u v : Video} (h : v.Follows hm font u p s) (text : List UInt8) :
    (v.puts m font text).Follows hm font u (p.puts m.cols text) (s.puts (m.terminal hm) text) := by
  induction text generalizing v s p with
  | nil => exact h
  | cons c text ih => exact ih (h.putc hm c)

omit hm in
theorem Video.Follows.shows {hm : m.Good} {u v : Video} (h : v.Follows hm font u p s) : v.ShowsPage m font u p := by
  refine ⟨h.matches_terminal.x_eq.trans h.window.x_eq, h.matches_terminal.y_eq.trans h.window.y_eq, ?_, ?_⟩
  · intro k hlo hhi
    have hcell := h.window.cells k.row k.col hlo hhi k.col_lt
    rw [← h.matches_terminal.cells k, ← h.matches_terminal.y_eq] at hcell
    have hentry : v.entry k = ⟨p.cells (k.row + (p.y - v.y)) k.col, u.color⟩ := by
      rw [← hcell, ← h.printed.inside k hlo hhi]
    have hshown := h.showing.mirrors k trivial
    rw [hentry] at hshown
    exact hshown
  · intro k hk
    have hshown := h.showing.mirrors k trivial
    rw [h.printed.outside k hk] at hshown
    exact hshown

theorem Video.clear_color (font : Font) (v : Video) : (v.clear m font).color = v.color := by
  unfold clear
  rw [(drawStatusBar_drew hm font _).color, (setCursor_screen _ 0 m.top).2.2, (clearPixels_drew hm _).color,
    (clearCells_drew v).color]

theorem Video.clear_follows (font : Font) (hfooter : m.bottom + 1 < m.rows) (v : Video) :
    (v.clear m font).Follows hm font (v.clear m font) (Page.blank m.top)
      ⟨fun y x => ((v.clear m font).shadow (y * 256 + x)).uc, 0, m.top⟩ := by
  have htop := hm.top_le
  have hcols := hm.cols_pos
  have hbottom := hm.bottom_lt
  have hdrew : (((v.clearCells m).clearPixels m).setCursor m 0 m.top).Drew m (v.clear m font) :=
    Video.drawStatusBar_drew hm font _
  obtain ⟨hx, hy⟩ := Video.setCursor_cursor (m := m) ((v.clearCells m).clearPixels m) 0 m.top
  have hcolor := clear_color hm font v
  rw [if_neg (by omega), ← hdrew.x] at hx
  rw [if_neg (by omega), ← hdrew.y] at hy
  refine ⟨⟨fun _ => rfl, hx, hy⟩, ⟨rfl, ?_, Nat.le_refl _, ?_, ?_⟩, hcols, ⟨rfl, ?_, fun _ _ => rfl⟩,
    ⟨clear_mirrors hm v, clear_cursor hm v, .refl _⟩⟩
  · exact (Nat.min_eq_left htop).symm
  · intro y x hlo hhi hx
    have hpos : 0 < m.depth := by
      unfold Mode.depth
      cases hfb : m.fb with
      | none => decide
      | some fb => rcases (hm.ok fb hfb).depth with h | h | h | h <;> dsimp only <;> rw [h] <;> decide
    have hhi' : y ≤ m.bottom := hhi
    have hblank := clear_blank hm font hfooter v
      (s := (⟨x, y, 0, 0, 0, hx, by omega, by decide, by decide, hpos⟩ : m.Spot)) hlo hhi
    exact congrArg Entry.uc hblank
  · intro y x _ _
    rfl
  · intro s hlo hhi
    rw [clear_blank hm font hfooter v hlo hhi, hcolor]

end

/-- What is printed after `vga_clear` is a page, and the console shows it: the display has, between the
    margins, the rows of the page around the cursor, and elsewhere what it had. -/
theorem clear_puts_shows_page (font : Font) {mbi : Option MultibootInfo} {vbe : Option Nat}
    (hok : ∀ fb, (Mode.find mbi vbe).fb = some fb → fb.Ok)
    (hfooter : (Mode.find mbi vbe).bottom + 1 < (Mode.find mbi vbe).rows) (v : Video) (text : List UInt8) :
    let m := Mode.find mbi vbe
    ((v.clear m font).puts m font text).ShowsPage m font (v.clear m font) ((Page.blank m.top).puts m.cols text) := by
  have hm := Mode.find_good hok
  exact ((Video.clear_follows hm font hfooter v).puts hm text).shows

/-- A text of more lines than the console of QEMU has. -/
theorem clear_puts_shows_page_ok :
    let m := Mode.find none (some 0xFD000000)
    let text := str "ok" ++ List.replicate 100 0x0A ++ str "done"
    let v : Video := ⟨fun _ => ⟨0, 0⟩, fun _ => 0, fun _ => 0, 0, 0, 7⟩
    ((v.clear m numberFont).puts m numberFont text).ShowsPage m numberFont (v.clear m numberFont)
      ((Page.blank m.top).puts m.cols text) :=
  clear_puts_shows_page numberFont bochs_ok (by decide) _ _

/-! ### Lines -/

/-- A page with some lines above the line that is being typed. -/
def Page.typed (top : Nat) (lines : List (List UInt8)) (line : List UInt8) : Page where
  cells := fun y x => if top ≤ y then ((lines ++ [line]).getD (y - top) []).getD x 0x20 else 0x20
  x := line.length
  y := top + lines.length

theorem Page.typed_printable {top cols : Nat} {lines : List (List UInt8)} {line : List UInt8} {c : UInt8}
    (hc : Printable c) (hfits : line.length + 1 < cols) :
    (typed top lines line).putc cols c = typed top lines (line ++ [c]) := by
  obtain ⟨hlo, hhi⟩ := hc
  have hemit : (typed top lines line).emit c = typed top lines (line ++ [c]) := by
    unfold emit
    rw [if_neg (by rintro rfl; revert hlo; decide), if_neg (by rintro rfl; revert hlo; decide),
      if_neg (by rintro rfl; revert hlo; decide), if_neg (by rintro rfl; revert hlo; decide)]
    have hcells : ∀ y x, (if y = top + lines.length ∧ x = line.length then c else
          if top ≤ y then ((lines ++ [line]).getD (y - top) []).getD x 0x20 else 0x20) =
        if top ≤ y then ((lines ++ [line ++ [c]]).getD (y - top) []).getD x 0x20 else 0x20 := by
      intro y x
      by_cases hy : top ≤ y
      · obtain ⟨i, rfl⟩ := Nat.exists_eq_add_of_le hy
        rw [if_pos hy, if_pos hy, Nat.add_sub_cancel_left]
        rcases Nat.lt_trichotomy i lines.length with hlt | rfl | hgt
        · rw [if_neg (by omega), List.getD_append _ _ _ _ hlt, List.getD_append _ _ _ _ hlt]
        · rw [List.getD_append_right _ _ _ _ (Nat.le_refl _), List.getD_append_right _ _ _ _ (Nat.le_refl _),
            Nat.sub_self]
          show (if _ then c else line.getD x 0x20) = (line ++ [c]).getD x 0x20
          rcases Nat.lt_trichotomy x line.length with hlt | rfl | hgt
          · rw [if_neg (by omega), List.getD_append _ _ _ _ hlt]
          · rw [if_pos ⟨rfl, rfl⟩, List.getD_append_right _ _ _ _ (Nat.le_refl _), Nat.sub_self]
            rfl
          · rw [if_neg (by omega), List.getD_eq_default _ _ (by omega), List.getD_eq_default _ _ (by simp; omega)]
        · rw [if_neg (by omega), List.getD_eq_default (lines ++ [line]) _ (by simp; omega),
            List.getD_eq_default (lines ++ [line ++ [c]]) _ (by simp; omega)]
      · rw [if_neg hy, if_neg hy, if_neg (by omega)]
    unfold typed
    simp only [hcells, List.length_append, List.length_cons, List.length_nil, Nat.zero_add]
  unfold putc
  rw [hemit]
  refine if_neg ?_
  show ¬ (line ++ [c]).length ≥ cols
  rw [List.length_append, List.length_singleton]
  omega

theorem Page.typed_newline {top cols : Nat} (hcols : 0 < cols) {lines : List (List UInt8)} {line : List UInt8} :
    (typed top lines line).putc cols 0x0A = typed top (lines ++ [line]) [] := by
  have hcells : ∀ i, (lines ++ [line]).getD i [] = (lines ++ [line] ++ [[]]).getD i [] := by
    intro i
    rcases Nat.lt_or_ge i (lines ++ [line]).length with hlt | hge
    · rw [List.getD_append _ _ _ _ hlt]
    · rw [List.getD_eq_default _ _ hge, List.getD_append_right _ _ _ _ hge]
      cases i - (lines ++ [line]).length <;> rfl
  have hemit : (typed top lines line).emit 0x0A = typed top (lines ++ [line]) [] := by
    unfold emit
    rw [if_pos rfl]
    unfold typed
    simp only [← hcells, List.length_append, List.length_cons, List.length_nil, Nat.zero_add, Nat.add_assoc]
  unfold putc
  rw [hemit]
  exact if_neg (Nat.not_le.mpr hcols)

theorem Page.typed_line {top cols : Nat} {lines : List (List UInt8)} {line rest : List UInt8}
    (hprint : ∀ c ∈ rest, Printable c) (hfits : (line ++ rest).length < cols) :
    (typed top lines line).puts cols rest = typed top lines (line ++ rest) := by
  induction rest generalizing line with
  | nil =>
    rw [List.append_nil]
    rfl
  | cons c rest ih =>
    obtain ⟨hc, hrest⟩ := List.forall_mem_cons.mp hprint
    rw [List.length_append, List.length_cons] at hfits
    show ((typed top lines line).putc cols c).puts cols rest = _
    rw [typed_printable hc (by omega), ih hrest (by simp; omega), List.append_assoc]
    rfl

theorem Page.typed_lines {top cols : Nat} {lines more : List (List UInt8)}
    (hmore : ∀ l ∈ more, (∀ c ∈ l, Printable c) ∧ l.length < cols) :
    (typed top lines []).puts cols (more.flatMap (· ++ [0x0A])) = typed top (lines ++ more) [] := by
  induction more generalizing lines with
  | nil =>
    rw [List.append_nil]
    rfl
  | cons l more ih =>
    obtain ⟨⟨hprint, hfits⟩, hrest⟩ := List.forall_mem_cons.mp hmore
    have hcols : 0 < cols := by omega
    have hsplit : (typed top lines []).puts cols ((l :: more).flatMap (· ++ [0x0A])) =
        (((typed top lines []).puts cols l).putc cols 0x0A).puts cols (more.flatMap (· ++ [0x0A])) := by
      unfold puts
      rw [List.flatMap_cons, List.foldl_append, List.foldl_append]
      rfl
    rw [hsplit, typed_line hprint hfits, List.nil_append, typed_newline hcols, ih hrest, List.append_assoc]
    rfl

theorem Page.typed_nil (top : Nat) : typed top [] [] = blank top := by
  have hcells : ∀ y x, (if top ≤ y then (([] ++ [[]] : List (List UInt8)).getD (y - top) []).getD x 0x20 else 0x20) =
      (0x20 : UInt8) := by
    intro y x
    split
    · cases y - top <;> rfl
    · rfl
  unfold typed blank
  simp only [hcells]
  rfl

theorem Page.typed_cells {top y : Nat} {lines : List (List UInt8)} (hy : top ≤ y) (x : Nat) :
    (typed top lines []).cells y x = (lines.getD (y - top) []).getD x 0x20 := by
  refine (if_pos hy).trans ?_
  congr 1
  generalize y - top = i
  rcases Nat.lt_or_ge i lines.length with hlt | hge
  · rw [List.getD_append _ _ _ _ hlt]
  · rw [List.getD_append_right _ _ _ _ hge, List.getD_eq_default lines _ hge]
    cases i - lines.length <;> rfl

/-- Lines that are printed after `vga_clear` can be read on the display, as many of the last ones as fit:
    each in a row of its own, in their order, and the cursor stands in the row below them. -/
theorem clear_puts_shows_lines (font : Font) {mbi : Option MultibootInfo} {vbe : Option Nat}
    (hok : ∀ fb, (Mode.find mbi vbe).fb = some fb → fb.Ok)
    (hfooter : (Mode.find mbi vbe).bottom + 1 < (Mode.find mbi vbe).rows) (v : Video) {lines : List (List UInt8)}
    (hlines : ∀ l ∈ lines, (∀ c ∈ l, Printable c) ∧ l.length < (Mode.find mbi vbe).cols) :
    let m := Mode.find mbi vbe
    let w := (v.clear m font).puts m font (lines.flatMap (· ++ [0x0A]))
    w.x = 0 ∧ w.y = min (m.top + lines.length) m.bottom ∧
      ∀ s : m.Spot, m.top ≤ s.row → s.row ≤ m.bottom →
        m.shown w.mem s =
          s.drawn font ⟨(lines.getD (s.row - m.top + (m.top + lines.length - w.y)) []).getD s.col 0x20, v.color⟩ := by
  have hm := Mode.find_good hok
  generalize Mode.find mbi vbe = m at hm hfooter hlines
  dsimp only
  have hshows := ((Video.clear_follows hm font hfooter v).puts hm (lines.flatMap (· ++ [0x0A]))).shows
  have hcolor : (v.clear m font).color = v.color := Video.clear_color hm font v
  rw [← Page.typed_nil, Page.typed_lines hlines, List.nil_append] at hshows
  refine ⟨hshows.x_eq, hshows.y_eq, ?_⟩
  intro s hlo hhi
  rw [hshows.text s hlo hhi, hcolor, Page.typed_cells (by omega), Nat.sub_add_comm hlo]
  rfl

/-- A hundred lines on the console of QEMU, of which the last ones fit. -/
theorem clear_puts_shows_lines_scrolled :
    let lines : List (List UInt8) := List.replicate 100 [0x41] ++ [[0x42, 0x43]]
    let font := numberFont
    let v : Video := ⟨fun _ => ⟨0, 0⟩, fun _ => 0, fun _ => 0, 0, 0, 7⟩
    let m := Mode.find none (some 0xFD000000)
    let w := (v.clear m font).puts m font (lines.flatMap (· ++ [0x0A]))
    w.x = 0 ∧ w.y = min (m.top + lines.length) m.bottom ∧
      ∀ s : m.Spot, m.top ≤ s.row → s.row ≤ m.bottom →
        m.shown w.mem s =
          s.drawn font ⟨(lines.getD (s.row - m.top + (m.top + lines.length - w.y)) []).getD s.col 0x20, v.color⟩ := by
  intro lines font v
  refine clear_puts_shows_lines font bochs_ok (by decide) v fun line hline => ?_
  have hcases : line = [0x41] ∨ line = [0x42, 0x43] := by
    rcases List.mem_append.mp hline with h | h
    · exact Or.inl (List.eq_of_mem_replicate h)
    · exact Or.inr (List.mem_singleton.mp h)
  rcases hcases with rfl | rfl
  · refine ⟨?_, by decide⟩
    rw [List.forall_mem_singleton]
    constructor <;> decide
  · refine ⟨?_, by decide⟩
    rw [List.forall_mem_cons, List.forall_mem_singleton]
    constructor <;> constructor <;> decide

end Gemios.Vga
