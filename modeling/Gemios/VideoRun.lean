import Gemios.VideoMirror

/-!
# Scrolling and whole runs of the console

`vga_scroll` moves the rows of the shadow buffer one by one and the lines of the framebuffer with one
`memcpy`; both come to the same.  So the display shows the shadow buffer after every run of calls,
from `vga_init` on.
-/

namespace Gemios.Vga

open Function

variable {m : Mode} {font : Font}

/-! ### The rows that move up -/

def Mode.Spot.below (s : m.Spot) (h : s.row + 1 < m.rows) : m.Spot := { s with row := s.row + 1, row_lt := h }

/-- What the shadow buffer has under the cell of a spot. -/
def Video.under (v : Video) (s : m.Spot) : Entry := v.shadow ((s.row + 1) * 256 + s.col)

theorem Video.scrollCells_paints {α : Type} {g : Video → m.Spot → α} {F : m.Spot → Entry → α} (hm : m.Good)
    (hcell : ∀ x, ∀ y < m.bottom, ∀ t, Paints (fun t (s : m.Spot) => (entry t s, g t s)) (fun s => s.col = x ∧ s.row = y)
      (fun s => (t.under s, F s (t.under s))) t (t.scrollCell m x y)) (v : Video) :
    Paints (fun t (s : m.Spot) => (entry t s, g t s)) (fun s => m.top ≤ s.row ∧ s.row < m.bottom)
      (fun s => (v.under s, F s (v.under s))) v (v.scrollCells m) := by
  have hbottom := hm.bottom_lt
  -- What was written lies above the row that is read.
  have hunder : ∀ {P : m.Spot → Prop} {t t' : Video} (s : m.Spot),
      Paints (fun t (s : m.Spot) => (entry t s, g t s)) P (fun s => (t.under s, F s (t.under s))) t t' →
      s.row < m.bottom → (∀ s' : m.Spot, s'.row = s.row + 1 → ¬ P s') →
      (t'.under s, F s (t'.under s)) = (t.under s, F s (t.under s)) := by
    intro P t t' s hpaint hs hP
    have hout := hpaint.outside (s.below (by omega)) (hP _ rfl)
    have hentry : t'.under s = t.under s := congrArg Prod.fst hout
    rw [hentry]
  have hrow : ∀ y < m.bottom, ∀ t : Video,
      Paints (fun t (s : m.Spot) => (entry t s, g t s)) (fun s => ∃ x < m.cols, s.col = x ∧ s.row = y)
        (fun s => (t.under s, F s (t.under s))) t (Nat.fold m.cols (fun x _ t => t.scrollCell m x y) t) := by
    intro y hy t
    apply Paints.fold_of (fun t s => (t.under s, F s (t.under s))) fun x _ t => hcell x y hy t
    rintro x hx t' ht s ⟨-, rfl⟩
    apply hunder s ht hy
    rintro s' hs' ⟨x', -, -, hrow⟩
    omega
  refine (Paints.fold_of (fun t s => (t.under s, F s (t.under s)))
    (fun i _ t => hrow (m.top + i) (by omega) t) ?_).congr ?_ fun _ _ => rfl
  · rintro i hi t ht s ⟨x, hx, -, hs⟩
    apply hunder s ht (by omega)
    rintro s' hs' ⟨j, hj, x', -, -, hrow⟩
    omega
  · intro s
    constructor
    · rintro ⟨i, hi, x, -, -, hs⟩
      omega
    · intro hs
      exact ⟨s.row - m.top, by omega, s.col, s.col_lt, rfl, by omega⟩

section

variable (hm : m.Good)
include hm

theorem Video.scrollCell_entry (x : Nat) {y : Nat} (hy : y < m.bottom) (t : Video) :
    Paints entry (fun s : m.Spot => s.col = x ∧ s.row = y) (fun s => t.under s) t (t.scrollCell m x y) := by
  have hcols := hm.cols_le
  have hrows := hm.rows_le
  have hbottom := hm.bottom_lt
  have hshadow : (t.scrollCell m x y).shadow = if x < 256 ∧ y + 1 < 128 then
      update t.shadow (y * 256 + x) (t.shadow ((y + 1) * 256 + x)) else t.shadow := by
    unfold scrollCell
    dsimp only
    split <;> split <;> rfl
  constructor
  · rintro s ⟨rfl, rfl⟩
    have hcol := s.col_lt
    unfold entry under
    rw [hshadow, if_pos (by omega), update_self]
  · intro s hs
    have hcol := s.col_lt
    unfold entry
    rw [hshadow]
    split
    · rw [update_of_ne (by omega)]
    · rfl

theorem Video.scrollCell_text (htext : m.fb = none) (x : Nat) {y : Nat} (hy : y < m.bottom) (t : Video) :
    Paints look (fun s : m.Spot => s.col = x ∧ s.row = y) (fun s => (t.under s, s.drawn font (t.under s))) t
      (t.scrollCell m x y) := by
  have hentry := scrollCell_entry hm x hy t
  have hbottom := hm.bottom_lt
  obtain ⟨hcols, hrows⟩ := hm.text htext
  refine hentry.pair (Paints.on ?_)
  have hmem : (t.scrollCell m x y).mem =
      if x < 80 then put16 t.mem (vgaBufferAddr x y) (t.shadow ((y + 1) * 256 + x)).bits else t.mem := by
    unfold scrollCell
    dsimp only
    by_cases hx : x < 80
    · rw [if_pos (show x < 256 ∧ y + 1 < 128 by omega), if_pos ⟨htext, by omega, hx⟩, if_pos hx]
      dsimp only
      rw [update_self]
    · rw [if_neg (fun h => hx h.2.2), if_neg hx]
      split <;> rfl
  rw [hmem]
  split
  · rename_i hx
    refine (put16_paints hm font htext (by omega) hx t.mem _).congr (fun _ => Iff.rfl) ?_
    rintro s ⟨rfl, rfl⟩
    rfl
  · rename_i hx
    apply Paints.nothing
    rintro s ⟨rfl, -⟩
    have hcol := s.col_lt
    omega

omit hm in
theorem Video.scrollCell_drew (x y : Nat) (t : Video) : t.Drew m (t.scrollCell m x y) := by
  have hshadow : t.Drew m (if x < 256 ∧ y + 1 < 128 then
      { t with shadow := update t.shadow (y * 256 + x) (t.shadow ((y + 1) * 256 + x)) } else t) := by
    split
    · exact ⟨rfl, rfl, rfl, rfl, .refl _⟩
    · exact .refl t
  unfold scrollCell
  dsimp only
  split
  · rename_i htext
    exact hshadow.trans ⟨rfl, rfl, rfl, rfl, put16_outside htext.1 htext.2.1 htext.2.2 _ _⟩
  · exact hshadow

omit hm in
theorem Video.scrollCells_drew (v : Video) : v.Drew m (v.scrollCells m) :=
  Drew.fold (fun i _ v => Drew.fold (fun x _ v => scrollCell_drew x (m.top + i) v) v) v

omit hm in
theorem Video.scrollCells_mem {fb : Framebuffer} (hfb : m.fb = some fb) (v : Video) : (v.scrollCells m).mem = v.mem := by
  apply fold_keeps (R := fun t : Video => t.mem = v.mem) rfl
  intro i hi t ht
  apply fold_keeps (R := fun t : Video => t.mem = v.mem) ht
  intro x hx t ht
  have hcell : (t.scrollCell m x (m.top + i)).mem = t.mem := by
    unfold scrollCell
    dsimp only
    simp only [hfb, reduceCtorEq, false_and, if_false]
    split <;> rfl
  rw [hcell]
  exact ht

theorem Video.scrollCells_entry (v : Video) :
    Paints entry (fun s : m.Spot => m.top ≤ s.row ∧ s.row < m.bottom) (fun s => v.under s) v (v.scrollCells m) := by
  have hcell : ∀ x, ∀ y < m.bottom, ∀ t : Video, Paints (fun t (s : m.Spot) => (entry t s, ()))
      (fun s => s.col = x ∧ s.row = y) (fun s => (t.under s, ())) t (t.scrollCell m x y) := by
    intro x y hy t
    exact (scrollCell_entry hm x hy t).pair ⟨fun _ _ => rfl, fun _ _ => rfl⟩
  have hall := scrollCells_paints (F := fun _ _ => ()) hm hcell v
  constructor
  · intro s hs
    exact congrArg Prod.fst (hall.inside s hs)
  · intro s hs
    exact congrArg Prod.fst (hall.outside s hs)

/-! ### The lines of the framebuffer -/

omit hm in
theorem Framebuffer.Ok.pitch_pos {fb : Framebuffer} (h : fb.Ok) : 0 < fb.pitch := by
  have hdepth : 0 < fb.bpp / 8 := by
    rcases h.depth with h | h | h | h <;> rw [h] <;> decide
  have hwide := h.wide
  have hline : fb.width ≤ fb.pitch := Nat.le_trans (Nat.le_mul_of_pos_right _ hdepth) h.line
  omega

omit hm in
theorem Framebuffer.Ok.line_lt {fb : Framebuffer} (h : fb.Ok) {l : Nat} (hl : l < fb.height) :
    fb.paddr + l * fb.pitch < 4294967296 := by
  have hpitch := h.pitch_pos
  have hfits := h.fits
  have hnext : (l + 1) * fb.pitch ≤ fb.height * fb.pitch := Nat.mul_le_mul_right _ hl
  rw [Nat.succ_mul] at hnext
  omega

theorem Framebuffer.scrollLines_eq {fb : Framebuffer} (hfb : m.fb = some fb) (mem : Buf) :
    fb.scrollLines m mem = copied mem (fb.paddr + m.top * 16 * fb.pitch) (fb.paddr + (m.top * 16 + 16) * fb.pitch)
      ((m.bottom - m.top) * 16 * fb.pitch) := by
  obtain ⟨-, -, -, hrows⟩ := hm.grid fb hfb
  have hok := hm.ok fb hfb
  have hbottom := hm.bottom_lt
  have htop := hm.top_le
  have hheight := hok.lt.2
  have hsize : u32 ((m.bottom + 4294967296 - m.top) * 16) = (m.bottom - m.top) * 16 := by
    unfold u32
    omega
  unfold scrollLines
  dsimp only
  rw [hsize]
  rcases Nat.eq_or_lt_of_le htop with heq | hlt
  · -- One row between the margins: nothing is copied.
    simp only [heq, Nat.sub_self, Nat.zero_mul, copied_zero]
    exact copied_zero
  · have hdst := hok.line_lt (l := m.top * 16) (by omega)
    have hsrc := hok.line_lt (l := m.top * 16 + 16) (by omega)
    have hlen := hok.line_lt (l := (m.bottom - m.top) * 16) (by omega)
    rw [u32_of_lt hdst, u32_of_lt hsrc, u32_of_lt (by omega)]

theorem Framebuffer.scrollLines_shown {fb : Framebuffer} (hfb : m.fb = some fb) (mem : Buf) (s : m.Spot) :
    (∀ h : s.row + 1 < m.rows, m.top ≤ s.row → s.row < m.bottom →
        m.shown (fb.scrollLines m mem) s = m.shown mem (s.below h)) ∧
      (¬ (m.top ≤ s.row ∧ s.row < m.bottom) → m.shown (fb.scrollLines m mem) s = m.shown mem s) := by
  have hok := hm.ok fb hfb
  have htop := hm.top_le
  have hk := s.k_lt
  rw [Mode.depth_some hfb] at hk
  have hy := s.y_lt
  obtain ⟨hwidth, hheight⟩ := s.inside hm hfb
  obtain ⟨haddr, -⟩ := hok.pixelAddr_eq hwidth hheight
  -- The spot lies in its line.
  have hline : (s.col * 8 + s.x) * (fb.bpp / 8) + s.k < fb.pitch := by
    have hnext : (s.col * 8 + s.x + 1) * (fb.bpp / 8) ≤ fb.width * (fb.bpp / 8) := Nat.mul_le_mul_right _ hwidth
    have hpitch := hok.line
    rw [Nat.succ_mul] at hnext
    omega
  have hmul : ∀ {a b : Nat}, a < b → a * fb.pitch + fb.pitch ≤ b * fb.pitch := by
    intro a b hab
    rw [← Nat.succ_mul]
    exact Nat.mul_le_mul_right _ hab
  rw [scrollLines_eq hm hfb]
  constructor
  · intro h hlo hhi
    obtain ⟨hwidth', hheight'⟩ := (s.below h).inside hm hfb
    obtain ⟨haddr', -⟩ := hok.pixelAddr_eq hwidth' hheight'
    obtain ⟨q, hq⟩ := Nat.exists_eq_add_of_le (show m.top * 16 ≤ s.row * 16 + s.y by omega)
    have hlast := hmul (show q < (m.bottom - m.top) * 16 by omega)
    have hself : s.addr = fb.paddr + m.top * 16 * fb.pitch + (q * fb.pitch + (s.col * 8 + s.x) * (fb.bpp / 8) + s.k) := by
      rw [s.addr_some hfb, haddr, hq, Nat.add_mul]
      omega
    have hbelow : (s.below h).addr = fb.paddr + (m.top * 16 + 16) * fb.pitch +
        (q * fb.pitch + (s.col * 8 + s.x) * (fb.bpp / 8) + s.k) := by
      have hrow : (s.below h).row * 16 + (s.below h).y = m.top * 16 + 16 + q := by
        show (s.row + 1) * 16 + s.y = _
        omega
      rw [(s.below h).addr_some hfb, haddr', hrow, Nat.add_mul (m.top * 16 + 16) q]
      show fb.paddr + (_ + (s.col * 8 + s.x) * (fb.bpp / 8)) + s.k = _
      omega
    unfold Mode.shown
    rw [hself, hbelow]
    exact copied_inside (by omega)
  · intro hout
    unfold Mode.shown
    apply copied_outside
    rw [s.addr_some hfb, haddr]
    by_cases hlo : m.top ≤ s.row
    · right
      have hlast : (m.bottom * 16) * fb.pitch ≤ (s.row * 16 + s.y) * fb.pitch := Nat.mul_le_mul_right _ (by omega)
      have hsplit : m.bottom * 16 = m.top * 16 + (m.bottom - m.top) * 16 := by omega
      rw [hsplit, Nat.add_mul] at hlast
      omega
    · left
      have hfirst := hmul (show s.row * 16 + s.y < m.top * 16 by omega)
      omega

theorem Framebuffer.scrollLines_outside {fb : Framebuffer} (hfb : m.fb = some fb) (mem : Buf) :
    m.Outside mem (fb.scrollLines m mem) := by
  obtain ⟨-, -, -, hrows⟩ := hm.grid fb hfb
  have hbottom := hm.bottom_lt
  have htop := hm.top_le
  have hend : (m.top * 16 + (m.bottom - m.top) * 16) * fb.pitch ≤ fb.height * fb.pitch :=
    Nat.mul_le_mul_right _ (by omega)
  rw [Nat.add_mul] at hend
  intro a ha
  simp only [Mode.InDisplay, hfb] at ha
  rw [scrollLines_eq hm hfb]
  apply copied_outside
  omega

/-! ### `vga_scroll` -/

omit hm in
theorem Video.blankCells_drew (v : Video) (e : Entry) :
    v.Drew m (Nat.fold m.cols (fun x _ v => v.setCell m e x m.bottom) v) :=
  Drew.fold (fun x _ v => setCell_drew v e x m.bottom) v

omit hm in
theorem Video.scrollPixels_shadow (v : Video) : (v.scrollPixels m).shadow = v.shadow := by
  unfold scrollPixels
  split <;> rfl

theorem Video.scrollPixels_drew (v : Video) : v.Drew m (v.scrollPixels m) := by
  unfold scrollPixels
  cases hfb : m.fb with
  | none => exact .refl v
  | some fb =>
    obtain ⟨-, -, -, hrows⟩ := hm.grid fb hfb
    have hbottom := hm.bottom_lt
    refine ⟨rfl, rfl, rfl, rfl, (Framebuffer.scrollLines_outside hm hfb v.mem).trans ?_⟩
    exact fillRect_outside hm hfb (by omega) _ _

theorem Video.scroll_entry (v : Video) (s : m.Spot) :
    (v.scroll m).entry s =
      if m.top ≤ s.row ∧ s.row < m.bottom then v.under s
      else if s.row = m.bottom then ⟨0x20, v.color⟩ else v.entry s := by
  have hcells := scrollCells_entry hm v
  have hblank : Paints entry (fun s : m.Spot => s.row = m.bottom) (fun _ => (⟨0x20, v.color⟩ : Entry)) (v.scrollCells m)
      (Nat.fold m.cols (fun x _ t => t.setCell m ⟨0x20, v.color⟩ x m.bottom) (v.scrollCells m)) :=
    Mode.row_paints (fun x _ t => setCell_entry hm t _ x m.bottom) _
  have hcolor := (scrollCells_drew (m := m) v).color
  have hlast : (v.scroll m).entry s =
      (Nat.fold m.cols (fun x _ t => t.setCell m ⟨0x20, v.color⟩ x m.bottom) (v.scrollCells m)).entry s := by
    show ((scrollPixels m _).shadow) _ = _
    rw [scrollPixels_shadow, hcolor]
    rfl
  rw [hlast]
  by_cases hbottom : s.row = m.bottom
  · rw [hblank.inside s hbottom, if_neg (by omega), if_pos hbottom]
  · rw [hblank.outside s hbottom]
    by_cases hmoves : m.top ≤ s.row ∧ s.row < m.bottom
    · rw [hcells.inside s hmoves, if_pos hmoves]
    · rw [hcells.outside s hmoves, if_neg hmoves, if_neg hbottom]

theorem Video.scroll_outside (v : Video) : m.Outside v.mem (v.scroll m).mem :=
  ((scrollCells_drew v).trans ((blankCells_drew _ _).trans (scrollPixels_drew hm _))).outside

theorem Video.scroll_mirrors {v : Video} (h : v.MirrorsOn m font fun _ => True) :
    (v.scroll m).MirrorsOn m font fun _ => True := by
  cases hfb : m.fb with
  | none =>
    have hcells : Paints look (fun s : m.Spot => m.top ≤ s.row ∧ s.row < m.bottom)
        (fun s => (v.under s, s.drawn font (v.under s))) v (v.scrollCells m) :=
      scrollCells_paints (F := fun s e => s.drawn font e) (g := fun t s => m.shown t.mem s) hm
        (fun x y hy t => scrollCell_text hm hfb x hy t) v
    have hblank := Mode.row_paints (m := m)
      (fun x _ t => setCell_text hm font hfb t ⟨0x20, (v.scrollCells m).color⟩ x m.bottom) (v.scrollCells m)
    have hpixels : (v.scroll m).MirrorsOn m font (fun _ => True) ↔
        (Nat.fold m.cols (fun x _ t => t.setCell m ⟨0x20, (v.scrollCells m).color⟩ x m.bottom)
          (v.scrollCells m)).MirrorsOn m font (fun _ => True) := by
      unfold scroll scrollPixels
      simp only [hfb]
      rfl
    rw [hpixels]
    exact ((h.paint hcells).paint hblank).mono fun _ _ => .inl (.inl trivial)
  | some fb =>
    obtain ⟨-, -, -, hrows⟩ := hm.grid fb hfb
    have hbottom := hm.bottom_lt
    have hmem : (v.scroll m).mem = fb.fillRect (fb.scrollLines m v.mem) 0 (m.bottom * 16) fb.width 16
        (fb.vgaColorToPixel (v.color.toNat >>> 4 &&& 0x0F)) := by
      have hcells : (Nat.fold m.cols (fun x _ t => t.setCell m ⟨0x20, (v.scrollCells m).color⟩ x m.bottom)
          (v.scrollCells m)).mem = v.mem := by
        apply fold_keeps (R := fun t : Video => t.mem = v.mem) (scrollCells_mem hfb v)
        intro x hx t ht
        rw [setCell_frame hfb]
        exact ht
      have hcolor := ((scrollCells_drew (m := m) v).trans (blankCells_drew _ ⟨0x20, (v.scrollCells m).color⟩)).color
      unfold scroll scrollPixels
      simp only [hfb, hcells, hcolor]
    have hfill := fillRect_paints hm hfb (show m.bottom * 16 + 16 ≤ fb.height by omega) (fb.scrollLines m v.mem)
      (fb.vgaColorToPixel (v.color.toNat >>> 4 &&& 0x0F))
    intro s _
    have hy := s.y_lt
    rw [hmem, scroll_entry hm]
    by_cases hlast : s.row = m.bottom
    · rw [if_neg (by omega), if_pos hlast, s.drawn_blank hfb]
      apply hfill.inside
      omega
    · rw [hfill.outside s (by omega), if_neg hlast]
      obtain ⟨hmoves, hstays⟩ := Framebuffer.scrollLines_shown hm hfb v.mem s
      split
      · rename_i hin
        have hnext : s.row + 1 < m.rows := by omega
        rw [hmoves hnext hin.1 hin.2, h _ trivial, Mode.Spot.drawn_some hfb, s.drawn_some hfb]
        rfl
      · rename_i hout
        rw [hstays hout, h s trivial]

/-! ### `vga_putc` -/

theorem Video.emit_mirrors {v : Video} (h : v.MirrorsOn m font fun _ => True) (c : UInt8) :
    (v.emit m font c).MirrorsOn m font fun _ => True := by
  unfold emit
  split
  · exact h
  · split
    · exact h
    · split
      · exact h
      · split
        · exact h
        · exact (h.paint (putcAt_paints hm font v c v.color v.x v.y)).mono fun _ _ => .inl trivial

theorem Video.emit_outside (v : Video) (c : UInt8) : m.Outside v.mem (v.emit m font c).mem := by
  unfold emit
  split
  · exact .refl _
  · split
    · exact .refl _
    · split
      · exact .refl _
      · split
        · exact .refl _
        · exact (putcAt_drew hm font v c v.color v.x v.y).outside

/-- What the console keeps: the display shows the shadow buffer, the cursor is shown where it is, and
    of the memory `mem` only the display has been written. -/
structure Video.Showing (m : Mode) (font : Font) (mem : Buf) (v : Video) : Prop where
  mirrors : v.MirrorsOn m font fun _ => True
  cursor : v.Cursor m
  outside : m.Outside mem v.mem

omit hm in
theorem Video.Showing.drew {mem : Buf} {v v' : Video} (h : v.Showing m font mem) (hdrew : v.Drew m v')
    (hmirrors : v'.MirrorsOn m font fun _ => True) : v'.Showing m font mem :=
  ⟨hmirrors, hdrew.cursor h.cursor, h.outside.trans hdrew.outside⟩

theorem Video.Showing.setCursor {mem : Buf} {v : Video} (hmirrors : v.MirrorsOn m font fun _ => True)
    (houtside : m.Outside mem v.mem) (x y : Nat) : (v.setCursor m x y).Showing m font mem := by
  refine ⟨hmirrors.setCursor x y, setCursor_shown hm v x y, ?_⟩
  rw [(setCursor_screen v x y).2.1]
  exact houtside

theorem Video.putc_showing {mem : Buf} {v : Video} (h : v.Showing m font mem) (c : UInt8) :
    (v.putc m font c).Showing m font mem := by
  have hmirrors := emit_mirrors hm h.mirrors c
  have houtside : m.Outside mem (v.emit m font c).mem := h.outside.trans (emit_outside hm v c)
  unfold putc
  dsimp only
  generalize v.emit m font c = v at hmirrors houtside
  have hwrap : (if v.x ≥ m.cols then { v with x := 0, y := v.y + 1 } else v).MirrorsOn m font (fun _ => True) ∧
      m.Outside mem (if v.x ≥ m.cols then { v with x := 0, y := v.y + 1 } else v).mem := by
    split <;> exact ⟨hmirrors, houtside⟩
  generalize (if v.x ≥ m.cols then { v with x := 0, y := v.y + 1 } else v) = v at hwrap
  have hscroll : (if v.y > m.bottom then v.scroll m else v).MirrorsOn m font (fun _ => True) ∧
      m.Outside mem (if v.y > m.bottom then v.scroll m else v).mem := by
    split
    · exact ⟨scroll_mirrors hm hwrap.1, hwrap.2.trans (scroll_outside hm v)⟩
    · exact hwrap
  exact Showing.setCursor hm hscroll.1 hscroll.2 _ _

theorem Video.puts_showing {mem : Buf} {v : Video} (h : v.Showing m font mem) (s : List UInt8) :
    (v.puts m font s).Showing m font mem := by
  induction s generalizing v with
  | nil => exact h
  | cons c s ih => exact ih (putc_showing hm h c)

end

/-! ### Runs -/

/-- The functions that the rest of the kernel calls. -/
inductive Call where
  | clear
  | setColor (color : UInt8)
  | setCursor (x y : Nat)
  | putc (c : UInt8)
  | puts (s : List UInt8)
  | putcAt (c color : UInt8) (x y : Nat)
  | putsAt (s : List UInt8) (color : UInt8) (x y : Nat)
  | drawStatusBar
  | updateMouseStatus (x y : UInt32) (buttons : UInt8)

def Call.run (m : Mode) (font : Font) (v : Video) : Call → Video
  | .clear => v.clear m font
  | .setColor color => v.setColor color
  | .setCursor x y => v.setCursor m x y
  | .putc c => v.putc m font c
  | .puts s => v.puts m font s
  | .putcAt c color x y => v.putcAt m font c color x y
  | .putsAt s color x y => v.putsAt m font color y s x
  | .drawStatusBar => v.drawStatusBar m font
  | .updateMouseStatus x y buttons => v.updateMouseStatus m font x y buttons

theorem Call.run_showing (hm : m.Good) {mem : Buf} {v : Video} (h : v.Showing m font mem) (call : Call) :
    (call.run m font v).Showing m font mem := by
  cases call with
  | clear => exact ⟨v.clear_mirrors hm, v.clear_cursor hm, h.outside.trans (v.clear_outside hm)⟩
  | setColor color => exact ⟨h.mirrors, ⟨h.cursor.x_lt, h.cursor.y_lt, h.cursor.low, h.cursor.high⟩, h.outside⟩
  | setCursor x y => exact Video.Showing.setCursor hm h.mirrors h.outside x y
  | putc c => exact Video.putc_showing hm h c
  | puts s => exact Video.puts_showing hm h s
  | putcAt c color x y =>
    apply h.drew (Video.putcAt_drew hm font v c color x y)
    exact (h.mirrors.paint (Video.putcAt_paints hm font v c color x y)).mono fun _ _ => .inl trivial
  | putsAt s color x y =>
    exact h.drew (Video.putsAt_drew hm color y s x v) (Video.putsAt_mirrors hm color y s x h.mirrors)
  | drawStatusBar =>
    apply h.drew (Video.drawStatusBar_drew hm font v)
    exact (Video.drawStatusBar_mirrors hm h.mirrors).mono fun _ _ => .inl trivial
  | updateMouseStatus x y buttons =>
    exact h.drew (Video.updateMouseStatus_drew hm v x y buttons)
      (Video.updateMouseStatus_mirrors hm h.mirrors x y buttons)

theorem Video.init_showing (hm : m.Good) (v : Video) : (v.init m font).Showing m font v.mem := by
  unfold init
  cases hfb : m.fb with
  | none => exact ⟨v.clear_mirrors hm, v.clear_cursor hm, v.clear_outside hm⟩
  | some fb =>
    refine ⟨clear_mirrors hm _, clear_cursor hm _, ?_⟩
    exact (fillRect_outside hm hfb (by omega) v.mem 0).trans (clear_outside hm _)

/-- From `vga_init` on the display shows the shadow buffer, the cursor is inside the margins and the
    hardware cursor is where it is, and no memory but that of the display is written. -/
theorem run_shows (font : Font) {mbi : Option MultibootInfo} {vbe : Option Nat}
    (hok : ∀ fb, (Mode.find mbi vbe).fb = some fb → fb.Ok) (v : Video) (calls : List Call) :
    (calls.foldl (Call.run (Mode.find mbi vbe) font) (v.init (Mode.find mbi vbe) font)).Showing
      (Mode.find mbi vbe) font v.mem := by
  have hm := Mode.find_good hok
  have hrun : ∀ w : Video, w.Showing (Mode.find mbi vbe) font v.mem →
      (calls.foldl (Call.run (Mode.find mbi vbe) font) w).Showing (Mode.find mbi vbe) font v.mem := by
    induction calls with
    | nil =>
      intro w hw
      exact hw
    | cons call calls ih =>
      intro w hw
      exact ih _ (Call.run_showing hm hw call)
  exact hrun _ (Video.init_showing hm v)

theorem bochs_ok : ∀ fb, (Mode.find none (some 0xFD000000)).fb = some fb → fb.Ok := by
  rintro _ ⟨⟩
  constructor <;> decide

/-- All rows of a glyph are its number in binary. -/
def numberFont : Font where
  rows i := UInt8.ofNat (i / 16)
  space y hy := by
    rw [Nat.div_eq_of_lt hy]
    rfl

/-- A run on the console of QEMU, which scrolls. -/
theorem run_shows_bochs :
    ([Call.putc 0x41, Call.setColor 0x1F, Call.puts (str "ok" ++ List.replicate 100 0x0A)].foldl
      (Call.run (Mode.find none (some 0xFD000000)) numberFont)
      (Video.init (Mode.find none (some 0xFD000000)) numberFont
        ⟨fun _ => ⟨0, 0⟩, fun _ => 0, fun _ => 0, 0, 1, 7⟩)).Showing
      (Mode.find none (some 0xFD000000)) numberFont (fun _ => 0) :=
  run_shows numberFont bochs_ok ⟨fun _ => ⟨0, 0⟩, fun _ => 0, fun _ => 0, 0, 1, 7⟩ _

end Gemios.Vga
