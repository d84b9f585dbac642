import Gemios.VideoPixels

/-!
# The display shows the shadow buffer

The console of `src/src/kernel/vga.c` keeps every character twice: in the shadow buffer, and as the
bytes that the display reads.  Every function of the console writes both alike, scrolling moves both
alike, and nothing else in memory is written: so after any calls the display shows the shadow buffer.
-/

namespace Gemios.Vga

open Function

variable {m : Mode} {font : Font}

def Video.entry (v : Video) (s : m.Spot) : Entry := v.shadow (s.row * 256 + s.col)

def Video.look (v : Video) (s : m.Spot) : Entry × UInt8 := (v.entry s, m.shown v.mem s)

/-- The display shows the shadow buffer in the cells of `C`. -/
def Video.MirrorsOn (m : Mode) (font : Font) (C : m.Spot → Prop) (v : Video) : Prop :=
  ∀ s : m.Spot, C s → m.shown v.mem s = s.drawn font (v.entry s)

/-- What only draws leaves the cursor, the colour and the rest of the memory. -/
structure Video.Drew (m : Mode) (v v' : Video) : Prop where
  x : v'.x = v.x
  y : v'.y = v.y
  color : v'.color = v.color
  crtc : v'.crtc = v.crtc
  outside : m.Outside v.mem v'.mem

theorem Video.Drew.refl (v : Video) : v.Drew m v := ⟨rfl, rfl, rfl, rfl, .refl _⟩

theorem Video.Drew.trans {u v w : Video} (h : u.Drew m v) (h' : v.Drew m w) : u.Drew m w :=
  ⟨h'.x.trans h.x, h'.y.trans h.y, h'.color.trans h.color, h'.crtc.trans h.crtc, h.outside.trans h'.outside⟩

theorem Video.Drew.fold {n : Nat} {body : (i : Nat) → i < n → Video → Video}
    (h : ∀ i (hi : i < n) (t : Video), t.Drew m (body i hi t)) (v : Video) : v.Drew m (Nat.fold n body v) := by
  apply fold_keeps (Video.Drew.refl v)
  intro i hi t ht
  exact ht.trans (h i hi t)

theorem Video.MirrorsOn.paint {C P : m.Spot → Prop} {v v' : Video} {e : m.Spot → Entry} (h : v.MirrorsOn m font C)
    (hpaint : Paints look P (fun s => (e s, s.drawn font (e s))) v v') :
    v'.MirrorsOn m font fun s => C s ∨ P s := by
  intro s hs
  by_cases hP : P s
  · have hlook := hpaint.inside s hP
    simp only [look, Prod.mk.injEq] at hlook
    rw [hlook.1, hlook.2]
  · have hlook := hpaint.outside s hP
    simp only [look, Prod.mk.injEq] at hlook
    rw [hlook.1, hlook.2]
    exact h s (hs.resolve_right hP)

theorem Video.MirrorsOn.mono {C P : m.Spot → Prop} {v : Video} (h : v.MirrorsOn m font C) (hP : ∀ s, P s → C s) :
    v.MirrorsOn m font P := fun s hs => h s (hP s hs)

/-! ### One cell -/

section

variable (hm : m.Good)
include hm

theorem put16_paints (font : Font) (htext : m.fb = none) {x y : Nat} (hy : y < 25) (hx : x < 80) (mem : Buf) (e : Entry) :
    Paints m.shown (fun s => s.col = x ∧ s.row = y) (fun s => s.drawn font e) mem
      (put16 mem (vgaBufferAddr x y) e.bits) := by
  have hdepth : m.depth = 2 := by simp only [Mode.depth, htext]
  obtain ⟨hcols, -⟩ := hm.text htext
  constructor
  · rintro s ⟨rfl, rfl⟩
    have hk := s.k_lt
    simp only [Mode.shown, Mode.Spot.addr, Mode.Spot.drawn, htext]
    have hcase : s.k = 0 ∨ s.k = 1 := by omega
    rcases hcase with hk | hk <;> rw [hk] <;> simp [put16, Nat.shiftRight_eq_div_pow]
  · intro s hs
    have hk := s.k_lt
    have hcol := s.col_lt
    simp only [Mode.shown, Mode.Spot.addr, htext]
    apply put16_of_ne
    unfold vgaBufferAddr
    omega

theorem Video.setCell_entry (v : Video) (e : Entry) (x y : Nat) :
    Paints entry (fun s : m.Spot => s.col = x ∧ s.row = y) (fun _ => e) v (v.setCell m e x y) := by
  have hcols := hm.cols_le
  have hrows := hm.rows_le
  have hshadow : (v.setCell m e x y).shadow =
      if x < 256 ∧ y < 128 then update v.shadow (y * 256 + x) e else v.shadow := by
    unfold setCell
    dsimp only
    split <;> split <;> rfl
  constructor
  · rintro s ⟨rfl, rfl⟩
    have hcol := s.col_lt
    have hrow := s.row_lt
    unfold entry
    rw [hshadow, if_pos (by omega), update_self]
  · intro s hs
    have hcol := s.col_lt
    unfold entry
    rw [hshadow]
    split
    · rw [update_of_ne (by omega)]
    · rfl

theorem Video.setCell_text (font : Font) (htext : m.fb = none) (v : Video) (e : Entry) (x y : Nat) :
    Paints look (fun s : m.Spot => s.col = x ∧ s.row = y) (fun s => (e, s.drawn font e)) v (v.setCell m e x y) := by
  refine (setCell_entry hm v e x y).pair ?_
  have hmem : (v.setCell m e x y).mem =
      if y < 25 ∧ x < 80 then put16 v.mem (vgaBufferAddr x y) e.bits else v.mem := by
    unfold setCell
    dsimp only
    simp only [htext, true_and]
    split <;> split <;> rfl
  apply Paints.on
  rw [hmem]
  split
  · rename_i hin
    exact put16_paints hm font htext hin.1 hin.2 _ _
  · rename_i hout
    obtain ⟨hcols, hrows⟩ := hm.text htext
    apply Paints.nothing
    rintro s ⟨rfl, rfl⟩
    have hcol := s.col_lt
    have hrow := s.row_lt
    omega

omit hm in
theorem Video.setCell_frame {fb : Framebuffer} (hfb : m.fb = some fb) (v : Video) (e : Entry) (x y : Nat) :
    (v.setCell m e x y).mem = v.mem := by
  unfold setCell
  dsimp only
  simp only [hfb, reduceCtorEq, false_and, if_false]
  split <;> rfl

omit hm in
theorem Video.put16_outside (htext : m.fb = none) {x y : Nat} (hy : y < 25) (hx : x < 80) (mem : Buf) (w : Nat) :
    m.Outside mem (put16 mem (vgaBufferAddr x y) w) := by
  intro a ha
  simp only [Mode.InDisplay, htext] at ha
  apply put16_of_ne
  unfold vgaBufferAddr
  omega

omit hm in
theorem Video.setCell_drew (v : Video) (e : Entry) (x y : Nat) : v.Drew m (v.setCell m e x y) := by
  have hshadow : v.Drew m
      (if x < 256 ∧ y < 128 then { v with shadow := update v.shadow (y * 256 + x) e } else v) := by
    split
    · exact ⟨rfl, rfl, rfl, rfl, .refl _⟩
    · exact .refl v
  unfold setCell
  dsimp only
  split
  · rename_i htext
    exact hshadow.trans ⟨rfl, rfl, rfl, rfl, put16_outside htext.1 htext.2.1 htext.2.2 _ _⟩
  · exact hshadow

theorem Video.putcAt_paints (font : Font) (v : Video) (c color : UInt8) (x y : Nat) :
    Paints look (fun s : m.Spot => s.col = x ∧ s.row = y) (fun s => (⟨c, color⟩, s.drawn font ⟨c, color⟩)) v
      (v.putcAt m font c color x y) := by
  have hnone : ¬ (x < m.cols ∧ y < m.rows) → ∀ s : m.Spot, ¬ (s.col = x ∧ s.row = y) := by
    rintro hout s ⟨rfl, rfl⟩
    exact hout ⟨s.col_lt, s.row_lt⟩
  unfold putcAt
  cases hfb : m.fb with
  | none =>
    dsimp only
    split
    · exact setCell_text hm font hfb v _ x y
    · rename_i hout
      exact Paints.nothing (hnone hout)
  | some fb =>
    dsimp only
    refine Paints.pair ?_ ?_
    · split
      · exact ⟨(setCell_entry hm v _ x y).inside, (setCell_entry hm v _ x y).outside⟩
      · rename_i hout
        exact ⟨fun s hs => absurd hs (hnone hout s), fun s _ => rfl⟩
    · have hmem : (if x < m.cols ∧ y < m.rows then v.setCell m ⟨c, color⟩ x y else v).mem = v.mem := by
        split
        · exact setCell_frame hfb v _ x y
        · rfl
      apply Paints.on
      rw [hmem]
      exact drawCharAt_paints hm hfb font v.mem _ x y

theorem Video.putcAt_drew (font : Font) (v : Video) (c color : UInt8) (x y : Nat) : v.Drew m (v.putcAt m font c color x y) := by
  have hcell : v.Drew m (if x < m.cols ∧ y < m.rows then v.setCell m ⟨c, color⟩ x y else v) := by
    split
    · exact setCell_drew v _ x y
    · exact .refl v
  unfold putcAt
  cases hfb : m.fb with
  | none => exact hcell
  | some fb => exact hcell.trans ⟨rfl, rfl, rfl, rfl, drawCharAt_outside hm hfb font _ _ _ _⟩

/-! ### Rows and texts -/

theorem Video.putsAt_drew (color : UInt8) (y : Nat) (s : List UInt8) (x : Nat) (v : Video) :
    v.Drew m (putsAt m font color y s x v) := by
  induction s generalizing x v with
  | nil => exact .refl v
  | cons c s ih =>
    unfold putsAt
    split
    · exact (putcAt_drew hm font v c color x y).trans (ih _ _)
    · exact .refl v

theorem Video.putsAt_mirrors (color : UInt8) (y : Nat) {C : m.Spot → Prop} (s : List UInt8) (x : Nat) {v : Video}
    (h : v.MirrorsOn m font C) : (putsAt m font color y s x v).MirrorsOn m font C := by
  induction s generalizing x v with
  | nil => exact h
  | cons c s ih =>
    unfold putsAt
    split
    · apply ih
      exact (h.paint (putcAt_paints hm font v c color x y)).mono fun _ => .inl
    · exact h

omit hm in
theorem Mode.row_paints {σ α : Type} {read : σ → m.Spot → α} {val : m.Spot → α} {y : Nat}
    {body : (x : Nat) → x < m.cols → σ → σ}
    (h : ∀ x hx t, Paints read (fun s => s.col = x ∧ s.row = y) val t (body x hx t)) (t : σ) :
    Paints read (fun s => s.row = y) val t (Nat.fold m.cols body t) := by
  refine (Paints.fold h t).congr ?_ fun _ _ => rfl
  intro s
  constructor
  · rintro ⟨x, -, -, hs⟩
    exact hs
  · intro hs
    exact ⟨s.col, s.col_lt, rfl, hs⟩

theorem Video.blankRow_paints (v : Video) (color : UInt8) (y : Nat) :
    Paints look (fun s : m.Spot => s.row = y) (fun s => (⟨0x20, color⟩, s.drawn font ⟨0x20, color⟩)) v
      (v.blankRow m font color y) := Mode.row_paints (fun x _ v => putcAt_paints hm font v 0x20 color x y) v

theorem Video.blankRow_drew (v : Video) (color : UInt8) (y : Nat) : v.Drew m (v.blankRow m font color y) :=
  Drew.fold (fun x _ v => putcAt_drew hm font v 0x20 color x y) v

theorem Video.drawStatusBar_drew (font : Font) (v : Video) : v.Drew m (v.drawStatusBar m font) := by
  apply (blankRow_drew hm v 0x1F 0).trans
  apply (putsAt_drew hm 0x1F 0 _ 2 _).trans
  apply (blankRow_drew hm _ 0x8F (footerRow m)).trans
  exact putsAt_drew hm 0x8F (footerRow m) _ 2 _

theorem Video.drawStatusBar_mirrors {C : m.Spot → Prop} {v : Video} (h : v.MirrorsOn m font C) :
    (v.drawStatusBar m font).MirrorsOn m font fun s => C s ∨ s.row = 0 ∨ s.row = footerRow m := by
  unfold drawStatusBar
  apply putsAt_mirrors hm
  refine ((putsAt_mirrors hm _ _ _ _ (h.paint (blankRow_paints hm v _ _))).paint
    (blankRow_paints hm _ _ _)).mono ?_
  intro s hs
  exact or_assoc.mpr hs

theorem Video.updateMouseStatus_drew (v : Video) (x y : UInt32) (buttons : UInt8) :
    v.Drew m (v.updateMouseStatus m font x y buttons) := putsAt_drew hm _ _ _ _ _

theorem Video.updateMouseStatus_mirrors {C : m.Spot → Prop} {v : Video} (h : v.MirrorsOn m font C) (x y : UInt32)
    (buttons : UInt8) : (v.updateMouseStatus m font x y buttons).MirrorsOn m font C := putsAt_mirrors hm _ _ _ _ h

/-! ### `vga_set_cursor` -/

omit hm in
theorem Video.setCursor_screen (v : Video) (x y : Nat) :
    (v.setCursor m x y).shadow = v.shadow ∧ (v.setCursor m x y).mem = v.mem ∧ (v.setCursor m x y).color = v.color := by
  unfold setCursor
  dsimp only
  generalize (if y ≥ m.rows then m.rows - 1 else y) = y
  generalize (if x ≥ m.cols then m.cols - 1 else x) = x
  split <;> exact ⟨rfl, rfl, rfl⟩

omit hm in
theorem Video.setCursor_cursor (v : Video) (x y : Nat) :
    (v.setCursor m x y).x = (if x ≥ m.cols then m.cols - 1 else x) ∧
      (v.setCursor m x y).y = if y ≥ m.rows then m.rows - 1 else y := by
  unfold setCursor
  dsimp only
  generalize (if y ≥ m.rows then m.rows - 1 else y) = y
  generalize (if x ≥ m.cols then m.cols - 1 else x) = x
  split <;> exact ⟨rfl, rfl⟩

omit hm in
theorem Video.MirrorsOn.setCursor {C : m.Spot → Prop} {v : Video} (h : v.MirrorsOn m font C) (x y : Nat) :
    (v.setCursor m x y).MirrorsOn m font C := by
  obtain ⟨hshadow, hmem, -⟩ := setCursor_screen (m := m) v x y
  intro s hs
  unfold entry
  rw [hshadow, hmem]
  exact h s hs

/-- The cursor inside the margins, and where the hardware cursor is. -/
structure Video.Cursor (m : Mode) (v : Video) : Prop where
  x_lt : v.x < m.cols
  y_lt : v.y < m.rows
  low : m.fb = none → v.crtc 0x0F = UInt8.ofNat (v.y * 80 + v.x)
  high : m.fb = none → v.crtc 0x0E = UInt8.ofNat ((v.y * 80 + v.x) >>> 8)

theorem Video.setCursor_shown (v : Video) (x y : Nat) : (v.setCursor m x y).Cursor m := by
  have hcols := hm.cols_pos
  have hbottom := hm.bottom_lt
  obtain ⟨hx, hy⟩ := setCursor_cursor (m := m) v x y
  have hx_lt : (v.setCursor m x y).x < m.cols := by
    rw [hx]
    split <;> omega
  have hy_lt : (v.setCursor m x y).y < m.rows := by
    rw [hy]
    split <;> omega
  have hcrtc : m.fb = none → (v.setCursor m x y).crtc =
      update (update v.crtc 0x0F (UInt8.ofNat ((v.setCursor m x y).y * 80 + (v.setCursor m x y).x)))
        0x0E (UInt8.ofNat (((v.setCursor m x y).y * 80 + (v.setCursor m x y).x) >>> 8)) := by
    intro htext
    obtain ⟨hcols, hrows⟩ := hm.text htext
    rw [hx, hy] at *
    unfold setCursor
    dsimp only
    rw [if_pos ⟨htext, by omega, by omega⟩]
  refine ⟨hx_lt, hy_lt, ?_, ?_⟩
  · intro htext
    rw [hcrtc htext, update_of_ne (by decide), update_self]
  · intro htext
    rw [hcrtc htext, update_self]

omit hm in
theorem Video.Drew.cursor {v v' : Video} (h : v.Drew m v') (hv : v.Cursor m) : v'.Cursor m := by
  constructor
  · rw [h.x]
    exact hv.x_lt
  · rw [h.y]
    exact hv.y_lt
  · rw [h.x, h.y, h.crtc]
    exact hv.low
  · rw [h.x, h.y, h.crtc]
    exact hv.high

/-! ### `vga_clear` -/

omit hm in
theorem Mode.Spot.drawn_blank {fb : Framebuffer} (hfb : m.fb = some fb) (color : UInt8) (s : m.Spot) :
    s.drawn font ⟨0x20, color⟩ = UInt8.ofNat (fb.vgaColorToPixel (color.toNat >>> 4 &&& 0x0F) >>> (8 * s.k)) := by
  have hrow : font.glyphRow 0x20 s.y = 0 := by
    unfold Font.glyphRow
    rw [if_pos (by decide)]
    have hfirst : ((0x20 : UInt8).toNat - 32) * 16 + s.y = s.y := by simp
    rw [hfirst, font.space s.y s.y_lt]
  rw [s.drawn_some hfb]
  unfold Framebuffer.glyphPixel
  rw [hrow, if_neg (by simp)]

omit hm in
theorem Video.clearCells_drew (v : Video) : v.Drew m (v.clearCells m) :=
  Drew.fold (fun i _ v => Drew.fold (fun x _ v => setCell_drew v _ x (m.top + i)) v) v

omit hm in
theorem Video.clearCells_mem {fb : Framebuffer} (hfb : m.fb = some fb) (v : Video) : (v.clearCells m).mem = v.mem := by
  apply fold_keeps (R := fun t : Video => t.mem = v.mem) rfl
  intro i hi t ht
  apply fold_keeps (R := fun t : Video => t.mem = v.mem) ht
  intro x hx t ht
  rw [setCell_frame hfb]
  exact ht

/-- The rows inside the margins are filled with blanks, on the screen as in the shadow buffer. -/
theorem Video.clear_paints (font : Font) (v : Video) :
    Paints look (fun s : m.Spot => m.top ≤ s.row ∧ s.row ≤ m.bottom)
      (fun s => (⟨0x20, v.color⟩, s.drawn font ⟨0x20, v.color⟩)) v ((v.clearCells m).clearPixels m) := by
  have hP : ∀ s : m.Spot, (∃ i < m.bottom + 1 - m.top, ∃ x < m.cols, s.col = x ∧ s.row = m.top + i) ↔
      m.top ≤ s.row ∧ s.row ≤ m.bottom := by
    intro s
    constructor
    · rintro ⟨i, hi, x, -, -, hs⟩
      omega
    · intro hs
      exact ⟨s.row - m.top, by omega, s.col, s.col_lt, rfl, by omega⟩
  have hentry : Paints entry (fun s : m.Spot => m.top ≤ s.row ∧ s.row ≤ m.bottom) (fun _ => ⟨0x20, v.color⟩) v
      (v.clearCells m) := by
    apply (Paints.fold (fun i _ v => Paints.fold (fun x _ v => setCell_entry hm v _ x (m.top + i)) v) v).congr hP
    intro s hs
    rfl
  cases hfb : m.fb with
  | none =>
    have hpixels : (v.clearCells m).clearPixels m = v.clearCells m := by
      simp only [clearPixels, hfb]
    rw [hpixels]
    apply (Paints.fold (fun i _ v => Paints.fold (fun x _ v => setCell_text hm font hfb v _ x (m.top + i)) v) v).congr hP
    intro s hs
    rfl
  | some fb =>
    obtain ⟨-, -, -, hrows⟩ := hm.grid fb hfb
    have hbottom := hm.bottom_lt
    have htop := hm.top_le
    have hheight := (hm.ok fb hfb).lt.2
    have hmem := clearCells_mem hfb v
    have hcolor := (clearCells_drew (m := m) v).color
    have hpixels : (v.clearCells m).clearPixels m =
        { v.clearCells m with
          mem := fb.fillRect v.mem 0 (m.top * 16) fb.width ((m.bottom + 1 - m.top) * 16)
            (fb.vgaColorToPixel (v.color.toNat >>> 4 &&& 0x0F)) } := by
      have hsize : u32 ((m.bottom + 4294967297 - m.top) * 16) = (m.bottom + 1 - m.top) * 16 := by
        unfold u32
        omega
      simp only [clearPixels, hfb, hmem, hcolor, hsize]
    rw [hpixels]
    refine Paints.pair ⟨hentry.inside, hentry.outside⟩ (Paints.on ?_)
    refine (fillRect_paints hm hfb (by omega) v.mem _).congr ?_ ?_
    · intro s
      have hy := s.y_lt
      constructor <;> intro hs <;> constructor <;> omega
    · intro s hs
      exact (s.drawn_blank hfb v.color).symm

theorem Video.clearPixels_drew (v : Video) : v.Drew m (v.clearPixels m) := by
  unfold clearPixels
  cases hfb : m.fb with
  | none => exact .refl v
  | some fb =>
    obtain ⟨-, -, -, hrows⟩ := hm.grid fb hfb
    have hbottom := hm.bottom_lt
    have htop := hm.top_le
    have hheight := (hm.ok fb hfb).lt.2
    have hsize : u32 ((m.bottom + 4294967297 - m.top) * 16) = (m.bottom + 1 - m.top) * 16 := by
      unfold u32
      omega
    refine ⟨rfl, rfl, rfl, rfl, fillRect_outside hm hfb ?_ _ _⟩
    omega

theorem Video.clear_mirrors (v : Video) : (v.clear m font).MirrorsOn m font fun _ => True := by
  have hnothing : v.MirrorsOn m font fun _ => False := fun s hs => hs.elim
  have hclear := (hnothing.paint (clear_paints hm font v)).setCursor 0 m.top
  refine (drawStatusBar_mirrors hm hclear).mono ?_
  intro s _
  have hrow := s.row_lt
  have htop := hm.top_eq
  have hfooter := hm.footer
  unfold footerRow
  split <;> omega

theorem Video.clear_cursor (v : Video) : (v.clear m font).Cursor m :=
  (drawStatusBar_drew hm font _).cursor (setCursor_shown hm _ _ _)

theorem Video.clear_outside (v : Video) : m.Outside v.mem (v.clear m font).mem := by
  have hcells := (clearCells_drew (m := m) v).trans (clearPixels_drew hm _)
  have hmem := (setCursor_screen (m := m) ((v.clearCells m).clearPixels m) 0 m.top).2.1
  apply hcells.outside.trans
  rw [← hmem]
  exact (drawStatusBar_drew hm font _).outside

end

end Gemios.Vga
