import Gemios.Painting
import Gemios.Video

/-!
# Glyphs and rectangles in memory

Where the bytes of a cell of the console are in memory, in every mode, and what the drawing functions
of `src/src/kernel/vga.c` write there: a pixel is its own bytes, so a glyph is exactly the bytes of its
cell and a rectangle over the width of the screen exactly those of its rows.
-/

namespace Gemios.Vga

open Function

/-- What `vga_init` relies on: the framebuffer lies in the address space, and its lines do not overlap. -/
structure Framebuffer.Ok (fb : Framebuffer) : Prop where
  depth : fb.bpp = 32 ∨ fb.bpp = 24 ∨ fb.bpp = 16 ∨ fb.bpp = 8
  line : fb.width * (fb.bpp / 8) ≤ fb.pitch
  fits : fb.paddr + fb.height * fb.pitch ≤ 4294967296
  wide : 8 ≤ fb.width
  tall : 32 ≤ fb.height

structure Mode.Good (m : Mode) : Prop where
  cols_pos : 0 < m.cols
  cols_le : m.cols ≤ 256
  rows_le : m.rows ≤ 128
  top_eq : m.top = 1
  top_le : m.top ≤ m.bottom
  bottom_lt : m.bottom < m.rows
  footer : m.rows ≤ m.bottom + 2
  text : m.fb = none → m.cols = 80 ∧ m.rows = 25
  ok : ∀ fb, m.fb = some fb → fb.Ok
  grid : ∀ fb, m.fb = some fb → fb.cols = m.cols ∧ fb.rows = m.rows ∧ m.cols * 8 ≤ fb.width ∧ m.rows * 16 ≤ fb.height

theorem Mode.find_good {mbi : Option MultibootInfo} {vbe : Option Nat}
    (hok : ∀ fb, (Mode.find mbi vbe).fb = some fb → fb.Ok) : (Mode.find mbi vbe).Good := by
  have hframe : ∀ fb : Framebuffer, fb.Ok → fb.cols = min (fb.width / 8) 256 → fb.rows = min (fb.height / 16) 128 →
      (Mode.ofFramebuffer fb).Good := by
    intro fb h hcols hrows
    have hwide := h.wide
    have htall := h.tall
    have hbottom : (Mode.ofFramebuffer fb).bottom = if fb.rows > 2 then fb.rows - 2 else fb.rows - 1 := rfl
    constructor
    · show 0 < fb.cols
      omega
    · show fb.cols ≤ 256
      omega
    · show fb.rows ≤ 128
      omega
    · rfl
    · show 1 ≤ _
      rw [hbottom]
      split <;> omega
    · show _ < fb.rows
      rw [hbottom]
      split <;> omega
    · show fb.rows ≤ _
      rw [hbottom]
      split <;> omega
    · intro hnone
      cases hnone
    · rintro _ ⟨⟩
      exact h
    · rintro _ ⟨⟩
      refine ⟨rfl, rfl, ?_, ?_⟩
      · show fb.cols * 8 ≤ fb.width
        omega
      · show fb.rows * 16 ≤ fb.height
        omega
  unfold Mode.find at hok ⊢
  split
  · rename_i i hi
    simp only [hi] at hok
    exact hframe _ (hok _ rfl) rfl rfl
  · rename_i hi
    simp only [hi] at hok
    cases vbe with
    | some paddr => exact hframe _ (hok _ rfl) rfl rfl
    | none =>
      constructor <;> simp [Mode.text]

/-! ### The bytes of a cell -/

/-- The bytes of a character of the text buffer, or of a pixel. -/
def Mode.depth (m : Mode) : Nat :=
  match m.fb with
  | none => 2
  | some fb => fb.bpp / 8

/-- A byte of a pixel of a cell; the cells of the text buffer are the same for all their pixels. -/
structure Mode.Spot (m : Mode) where
  col : Nat
  row : Nat
  x : Nat
  y : Nat
  k : Nat
  col_lt : col < m.cols
  row_lt : row < m.rows
  x_lt : x < 8
  y_lt : y < 16
  k_lt : k < m.depth

variable {m : Mode} {fb : Framebuffer}

def Mode.Spot.addr (s : m.Spot) : Nat :=
  match m.fb with
  | none => vgaBufferAddr s.col s.row + s.k
  | some fb => fb.pixelAddr (fb.bpp / 8) (s.col * 8 + s.x) (s.row * 16 + s.y) + s.k

/-- What is to be there for a character in its colours. -/
def Mode.Spot.drawn (font : Font) (e : Entry) (s : m.Spot) : UInt8 :=
  match m.fb with
  | none => UInt8.ofNat (e.bits >>> (8 * s.k))
  | some fb => UInt8.ofNat (fb.glyphPixel font e s.x s.y >>> (8 * s.k))

def Mode.shown (m : Mode) (mem : Buf) (s : m.Spot) : UInt8 := mem s.addr

def Mode.InDisplay (m : Mode) (a : Nat) : Prop :=
  match m.fb with
  | none => 0xB8000 ≤ a ∧ a < 0xB8000 + 4000
  | some fb => fb.paddr ≤ a ∧ a < fb.paddr + fb.height * fb.pitch

/-! ### Pixels -/

section

variable (h : fb.Ok) {px py px' py' : Nat}
include h

theorem Framebuffer.Ok.pixelAddr_eq (hx : px < fb.width) (hy : py < fb.height) :
    fb.pixelAddr (fb.bpp / 8) px py = fb.paddr + (py * fb.pitch + px * (fb.bpp / 8)) ∧
      py * fb.pitch + px * (fb.bpp / 8) + fb.bpp / 8 ≤ fb.height * fb.pitch := by
  have hpixel : (px + 1) * (fb.bpp / 8) ≤ fb.width * (fb.bpp / 8) := Nat.mul_le_mul_right _ hx
  have hline : (py + 1) * fb.pitch ≤ fb.height * fb.pitch := Nat.mul_le_mul_right _ hy
  have hpitch := h.line
  have hfits := h.fits
  have hdepth : 0 < fb.bpp / 8 := by
    rcases h.depth with h | h | h | h <;> rw [h] <;> decide
  rw [Nat.succ_mul] at hpixel hline
  constructor
  · unfold pixelAddr
    rw [u32_of_lt (by omega), Nat.add_assoc]
  · omega

theorem Framebuffer.Ok.lt : fb.width < 4294967296 ∧ fb.height < 4294967296 := by
  have hdepth : 0 < fb.bpp / 8 := by
    rcases h.depth with h | h | h | h <;> rw [h] <;> decide
  have hwide := h.wide
  have htall := h.tall
  have hfits := h.fits
  have hline : fb.width ≤ fb.pitch := Nat.le_trans (Nat.le_mul_of_pos_right _ hdepth) h.line
  have htwo : 32 * fb.pitch ≤ fb.height * fb.pitch := Nat.mul_le_mul_right _ htall
  have hrows : fb.height * 8 ≤ fb.height * fb.pitch := Nat.mul_le_mul_left _ (Nat.le_trans hwide hline)
  constructor <;> omega

theorem Framebuffer.Ok.pixelAddr_apart (hx : px < fb.width) (hy : py < fb.height) (hx' : px' < fb.width)
    (hy' : py' < fb.height) (hne : ¬ (px' = px ∧ py' = py)) :
    fb.pixelAddr (fb.bpp / 8) px' py' + fb.bpp / 8 ≤ fb.pixelAddr (fb.bpp / 8) px py ∨
      fb.pixelAddr (fb.bpp / 8) px py + fb.bpp / 8 ≤ fb.pixelAddr (fb.bpp / 8) px' py' := by
  have hbefore : ∀ x y x' y', x < fb.width → (y < y' ∨ y = y' ∧ x < x') →
      y * fb.pitch + x * (fb.bpp / 8) + fb.bpp / 8 ≤ y' * fb.pitch + x' * (fb.bpp / 8) := by
    intro x y x' y' hx hlt
    have hpixel : (x + 1) * (fb.bpp / 8) ≤ fb.width * (fb.bpp / 8) := Nat.mul_le_mul_right _ hx
    have hpitch := h.line
    rw [Nat.succ_mul] at hpixel
    rcases hlt with hlt | ⟨rfl, hlt⟩
    · have hline : (y + 1) * fb.pitch ≤ y' * fb.pitch := Nat.mul_le_mul_right _ hlt
      rw [Nat.succ_mul] at hline
      omega
    · have hnext : (x + 1) * (fb.bpp / 8) ≤ x' * (fb.bpp / 8) := Nat.mul_le_mul_right _ hlt
      rw [Nat.succ_mul] at hnext
      omega
  rw [(h.pixelAddr_eq hx hy).1, (h.pixelAddr_eq hx' hy').1]
  have horder : (py' < py ∨ py' = py ∧ px' < px) ∨ (py < py' ∨ py = py' ∧ px < px') := by omega
  rcases horder with hlt | hlt
  · have hle := hbefore px' py' px py hx' hlt
    omega
  · have hle := hbefore px py px' py' hx hlt
    omega

theorem Framebuffer.Ok.putPixel_apply (mem : Buf) (px py pix a : Nat) :
    fb.putPixel mem px py pix a =
      if fb.pixelAddr (fb.bpp / 8) px py ≤ a ∧ a < fb.pixelAddr (fb.bpp / 8) px py + fb.bpp / 8 then
        UInt8.ofNat (pix >>> (8 * (a - fb.pixelAddr (fb.bpp / 8) px py)))
      else mem a := by
  unfold putPixel
  rcases h.depth with hd | hd | hd | hd
  · rw [if_pos hd, hd]
    simp only [Nat.reduceDiv]
    generalize fb.pixelAddr 4 px py = p
    by_cases hin : p ≤ a ∧ a < p + 4
    · obtain ⟨i, rfl⟩ := Nat.exists_eq_add_of_le hin.1
      have hi : i = 0 ∨ i = 1 ∨ i = 2 ∨ i = 3 := by omega
      rcases hi with rfl | rfl | rfl | rfl <;>
        simp [put32, put16, Nat.shiftRight_eq_div_pow, Nat.div_div_eq_div_mul, Nat.add_assoc]
    · rw [if_neg hin, put32_of_ne (by omega)]
  · rw [if_neg (by omega), if_pos hd, hd]
    simp only [Nat.reduceDiv]
    generalize fb.pixelAddr 3 px py = p
    by_cases hin : p ≤ a ∧ a < p + 3
    · obtain ⟨i, rfl⟩ := Nat.exists_eq_add_of_le hin.1
      have hi : i = 0 ∨ i = 1 ∨ i = 2 := by omega
      rcases hi with rfl | rfl | rfl <;> simp
    · rw [if_neg hin, update_of_ne (by omega), update_of_ne (by omega),
        update_of_ne (by omega)]
  · rw [if_neg (by omega), if_neg (by omega), if_pos hd, hd]
    simp only [Nat.reduceDiv]
    generalize fb.pixelAddr 2 px py = p
    by_cases hin : p ≤ a ∧ a < p + 2
    · obtain ⟨i, rfl⟩ := Nat.exists_eq_add_of_le hin.1
      have hi : i = 0 ∨ i = 1 := by omega
      rcases hi with rfl | rfl <;> simp [put16, Nat.shiftRight_eq_div_pow]
    · rw [if_neg hin, put16_of_ne (by omega)]
  · rw [if_neg (by omega), if_neg (by omega), if_neg (by omega), if_pos hd, hd]
    simp only [Nat.reduceDiv]
    generalize fb.pixelAddr 1 px py = p
    by_cases hin : p ≤ a ∧ a < p + 1
    · obtain rfl : a = p := by omega
      simp
    · rw [if_neg hin, update_of_ne (by omega)]

end

/-! ### Glyphs and rectangles -/

section

variable (hm : m.Good) (hfb : m.fb = some fb)

include hfb in
theorem Mode.Spot.addr_some (s : m.Spot) :
    s.addr = fb.pixelAddr (fb.bpp / 8) (s.col * 8 + s.x) (s.row * 16 + s.y) + s.k := by
  simp only [addr, hfb]

include hfb in
theorem Mode.Spot.drawn_some (font : Font) (e : Entry) (s : m.Spot) :
    s.drawn font e = UInt8.ofNat (fb.glyphPixel font e s.x s.y >>> (8 * s.k)) := by
  simp only [drawn, hfb]

include hfb in
theorem Mode.depth_some : m.depth = fb.bpp / 8 := by
  simp only [depth, hfb]

include hm hfb

theorem Mode.Spot.inside (s : m.Spot) : s.col * 8 + s.x < fb.width ∧ s.row * 16 + s.y < fb.height := by
  obtain ⟨-, -, hcols, hrows⟩ := hm.grid fb hfb
  have hcol := s.col_lt
  have hrow := s.row_lt
  have hx := s.x_lt
  have hy := s.y_lt
  constructor <;> omega

theorem putPixel_paints {px py : Nat} (hx : px < fb.width) (hy : py < fb.height) (mem : Buf) (pix : Nat) :
    Paints m.shown (fun s => s.col * 8 + s.x = px ∧ s.row * 16 + s.y = py) (fun s => UInt8.ofNat (pix >>> (8 * s.k)))
      mem (fb.putPixel mem px py pix) := by
  have hok := hm.ok fb hfb
  constructor
  · rintro s ⟨rfl, rfl⟩
    have hk := s.k_lt
    rw [Mode.depth_some hfb] at hk
    unfold Mode.shown
    rw [hok.putPixel_apply, s.addr_some hfb, if_pos (by omega), Nat.add_sub_cancel_left]
  · intro s hs
    have hk := s.k_lt
    rw [Mode.depth_some hfb] at hk
    obtain ⟨hx', hy'⟩ := s.inside hm hfb
    have hapart := hok.pixelAddr_apart hx hy hx' hy' hs
    unfold Mode.shown
    rw [hok.putPixel_apply, s.addr_some hfb, if_neg (by omega)]

theorem drawCharAt_paints (font : Font) (mem : Buf) (e : Entry) (col row : Nat) :
    Paints m.shown (fun s => s.col = col ∧ s.row = row) (fun s => s.drawn font e)
      mem (fb.drawCharAt font mem e col row) := by
  obtain ⟨hcols, hrows, hwide, htall⟩ := hm.grid fb hfb
  unfold Framebuffer.drawCharAt
  rw [hcols, hrows]
  split
  · rename_i hout
    apply Paints.nothing
    rintro s ⟨rfl, rfl⟩
    have hcol := s.col_lt
    have hrow := s.row_lt
    omega
  · rename_i hin
    have hturn : ∀ y < 16, ∀ x < 8, ∀ mem,
        Paints m.shown (fun s => (s.col = col ∧ s.row = row) ∧ s.x = x ∧ s.y = y) (fun s => s.drawn font e)
          mem (fb.putPixel mem (col * 8 + x) (row * 16 + y) (fb.glyphPixel font e x y)) := by
      intro y hy x hx mem
      refine (putPixel_paints hm hfb (by omega) (by omega) mem _).congr ?_ ?_
      · intro s
        have hx' := s.x_lt
        have hy' := s.y_lt
        constructor <;> omega
      · rintro s ⟨-, rfl, rfl⟩
        rw [s.drawn_some hfb]
    refine (Paints.fold (fun y hy mem => Paints.fold (fun x hx mem => hturn y hy x hx mem) mem) mem).congr ?_
      fun _ _ => rfl
    intro s
    constructor
    · rintro ⟨y, -, x, -, hs, -⟩
      exact hs
    · intro hs
      exact ⟨s.y, s.y_lt, s.x, s.x_lt, hs, rfl, rfl⟩

theorem fillRect_paints {ry rh : Nat} (hfit : ry + rh ≤ fb.height) (mem : Buf) (pix : Nat) :
    Paints m.shown (fun s => ry ≤ s.row * 16 + s.y ∧ s.row * 16 + s.y < ry + rh)
      (fun s => UInt8.ofNat (pix >>> (8 * s.k))) mem (fb.fillRect mem 0 ry fb.width rh pix) := by
  have hok := hm.ok fb hfb
  have hwide := hok.wide
  obtain ⟨hwidth, hheight⟩ := hok.lt
  unfold Framebuffer.fillRect
  split
  · apply Paints.nothing
    intro s hs
    omega
  · rw [Nat.zero_add, u32_of_lt hwidth, u32_of_lt (by omega), if_neg (by omega), if_neg (by omega)]
    have hturn : ∀ y < rh, ∀ x < fb.width, ∀ mem,
        Paints m.shown (fun s => s.col * 8 + s.x = x ∧ s.row * 16 + s.y = ry + y)
          (fun s => UInt8.ofNat (pix >>> (8 * s.k))) mem (fb.putPixel mem (0 + x) (ry + y) pix) := by
      intro y hy x hx mem
      rw [Nat.zero_add]
      exact putPixel_paints hm hfb hx (by omega) mem pix
    refine (Paints.fold (fun y hy mem => Paints.fold (fun x hx mem => hturn y hy x hx mem) mem) mem).congr ?_
      fun _ _ => rfl
    intro s
    constructor
    · rintro ⟨y, hy, x, -, -, hs⟩
      omega
    · rintro ⟨hlo, hhi⟩
      exact ⟨s.row * 16 + s.y - ry, by omega, s.col * 8 + s.x, (s.inside hm hfb).1, rfl, by omega⟩

end

/-! ### The rest of the memory -/

def Mode.Outside (m : Mode) (mem mem' : Buf) : Prop := ∀ a, ¬ m.InDisplay a → mem' a = mem a

theorem Mode.Outside.refl (mem : Buf) : m.Outside mem mem := fun _ _ => rfl

theorem Mode.Outside.trans {a b c : Buf} (h : m.Outside a b) (h' : m.Outside b c) : m.Outside a c := by
  intro i hi
  rw [h' i hi, h i hi]

theorem Mode.Outside.fold {n : Nat} {body : (i : Nat) → i < n → Buf → Buf}
    (h : ∀ i (hi : i < n) mem, m.Outside mem (body i hi mem)) (mem : Buf) : m.Outside mem (Nat.fold n body mem) := by
  apply fold_keeps (Mode.Outside.refl mem)
  intro i hi t ht
  exact ht.trans (h i hi t)

section

variable (hm : m.Good) (hfb : m.fb = some fb)
include hm hfb

theorem putPixel_outside {px py : Nat} (hx : px < fb.width) (hy : py < fb.height) (mem : Buf) (pix : Nat) :
    m.Outside mem (fb.putPixel mem px py pix) := by
  have hok := hm.ok fb hfb
  obtain ⟨haddr, hend⟩ := hok.pixelAddr_eq hx hy
  intro a ha
  simp only [Mode.InDisplay, hfb] at ha
  rw [hok.putPixel_apply, if_neg (by omega)]

theorem drawCharAt_outside (font : Font) (mem : Buf) (e : Entry) (col row : Nat) :
    m.Outside mem (fb.drawCharAt font mem e col row) := by
  obtain ⟨hcols, hrows, hwide, htall⟩ := hm.grid fb hfb
  unfold Framebuffer.drawCharAt
  rw [hcols, hrows]
  split
  · exact .refl mem
  · apply Mode.Outside.fold
    intro y hy mem
    apply Mode.Outside.fold
    intro x hx mem
    exact putPixel_outside hm hfb (by omega) (by omega) mem _

theorem fillRect_outside {ry rh : Nat} (hfit : ry + rh ≤ fb.height) (mem : Buf) (pix : Nat) :
    m.Outside mem (fb.fillRect mem 0 ry fb.width rh pix) := by
  obtain ⟨hwidth, hheight⟩ := (hm.ok fb hfb).lt
  unfold Framebuffer.fillRect
  split
  · exact .refl mem
  · rw [Nat.zero_add, u32_of_lt hwidth, u32_of_lt (by omega), if_neg (by omega), if_neg (by omega)]
    apply Mode.Outside.fold
    intro y hy mem
    apply Mode.Outside.fold
    intro x hx mem
    exact putPixel_outside hm hfb (by omega) (by omega) mem _

end

end Gemios.Vga
