import Gemios.BlockCopy
import Gemios.CString
import Gemios.Printf

/-!
# The console in display memory

The text console of `src/src/kernel/vga.c` down to the bytes that the display shows: the shadow
buffer with every character and its colours, the VGA text buffer with its hardware cursor, and the
framebuffer into which the glyphs of a font are drawn, in each of its four depths.  Memory is the
physical memory of the machine; addresses have 32 bits.
-/

namespace Gemios.Vga

open Function

/-- `vga_entry`: a character and its colours. -/
structure Entry where
  uc : UInt8
  color : UInt8
deriving DecidableEq

/-- The `uint16_t` that `vga_entry` makes. -/
def Entry.bits (e : Entry) : Nat := e.uc.toNat ||| e.color.toNat <<< 8

/-- `struct framebuffer_driver_state`, when it is enabled. -/
structure Framebuffer where
  paddr : Nat
  width : Nat
  height : Nat
  pitch : Nat
  bpp : Nat
  type : Nat
  redPos : Nat
  redMaskSize : Nat
  greenPos : Nat
  greenMaskSize : Nat
  bluePos : Nat
  blueMaskSize : Nat
  cols : Nat
  rows : Nat

/-- What `vga_init` finds: the framebuffer, if there is one, and the margins of the console. -/
structure Mode where
  fb : Option Framebuffer
  cols : Nat
  rows : Nat
  top : Nat
  bottom : Nat

/-- The state of the console, with the memory of the machine and the registers of the CRT controller. -/
structure Video where
  shadow : Nat → Entry
  mem : Buf
  crtc : Nat → UInt8
  x : Nat
  y : Nat
  color : UInt8

/-- The glyphs of `font.h`, sixteen rows each, from U+0020 on; its first glyph is blank. -/
structure Font where
  rows : Nat → UInt8
  space : ∀ y < 16, rows y = 0

/-! ### Pixels -/

def vgaRgbPalette : List Nat :=
  [0x000000, 0x0000AA, 0x00AA00, 0x00AAAA, 0xAA0000, 0xAA00AA, 0xAA5500, 0xAAAAAA,
   0x555555, 0x5555FF, 0x55FF55, 0x55FFFF, 0xFF5555, 0xFF55FF, 0xFFFF55, 0xFFFFFF]

/-- A channel of a colour, in as many bits as its field has. -/
def maskChannel (maskSize v : Nat) : Nat := if maskSize ≠ 0 then v >>> (8 - maskSize) else v

namespace Framebuffer

variable (fb : Framebuffer)

def vgaColorToPixel (idx : Nat) : Nat :=
  if fb.type = 0 ∨ fb.bpp = 8 then idx &&& 0x0F
  else
    let rgb := vgaRgbPalette.getD (idx &&& 0x0F) 0
    let r := rgb >>> 16 &&& 0xFF
    let g := rgb >>> 8 &&& 0xFF
    let b := rgb &&& 0xFF
    if fb.type = 1 then
      if fb.bpp = 16 ∧ fb.redMaskSize = 0 then
        (r >>> 3 &&& 0x1F) <<< 11 ||| (g >>> 2 &&& 0x3F) <<< 5 ||| (b >>> 3 &&& 0x1F)
      else
        u32 (maskChannel fb.redMaskSize r <<< fb.redPos) |||
          u32 (maskChannel fb.greenMaskSize g <<< fb.greenPos) |||
          u32 (maskChannel fb.blueMaskSize b <<< fb.bluePos)
    else rgb

/-- The address of a pixel of `n` bytes. -/
def pixelAddr (n px py : Nat) : Nat := u32 (fb.paddr + py * fb.pitch + px * n)

/-- The stores that make a pixel, in each of the depths that the drawing loops tell apart. -/
def putPixel (mem : Buf) (px py pix : Nat) : Buf :=
  if fb.bpp = 32 then put32 mem (fb.pixelAddr 4 px py) pix
  else if fb.bpp = 24 then
    let p := fb.pixelAddr 3 px py
    let mem := update mem p (UInt8.ofNat pix)
    let mem := update mem (p + 1) (UInt8.ofNat (pix >>> 8))
    update mem (p + 2) (UInt8.ofNat (pix >>> 16))
  else if fb.bpp = 16 then put16 mem (fb.pixelAddr 2 px py) pix
  else if fb.bpp = 8 then update mem (fb.pixelAddr 1 px py) (UInt8.ofNat pix)
  else mem

end Framebuffer

/-- A row of the glyph for a character: from the font, a line of a box, or nothing. -/
def Font.glyphRow (font : Font) (c : UInt8) (y : Nat) : UInt8 :=
  if 32 ≤ c.toNat ∧ c.toNat ≤ 126 then font.rows ((c.toNat - 32) * 16 + y)
  else if c = 0xB3 then 0x18
  else if c = 0xC4 then if y = 7 ∨ y = 8 then 0xFF else 0x00
  else 0x00

/-- The pixel of a character at a place of its cell. -/
def Framebuffer.glyphPixel (fb : Framebuffer) (font : Font) (e : Entry) (x y : Nat) : Nat :=
  if (font.glyphRow e.uc y).toNat &&& 0x80 >>> x ≠ 0 then fb.vgaColorToPixel (e.color.toNat &&& 0x0F)
  else fb.vgaColorToPixel (e.color.toNat >>> 4 &&& 0x0F)

def Framebuffer.drawCharAt (fb : Framebuffer) (font : Font) (mem : Buf) (e : Entry) (col row : Nat) : Buf :=
  if col ≥ fb.cols ∨ row ≥ fb.rows then mem
  else
    Nat.fold 16 (fun y _ mem =>
      Nat.fold 8 (fun x _ mem =>
        fb.putPixel mem (col * 8 + x) (row * 16 + y) (fb.glyphPixel font e x y)) mem) mem

def Framebuffer.fillRect (fb : Framebuffer) (mem : Buf) (rx ry rw rh color : Nat) : Buf :=
  if rx ≥ fb.width ∨ ry ≥ fb.height then mem
  else
    let rw := if u32 (rx + rw) > fb.width then fb.width - rx else rw
    let rh := if u32 (ry + rh) > fb.height then fb.height - ry else rh
    Nat.fold rh (fun y _ mem => Nat.fold rw (fun x _ mem => fb.putPixel mem (rx + x) (ry + y) color) mem) mem

/-- The `memcpy` of `vga_scroll`. -/
def Framebuffer.scrollLines (fb : Framebuffer) (m : Mode) (mem : Buf) : Buf :=
  let topPy := m.top * 16
  let scrollH := u32 ((m.bottom + 4294967296 - m.top) * 16)
  copied mem (u32 (fb.paddr + topPy * fb.pitch)) (u32 (fb.paddr + (topPy + 16) * fb.pitch)) (u32 (scrollH * fb.pitch))

/-! ### Cells -/

/-- The address of a cell of `vga_buffer`. -/
def vgaBufferAddr (x y : Nat) : Nat := 0xB8000 + 2 * (y * 80 + x)

namespace Video

variable (m : Mode) (font : Font)

/-- A cell of the shadow buffer and of the text buffer is stored. -/
def setCell (v : Video) (e : Entry) (x y : Nat) : Video :=
  let v := if x < 256 ∧ y < 128 then { v with shadow := update v.shadow (y * 256 + x) e } else v
  if m.fb = none ∧ y < 25 ∧ x < 80 then { v with mem := put16 v.mem (vgaBufferAddr x y) e.bits } else v

def putcAt (v : Video) (c color : UInt8) (x y : Nat) : Video :=
  let v := if x < m.cols ∧ y < m.rows then v.setCell m ⟨c, color⟩ x y else v
  match m.fb with
  | none => v
  | some fb => { v with mem := fb.drawCharAt font v.mem ⟨c, color⟩ x y }

def putsAt (color : UInt8) (y : Nat) : List UInt8 → Nat → Video → Video
  | [], _, v => v
  | c :: s, x, v => if x < m.cols then putsAt color y s (x + 1) (v.putcAt m font c color x y) else v

def blankRow (v : Video) (color : UInt8) (y : Nat) : Video :=
  Nat.fold m.cols (fun x _ v => v.putcAt m font 0x20 color x y) v

def footerRow : Nat := if m.rows > 0 then m.rows - 1 else 0

def drawStatusBar (v : Video) : Video :=
  let v := v.blankRow m font 0x1F 0
  let v := putsAt m font 0x1F 0
    (str " GEMIOS x86-32 Preemptive RTOS | USB xHCI / HID / MSC / Hub ") 2 v
  let v := v.blankRow m font 0x8F (footerRow m)
  putsAt m font 0x8F (footerRow m) (str " Shell Ready | Type 'help' for commands") 2 v

/-- What `snprintf` leaves in the buffer of `vga_update_mouse_status`. -/
def mouseStatus (x y : UInt32) (buttons : UInt8) : List UInt8 :=
  let args := [x, y, if buttons &&& 1 ≠ 0 then 0x4C else 0x2D, if buttons &&& 4 ≠ 0 then 0x4D else 0x2D,
    if buttons &&& 2 ≠ 0 then 0x52 else 0x2D]
  let r := Printf.vsnprintf (fun _ => []) (fun i => args.getD i 0) (fun _ => 0) 40
    (str "Mouse: (%3d, %3d) [B:%c%c%c] ")
  ((List.range 40).map r.mem).takeWhile (· ≠ 0)

def updateMouseStatus (v : Video) (x y : UInt32) (buttons : UInt8) : Video :=
  putsAt m font 0x8B (footerRow m) (mouseStatus x y buttons) (if m.cols > 35 then m.cols - 35 else 0) v

def setCursor (v : Video) (x y : Nat) : Video :=
  let x := if x ≥ m.cols then m.cols - 1 else x
  let y := if y ≥ m.rows then m.rows - 1 else y
  let v := { v with x := x, y := y }
  if m.fb = none ∧ y < 25 ∧ x < 80 then
    let pos := y * 80 + x
    { v with crtc := update (update v.crtc 0x0F (UInt8.ofNat pos)) 0x0E (UInt8.ofNat (pos >>> 8)) }
  else v

def scrollCell (v : Video) (x y : Nat) : Video :=
  let v := if x < 256 ∧ y + 1 < 128 then
      { v with shadow := update v.shadow (y * 256 + x) (v.shadow ((y + 1) * 256 + x)) }
    else v
  if m.fb = none ∧ y < 25 ∧ x < 80 then
    { v with mem := put16 v.mem (vgaBufferAddr x y) (v.shadow (y * 256 + x)).bits }
  else v

/-- The first loop of `vga_scroll`. -/
def scrollCells (v : Video) : Video :=
  Nat.fold (m.bottom - m.top) (fun i _ v => Nat.fold m.cols (fun x _ v => v.scrollCell m x (m.top + i)) v) v

/-- The framebuffer in `vga_scroll`: the lines move up, and the last row is filled. -/
def scrollPixels (v : Video) : Video :=
  match m.fb with
  | none => v
  | some fb =>
    { v with
      mem := fb.fillRect (fb.scrollLines m v.mem) 0 (m.bottom * 16) fb.width 16
        (fb.vgaColorToPixel (v.color.toNat >>> 4 &&& 0x0F)) }

def scroll (v : Video) : Video :=
  let v := v.scrollCells m
  let blank : Entry := ⟨0x20, v.color⟩
  let v := Nat.fold m.cols (fun x _ v => v.setCell m blank x m.bottom) v
  { v.scrollPixels m with y := m.bottom }

/-- The loop of `vga_clear`. -/
def clearCells (v : Video) : Video :=
  let blank : Entry := ⟨0x20, v.color⟩
  Nat.fold (m.bottom + 1 - m.top) (fun i _ v =>
    Nat.fold m.cols (fun x _ v => v.setCell m blank x (m.top + i)) v) v

/-- The framebuffer in `vga_clear`. -/
def clearPixels (v : Video) : Video :=
  match m.fb with
  | none => v
  | some fb =>
    { v with
      mem := fb.fillRect v.mem 0 (m.top * 16) fb.width (u32 ((m.bottom + 4294967297 - m.top) * 16))
        (fb.vgaColorToPixel (v.color.toNat >>> 4 &&& 0x0F)) }

def clear (v : Video) : Video :=
  let v := (v.clearCells m).clearPixels m
  (v.setCursor m 0 m.top).drawStatusBar m font

/-- What `vga_putc` does with the character, before it looks at the margins. -/
def emit (v : Video) (c : UInt8) : Video :=
  if c = 0x0A then { v with x := 0, y := v.y + 1 }
  else if c = 0x0D then { v with x := 0 }
  else if c = 0x09 then { v with x := (v.x + 8) / 8 * 8 }
  else if c = 0x08 then { v with x := if v.x > 0 then v.x - 1 else v.x }
  else { v.putcAt m font c v.color v.x v.y with x := v.x + 1 }

def putc (v : Video) (c : UInt8) : Video :=
  let v := v.emit m font c
  let v := if v.x ≥ m.cols then { v with x := 0, y := v.y + 1 } else v
  let v := if v.y > m.bottom then v.scroll m else v
  v.setCursor m v.x v.y

def puts (v : Video) (s : List UInt8) : Video := s.foldl (putc m font) v

def setColor (v : Video) (color : UInt8) : Video := { v with color := color }

end Video

/-! ### `vga_init` -/

/-- The fields of `struct multiboot_info` that `vga_init` reads. -/
structure MultibootInfo where
  flags : Nat
  addrLow : Nat
  pitch : Nat
  width : Nat
  height : Nat
  bpp : Nat
  type : Nat
  redPos : Nat
  redMaskSize : Nat
  greenPos : Nat
  greenMaskSize : Nat
  bluePos : Nat
  blueMaskSize : Nat

/-- The framebuffer that the boot loader has set up. -/
def MultibootInfo.framebuffer (mbi : MultibootInfo) : Framebuffer :=
  let rgb := mbi.type = 1
  let default := (mbi.bpp = 32 ∨ mbi.bpp = 24) ∧ ¬ (rgb ∧ mbi.redMaskSize ≠ 0)
  { paddr := mbi.addrLow
    width := mbi.width
    height := mbi.height
    pitch := if mbi.pitch ≠ 0 then mbi.pitch else u32 (mbi.width * ((mbi.bpp + 7) / 8))
    bpp := mbi.bpp
    type := mbi.type
    redPos := if default then 16 else if rgb then mbi.redPos else 0
    redMaskSize := if default then 8 else if rgb then mbi.redMaskSize else 0
    greenPos := if default then 8 else if rgb then mbi.greenPos else 0
    greenMaskSize := if default then 8 else if rgb then mbi.greenMaskSize else 0
    bluePos := if default then 0 else if rgb then mbi.bluePos else 0
    blueMaskSize := if default then 8 else if rgb then mbi.blueMaskSize else 0
    cols := min (mbi.width / 8) 256
    rows := min (mbi.height / 16) 128 }

/-- The framebuffer of Bochs and QEMU, at the address that `bochs_vbe_init` finds. -/
def bochsFramebuffer (paddr : Nat) : Framebuffer where
  paddr := paddr
  width := 640
  height := 480
  pitch := 640 * 4
  bpp := 32
  type := 1
  redPos := 16
  redMaskSize := 8
  greenPos := 8
  greenMaskSize := 8
  bluePos := 0
  blueMaskSize := 8
  cols := min (640 / 8) 256
  rows := min (480 / 16) 128

/-- The margins of a console in a framebuffer. -/
def Mode.ofFramebuffer (fb : Framebuffer) : Mode where
  fb := some fb
  cols := fb.cols
  rows := fb.rows
  top := 1
  bottom := if fb.rows > 2 then fb.rows - 2 else fb.rows - 1

def Mode.text : Mode := ⟨none, 80, 25, 1, 23⟩

/-- What `vga_init` decides on, with the address that `bochs_vbe_init` stores if it succeeds. -/
def Mode.find (mbi : Option MultibootInfo) (vbe : Option Nat) : Mode :=
  match mbi.filter fun i => i.flags &&& 1 <<< 12 ≠ 0 ∧ i.addrLow ≠ 0 ∧ i.type ≠ 2 with
  | some i => .ofFramebuffer i.framebuffer
  | none =>
    match vbe with
    | some paddr => .ofFramebuffer (bochsFramebuffer paddr)
    | none => .text

/-- The end of `vga_init`. -/
def Video.init (m : Mode) (font : Font) (v : Video) : Video :=
  match m.fb with
  | none => v.clear m font
  | some fb => { v with mem := fb.fillRect v.mem 0 0 fb.width fb.height 0x000000 }.clear m font

end Gemios.Vga
