import Gemios.CString

/-!
# The text editor

`src/src/shell/editor.c`: the state of the editor with its line buffers as memory, loading and
saving, the editing commands, and the loop of `editor_open` one key at a time.
-/

namespace Gemios.Editor

open Function

def MAX_EDITOR_LINES : Nat := 1024
def MAX_LINE_LEN : Nat := 512
def GUTTER_WIDTH : Nat := 6

def KEY_UP : Nat := 0x101
def KEY_DOWN : Nat := 0x102
def KEY_LEFT : Nat := 0x103
def KEY_RIGHT : Nat := 0x104
def KEY_HOME : Nat := 0x105
def KEY_END : Nat := 0x106
def KEY_DELETE : Nat := 0x107
def KEY_PGUP : Nat := 0x108
def KEY_PGDN : Nat := 0x109
def KEY_ESC : Nat := 0x1B
def KEY_CTRL_K : Nat := 0x0B
def KEY_CTRL_N : Nat := 0x0E
def KEY_CTRL_Q : Nat := 0x11
def KEY_CTRL_S : Nat := 0x13
def KEY_CTRL_X : Nat := 0x18

/-! ### UTF-8 -/

def utf8CharLength (b : UInt8) : Nat :=
  if b &&& 0x80 = 0 then 1
  else if b &&& 0xE0 = 0xC0 then 2
  else if b &&& 0xF0 = 0xE0 then 3
  else if b &&& 0xF8 = 0xF0 then 4
  else 1

def isCont (b : UInt8) : Bool := b &&& 0xC0 == 0x80

def LINES_SIZE : Nat := MAX_EDITOR_LINES * MAX_LINE_LEN

def strlen (mem : Buf) (a : Nat) : Nat := strlenIn mem a LINES_SIZE

def strcat (mem : Buf) (dst src : Nat) : Buf := strcpyIn mem (dst + strlen mem dst) src LINES_SIZE

def backOver (mem : Buf) (line : Nat) : Nat → Nat
  | 0 => 0
  | k + 1 => if isCont (mem (line + (k + 1))) then backOver mem line k else k + 1

def utf8PrevChar (mem : Buf) (line : Nat) (idx : Int) : Int :=
  if idx ≤ 0 then 0 else backOver mem line (idx - 1).toNat

/-- `utf8_next_char`; a negative index is a large `size_t`. -/
def utf8NextChar (mem : Buf) (line : Nat) (idx : Int) : Int :=
  let len := strlen mem line
  if idx < 0 ∨ idx ≥ len then len
  else
    let cLen := utf8CharLength (mem (line + idx.toNat))
    if idx + cLen > len then len else idx + cLen

def columnLoop (mem : Buf) (line byteIdx : Nat) : Nat → Nat → Nat → Nat
  | 0, _, col => col
  | n + 1, idx, col =>
    if idx < byteIdx ∧ mem (line + idx) ≠ 0 then
      if mem (line + idx) = 9 then columnLoop mem line byteIdx n (idx + 1) (col + (4 - col % 4))
      else columnLoop mem line byteIdx n (idx + utf8CharLength (mem (line + idx))) (col + 1)
    else col

def utf8ByteToColumn (mem : Buf) (line : Nat) (byteIdx : Int) : Nat :=
  columnLoop mem line byteIdx.toNat byteIdx.toNat 0 0

/-! ### The state -/

/-- What was written by a save: the device, the file and the bytes. -/
structure Written where
  devName : List UInt8
  filename : List UInt8
  text : List UInt8
deriving DecidableEq

/-- `editor_state_t`, without the status message, with the size of the terminal.  `deciding` is the
    place in `editor_open`: the question before the exit is on the screen.  `saved` is not in the
    source: what was written since the last change. -/
structure Ed where
  mem : Buf
  numLines : Nat
  curRow : Int
  curCol : Int
  topRow : Int
  leftCol : Int
  devName : List UInt8
  filename : List UInt8
  modified : Bool
  running : Bool
  deciding : Bool
  cols : Nat
  rows : Nat
  saved : Option Written

namespace Ed

def line (i : Nat) : Nat := MAX_LINE_LEN * i

def cur (s : Ed) : Nat := line s.curRow.toNat

def touch (s : Ed) : Ed := { s with modified := true, saved := none }

def adjustView (s : Ed) : Ed :=
  let viewRows : Int := if s.rows > 3 then s.rows - 3 else 1
  let row : Int := if s.curRow < 0 then 0 else s.curRow
  let row : Int := if row ≥ s.numLines then (s.numLines : Int) - 1 else row
  let a := line row.toNat
  let len := strlen s.mem a
  let col : Int := if s.curCol < 0 then 0 else s.curCol
  let col : Int := if col > len then len else col
  let top : Int := if row < s.topRow then row else s.topRow
  let top : Int := if row ≥ top + viewRows then row - viewRows + 1 else top
  let visCol : Int := utf8ByteToColumn s.mem a col
  let viewWidth : Int := if (s.cols : Int) - GUTTER_WIDTH < 1 then 1 else s.cols - GUTTER_WIDTH
  let left : Int := if visCol < s.leftCol then visCol else s.leftCol
  let left : Int := if visCol ≥ left + viewWidth then visCol - viewWidth + 1 else left
  { s with curRow := row, curCol := col, topRow := top, leftCol := left }

/-! ### Editing -/

def insertChar (s : Ed) (c : UInt8) : Ed :=
  let len := strlen s.mem s.cur
  let k := s.curCol.toNat
  if len ≥ MAX_LINE_LEN - 2 then s
  else
    { s with
      mem := update (memmove s.mem (s.cur + k + 1) (s.cur + k) (len - k + 1)) (s.cur + k) c
      curCol := s.curCol + 1 }.touch

/-- Lines are shifted down, from line i on up to the one behind line `stop`. -/
def shiftDown (stop : Nat) (mem : Buf) : Nat → Buf
  | 0 => mem
  | i + 1 =>
    if i + 1 > stop then shiftDown stop (strncpy mem (line (i + 1)) (line i) MAX_LINE_LEN) i else mem

/-- `n` lines from line i on are replaced by the one behind. -/
def moveUp (mem : Buf) (i : Nat) : Nat → Buf
  | 0 => mem
  | n + 1 => moveUp (strncpy mem (line i) (line (i + 1)) MAX_LINE_LEN) (i + 1) n

def insertNewline (s : Ed) : Ed :=
  if s.numLines ≥ MAX_EDITOR_LINES - 1 then s
  else
    let row := s.curRow.toNat
    let at' := s.cur + s.curCol.toNat
    let mem := shiftDown (row + 1) s.mem s.numLines
    let mem := strncpy mem (line (row + 1)) at' MAX_LINE_LEN
    { s with
      mem := update mem at' 0
      numLines := s.numLines + 1
      curRow := s.curRow + 1
      curCol := 0 }.touch

def backspace (s : Ed) : Ed :=
  if s.curCol > 0 then
    let prev := utf8PrevChar s.mem s.cur s.curCol
    let len := strlen s.mem s.cur
    { s with
      mem := memmove s.mem (s.cur + prev.toNat) (s.cur + s.curCol.toNat) (len - s.curCol.toNat + 1)
      curCol := prev }.touch
  else if s.curRow > 0 then
    let row := s.curRow.toNat
    let prevLen := strlen s.mem (line (row - 1))
    if prevLen + strlen s.mem s.cur < MAX_LINE_LEN then
      { s with
        mem := moveUp (strcat s.mem (line (row - 1)) s.cur) row (s.numLines - 1 - row)
        numLines := s.numLines - 1
        curRow := s.curRow - 1
        curCol := prevLen }.touch
    else s
  else s

def delete (s : Ed) : Ed :=
  let len := strlen s.mem s.cur
  let row := s.curRow.toNat
  if s.curCol < len then
    let next := (utf8NextChar s.mem s.cur s.curCol).toNat
    { s with
      mem := memmove s.mem (s.cur + s.curCol.toNat) (s.cur + next) (len - next + 1) }.touch
  else if s.curRow < (s.numLines : Int) - 1 then
    if len + strlen s.mem (line (row + 1)) < MAX_LINE_LEN then
      { s with
        mem := moveUp (strcat s.mem s.cur (line (row + 1))) (row + 1) (s.numLines - 1 - (row + 1))
        numLines := s.numLines - 1 }.touch
    else s
  else s

def deleteLine (s : Ed) : Ed :=
  if s.numLines ≤ 1 then
    { s with mem := update s.mem (line 0) 0, curRow := 0, curCol := 0 }.touch
  else
    let row := s.curRow.toNat
    { s with
      mem := moveUp s.mem row (s.numLines - 1 - row)
      numLines := s.numLines - 1
      curRow := if s.curRow ≥ ((s.numLines - 1 : Nat) : Int) then ((s.numLines - 1 : Nat) : Int) - 1
        else s.curRow
      curCol := 0 }.touch

/-- `case KEY_CTRL_N`, after the save. -/
def newDocument (s : Ed) : Ed :=
  { s with
    numLines := 1
    mem := update s.mem (line 0) 0
    curRow := 0
    curCol := 0
    modified := false }

/-! ### Files -/

/-- What happens outside while a file is saved. -/
structure SaveEnv where
  device : Bool
  mount : Bool
  memory : Bool
  write : Bool

def lineBytes (s : Ed) (i : Nat) : List UInt8 :=
  (List.range (strlen s.mem (line i))).map fun k => s.mem (line i + k)

/-- What `editor_save_file` writes: the lines, with a newline between them. -/
def text (s : Ed) : List UInt8 :=
  (List.range s.numLines).flatMap fun i =>
    s.lineBytes i ++ if i < s.numLines - 1 then [10] else []

def saveFile (s : Ed) (env : SaveEnv) : Ed × Bool :=
  if !env.device then (s, false)
  else if !env.mount then (s, false)
  else if !env.memory then (s, false)
  else if env.write then
    ({ s with modified := false, saved := some ⟨s.devName, s.filename, s.text⟩ }, true)
  else (s, false)

def endsLine (b : UInt8) : Bool := b == 0 || b == 10 || b == 13

def skipNewline : List UInt8 → List UInt8
  | 13 :: 10 :: p => p
  | 10 :: p => p
  | 13 :: p => p
  | p => p

def storeLine (s : Ed) (bytes : List UInt8) : Ed :=
  { s with
    mem := fun a =>
      if line s.numLines ≤ a ∧ a < line s.numLines + bytes.length then
        bytes.getD (a - line s.numLines) 0
      else if a = line s.numLines + bytes.length then 0
      else s.mem a
    numLines := s.numLines + 1 }

/-- The loop of `editor_load_file` on the rest of the file; at most `n` turns. -/
def loadLoop : Nat → Ed → List UInt8 → Ed
  | 0, s, _ => s
  | n + 1, s, p =>
    if p.head?.getD 0 ≠ 0 ∧ s.numLines < MAX_EDITOR_LINES then
      let start := p.takeWhile fun b => !endsLine b
      loadLoop n (s.storeLine (start.take (MAX_LINE_LEN - 1))) (skipNewline (p.drop start.length))
    else s

/-- `editor_load_file`: what it reads, or nothing if there is no device, file system, memory or
    file. -/
def loadFile (s : Ed) (file : Option (List UInt8)) : Ed :=
  let s := { s with
    numLines := 0, curRow := 0, curCol := 0, topRow := 0, leftCol := 0, modified := false }
  let bytes := file.getD []
  let s := loadLoop bytes.length s bytes
  if s.numLines = 0 then s.storeLine [] else s

/-! ### `editor_open` -/

def command (s : Ed) (c : Nat) (env : SaveEnv) : Ed :=
  if c = KEY_CTRL_S then (s.saveFile env).1
  else if c = KEY_CTRL_Q ∨ c = KEY_CTRL_X ∨ c = KEY_ESC then
    if s.modified then { s with deciding := true } else { s with running := false }
  else if c = KEY_CTRL_N then
    (if s.modified then (s.saveFile env).1 else s).newDocument
  else if c = KEY_CTRL_K then s.deleteLine
  else if c = KEY_UP then if s.curRow > 0 then { s with curRow := s.curRow - 1 } else s
  else if c = KEY_DOWN then
    if s.curRow < (s.numLines : Int) - 1 then { s with curRow := s.curRow + 1 } else s
  else if c = KEY_LEFT then { s with curCol := utf8PrevChar s.mem s.cur s.curCol }
  else if c = KEY_RIGHT then { s with curCol := utf8NextChar s.mem s.cur s.curCol }
  else if c = KEY_HOME then { s with curCol := 0 }
  else if c = KEY_END then { s with curCol := strlen s.mem s.cur }
  else if c = KEY_PGUP then
    { s with curRow := if s.curRow - 20 < 0 then 0 else s.curRow - 20 }
  else if c = KEY_PGDN then
    { s with curRow := if s.curRow + 20 ≥ s.numLines then (s.numLines : Int) - 1 else s.curRow + 20 }
  else if c = 8 ∨ c = 127 then s.backspace
  else if c = KEY_DELETE then s.delete
  else if c = 10 ∨ c = 13 then s.insertNewline
  else if c = 9 then (((s.insertChar 32).insertChar 32).insertChar 32).insertChar 32
  else if c ≥ 32 ∧ c ≤ 255 then s.insertChar (UInt8.ofNat c)
  else s

/-- The answer counts as yes: y, Y or Return. -/
def isYes (c : Nat) : Bool := c == 0x79 || c == 0x59 || c == 13 || c == 10

/-- The answer counts as no: n, N, or the exit key again. -/
def isNo (c : Nat) : Bool := c == 0x6E || c == 0x4E || c == KEY_CTRL_Q || c == KEY_CTRL_X

def isCancel (c : Nat) : Bool := c == KEY_ESC || c == 0x63 || c == 0x43

def answer (s : Ed) (c : Nat) (env : SaveEnv) : Ed :=
  if isYes c then { (s.saveFile env).1 with running := false, deciding := false }
  else if isNo c then { s with running := false, deciding := false }
  else if isCancel c then { s with deciding := false }
  else s

/-- A key that is read, with what happens outside if it leads to a save. -/
structure Key where
  code : Nat
  env : SaveEnv

/-- One key: the main loop adjusts the view before it reads one. -/
def turn (s : Ed) (key : Key) : Ed :=
  if !s.running then s
  else if s.deciding then s.answer key.code key.env
  else s.adjustView.command key.code key.env

def run (s : Ed) (keys : List Key) : Ed := keys.foldl turn s

/-- The names when none are given: "usb0" and "UNTITLED.TXT". -/
def DEFAULT_DEV : List UInt8 := [0x75, 0x73, 0x62, 0x30]

def DEFAULT_FILE : List UInt8 :=
  [0x55, 0x4E, 0x54, 0x49, 0x54, 0x4C, 0x45, 0x44, 0x2E, 0x54, 0x58, 0x54]

/-- The start of `editor_open`; no name and an empty name are the same.  The name buffers have 16
    and 64 bytes. -/
def openFile (devName filename : List UInt8) (file : Option (List UInt8)) (cols rows : Nat) : Ed :=
  loadFile
    { mem := fun _ => 0
      numLines := 0, curRow := 0, curCol := 0, topRow := 0, leftCol := 0
      devName := (if devName = [] then DEFAULT_DEV else devName).take 15
      filename := (if filename = [] then DEFAULT_FILE else filename).take 63
      modified := false, running := true, deciding := false
      cols := cols, rows := rows, saved := none }
    file

end Ed

end Gemios.Editor
