import Gemios.CString
import Gemios.FatNames
import Gemios.Vga

/-!
# The line editor of the shell

The key handling of `shell_task` in `src/src/shell/shell.c`, with `history_add`, `history_get` and the
history references that `shell_execute_command` expands.  Every key changes the buffer, its length and
the position, and prints characters and backspaces of its own.
-/

namespace Gemios.Shell

open Gemios.Vga
open Function

def CMD_BUFFER_SIZE : Nat := 256
def HISTORY_SIZE : Nat := 32

def KEY_UP : Nat := 0x101
def KEY_DOWN : Nat := 0x102
def KEY_LEFT : Nat := 0x103
def KEY_RIGHT : Nat := 0x104
def KEY_HOME : Nat := 0x105
def KEY_END : Nat := 0x106
def KEY_DELETE : Nat := 0x107

/-- The locals of `shell_task` and the statics of its history; a slot and the draft by their text. -/
structure LineEdit where
  cmdBuffer : Buf
  cmdPos : Nat
  cmdLen : Nat
  history : Nat → List UInt8
  historyCount : Nat
  historyBrowseIdx : Int
  currentDraft : List UInt8

/-! ### The history -/

/-- The index of the oldest command that is kept. -/
def LineEdit.oldest (e : LineEdit) : Nat :=
  if e.historyCount > HISTORY_SIZE then e.historyCount - HISTORY_SIZE else 0

def LineEdit.historyAdd (e : LineEdit) (cmd : List UInt8) : LineEdit :=
  if cmd = [] then e
  else if e.historyCount > 0 ∧ e.history ((e.historyCount - 1) % HISTORY_SIZE) = cmd then e
  else
    { e with
      history := update e.history (e.historyCount % HISTORY_SIZE) (cmd.take (CMD_BUFFER_SIZE - 1))
      historyCount := u32 (e.historyCount + 1) }

def LineEdit.historyGet (e : LineEdit) (index : Nat) : Option (List UInt8) :=
  if index ≥ e.historyCount then none
  else if index < e.oldest then none
  else some (e.history (index % HISTORY_SIZE))

/-- The decimal digits of `parse_int`. -/
def parseDec : List UInt8 → Nat → Nat
  | [], val => val
  | c :: cs, val =>
    if 0x30 ≤ c.toNat ∧ c.toNat ≤ 0x39 then parseDec cs (u32 (val * 10 + (c.toNat - 0x30))) else val

def parseHex : List UInt8 → Nat → Nat
  | [], val => val
  | c :: cs, val =>
    if 0x30 ≤ c.toNat ∧ c.toNat ≤ 0x39 then parseHex cs (u32 (val * 16 + (c.toNat - 0x30)))
    else if 0x61 ≤ c.toNat ∧ c.toNat ≤ 0x66 then parseHex cs (u32 (val * 16 + (c.toNat - 0x61 + 10)))
    else if 0x41 ≤ c.toNat ∧ c.toNat ≤ 0x46 then parseHex cs (u32 (val * 16 + (c.toNat - 0x41 + 10)))
    else val

def parseInt : List UInt8 → Nat
  | 0x30 :: c :: cs => if c = 0x78 ∨ c = 0x58 then parseHex cs 0 else parseDec (0x30 :: c :: cs) 0
  | str => parseDec str 0

/-- What `shell_execute_command` puts into the history, and executes: the command, or the one that
    `!!` or `!n` stands for, or nothing.  `get` is `history_get`. -/
def expand (count : Nat) (get : Nat → Option (List UInt8)) (cmd : List UInt8) : List UInt8 :=
  let expanded :=
    if cmd.head? = some 0x21 ∧ count > 0 then
      if cmd[1]? = some 0x21 then (get (count - 1)).getD []
      else
        let num := parseInt (cmd.drop 1)
        if num ≥ 1 ∧ num ≤ count then (get (num - 1)).getD [] else []
    else cmd
  expanded.take (CMD_BUFFER_SIZE - 1)

/-! ### Keys -/

inductive Key where
  | enter
  | up
  | down
  | left
  | right
  | home
  | stop
  | clear
  | kill
  | backspace
  | delete
  | char (c : UInt8)
  | other

/-- The key of a code, as the chain of `else if` finds it. -/
def keyOf (c : Nat) : Key :=
  if c = 0x0A ∨ c = 0x0D then .enter
  else if c = KEY_UP then .up
  else if c = KEY_DOWN then .down
  else if c = KEY_LEFT then .left
  else if c = KEY_RIGHT then .right
  else if c = KEY_HOME ∨ c = 1 then .home
  else if c = KEY_END ∨ c = 5 then .stop
  else if c = 21 ∨ c = 3 then .clear
  else if c = 11 then .kill
  else if c = 0x08 ∨ c = 127 then .backspace
  else if c = KEY_DELETE then .delete
  else if c % 256 ≥ 32 ∧ c % 256 ≤ 126 then .char (UInt8.ofNat c)
  else .other

/-! ### The buffer -/

/-- The first `n` bytes up to a NUL. -/
def strOf (b : Buf) (n : Nat) : List UInt8 := cstr ((List.range n).map b)

/-- `strncpy(cmd_buffer, s, sizeof(cmd_buffer) - 1)`. -/
def copyToBuffer (b : Buf) (s : List UInt8) : Buf := fun i =>
  if i < CMD_BUFFER_SIZE - 1 then s.getD i 0 else b i

namespace LineEdit

/-- The bytes from `i` up to the length, as they are printed one by one. -/
def tail (e : LineEdit) (i : Nat) : List UInt8 := (List.range' i (e.cmdLen - i)).map e.cmdBuffer

/-- The cursor moves to the end, and the line is erased from there. -/
def eraseEcho (e : LineEdit) : List UInt8 := e.tail e.cmdPos ++ rubout e.cmdLen

def setLine (e : LineEdit) (entry : Option (List UInt8)) : LineEdit × List UInt8 :=
  match entry with
  | some s =>
    let b := copyToBuffer e.cmdBuffer s
    let len := strlenIn b 0 CMD_BUFFER_SIZE
    ({ e with cmdBuffer := b, cmdLen := len, cmdPos := len }, strOf b CMD_BUFFER_SIZE)
  | none => ({ e with cmdBuffer := update e.cmdBuffer 0 0, cmdLen := 0, cmdPos := 0 }, [])

def entryAt (e : LineEdit) : Option (List UInt8) := e.historyGet (e.historyBrowseIdx % 4294967296).toNat

def up (e : LineEdit) : LineEdit × List UInt8 :=
  if e.historyCount > 0 then
    let e' :=
      if e.historyBrowseIdx = -1 then
        let b := update e.cmdBuffer e.cmdLen 0
        { e with
          cmdBuffer := b
          currentDraft := strOf b (CMD_BUFFER_SIZE - 1)
          historyBrowseIdx := toInt (toInt e.historyCount - 1) }
      else if e.historyBrowseIdx > toInt e.oldest then { e with historyBrowseIdx := e.historyBrowseIdx - 1 }
      else e
    let r := e'.setLine e'.entryAt
    (r.1, e'.eraseEcho ++ r.2)
  else (e, [])

def down (e : LineEdit) : LineEdit × List UInt8 :=
  if e.historyBrowseIdx ≠ -1 then
    let r :=
      if e.historyBrowseIdx < toInt (toInt e.historyCount - 1) then
        let e' := { e with historyBrowseIdx := e.historyBrowseIdx + 1 }
        e'.setLine e'.entryAt
      else { e with historyBrowseIdx := -1 }.setLine (some e.currentDraft)
    (r.1, e.eraseEcho ++ r.2)
  else (e, [])

def left (e : LineEdit) : LineEdit × List UInt8 :=
  if e.cmdPos > 0 then ({ e with cmdPos := e.cmdPos - 1 }, [0x08]) else (e, [])

def right (e : LineEdit) : LineEdit × List UInt8 :=
  if e.cmdPos < e.cmdLen then ({ e with cmdPos := e.cmdPos + 1 }, [e.cmdBuffer e.cmdPos]) else (e, [])

def home (e : LineEdit) : LineEdit × List UInt8 := ({ e with cmdPos := 0 }, List.replicate e.cmdPos 0x08)

def stop (e : LineEdit) : LineEdit × List UInt8 := ({ e with cmdPos := max e.cmdPos e.cmdLen }, e.tail e.cmdPos)

def clear (e : LineEdit) : LineEdit × List UInt8 :=
  ({ e with cmdBuffer := update e.cmdBuffer 0 0, cmdLen := 0, cmdPos := 0 }, e.eraseEcho)

def kill (e : LineEdit) : LineEdit × List UInt8 :=
  let n := e.cmdLen - e.cmdPos
  ({ e with cmdLen := e.cmdPos, cmdBuffer := update e.cmdBuffer e.cmdPos 0 },
    List.replicate n 0x20 ++ List.replicate n 0x08)

def backspace (e : LineEdit) : LineEdit × List UInt8 :=
  if e.cmdPos > 0 then
    if e.cmdPos = e.cmdLen then
      ({ e with
          cmdPos := e.cmdPos - 1
          cmdLen := e.cmdLen - 1
          cmdBuffer := update e.cmdBuffer (e.cmdLen - 1) 0 }, [0x08, 0x20, 0x08])
    else
      let b := copyUp e.cmdBuffer (e.cmdPos - 1) e.cmdPos (e.cmdLen - e.cmdPos)
      let e' :=
        { e with
          cmdPos := e.cmdPos - 1
          cmdLen := e.cmdLen - 1
          cmdBuffer := update b (e.cmdLen - 1) 0 }
      (e', [0x08] ++ e'.tail e'.cmdPos ++ [0x20] ++ List.replicate (e'.cmdLen + 1 - e'.cmdPos) 0x08)
  else (e, [])

def delete (e : LineEdit) : LineEdit × List UInt8 :=
  if e.cmdPos < e.cmdLen then
    let b := copyUp e.cmdBuffer e.cmdPos (e.cmdPos + 1) (e.cmdLen - 1 - e.cmdPos)
    let e' := { e with cmdLen := e.cmdLen - 1, cmdBuffer := update b (e.cmdLen - 1) 0 }
    (e', e'.tail e'.cmdPos ++ [0x20] ++ List.replicate (e'.cmdLen + 1 - e'.cmdPos) 0x08)
  else (e, [])

def char (e : LineEdit) (c : UInt8) : LineEdit × List UInt8 :=
  if e.cmdLen < CMD_BUFFER_SIZE - 1 then
    if e.cmdPos = e.cmdLen then
      ({ e with
          cmdBuffer := update (update e.cmdBuffer e.cmdLen c) (e.cmdLen + 1) 0
          cmdLen := e.cmdLen + 1
          cmdPos := e.cmdPos + 1 }, [c])
    else
      let b := update (copyDown e.cmdBuffer (e.cmdPos + 1) e.cmdPos (e.cmdLen - e.cmdPos)) e.cmdPos c
      let e' := { e with cmdBuffer := update b (e.cmdLen + 1) 0, cmdLen := e.cmdLen + 1 }
      ({ e' with cmdPos := e.cmdPos + 1 },
        e'.tail e.cmdPos ++ List.replicate (e'.cmdLen - (e.cmdPos + 1)) 0x08)
  else (e, [])

/-- A key other than Enter, with what it prints. -/
def key (e : LineEdit) : Key → LineEdit × List UInt8
  | .up => e.up
  | .down => e.down
  | .left => e.left
  | .right => e.right
  | .home => e.home
  | .stop => e.stop
  | .clear => e.clear
  | .kill => e.kill
  | .backspace => e.backspace
  | .delete => e.delete
  | .char c => e.char c
  | .enter => (e, [])
  | .other => (e, [])

/-- Enter: the command is executed, and the line is empty. -/
def enter (e : LineEdit) : LineEdit :=
  let e := { e with cmdBuffer := update e.cmdBuffer e.cmdLen 0 }
  let e :=
    if e.cmdLen > 0 then
      let expanded := expand e.historyCount e.historyGet (strOf e.cmdBuffer CMD_BUFFER_SIZE)
      { e.historyAdd expanded with cmdPos := 0, cmdLen := 0, cmdBuffer := update e.cmdBuffer 0 0 }
    else e
  { e with historyBrowseIdx := -1, currentDraft := [] }

end LineEdit

def prompt : List UInt8 := [0x67, 0x65, 0x6D, 0x69, 0x6F, 0x73, 0x3E, 0x20]

/-- A key code, and what the command prints if it is Enter. -/
structure Event where
  code : Nat
  output : Screen → Screen

/-- A turn of `shell_task`: the editor, and the screen. -/
def shellTurn (t : Terminal) (e : LineEdit) (scr : Screen) (ev : Event) : LineEdit × Screen :=
  match keyOf ev.code with
  | .enter =>
    let scr := scr.puts t [0x0A]
    let scr := if e.cmdLen > 0 then ev.output scr else scr
    (e.enter, scr.puts t prompt)
  | k => ((e.key k).1, scr.puts t (e.key k).2)

/-- Where `shell_task` starts, on a stack that holds `b`. -/
def shellStart (b : Buf) : LineEdit where
  cmdBuffer := update b 0 0
  cmdPos := 0
  cmdLen := 0
  history := fun _ => []
  historyCount := 0
  historyBrowseIdx := -1
  currentDraft := []

end Gemios.Shell
