import Gemios.Bytes
import Mathlib.Logic.Function.Basic

/-!
# The PS/2 keyboard driver

`src/src/kernel/ps2_kbd.c`: the decoder of scan code set 1, which keeps its flags from byte to byte
and puts characters and key codes into the key buffer of `src/src/usb/usb_hid.c`.  What the keyboard
answers to a command is a parameter.
-/

namespace Gemios.Ps2

/-! ### Key codes -/

def KEY_UP : Nat := 0x101
def KEY_DOWN : Nat := 0x102
def KEY_LEFT : Nat := 0x103
def KEY_RIGHT : Nat := 0x104
def KEY_HOME : Nat := 0x105
def KEY_END : Nat := 0x106
def KEY_DELETE : Nat := 0x107
def KEY_PGUP : Nat := 0x108
def KEY_PGDN : Nat := 0x109
def KEY_F1 : Nat := 0x110
def KEY_F2 : Nat := 0x111
def KEY_F3 : Nat := 0x112
def KEY_ESC : Nat := 0x1B

def chars (s : String) : List Nat := s.toList.map Char.toNat

def zeros (n : Nat) : List Nat := List.replicate n 0

def ps2AsciiNormal : List Nat :=
  [0, 27] ++ chars "1234567890-=" ++ [8] ++ chars "\tqwertyuiop[]\n" ++ zeros 1 ++
    chars "asdfghjkl;'\x60" ++ zeros 1 ++ chars "\\zxcvbnm,./" ++ zeros 1 ++ chars "*" ++ zeros 1 ++
    chars " " ++ zeros 16 ++ chars "-" ++ zeros 3 ++ chars "+" ++ zeros 49

def ps2AsciiShift : List Nat :=
  [0, 27] ++ chars "!@#$%^&*()_+" ++ [8] ++ chars "\tQWERTYUIOP\x7b\x7d\n" ++ zeros 1 ++
    chars "ASDFGHJKL:\"~" ++ zeros 1 ++ chars "|ZXCVBNM<>?" ++ zeros 1 ++ chars "*" ++ zeros 1 ++
    chars " " ++ zeros 16 ++ chars "-" ++ zeros 3 ++ chars "+" ++ zeros 49

/-! ### State -/

structure Flags where
  shiftPressed : Bool
  ctrlPressed : Bool
  altPressed : Bool
  capsLock : Bool
  numLock : Bool
  scrollLock : Bool
  extendedCode : Bool
deriving DecidableEq, Repr

/-- The flags, the key buffer, and the bytes that were sent to the keyboard. -/
structure Driver extends Flags where
  kbdBuffer : Nat → Nat
  kbdHead : Nat
  kbdTail : Nat
  sent : List UInt8

def KBD_BUF_SIZE : Nat := 256

namespace Driver

def static : Driver := ⟨⟨false, false, false, false, true, false, false⟩, fun _ => 0, 0, 0, []⟩

def kbdPushChar (d : Driver) (key : Nat) : Driver :=
  let next := (d.kbdHead + 1) % KBD_BUF_SIZE
  if next ≠ d.kbdTail then
    { d with kbdBuffer := Function.update d.kbdBuffer d.kbdHead key, kbdHead := next }
  else d

/-- `ps2_kbd_set_leds`; `acked` says whether the keyboard answers after the bytes sent so far. -/
def ps2KbdSetLeds (acked : List UInt8 → Bool) (d : Driver) (scroll num caps : Bool) : Driver :=
  let leds : UInt8 := (if scroll then 1 else 0) ||| (if num then 2 else 0) ||| (if caps then 4 else 0)
  let d := { d with sent := d.sent ++ [0xED] }
  if acked d.sent then { d with sent := d.sent ++ [leds] } else d

def ps2KbdInit (d : Driver) : Driver :=
  { d with
    shiftPressed := false
    ctrlPressed := false
    altPressed := false
    capsLock := false
    numLock := true
    scrollLock := false
    extendedCode := false
    sent := d.sent ++ [0xF4] }

end Driver

/-! ### Keys that are put into the buffer -/

/-- The keys behind the prefix `0xE0`. -/
def extendedKeys : List (UInt8 × Nat) :=
  [(0x48, KEY_UP), (0x50, KEY_DOWN), (0x4B, KEY_LEFT), (0x4D, KEY_RIGHT), (0x47, KEY_HOME),
    (0x4F, KEY_END), (0x49, KEY_PGUP), (0x51, KEY_PGDN), (0x53, KEY_DELETE), (0x1C, 10), (0x35, 47)]

def functionKeys : List (UInt8 × Nat) :=
  [(0x3B, KEY_F1), (0x3C, KEY_F2), (0x3D, KEY_F3), (0x01, KEY_ESC)]

def keypadKeys : List (UInt8 × Nat × Option Nat) :=
  [(0x47, 55, KEY_HOME), (0x48, 56, KEY_UP), (0x49, 57, KEY_PGUP), (0x4A, 45, some 45),
    (0x4B, 52, KEY_LEFT), (0x4C, 53, none), (0x4D, 54, KEY_RIGHT), (0x4E, 43, some 43),
    (0x4F, 49, KEY_END), (0x50, 50, KEY_DOWN), (0x51, 51, KEY_PGDN), (0x52, 48, none),
    (0x53, 46, KEY_DELETE)]

namespace Flags

/-- The character of a key, with the modifiers. -/
def character (f : Flags) (key : UInt8) : Option Nat :=
  let c := (if f.shiftPressed then ps2AsciiShift else ps2AsciiNormal).getD key.toNat 0
  if f.ctrlPressed ∧ 97 ≤ c ∧ c ≤ 122 then some (c - 97 + 1)
  else if f.ctrlPressed ∧ 65 ≤ c ∧ c ≤ 90 then some (c - 65 + 1)
  else if f.capsLock ∧ 97 ≤ c ∧ c ≤ 122 ∧ ¬ f.shiftPressed then some (c - 97 + 65)
  else if f.capsLock ∧ 65 ≤ c ∧ c ≤ 90 ∧ f.shiftPressed then some (c - 65 + 97)
  else if c ≠ 0 then some c
  else none

/-- What a key puts into the buffer that is neither a modifier nor a lock. -/
def keyCode (f : Flags) (key : UInt8) : Option Nat :=
  match functionKeys.lookup key with
  | some c => some c
  | none =>
    match keypadKeys.lookup key with
    | some (on, off) => if f.numLock then some on else off
    | none => f.character key

end Flags

namespace Driver

/-- A key code, if there is one, is put into the buffer. -/
def kbdPushCode (d : Driver) (code : Option Nat) : Driver := code.elim d d.kbdPushChar

/-! ### The decoder -/

/-- A byte behind the prefix `0xE0`. -/
def handleExtended (d : Driver) (key : UInt8) (released : Bool) : Driver :=
  let d := { d with extendedCode := false }
  if key = 0x1D then { d with ctrlPressed := !released }
  else if key = 0x38 then { d with altPressed := !released }
  else if !released then d.kbdPushCode (extendedKeys.lookup key)
  else d

def handlePlain (acked : List UInt8 → Bool) (d : Driver) (key : UInt8) (released : Bool) : Driver :=
  if key = 0x1D then { d with ctrlPressed := !released }
  else if key = 0x38 then { d with altPressed := !released }
  else if key = 0x2A ∨ key = 0x36 then { d with shiftPressed := !released }
  else if key = 0x3A ∧ !released then
    let d := { d with capsLock := !d.capsLock }
    d.ps2KbdSetLeds acked d.scrollLock d.numLock d.capsLock
  else if key = 0x45 ∧ !released then
    let d := { d with numLock := !d.numLock }
    d.ps2KbdSetLeds acked d.scrollLock d.numLock d.capsLock
  else if key = 0x46 ∧ !released then
    let d := { d with scrollLock := !d.scrollLock }
    d.ps2KbdSetLeds acked d.scrollLock d.numLock d.capsLock
  else if !released then d.kbdPushCode (d.keyCode key)
  else d

def ps2KeyboardHandleByte (acked : List UInt8 → Bool) (d : Driver) (scancode : UInt8) : Driver :=
  if scancode = 0xE0 then { d with extendedCode := true }
  else if scancode = 0xE1 then d
  else
    let released := scancode &&& 0x80 != 0
    let key := scancode &&& 0x7F
    if d.extendedCode then d.handleExtended key released else d.handlePlain acked key released

/-- Bytes in the order in which they are read. -/
def handleBytes (acked : List UInt8 → Bool) (d : Driver) (bytes : List UInt8) : Driver :=
  bytes.foldl (ps2KeyboardHandleByte acked) d

end Driver

/-! ### The flags of the decoder -/

namespace Flags

/-- What a byte behind the prefix does to the flags. -/
def afterExtended (f : Flags) (key : UInt8) (released : Bool) : Flags :=
  let f := { f with extendedCode := false }
  if key = 0x1D then { f with ctrlPressed := !released }
  else if key = 0x38 then { f with altPressed := !released }
  else f

/-- What a byte without a prefix does to the flags. -/
def afterPlain (f : Flags) (key : UInt8) (released : Bool) : Flags :=
  if key = 0x1D then { f with ctrlPressed := !released }
  else if key = 0x38 then { f with altPressed := !released }
  else if key = 0x2A ∨ key = 0x36 then { f with shiftPressed := !released }
  else if key = 0x3A ∧ !released then { f with capsLock := !f.capsLock }
  else if key = 0x45 ∧ !released then { f with numLock := !f.numLock }
  else if key = 0x46 ∧ !released then { f with scrollLock := !f.scrollLock }
  else f

def after (f : Flags) (scancode : UInt8) : Flags :=
  if scancode = 0xE0 then { f with extendedCode := true }
  else if scancode = 0xE1 then f
  else
    let released := scancode &&& 0x80 != 0
    let key := scancode &&& 0x7F
    if f.extendedCode then f.afterExtended key released else f.afterPlain key released

def afterAll (f : Flags) (bytes : List UInt8) : Flags := bytes.foldl after f

end Flags

namespace Driver

variable {acked : List UInt8 → Bool}

@[simp] theorem kbdPushChar_toFlags (d : Driver) (key : Nat) :
    (d.kbdPushChar key).toFlags = d.toFlags := by
  unfold kbdPushChar
  dsimp only
  split <;> rfl

@[simp] theorem kbdPushCode_toFlags (d : Driver) (code : Option Nat) :
    (d.kbdPushCode code).toFlags = d.toFlags := by
  cases code with
  | none => rfl
  | some key => exact d.kbdPushChar_toFlags key

@[simp] theorem ps2KbdSetLeds_toFlags (d : Driver) (scroll num caps : Bool) :
    (d.ps2KbdSetLeds acked scroll num caps).toFlags = d.toFlags := by
  unfold ps2KbdSetLeds
  dsimp only
  split <;> rfl

theorem handleExtended_toFlags (d : Driver) (key : UInt8) (released : Bool) :
    (d.handleExtended key released).toFlags = d.toFlags.afterExtended key released := by
  unfold handleExtended Flags.afterExtended
  dsimp only
  split
  · rfl
  · split
    · rfl
    · split
      · rw [kbdPushCode_toFlags]
      · rfl

theorem handlePlain_toFlags (d : Driver) (key : UInt8) (released : Bool) :
    (d.handlePlain acked key released).toFlags = d.toFlags.afterPlain key released := by
  unfold handlePlain Flags.afterPlain
  dsimp only
  repeat' split
  all_goals simp

theorem handleByte_toFlags (d : Driver) (scancode : UInt8) :
    (d.ps2KeyboardHandleByte acked scancode).toFlags = d.toFlags.after scancode := by
  unfold ps2KeyboardHandleByte Flags.after
  dsimp only
  split
  · rfl
  · split
    · rfl
    · split
      · exact d.handleExtended_toFlags _ _
      · exact d.handlePlain_toFlags _ _

theorem handleBytes_toFlags (d : Driver) (bytes : List UInt8) :
    (d.handleBytes acked bytes).toFlags = d.toFlags.afterAll bytes := by
  induction bytes generalizing d with
  | nil => rfl
  | cons b bytes ih =>
    have hrest := ih (d.ps2KeyboardHandleByte acked b)
    rw [handleByte_toFlags] at hrest
    exact hrest

end Driver

end Gemios.Ps2
