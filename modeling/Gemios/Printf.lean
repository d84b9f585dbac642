import Gemios.BoundedBuffer

/-!
# Formatted printing

`vsnprintf` and `format_number` of `src/src/lib/printf.c`.  The format is the memory from its first byte
on, and what is left of it at the end says how far it was read; the arguments are the words that `va_arg`
takes from the stack one after another.
-/

namespace Gemios.Printf

/-! ### Padding -/

/-- `while (len < width && rem > 1)`, with the width counted down. -/
def padLeft (pad : UInt8) (len : Int) : Nat → Int → Out → Out
  | 0, _, o => o
  | fuel + 1, width, o =>
    if len < width ∧ o.rem > 1 then padLeft pad len fuel (width - 1) (o.put pad) else o

/-- The same with the length counted up, for blanks. -/
def padRight (width : Int) : Nat → Int → Out → Out
  | 0, _, o => o
  | fuel + 1, len, o =>
    if len < width ∧ o.rem > 1 then padRight width fuel (len + 1) (o.put 0x20) else o

/-! ### Numbers -/

def digit (uppercase : Bool) (d : Nat) : UInt8 :=
  if d < 10 then UInt8.ofNat (0x30 + d)
  else if uppercase then UInt8.ofNat (0x41 + (d - 10)) else UInt8.ofNat (0x61 + (d - 10))

/-- The digits that fit into `temp`, the last one first. -/
def digitLoop (uppercase : Bool) (base : Nat) : Nat → Nat → List UInt8
  | 0, _ => []
  | fuel + 1, num =>
    if num > 0 then digit uppercase (num % base) :: digitLoop uppercase base fuel (num / base) else []

/-- `temp`, of 32 characters, before the sign is put into it. -/
def tempDigits (uppercase : Bool) (base num : Nat) : List UInt8 :=
  if num = 0 then [0x30] else digitLoop uppercase base 32 num

def formatNumber (o : Out) (num base : Nat) (width : Int) (padChar : UInt8)
    (uppercase isSigned leftAlign : Bool) : Out :=
  let negative := isSigned && decide (toInt num < 0)
  let num := if negative then (-toInt num % 4294967296).toNat else num
  let temp := tempDigits uppercase base num
  let signFirst := negative && decide (padChar = 0x30) && !leftAlign
  let o := if signFirst then o.put 0x2D else o
  let width := if signFirst ∧ width > 0 then width - 1 else width
  let temp := if negative && !signFirst then temp ++ [0x2D] else temp
  let o := if !leftAlign then padLeft padChar temp.length o.rem width o else o
  let o := o.puts temp.reverse
  if leftAlign then padRight width o.rem temp.length o else o

/-! ### Strings -/

/-- `while (*s && rem > 1)`. -/
def copyStr : List UInt8 → Out → Out
  | [], o => o
  | c :: s, o => if o.rem > 1 then copyStr s (o.put c) else o

/-- The case of `%s`. -/
def formatString (o : Out) (s : List UInt8) (width : Int) (leftAlign : Bool) : Out :=
  let slen := toInt s.length
  let o := if !leftAlign then padLeft 0x20 slen o.rem width o else o
  let o := copyStr s o
  if leftAlign then padRight width o.rem slen o else o

/-! ### Directives -/

/-- What stands between the `%` and the conversion. -/
structure Directive where
  leftAlign : Bool
  padChar : UInt8
  width : Int

/-- `if (*format == c) format++`. -/
def skip (c : UInt8) (format : List UInt8) : List UInt8 :=
  if format.head? = some c then format.tail else format

/-- `while (*format >= '0' && *format <= '9')`. -/
def scanWidth : List UInt8 → Int → Int × List UInt8
  | [], width => (width, [])
  | c :: format, width =>
    if 0x30 ≤ c.toNat ∧ c.toNat ≤ 0x39 then
      scanWidth format (toInt (width * 10 + ((c.toNat - 0x30 : Nat) : Int)))
    else (width, c :: format)

/-- From behind the `%` to the conversion. -/
def scanDirective (format : List UInt8) : Directive × List UInt8 :=
  let leftAlign := decide (format.head? = some 0x2D)
  let format := skip 0x2D format
  let zero := decide (format.head? = some 0x30) && !leftAlign
  let format := if zero then format.tail else format
  let (width, format) := scanWidth format 0
  let format := if format.head? = some 0x6C then skip 0x6C format.tail else format
  (⟨leftAlign, if zero then 0x30 else 0x20, width⟩, format)

/-- The cases of the `switch`. -/
inductive Conv where
  | char
  | string
  | signed
  | unsigned
  | hex
  | upperHex
  | pointer
  | percent
  | other (c : UInt8)

def convOf (c : UInt8) : Conv :=
  if c = 0x63 then .char
  else if c = 0x73 then .string
  else if c = 0x64 ∨ c = 0x69 then .signed
  else if c = 0x75 then .unsigned
  else if c = 0x78 then .hex
  else if c = 0x58 then .upperHex
  else if c = 0x70 then .pointer
  else if c = 0x25 then .percent
  else .other c

def Conv.takesArg : Conv → Bool
  | .percent => false
  | .other _ => false
  | _ => true

section

-- The string at an address, and the words on the stack.
variable (strAt : UInt32 → List UInt8) (ap : Nat → UInt32)

/-- The string of an argument; `"(null)"` for the null pointer. -/
def argString (w : UInt32) : List UInt8 :=
  if w = 0 then [0x28, 0x6E, 0x75, 0x6C, 0x6C, 0x29] else strAt w

/-- A case of the `switch`, with its argument. -/
def convert (d : Directive) (w : UInt32) (o : Out) : Conv → Out
  | .char => o.put w.toUInt8
  | .string => formatString o (argString strAt w) d.width d.leftAlign
  | .signed => formatNumber o w.toNat 10 d.width d.padChar false true d.leftAlign
  | .unsigned => formatNumber o w.toNat 10 d.width d.padChar false false d.leftAlign
  | .hex => formatNumber o w.toNat 16 d.width d.padChar false false d.leftAlign
  | .upperHex => formatNumber o w.toNat 16 d.width d.padChar true false d.leftAlign
  | .pointer =>
    let o := if o.rem > 3 then (o.put 0x30).put 0x78 else o
    formatNumber o w.toNat 16 8 0x30 false false false
  | .percent => o.put 0x25
  | .other c => o.put c

/-- The loop of `vsnprintf`, with the next argument to take. -/
def loop : Nat → List UInt8 → Nat → Out → Out × List UInt8
  | 0, format, _, o => (o, format)
  | _ + 1, [], _, o => (o, [])
  | fuel + 1, c :: format, j, o =>
    if c ≠ 0 ∧ o.rem > 1 then
      if c ≠ 0x25 then loop fuel format j (o.put c)
      else
        match scanDirective format with
        | (_, []) => (o, [])
        | (d, conv :: format) =>
          let k := convOf conv
          loop fuel format (if k.takesArg then j + 1 else j) (convert strAt d (ap j) o k)
    else (o, c :: format)

/-- What `vsnprintf` leaves: the characters that were written, the memory with the NUL behind them, the
    return value, and the format from the last byte on that was read. -/
structure Result where
  out : Out
  mem : Buf
  ret : Int
  format : List UInt8

/-- `vsnprintf`, into the memory at `str`. -/
def vsnprintf (mem : Buf) (size : Nat) (format : List UInt8) : Result :=
  if size = 0 then ⟨⟨mem, 0, 0⟩, mem, 0, format⟩
  else
    let r := loop strAt ap (format.length + 1) format 0 ⟨mem, 0, size⟩
    ⟨r.1, Function.update r.1.mem r.1.buf 0, toInt r.1.buf, r.2⟩

end

end Gemios.Printf
