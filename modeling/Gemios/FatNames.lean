import Gemios.FatBasic

/-!
# Short and long names

The name functions of `src/src/fs/fat.c`: comparison, the dotted form of an 8.3
field, the 8.3 form of a name, the long-name test and the `~N` alias.  A C string
is the list of its bytes before the NUL.
-/

namespace Gemios

def cstr (l : List UInt8) : List UInt8 := l.takeWhile (· != 0)

def toUpperChar (c : UInt8) : UInt8 := if 97 ≤ c ∧ c ≤ 122 then c - 97 + 65 else c

def fatNameEquals : List UInt8 → List UInt8 → Bool
  | [], [] => true
  | a :: as, b :: bs => if toUpperChar a != toUpperChar b then false else fatNameEquals as bs
  | _, _ => false

/-- `format_fat_name`: the bytes stored before the NUL it appends. -/
def formatFatName (raw : Slot) : List UInt8 :=
  if raw 0 = 0x2E ∧ raw 1 = 0x20 then [0x2E]
  else if raw 0 = 0x2E ∧ raw 1 = 0x2E ∧ raw 2 = 0x20 then [0x2E, 0x2E]
  else
    let base := ((List.range' 0 8).map raw).takeWhile (· != 0x20)
    if raw 8 ≠ 0x20 then
      base ++ 0x2E :: ((List.range' 8 3).map raw).takeWhile (· != 0x20)
    else base

/-- Fill up with blanks to `n` bytes. -/
def padTo (n : Nat) (l : List UInt8) : List UInt8 := (l ++ List.replicate n 0x20).take n

/-- `/` and `\`, the path separators. -/
def isSlash (c : UInt8) : Bool := c == 0x2F || c == 0x5C

def toFat83Name (src : List UInt8) : List UInt8 :=
  if src = [0x2E] then padTo 11 [0x2E]
  else if src = [0x2E, 0x2E] then padTo 11 [0x2E, 0x2E]
  else
    let inBase := fun c : UInt8 => c != 0x2E && !isSlash c
    let base := (src.takeWhile inBase).take 8
    -- the rest of an overlong base is skipped up to the dot
    let rest := src.dropWhile inBase
    let ext :=
      match rest with
      | 0x2E :: r => (r.takeWhile (!isSlash ·)).take 3
      | r => (r.takeWhile (!isSlash ·)).take 3
    padTo 8 (base.map toUpperChar) ++ padTo 3 (ext.map toUpperChar)

/-- The bytes that force a long name besides lower-case letters:
    blank `+` `,` `;` `=` `[` `]`. -/
def isLfnOnly (c : UInt8) : Bool :=
  c == 0x20 || c == 0x2B || c == 0x2C || c == 0x3B || c == 0x3D || c == 0x5B || c == 0x5D

/-- The character loop of `fat_needs_lfn`: `none` when it returns `true`, else
    the index of the only dot. -/
def needsLfnScan : List UInt8 → Nat → Option Nat → Option (Option Nat)
  | [], _, dot => some dot
  | c :: cs, i, dot =>
    if 97 ≤ c ∧ c ≤ 122 then none
    else if isLfnOnly c then none
    else if c = 0x2E then
      if dot.isSome then none else needsLfnScan cs (i + 1) (some i)
    else needsLfnScan cs (i + 1) dot

def fatNeedsLfn (name : List UInt8) : Bool :=
  if name.length > 12 then true
  else if name = [0x2E] ∨ name = [0x2E, 0x2E] then false
  else
    match needsLfnScan name 0 none with
    | none => true
    | some none => decide (name.length > 8)
    | some (some baseLen) =>
      decide (baseLen > 8 ∨ name.length - baseLen - 1 > 3 ∨ baseLen = 0)

/-- `strrchr`: the index of the last `c`. -/
def lastIndexOf (c : UInt8) : List UInt8 → Option Nat
  | [] => none
  | x :: xs =>
    match lastIndexOf c xs with
    | some k => some (k + 1)
    | none => if x = c then some 0 else none

/-- The characters an alias keeps: `A`-`Z`, `0`-`9`, `_`, `-`. -/
def isAliasChar (c : UInt8) : Bool :=
  (65 ≤ c && c ≤ 90) || (48 ≤ c && c ≤ 57) || c == 0x5F || c == 0x2D

/-- The first `n` characters of a piece of a long name that an alias keeps. -/
def aliasChars (n : Nat) (l : List UInt8) : List UInt8 :=
  ((l.map toUpperChar).filter isAliasChar).take n

/-- `snprintf(tail_str, .., "~%d", tail_num)`. -/
def aliasTailStr (tailNum : Nat) : List UInt8 :=
  0x7E :: (Nat.toDigits 10 tailNum).map fun c => UInt8.ofNat c.toNat

def fatGenerateShortAlias (longName : List UInt8) (tailNum : Nat) : List UInt8 :=
  let lastDot := lastIndexOf 0x2E longName
  let kept := aliasChars 8 (match lastDot with | none => longName | some k => longName.take k)
  let base := if kept = [] then [0x46, 0x49, 0x4C, 0x45] else kept
  let ext := match lastDot with | none => [] | some k => aliasChars 3 (longName.drop (k + 1))
  let tail := (aliasTailStr tailNum).take 7
  padTo 8 (base.take (8 - tail.length) ++ tail) ++ padTo 3 ext

end Gemios
