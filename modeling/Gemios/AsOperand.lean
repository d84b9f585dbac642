import Gemios.AsBasic

/-!
# Expressions and operands

`eval_expr`, `parse_reg` and `parse_operand` of `src/tools/as.c`.  A pointer into a line is
the rest of the line; the terminating zero is the end of the list, and a read past it (a
quote as the last character) stays there.  A shift by a count outside 0..31, undefined in C,
takes the count modulo 32 as the processor does.
-/

namespace Gemios.As

/-! ### Characters and numbers -/

def isDigit (c : UInt8) : Bool := 0x30 ≤ c && c ≤ 0x39

def isAlpha (c : UInt8) : Bool := (0x41 ≤ c && c ≤ 0x5A) || (0x61 ≤ c && c ≤ 0x7A)

def isAlnum (c : UInt8) : Bool := isAlpha c || isDigit c

/-- First character of a symbol: a letter, `_` or `.`. -/
def isSymStart (c : UInt8) : Bool := isAlpha c || c == 0x5F || c == 0x2E

def isSymChar (c : UInt8) : Bool := isAlnum c || c == 0x5F || c == 0x2E

def hexDigit (c : UInt8) : Option Nat :=
  if isDigit c then some (c.toNat - 0x30)
  else if 0x61 ≤ c && c ≤ 0x66 then some (c.toNat - 0x61 + 10)
  else if 0x41 ≤ c && c ≤ 0x46 then some (c.toNat - 0x41 + 10)
  else none

/-- The digits at the start of a text, in a base, after the digits with value `acc`. -/
def digits (base : Nat) : Nat → List UInt8 → Nat × List UInt8
  | acc, [] => (acc, [])
  | acc, c :: p =>
    match (hexDigit c).filter (· < base) with
    | some d => digits base (acc * base + d) p
    | none => (acc, c :: p)

/-- `(int32_t)strtoul` of a 64-bit host: too large a number gives `ULONG_MAX`. -/
def strtoul (base : Nat) (p : List UInt8) : BitVec 32 × List UInt8 :=
  let (n, rest) := digits base 0 p
  (BitVec.ofNat 32 (min n 18446744073709551615), rest)

/-- The number at `p`, which starts with a digit: hexadecimal after `0x` or `0X`.  A `0x`
    without a digit after it is the number 0 followed by an `x`. -/
def number (p : List UInt8) : BitVec 32 × List UInt8 :=
  match p with
  | 0x30 :: x :: c :: rest =>
    if (x == 0x78 || x == 0x58) && (hexDigit c).isSome then strtoul 16 (c :: rest)
    else strtoul 10 p
  | _ => strtoul 10 p

/-- `atoi`, for a number that an `int` holds. -/
def atoi (p : List UInt8) : BitVec 32 :=
  match p.dropWhile (fun c => c == 0x20 || (0x09 ≤ c && c ≤ 0x0D)) with
  | 0x2D :: q => -BitVec.ofNat 32 (digits 10 0 q).1
  | 0x2B :: q => BitVec.ofNat 32 (digits 10 0 q).1
  | q => BitVec.ofNat 32 (digits 10 0 q).1

/-! ### Expressions -/

def escape (c : UInt8) : UInt8 :=
  if c == 0x6E then 0x0A
  else if c == 0x74 then 0x09
  else if c == 0x72 then 0x0D
  else if c == 0x62 then 0x08
  else if c == 0x61 then 0x07
  else if c == 0x66 then 0x0C
  else if c == 0x76 then 0x0B
  else if c == 0x30 then 0x00
  else c

/-- A character constant, after its first quote. -/
def charConst (p : List UInt8) : BitVec 32 × List UInt8 :=
  let (v, q) : UInt8 × List UInt8 :=
    match p with
    | 0x5C :: c :: q => (escape c, q)
    | 0x5C :: [] => (0, [])
    | c :: q => (c, q)
    | [] => (0, [])
  (BitVec.ofNat 32 v.toNat, if q.head? = some 0x27 then q.drop 1 else q)

/-- The symbol at `p`: 127 characters of it are kept. -/
def symAt (p : List UInt8) : List UInt8 × List UInt8 :=
  ((p.takeWhile isSymChar).take 127, p.dropWhile isSymChar)

/-- The value of a symbol: that of the first defined symbol of this name, else 0. -/
def symValue (symbols : List Symbol) (name : List UInt8) : BitVec 32 :=
  match (symbols.drop 1).find? (fun s => s.name == name && s.defined) with
  | some s => BitVec.ofNat 32 s.value
  | none => 0

inductive BinOp where
  | add | sub | or | and | shl | shr
deriving DecidableEq

/-- The binary operator at `p`. -/
def binOp (p : List UInt8) : Option (BinOp × List UInt8) :=
  match p with
  | 0x2B :: q => some (.add, q)
  | 0x2D :: q => some (.sub, q)
  | 0x7C :: q => some (.or, q)
  | 0x26 :: q => some (.and, q)
  | 0x3C :: 0x3C :: q => some (.shl, q)
  | 0x3E :: 0x3E :: q => some (.shr, q)
  | _ => none

def BinOp.apply (op : BinOp) (a b : BitVec 32) : BitVec 32 :=
  match op with
  | .add => a + b
  | .sub => a - b
  | .or => a ||| b
  | .and => a &&& b
  | .shl => a <<< (b.toNat % 32)
  | .shr => a.sshiftRight (b.toNat % 32)

/-- An operand of an expression; `eval` is `eval_expr` on the rest of the line. -/
def evalAtom (eval : List UInt8 → BitVec 32 × List UInt8) (symbols : List Symbol)
    (p : List UInt8) : BitVec 32 × List UInt8 :=
  match p with
  | [] => (0, [])
  | 0x28 :: q =>
    let (v, q) := eval q
    let q := skipWs q
    (v, if q.head? = some 0x29 then q.drop 1 else q)
  | 0x24 :: q => eval q
  | 0x27 :: q => charConst q
  | c :: q =>
    if isDigit c then number (c :: q)
    else if isSymStart c then
      let (name, q) := symAt (c :: q)
      (symValue symbols name, q)
    else (0, c :: q)

mutual

/-- `eval_expr`, with at most `fuel` nested calls and operators. -/
def evalExprFuel (symbols : List Symbol) : Nat → List UInt8 → BitVec 32 × List UInt8
  | 0, p => (0, p)
  | fuel + 1, p =>
    match skipWs p with
    | 0x7E :: q =>
      let (v, q) := evalExprFuel symbols fuel q
      (~~~v, q)
    | 0x2D :: q =>
      let (v, q) := evalAtom (evalExprFuel symbols fuel) symbols (skipWs q)
      evalOps symbols fuel (-v) (skipWs q)
    | q =>
      let (v, q) := evalAtom (evalExprFuel symbols fuel) symbols q
      evalOps symbols fuel v (skipWs q)

def evalOps (symbols : List Symbol) : Nat → BitVec 32 → List UInt8 → BitVec 32 × List UInt8
  | 0, v, p => (v, p)
  | fuel + 1, v, p =>
    match binOp p with
    | none => (v, p)
    | some (op, q) =>
      let (rhs, q) := evalExprFuel symbols fuel q
      evalOps symbols fuel (op.apply v rhs) (skipWs q)

end

/-- `eval_expr`.  Every call and every operator is after a character of its own, so the
    fuel is enough. -/
def evalExpr (symbols : List Symbol) (p : List UInt8) : BitVec 32 × List UInt8 :=
  evalExprFuel symbols (2 * p.length + 2) p

/-! ### Operands -/

inductive RegType where
  | none | r8 | r16 | r32 | sreg
deriving DecidableEq

/-- The registers of `parse_reg`, after the `%`. -/
def registers : List (String × RegType × Nat) :=
  [("eax", .r32, 0), ("ecx", .r32, 1), ("edx", .r32, 2), ("ebx", .r32, 3),
   ("esp", .r32, 4), ("ebp", .r32, 5), ("esi", .r32, 6), ("edi", .r32, 7),
   ("ax", .r16, 0), ("cx", .r16, 1), ("dx", .r16, 2), ("bx", .r16, 3),
   ("sp", .r16, 4), ("bp", .r16, 5), ("si", .r16, 6), ("di", .r16, 7),
   ("al", .r8, 0), ("cl", .r8, 1), ("dl", .r8, 2), ("bl", .r8, 3),
   ("ah", .r8, 4), ("ch", .r8, 5), ("dh", .r8, 6), ("bh", .r8, 7),
   ("es", .sreg, 0), ("cs", .sreg, 1), ("ss", .sreg, 2), ("ds", .sreg, 3),
   ("fs", .sreg, 4), ("gs", .sreg, 5)]

def parseReg (p : List UInt8) : Option (RegType × Nat) :=
  match skipWs p with
  | 0x25 :: q => (registers.find? fun r => str r.1 == q).map (·.2)
  | _ => .none

inductive OpKind where
  | none | reg | imm | mem
deriving DecidableEq

structure Operand where
  kind : OpKind
  regType : RegType
  regNum : Nat
  immVal : BitVec 32
  symName : List UInt8
  hasSym : Bool
  baseReg : Option Nat
  indexReg : Option Nat
  scale : BitVec 32
  disp : BitVec 32
deriving DecidableEq

/-- The operand that `parse_operand` starts from. -/
def noOperand : Operand := ⟨.none, .none, 0, 0, [], false, .none, .none, 1, 0⟩

/-- A symbol, a symbol with a displacement, or an expression: the symbol, if there is one,
    and the value. -/
def symOrExpr (symbols : List Symbol) (p : List UInt8) : Option (List UInt8) × BitVec 32 :=
  if isSymStart (p.headD 0) then
    let (name, q) := symAt p
    let q := skipWs q
    (some name, if q.head? = some 0x2B ∨ q.head? = some 0x2D then (evalExpr symbols q).1 else 0)
  else (none, (evalExpr symbols p).1)

/-- The parts between commas, of which 31 characters are kept.  Blanks after a comma are
    skipped, and an empty last part is none. -/
def splitParts : Nat → List UInt8 → List (List UInt8)
  | 0, _ => []
  | _, [] => []
  | fuel + 1, p =>
    let part := p.takeWhile (· != 0x2C)
    let q := p.dropWhile (· != 0x2C)
    cleanString (part.take 31) :: splitParts fuel (skipWs (q.drop 1))

/-- The registers and the scale between the parentheses.  More than three parts, which write
    past the end of `parts`, are none. -/
def Operand.setParts (op : Operand) (parts : List (List UInt8)) : Operand :=
  let reg (part : List UInt8) : Option Nat := (parseReg part).map (·.2)
  match parts with
  | [base] => { op with baseReg := reg base }
  | [base, index] => { op with baseReg := reg base, indexReg := reg index }
  | [base, index, scale] =>
    { op with
      baseReg := reg base
      indexReg := reg index
      scale := if scale = [] then op.scale else atoi scale }
  | _ => op

/-- The symbol and displacement of a memory operand. -/
def Operand.setDisp (op : Operand) (v : Option (List UInt8) × BitVec 32) : Operand :=
  { op with symName := v.1.getD [], hasSym := v.1.isSome, disp := v.2 }

/-- `parse_operand`; `none` is its result 0, an empty text. -/
def parseOperand (symbols : List Symbol) (s : List UInt8) : Option Operand :=
  match skipWs s with
  | [] => none
  | c :: rest =>
    match (if c = 0x25 then parseReg (c :: rest) else none) with
    | some (regType, regNum) =>
      some { noOperand with kind := .reg, regType := regType, regNum := regNum }
    | none =>
      if c = 0x24 then
        let v := symOrExpr symbols (skipWs rest)
        some { noOperand with
          kind := .imm, symName := v.1.getD [], hasSym := v.1.isSome, immVal := v.2 }
      else
        let p := c :: rest
        let op := { noOperand with kind := .mem }
        if p.contains 0x28 then
          let before := p.takeWhile (· != 0x28)
          let op :=
            if before = [] then op
            else op.setDisp (symOrExpr symbols (cleanString (before.take 127)))
          let after := (p.dropWhile (· != 0x28)).drop 1
          if after.contains 0x29 then
            let inside := (after.takeWhile (· != 0x29)).take 127
            some (op.setParts (splitParts (inside.length + 1) inside))
          else some op
        else some (op.setDisp (symOrExpr symbols p))

end Gemios.As
