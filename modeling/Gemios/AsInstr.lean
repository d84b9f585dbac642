import Gemios.AsModRm
import Gemios.AsText

/-!
# Directives and instructions

What `assemble_line` of `src/tools/as.c` does with a token and its operands.  A directive changes
a table or emits; an instruction emits.  A token that nothing matches, or not with these
operands, emits nothing.
-/

namespace Gemios.As

def lookup {α : Type} (table : List (String × α)) (token : List UInt8) : Option α :=
  (table.find? fun e => str e.1 == token).map (·.2)

def isToken (names : List String) (token : List UInt8) : Bool := names.any fun n => str n == token

inductive Cmd where
  | emit (items : List Item)
  /-- the section that the next lines are for -/
  | switch (name : List UInt8) (type flags : Nat)
  | binding (name : List UInt8) (binding : Nat)
  | common (name : List UInt8) (size align : BitVec 32)
  | align (bytes : Nat)
  | set (name expr : List UInt8)
  /-- a write outside an array -/
  | fault
deriving DecidableEq

/-! ### Immediates -/

/-- The test for an immediate between -128 and 127. -/
def Operand.shortImm (op : Operand) : Bool := -128 ≤ op.immVal.toInt && op.immVal.toInt ≤ 127

def imm8 (op : Operand) : List Item := [.byte (UInt8.ofNat op.immVal.toNat)]

def imm16 (op : Operand) : List Item := bytes (word (op.immVal.setWidth 16))

def imm32 (op : Operand) : List Item := bytes (dword op.immVal)

/-- An immediate, with a relocation for its symbol if there is one. -/
def immSym (op : Operand) : List Item :=
  if op.hasSym then [.ref op.symName R_386_32 op.immVal] else imm32 op

/-! ### Tables -/

def plainTable : List (String × List UInt8) :=
  [("iret", [0xCF]), ("iretl", [0xCF]), ("cli", [0xFA]), ("sti", [0xFB]), ("hlt", [0xF4]),
   ("cld", [0xFC]), ("std", [0xFD]), ("movsb", [0xA4]), ("movsw", [0x66, 0xA5]),
   ("movsl", [0xA5]), ("movsd", [0xA5]), ("stosb", [0xAA]), ("stosw", [0x66, 0xAB]),
   ("stosl", [0xAB]), ("stosd", [0xAB]), ("pusha", [0x60]), ("pushal", [0x60]),
   ("popa", [0x61]), ("popal", [0x61]), ("pushfl", [0x9C]), ("pushf", [0x9C]),
   ("popfl", [0x9D]), ("popf", [0x9D]), ("cltd", [0x99]), ("cdq", [0x99]),
   ("cpuid", [0x0F, 0xA2]), ("rdtsc", [0x0F, 0x31]), ("pause", [0xF3, 0x90]),
   ("rdmsr", [0x0F, 0x32]), ("wrmsr", [0x0F, 0x30])]

/-- The prefixes in front of an instruction on the same line. -/
def repTable : List (String × UInt8) :=
  [("rep", 0xF3), ("repz", 0xF3), ("repe", 0xF3), ("repnz", 0xF2), ("repne", 0xF2)]

/-- `jcc_table`, with the opcode for 8 bits and for 32. -/
def jccTable : List (String × UInt8 × UInt8) :=
  [("je", 0x74, 0x84), ("jz", 0x74, 0x84), ("jne", 0x75, 0x85), ("jnz", 0x75, 0x85),
   ("jb", 0x72, 0x82), ("jc", 0x72, 0x82), ("jnae", 0x72, 0x82), ("jae", 0x73, 0x83),
   ("jnc", 0x73, 0x83), ("jnb", 0x73, 0x83), ("jbe", 0x76, 0x86), ("jna", 0x76, 0x86),
   ("ja", 0x77, 0x87), ("jnbe", 0x77, 0x87), ("jl", 0x7C, 0x8C), ("jnge", 0x7C, 0x8C),
   ("jge", 0x7D, 0x8D), ("jnl", 0x7D, 0x8D), ("jle", 0x7E, 0x8E), ("jng", 0x7E, 0x8E),
   ("jg", 0x7F, 0x8F), ("jnle", 0x7F, 0x8F), ("js", 0x78, 0x88), ("jns", 0x79, 0x89)]

def setccTable : List (String × UInt8) :=
  [("sete", 0x94), ("setz", 0x94), ("setne", 0x95), ("setnz", 0x95), ("setb", 0x92),
   ("setc", 0x92), ("setnae", 0x92), ("setae", 0x93), ("setnc", 0x93), ("setnb", 0x93),
   ("setbe", 0x96), ("setna", 0x96), ("seta", 0x97), ("setnbe", 0x97), ("setl", 0x9C),
   ("setnge", 0x9C), ("setge", 0x9D), ("setnl", 0x9D), ("setle", 0x9E), ("setng", 0x9E),
   ("setg", 0x9F), ("setnle", 0x9F)]

/-- The opcodes of instructions that load a register from a register or memory. -/
def loadTable : List (String × List UInt8) :=
  [("cmovel", [0x0F, 0x44]), ("cmovzl", [0x0F, 0x44]), ("cmovnel", [0x0F, 0x45]),
   ("cmovnzl", [0x0F, 0x45]), ("cmovbl", [0x0F, 0x42]), ("cmovcl", [0x0F, 0x42]),
   ("cmovael", [0x0F, 0x43]), ("cmovncl", [0x0F, 0x43]), ("cmovbel", [0x0F, 0x46]),
   ("cmoval", [0x0F, 0x47]), ("cmovll", [0x0F, 0x4C]), ("cmovgel", [0x0F, 0x4D]),
   ("cmovlel", [0x0F, 0x4E]), ("cmovgl", [0x0F, 0x4F]), ("leal", [0x8D]),
   ("movzbl", [0x0F, 0xB6]), ("movsbl", [0x0F, 0xBE]), ("movzwl", [0x0F, 0xB7]),
   ("movswl", [0x0F, 0xBF])]

/-- `alu_ops`: the width is that of the token's last letter. -/
def aluTable : List (String × Nat) :=
  [("add", 0), ("or", 1), ("adc", 2), ("sbb", 3), ("and", 4), ("sub", 5), ("xor", 6), ("cmp", 7)]

/-- The instructions with one register or memory operand: the bytes before it, and the digit. -/
def unaryTable : List (String × List UInt8 × Nat) :=
  [("notl", [0xF7], 2), ("not", [0xF7], 2), ("notb", [0xF6], 2), ("notw", [0x66, 0xF7], 2),
   ("negl", [0xF7], 3), ("neg", [0xF7], 3), ("negb", [0xF6], 3), ("negw", [0x66, 0xF7], 3),
   ("divl", [0xF7], 6), ("idivl", [0xF7], 7), ("mull", [0xF7], 4), ("lgdt", [0x0F, 0x01], 2),
   ("lidt", [0x0F, 0x01], 3)]

def shiftTable : List (String × Nat) := [("shll", 4), ("sall", 4), ("shrl", 5), ("sarl", 7)]

/-! ### Instructions -/

def retItems (ops : List Operand) : List Item :=
  match ops with
  | op :: _ => if op.kind = .imm then [.byte 0xC2] ++ imm16 op else [.byte 0xC3]
  | [] => [.byte 0xC3]

def pushItems (op : Operand) : List Item :=
  if op.kind = .reg ∧ op.regType = .r32 then bytes [0x50 + UInt8.ofNat op.regNum]
  else if op.kind = .imm then
    if op.hasSym then [.byte 0x68, .ref op.symName R_386_32 op.immVal]
    else if op.shortImm then [.byte 0x6A] ++ imm8 op
    else [.byte 0x68] ++ imm32 op
  else [.byte 0xFF] ++ modrmItems 6 op

def popItems (op : Operand) : List Item :=
  if op.kind = .reg ∧ op.regType = .r32 then bytes [0x58 + UInt8.ofNat op.regNum]
  else [.byte 0x8F] ++ modrmItems 0 op

def intItems (num : BitVec 32) : List Item :=
  if num = 3 then [.byte 0xCC] else bytes [0xCD, UInt8.ofNat num.toNat]

/-- `call`, `jmp` and `jcc` of a symbol, with the opcode before the 32-bit displacement. -/
def farItems (opcode : List UInt8) (name : List UInt8) : List Item :=
  bytes opcode ++ [.ref name R_386_PC32 (-4)]

/-- `call` and `jmp` through an operand. -/
def indirectItems (symbols : List Symbol) (digit : Nat) (raw : List UInt8) : List Item :=
  [.byte 0xFF] ++ modrmItems digit ((parseOperand symbols raw).getD noOperand)

def movItems (token : List UInt8) (src dst : Operand) : List Item :=
  let isByte := token = str "movb" ∨ src.regType = .r8 ∨ dst.regType = .r8
  let isWord := token = str "movw" ∨ src.regType = .r16 ∨ dst.regType = .r16
  if src.regType = .sreg ∧ dst.kind = .reg then bytes [0x8C, orBits 0xC0 src.regNum dst.regNum]
  else if src.kind = .reg ∧ dst.regType = .sreg then
    bytes [0x8E, orBits 0xC0 dst.regNum src.regNum]
  else
    (if isWord then [.byte 0x66] else []) ++
      if src.kind = .imm then
        if dst.kind = .reg then
          if isByte then bytes [0xB0 + UInt8.ofNat dst.regNum] ++ imm8 src
          else if isWord then bytes [0xB8 + UInt8.ofNat dst.regNum] ++ imm16 src
          else bytes [0xB8 + UInt8.ofNat dst.regNum] ++ immSym src
        else
          [.byte (if isByte then 0xC6 else 0xC7)] ++ modrmItems 0 dst ++
            if isByte then imm8 src else if isWord then imm16 src else immSym src
      else if src.kind = .reg then
        [.byte (if isByte then 0x88 else 0x89)] ++ modrmItems src.regNum dst
      else if dst.kind = .reg then
        [.byte (if isByte then 0x8A else 0x8B)] ++ modrmItems dst.regNum src
      else []

/-- An operation of `alu_ops`; `width` is the last letter of the token. -/
def aluItems (opNum : Nat) (width : UInt8) (src dst : Operand) : List Item :=
  let isB := width = 0x62
  let isW := width = 0x77
  (if isW then [.byte 0x66] else []) ++
    if src.kind = .imm then
      if isB then [.byte 0x80] ++ modrmItems opNum dst ++ imm8 src
      else if src.shortImm ∧ ¬ src.hasSym then [.byte 0x83] ++ modrmItems opNum dst ++ imm8 src
      else [.byte 0x81] ++ modrmItems opNum dst ++ if isW then imm16 src else immSym src
    else if src.kind = .reg then
      bytes [orBits (if isB then 0 else 1) opNum 0] ++ modrmItems src.regNum dst
    else if dst.kind = .reg then
      bytes [orBits (if isB then 2 else 3) opNum 0] ++ modrmItems dst.regNum src
    else []

/-- The operation and the width of an `alu_ops` token. -/
def aluOp (token : List UInt8) : Option (Nat × UInt8) :=
  match token.getLast? with
  | some w =>
    if w = 0x62 ∨ w = 0x77 ∨ w = 0x6C then (lookup aluTable token.dropLast).map fun n => (n, w)
    else none
  | none => none

def testItems (isB : Bool) (src dst : Operand) : List Item :=
  if src.kind = .imm then
    [.byte (if isB then 0xF6 else 0xF7)] ++ modrmItems 0 dst ++ if isB then imm8 src else imm32 src
  else if src.kind = .reg then
    [.byte (if isB then 0x84 else 0x85)] ++ modrmItems src.regNum dst
  else []

def imulImm (src rm dst : Operand) : List Item :=
  if src.shortImm ∧ ¬ src.hasSym then [.byte 0x6B] ++ modrmItems dst.regNum rm ++ imm8 src
  else [.byte 0x69] ++ modrmItems dst.regNum rm ++ imm32 src

def imulItems (ops : List Operand) : List Item :=
  match ops with
  | [src, dst] =>
    if dst.kind ≠ .reg then []
    else if src.kind = .imm then imulImm src dst dst
    else bytes [0x0F, 0xAF] ++ modrmItems dst.regNum src
  | [src, rm, dst] => if src.kind = .imm ∧ dst.kind = .reg then imulImm src rm dst else []
  | _ => []

def incDecItems (opcode : UInt8) (digit : Nat) (op : Operand) : List Item :=
  if op.kind = .reg then bytes [opcode + UInt8.ofNat op.regNum]
  else [.byte 0xFF] ++ modrmItems digit op

def shiftItems (digit : Nat) (ops : List Operand) : List Item :=
  match ops with
  | [op] => [.byte 0xD1] ++ modrmItems digit op
  | src :: dst :: _ =>
    if src.kind = .reg ∧ src.regNum = 1 then [.byte 0xD3] ++ modrmItems digit dst
    else if src.kind = .imm then
      if src.immVal = 1 then [.byte 0xD1] ++ modrmItems digit dst
      else [.byte 0xC1] ++ modrmItems digit dst ++ imm8 src
    else []
  | [] => []

def shldItems (ops : List Operand) : List Item :=
  match ops with
  | [src, reg, dst] =>
    if src.kind = .imm ∧ reg.kind = .reg then
      bytes [0x0F, 0xA4] ++ modrmItems reg.regNum dst ++ imm8 src
    else []
  | [reg, dst] => if reg.kind = .reg then bytes [0x0F, 0xA5] ++ modrmItems reg.regNum dst else []
  | _ => []

/-- The value of an operand text behind a `$`. -/
def dollarValue (symbols : List Symbol) (raw : List UInt8) : BitVec 32 :=
  (evalExpr symbols (if raw.head? = some 0x24 then raw.drop 1 else raw)).1

/-- A port in `%dx`, or as a byte. -/
def portItems (symbols : List Symbol) (dxOpcode opcode : UInt8) (port : List UInt8) : List Item :=
  if port = str "%dx" then [.byte dxOpcode]
  else bytes [opcode, UInt8.ofNat (dollarValue symbols port).toNat]

/-- The instructions but the jumps and `call`. -/
def instrItems (symbols : List Symbol) (token : List UInt8) (raw : List (List UInt8))
    (ops : List Operand) : List Item :=
  if isToken ["ret", "retl", "retw"] token then retItems ops
  else if isToken ["imull"] token then imulItems ops
  else if isToken ["shldl"] token then shldItems ops
  else
    match lookup plainTable token, lookup shiftTable token with
    | some bs, _ => bytes bs
    | none, some digit => shiftItems digit ops
    | none, none =>
      match raw, ops with
      | [r], [op] =>
        if isToken ["push", "pushl"] token then pushItems op
        else if isToken ["pop", "popl"] token then popItems op
        else if isToken ["int"] token then intItems (evalExpr symbols r).1
        else if isToken ["incl"] token then incDecItems 0x40 0 op
        else if isToken ["decl"] token then incDecItems 0x48 1 op
        else
          match lookup setccTable token, lookup unaryTable token with
          | some opcode, _ => bytes [0x0F, opcode] ++ modrmItems 0 op
          | none, some (opcode, digit) => bytes opcode ++ modrmItems digit op
          | none, none => []
      | [r0, r1], [src, dst] =>
        if isToken ["mov", "movb", "movw", "movl"] token then movItems token src dst
        else if isToken ["testb", "testl"] token then testItems (token = str "testb") src dst
        else if isToken ["inb"] token then portItems symbols 0xEC 0xE4 r0
        else if isToken ["outb"] token then portItems symbols 0xEE 0xE6 r1
        else if isToken ["inw"] token then bytes [0x66, 0xED]
        else if isToken ["outw"] token then bytes [0x66, 0xEF]
        else if isToken ["inl"] token then bytes [0xED]
        else if isToken ["outl"] token then bytes [0xEF]
        else
          match lookup loadTable token, aluOp token with
          | some opcode, _ => if dst.kind = .reg then bytes opcode ++ modrmItems dst.regNum src else []
          | none, some (opNum, width) => aluItems opNum width src dst
          | none, none => []
      | _, _ => []

/-! ### Jumps -/

structure LocalJump where
  opcode : UInt8
  digit : UInt8
  back : Bool
deriving DecidableEq, Repr

/-- The opcode of a jump with a displacement of 8 bits. -/
def shortOpcode (token : List UInt8) : Option UInt8 :=
  if isToken ["jmp", "jmpl"] token then some 0xEB else (lookup jccTable token).map (·.1)

/-- The test for a jump to a numeric label: a digit with `b` or `f` behind it. -/
def localJump (token : List UInt8) (raw : List (List UInt8)) : Option LocalJump :=
  match raw with
  | [d :: x :: _] =>
    if isDigit d ∧ (x = 0x62 ∨ x = 0x66) then
      (shortOpcode token).map fun opcode => ⟨opcode, d, x = 0x62⟩
    else none
  | _ => none

def int32 (n : Nat) : Int := (BitVec.ofNat 32 n).toInt

/-- The loop for a label before the line; the first component is `max_l`. -/
def backTarget (labels : List LabelPos) (name : List UInt8) (secIdx line : Nat) : Int × Int :=
  labels.foldl (fun acc k =>
    if k.name = name ∧ k.sectionIdx = secIdx ∧ k.lineIdx < line ∧ acc.1 < k.lineIdx then
      (k.lineIdx, int32 k.offset)
    else acc) (-1, -1)

/-- The loop for a label behind the line; the first component is `min_l`. -/
def forwardTarget (labels : List LabelPos) (name : List UInt8) (secIdx line : Nat) : Nat × Int :=
  labels.foldl (fun acc k =>
    if k.name = name ∧ k.sectionIdx = secIdx ∧ line < k.lineIdx ∧ k.lineIdx < acc.1 then
      (k.lineIdx, int32 k.offset)
    else acc) (999999, -1)

/-- `target_off`. -/
def LocalJump.target (j : LocalJump) (st : Asm) (line : Nat) : Int :=
  if j.back then (backTarget st.labels [j.digit] st.curSection line).2
  else (forwardTarget st.labels [j.digit] st.curSection line).2

/-- The displacement that is emitted: 0 for a label that is not found. -/
def LocalJump.disp (j : LocalJump) (st : Asm) (line : Nat) : UInt8 :=
  let target := j.target st line
  if target ≥ 0 then
    UInt8.ofNat ((target - (int32 (st.secSize st.curSection) + 2)) % 256).toNat
  else 0

/-- `call`, `ljmp`, and the jumps that are not to a numeric label. -/
def branchCmd (symbols : List Symbol) (token : List UInt8) (raw : List (List UInt8)) :
    Option Cmd :=
  match raw with
  | [r] =>
    if isToken ["call", "calll"] token then
      if r.head? = some 0x2A then some (.emit (indirectItems symbols 2 (r.drop 1)))
      else some (.emit (farItems [0xE8] r))
    else if isToken ["jmp", "jmpl"] token then
      if r.head? = some 0x2A then some (.emit (indirectItems symbols 4 (r.drop 1)))
      -- the name is copied to an array of 64 bytes
      else if (str ".L").isPrefixOf r ∧ r.length ≥ 64 then some .fault
      else some (.emit (farItems [0xE9] r))
    else (lookup jccTable token).map fun e => .emit (farItems [0x0F, e.2] r)
  | [r0, r1] =>
    if isToken ["ljmp"] token then
      let label := if r1.head? = some 0x24 then r1.drop 1 else r1
      some (.emit ([.byte 0xEA, .ref label R_386_32 0] ++
        bytes (word ((dollarValue symbols r0).setWidth 16))))
    else none
  | _ => none

/-! ### Directives -/

/-- The type and the flags of `.section`. -/
def sectionCmd (name : List UInt8) : Cmd :=
  let text := (strstr (str ".text") name).isSome
  let bss := (strstr (str ".bss") name).isSome
  let data := (strstr (str ".data") name).isSome
  .switch name (if bss then SHT_NOBITS else SHT_PROGBITS)
    (SHF_ALLOC ||| (if text then SHF_EXECINSTR else 0) ||| if bss || data then SHF_WRITE else 0)

/-- What `.long` and its like emit for an operand. -/
def longItems (symbols : List Symbol) (quad : Bool) (raw : List UInt8) (op : Operand) : List Item :=
  (if op.hasSym then [.ref op.symName R_386_32 op.disp]
    else bytes (dword (evalExpr symbols raw).1)) ++
    if quad then bytes (dword 0) else []

/-- A directive; `p` is the text behind its token.  Without the operands that it needs
    `.section`, `.comm` and the others are skipped. -/
def directive (symbols : List Symbol) (token p : List UInt8) (raw : List (List UInt8))
    (ops : List Operand) : Cmd :=
  let value r := (evalExpr symbols r).1
  if isToken [".text"] token then .switch (str ".text") SHT_PROGBITS (SHF_ALLOC ||| SHF_EXECINSTR)
  else if isToken [".data"] token then .switch (str ".data") SHT_PROGBITS (SHF_ALLOC ||| SHF_WRITE)
  else if isToken [".bss"] token then .switch (str ".bss") SHT_NOBITS (SHF_ALLOC ||| SHF_WRITE)
  else if isToken [".asciz", ".string"] token then
    (stringLiteral p true).elim .fault fun bs => .emit (bytes bs)
  else if isToken [".ascii"] token then
    (stringLiteral p false).elim .fault fun bs => .emit (bytes bs)
  else if isToken [".byte", ".1byte"] token then
    .emit (raw.flatMap fun r => bytes [UInt8.ofNat (value r).toNat])
  else if isToken [".short", ".word", ".value", ".2byte", ".half", ".hword"] token then
    .emit (raw.flatMap fun r => bytes (word ((value r).setWidth 16)))
  else if isToken [".long", ".quad", ".int", ".4byte"] token then
    .emit ((raw.zip ops).flatMap fun r => longItems symbols (token = str ".quad") r.1 r.2)
  else
    match raw with
    | [] => .emit []
    | r :: rest =>
      if isToken [".section"] token then sectionCmd r
      else if isToken [".globl", ".global"] token then .binding r STB_GLOBAL
      else if isToken [".local"] token then .binding r STB_LOCAL
      else if isToken [".p2align"] token then .align (1 <<< ((atoi r).toNat % 32))
      else if isToken [".align"] token then .align (atoi r).toNat
      else if isToken [".zero", ".space", ".skip"] token then
        .emit (bytes (List.replicate (value r).toNat 0))
      else
        match rest with
        | [] => .emit []
        | r1 :: rest =>
          if isToken [".comm"] token then
            .common r (atoi r1) ((rest.head?.map atoi).getD 4)
          else if isToken [".set"] token then .set r r1
          else .emit []

/-- What `assemble_line` does for a token with its operands. -/
def statement (st : Asm) (line : Nat) (token p : List UInt8) (raw : List (List UInt8)) : Cmd :=
  let ops := raw.map fun r => (parseOperand st.symbols r).getD noOperand
  if token.head? = some 0x2E then directive st.symbols token p raw ops
  else
    match localJump token raw with
    | some j => .emit (bytes [j.opcode, j.disp st line])
    | none =>
      match branchCmd st.symbols token raw with
      | some cmd => cmd
      | none => .emit (instrItems st.symbols token raw ops)

end Gemios.As
