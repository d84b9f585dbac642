import Gemios.AsInstr

/-!
# Assembling a source

`assemble_line` of `src/tools/as.c` and the two passes over the expanded lines.  A line leaves a
log of the labels that it defines and the jumps to numeric labels that it emits, for the
statements about whole runs.  A line that ends the program or leaves an array has no result.
-/

namespace Gemios.As

/-- What the log records: a label, and a jump with the section and the offset that it is emitted
    at. -/
inductive Event where
  | label (l : LabelPos)
  | jump (j : LocalJump) (sectionIdx offset line : Nat) (disp : UInt8)
deriving DecidableEq

def Asm.modifySymbol (st : Asm) (i : Nat) (f : Symbol → Symbol) : Asm :=
  { st with symbols := st.symbols.modify i f }

/-- `.align` and `.p2align`; the mask is `~(n - 1)` with 32 bits. -/
def Asm.alignTo (st : Asm) (n : Nat) : Asm :=
  let size := st.secSize st.curSection
  let aligned := (size + n - 1) &&& ((4294967296 - n) % 4294967296)
  let st := secEmit st st.curSection (List.replicate (aligned - size) 0)
  { st with sections := st.sections.modify st.curSection fun s => { s with align := max s.align n } }

section

variable (pass line : Nat)

def runCmd (st : Asm) : Cmd → Option Asm
  | .emit items => emitItems st.curSection pass st items
  | .switch name type flags =>
    (getOrCreateSection st name type flags 4).map fun (st, i) => { st with curSection := i }
  | .binding name binding =>
    (findOrAddSymbol st name).map fun (st, i) => st.modifySymbol i ({ · with binding })
  | .common name size align =>
    (findOrAddSymbol st name).map fun (st, i) => st.modifySymbol i fun s =>
      { s with
        binding := STB_GLOBAL, size := size.toNat, value := align.toNat
        sectionIdx := SHN_COMMON, defined := true }
  | .align n => some (st.alignTo n)
  | .set name expr =>
    (findOrAddSymbol st name).map fun (st, i) =>
      let value := (evalExpr st.symbols expr).1.toNat
      st.modifySymbol i ({ · with value, sectionIdx := SHN_ABS, defined := true })
  | .fault => none

/-- The entry of `g_local_labels` for a label: added in pass 1, and moved in pass 2. -/
def Asm.recordLabel (st : Asm) (l : LabelPos) : Asm :=
  if pass = 1 then
    if st.labels.length < MAX_LOCAL_LABELS then
      { st with labels := st.labels ++ [{ l with name := l.name.take 63 }] }
    else st
  else
    match st.labels.findIdx? fun k => k.lineIdx == l.lineIdx with
    | some i => { st with labels := st.labels.modify i ({ · with offset := l.offset }) }
    | none => st

def Asm.labelPos (st : Asm) (name : List UInt8) : LabelPos :=
  ⟨name, st.curSection, u32 (st.secSize st.curSection), line⟩

def defineLabel (st : Asm) (l : LabelPos) : Option Asm :=
  (findOrAddSymbol st l.name).map fun (st, i) =>
    (st.modifySymbol i
      ({ · with value := l.offset, sectionIdx := l.sectionIdx, defined := true })).recordLabel pass l

/-- A label at the beginning of the text, and the text behind it.  A name that is too long is
    left where it is. -/
def takeLabel (st : Asm) (p : List UInt8) : Option (Asm × List Event × List UInt8) :=
  match findLabelColon p with
  | none => some (st, [], p)
  | some (name, q) =>
    if name.length < 127 then
      let l := st.labelPos line (cleanString name)
      (defineLabel pass st l).map fun st => (st, [.label l], skipWs q)
    else some (st, [], p)

/-- The jump to a numeric label that a statement emits. -/
def jumpEvents (st : Asm) (token : List UInt8) (raw : List (List UInt8)) : List Event :=
  match localJump token raw with
  | some j => [.jump j st.curSection (st.secSize st.curSection) line (j.disp st line)]
  | none => []

/-- `assemble_line`; a line that begins with `rep` calls it again for the rest. -/
def assembleFuel : Nat → Asm → List UInt8 → Option (Asm × List Event)
  | 0, _, _ => none
  | fuel + 1, st, text => do
    let p := skipWs text
    if lineEnds p ∨ p.take 2 = [0x2F, 0x2A] then return (st, [])
    let (st, log, p) ← takeLabel pass line st p
    if lineEnds p then return (st, log)
    let (token, p) := takeToken p
    let raw ← parseOperandsRaw p
    if ¬ raw.all partsFit then none
    match lookup repTable token with
    | some b =>
      let st := secEmitByte st st.curSection b
      if p = [] then return (st, log)
      let (st, rest) ← assembleFuel fuel st p
      return (st, log ++ rest)
    | none =>
      let st' ← runCmd pass st (statement st line token p raw)
      return (st', log ++ jumpEvents line st token raw)

/-- `assemble_line`.  Every call takes a character at least. -/
def assembleLine (st : Asm) (text : List UInt8) : Option (Asm × List Event) :=
  assembleFuel pass line (text.length + 1) st text

end

/-- The lines of a pass, from number `line` on. -/
def assembleLines (pass : Nat) : Nat → Asm → List (List UInt8) → Option (Asm × List Event)
  | _, st, [] => some (st, [])
  | line, st, text :: rest => do
    let (st, log) ← assembleLine pass line st text
    let (st, log') ← assembleLines pass (line + 1) st rest
    return (st, log ++ log')

def Asm.beginPass (pass : Nat) (st : Asm) : Asm :=
  { st with
    curSection := 1
    sections := st.sections.map fun s => { s with data := [], size := 0 }
    relocs := if pass = 2 then [] else st.relocs }

def initAsm : Asm :=
  ⟨[noSection, ⟨str ".text", SHT_PROGBITS, SHF_ALLOC ||| SHF_EXECINSTR, 4, [], 0⟩], 1, [noSymbol],
    [], []⟩

/-- The two passes over the expanded lines, with their logs. -/
def assemble (lines : List (List UInt8)) : Option (Asm × List Event × List Event) := do
  let (st, log₁) ← assembleLines 1 0 (initAsm.beginPass 1) lines
  let (st, log₂) ← assembleLines 2 0 (st.beginPass 2) lines
  return (st, log₁, log₂)

end Gemios.As
