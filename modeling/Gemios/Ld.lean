import Gemios.Align
import Gemios.Elf

/-!
# The linker

The core of `src/tools/ld.c`: steps 3 to 9 of `main`, on objects that step 2 has read.  A
`return 1` or an `exit(1)` is `none`.  Addresses and sizes are 32-bit words with explicit
wrap-around; the data of an output section is a buffer that grows without a bound.  Two tables
are filled without a check: `sec_map` in step 3 and `strtab_buf` in step 7.
-/

namespace Gemios.Ld

def MAX_INPUT_FILES : Nat := 128
def MAX_SECTIONS_PER_FILE : Nat := 64
def MAX_GLOBAL_SYMBOLS : Nat := 4096

def STRTAB_SIZE : Nat := 65536

def OUT_SEC_MULTIBOOT : Nat := 0
def OUT_SEC_TEXT : Nat := 1
def OUT_SEC_RODATA : Nat := 2
def OUT_SEC_DATA : Nat := 3
def OUT_SEC_BSS : Nat := 4

/-! ### Output sections -/

structure OutSec where
  name : List UInt8
  type : Nat
  flags : Nat
  align : Nat
  vaddr : Nat
  size : Nat
  data : Buf

instance : Inhabited OutSec := ⟨⟨[], 0, 0, 0, 0, 0, fun _ => 0⟩⟩

/-- `out_sec_append`.  Bytes that are reserved in a PROGBITS section without a source, which
    the source leaves as `realloc` gives them, are zero. -/
def OutSec.append (sec : OutSec) (src : List UInt8) (len align : Nat) : OutSec :=
  let align := if align < 1 then 1 else align
  let alignedSize := alignUp sec.size align
  { sec with
    data := fun i =>
      if sec.type = SHT_NOBITS then sec.data i
      else if alignedSize ≤ i ∧ i < alignedSize + len then src.getD (i - alignedSize) 0
      else if sec.size ≤ i ∧ i < alignedSize then 0
      else sec.data i
    size := u32 (alignedSize + len) }

def standardSections : List OutSec :=
  [⟨str ".multiboot", SHT_PROGBITS, SHF_ALLOC, 4, 0, 0, fun _ => 0⟩,
   ⟨str ".text", SHT_PROGBITS, SHF_ALLOC ||| SHF_EXECINSTR, 4096, 0, 0, fun _ => 0⟩,
   ⟨str ".rodata", SHT_PROGBITS, SHF_ALLOC, 4096, 0, 0, fun _ => 0⟩,
   ⟨str ".data", SHT_PROGBITS, SHF_ALLOC ||| SHF_WRITE, 4096, 0, 0, fun _ => 0⟩,
   ⟨str ".bss", SHT_NOBITS, SHF_ALLOC ||| SHF_WRITE, 4096, 0, 0, fun _ => 0⟩]

/-- `in_sec_map_t` after step 3; no output section is -1 in the source. -/
structure SecMap where
  outSecIdx : Option Nat
  outOffset : Nat
deriving DecidableEq

/-- The output section for an allocatable section of this name. -/
def targetIdx (name : List UInt8) : Option Nat :=
  if name = str ".multiboot" then some OUT_SEC_MULTIBOOT
  else if name.take 5 = str ".text" then some OUT_SEC_TEXT
  else if name.take 7 = str ".rodata" then some OUT_SEC_RODATA
  else if name.take 5 = str ".data" then some OUT_SEC_DATA
  else if name.take 4 = str ".bss" then some OUT_SEC_BSS
  else none

/-- `sh_addralign`, or 4 for none. -/
def shAlign (shdr : ElfShdr) : Nat := if shdr.addralign ≠ 0 then shdr.addralign else 4

def mapSection (outs : List OutSec) (shdr : ElfShdr) : List OutSec × SecMap :=
  if shdr.flags &&& SHF_ALLOC = 0 then (outs, ⟨none, 0⟩)
  else
    match targetIdx shdr.name with
    | none => (outs, ⟨none, 0⟩)
    | some idx =>
      (outs.modify idx fun sec =>
          sec.append (if shdr.type ≠ SHT_NOBITS then shdr.data else []) shdr.size (shAlign shdr),
        ⟨some idx, alignUp (outs.getD idx default).size (shAlign shdr)⟩)

def mapSections : List OutSec → List ElfShdr → List OutSec × List SecMap
  | outs, [] => (outs, [])
  | outs, shdr :: shdrs =>
    let (outs, m) := mapSection outs shdr
    let (outs, ms) := mapSections outs shdrs
    (outs, m :: ms)

/-- An input file with its `sec_map`. -/
structure Input where
  obj : ElfObj
  secMap : List SecMap
deriving DecidableEq

def mapFiles : List OutSec → List ElfObj → List OutSec × List Input
  | outs, [] => (outs, [])
  | outs, obj :: objs =>
    let (outs, ms) := mapSections outs obj.shdrs
    let (outs, ins) := mapFiles outs objs
    (outs, ⟨obj, ms⟩ :: ins)

/-- Step 4: each section starts after the one before it, at a multiple of its alignment. -/
def layout : Nat → List OutSec → List OutSec
  | _, [] => []
  | curVaddr, sec :: secs =>
    let vaddr := alignUp curVaddr sec.align
    { sec with vaddr := vaddr } :: layout (u32 (vaddr + sec.size)) secs

/-- The `vaddr` of a mapped input section. -/
def SecMap.vaddr (m : SecMap) (outs : List OutSec) : Nat :=
  match m.outSecIdx with
  | some idx => u32 ((outs.getD idx default).vaddr + m.outOffset)
  | none => 0

/-- The mapping of section `shndx` of a file. -/
def Input.map (inp : Input) (shndx : Nat) : SecMap := inp.secMap.getD shndx ⟨none, 0⟩

/-! ### Global symbols -/

/-- A symbol of an input file: the file's path, and the symbol with its index. -/
structure Def where
  path : List UInt8
  symIdx : Nat
  sym : ElfSym
deriving DecidableEq

/-- `global_sym_t`.  The source keeps no `source`: it is the symbol that wrote the entry. -/
structure GlobalSym where
  name : List UInt8
  vaddr : Nat
  size : Nat
  bind : Nat
  type : Nat
  defined : Bool
  source : Option Def
deriving DecidableEq

def noGlobal : GlobalSym := ⟨[], 0, 0, 0, 0, false, none⟩

/-- An allocation in `.bss` for a COMMON symbol. -/
structure Common where
  name : List UInt8
  offset : Nat
  size : Nat
  align : Nat
deriving DecidableEq

/-- The tables of `main` from step 5 on; `commons` are the allocations made in `.bss`. -/
structure Tables where
  outs : List OutSec
  globals : List GlobalSym
  commons : List Common

def Tables.bss (st : Tables) : OutSec := st.outs.getD OUT_SEC_BSS default

def findGlobal (globals : List GlobalSym) (name : List UInt8) : Option Nat :=
  globals.findIdx? (·.name == name)

/-- `find_or_add_global_sym`: a new entry keeps 127 characters of the name. -/
def findOrAddGlobalSym (globals : List GlobalSym) (name : List UInt8) :
    Option (List GlobalSym × Nat) :=
  match findGlobal globals name with
  | some i => some (globals, i)
  | none =>
    if globals.length ≥ MAX_GLOBAL_SYMBOLS then none
    else some (globals ++ [{ noGlobal with name := name.take 127 }], globals.length)

def GlobalSym.define (g : GlobalSym) (vaddr : Nat) (d : Def) : GlobalSym :=
  { g with
    vaddr := vaddr, size := d.sym.size, bind := d.sym.bind, type := d.sym.type, defined := true,
    source := some d }

/-- The address of a symbol that is defined in its file. -/
def symVaddr (outs : List OutSec) (inp : Input) (sym : ElfSym) : Nat :=
  if sym.shndx = SHN_ABS then sym.value
  else if (inp.map sym.shndx).outSecIdx.isSome then
    u32 ((inp.map sym.shndx).vaddr outs + sym.value)
  else sym.value

def addSymbol (inp : Input) (st : Tables) (symIdx : Nat) (sym : ElfSym) : Option Tables :=
  let d : Def := ⟨inp.obj.path, symIdx, sym⟩
  if sym.shndx = SHN_COMMON then
    let align := if sym.value ≠ 0 then sym.value else 4
    let offset := alignUp st.bss.size align
    let outs := st.outs.modify OUT_SEC_BSS (·.append [] sym.size align)
    (findOrAddGlobalSym st.globals sym.name).map fun (globals, i) =>
      { outs := outs
        globals := globals.modify i (·.define (u32 (st.bss.vaddr + offset)) d)
        commons := st.commons ++ [⟨sym.name, offset, sym.size, align⟩] }
  else if (sym.bind = STB_GLOBAL ∨ sym.bind = STB_WEAK) ∧ sym.shndx ≠ SHN_UNDEF then
    (findOrAddGlobalSym st.globals sym.name).map fun (globals, i) =>
      if (globals.getD i noGlobal).defined = false ∨ sym.bind = STB_GLOBAL then
        { st with globals := globals.modify i (·.define (symVaddr st.outs inp sym) d) }
      else { st with globals := globals }
  else some st

/-- The symbols of one file, from index `symIdx` on. -/
def addSymbols (inp : Input) : Tables → Nat → List ElfSym → Option Tables
  | st, _, [] => some st
  | st, symIdx, sym :: syms =>
    (addSymbol inp st symIdx sym).bind fun st => addSymbols inp st (symIdx + 1) syms

def addFiles (st : Tables) (ins : List Input) : Option Tables :=
  ins.foldlM (fun st inp => addSymbols inp st 0 inp.obj.symtab) st

def GlobalSym.defineOwn (g : GlobalSym) (vaddr : Nat) : GlobalSym :=
  { g with
    vaddr := vaddr, size := 0, bind := STB_GLOBAL, type := STT_OBJECT, defined := true,
    source := none }

/-- The linker's own symbol `_kernel_end`. -/
def defineKernelEnd (st : Tables) : Option Tables :=
  (findOrAddGlobalSym st.globals (str "_kernel_end")).map fun (globals, i) =>
    { st with
      globals := globals.modify i (·.defineOwn (alignUp (u32 (st.bss.vaddr + st.bss.size)) 4096)) }

/-- One symbol of the check for undefined references. -/
def checkSymbol (globals : List GlobalSym) (sym : ElfSym) : Option (List GlobalSym) :=
  if sym.shndx = SHN_UNDEF ∧ sym.bind = STB_GLOBAL then
    (findOrAddGlobalSym globals sym.name).bind fun (globals, i) =>
      if (globals.getD i noGlobal).defined then some globals else none
  else some globals

def checkFiles (globals : List GlobalSym) (ins : List Input) : Option (List GlobalSym) :=
  ins.foldlM (fun globals inp => inp.obj.symtab.foldlM checkSymbol globals) globals

/-! ### Relocations -/

/-- The value of a symbol for a relocation; a global that is in no table is added, with the
    value 0. -/
def relocSym (st : Tables) (inp : Input) (sym : ElfSym) : Option (Tables × Nat) :=
  if sym.bind = STB_LOCAL ∧ sym.shndx ≠ SHN_UNDEF then some (st, symVaddr st.outs inp sym)
  else
    (findOrAddGlobalSym st.globals sym.name).map fun (globals, i) =>
      ({ st with globals := globals }, (globals.getD i noGlobal).vaddr)

/-- The store of a relocation of `type` at `loc`, for the value `S` and the place `P`. -/
def relocate (data : Buf) (loc type S P : Nat) : Buf :=
  if type = R_386_32 then put32 data loc (u32 (S + le32 data loc))
  else if type = R_386_PC32 ∨ type = R_386_PLT32 then
    put32 data loc (u32 (S + le32 data loc + (4294967296 - P)))
  else if type = R_386_16 then put16 data loc (u16 (S + le16 data loc))
  else if type = R_386_PC16 then put16 data loc (u16 (S + le16 data loc + (4294967296 - P)))
  else if type = R_386_8 then
    fun i => if i = loc then UInt8.ofNat (S + (data loc).toNat) else data i
  else if type = R_386_PC8 then
    fun i => if i = loc then UInt8.ofNat (S + (data loc).toNat + (4294967296 - P)) else data i
  else data

/-- One relocation against section `target` of a file. -/
def applyRel (inp : Input) (target : Nat) (outIdx : Nat) (st : Tables) (rel : ElfRel) : Option Tables :=
  let m := inp.map target
  (relocSym st inp (inp.obj.symtab.getD rel.sym noSym)).map fun (st, S) =>
    let P := u32 (m.vaddr st.outs + rel.offset)
    { st with outs := st.outs.modify outIdx fun sec =>
        { sec with data := relocate sec.data (m.outOffset + rel.offset) rel.type S P } }

/-- The relocations of one section of step 6. -/
def applyShdr (inp : Input) (st : Tables) (shdr : ElfShdr) : Option Tables :=
  if shdr.type = SHT_REL then
    match (inp.map shdr.info).outSecIdx with
    | none => some st
    | some outIdx => shdr.rels.foldlM (applyRel inp shdr.info outIdx) st
  else some st

def applyRelocations (st : Tables) (ins : List Input) : Option Tables :=
  ins.foldlM (fun st inp => inp.obj.shdrs.foldlM (applyShdr inp) st) st

/-! ### The image -/

/-- What `main` leaves: the tables, the entry point, and the layout of the output file. -/
structure Image where
  st : Tables
  inputs : List Input
  entryPoint : Nat
  imageBase : Nat

/-- Steps 3 to 6 of `main` on the objects of the command line, with the entry point. -/
def link (imageBase : Nat) (objs : List ElfObj) : Option Image :=
  if objs.length > MAX_INPUT_FILES ∨ objs = [] then none
  else
    let (outs, ins) := mapFiles standardSections objs
    (addFiles ⟨layout imageBase outs, [], []⟩ ins).bind fun st =>
    (defineKernelEnd st).bind fun st =>
    (checkFiles st.globals ins).bind fun globals =>
    (applyRelocations { st with globals := globals } ins).bind fun st =>
    (findOrAddGlobalSym st.globals (str "_start")).bind fun (globals, i) =>
      if (globals.getD i noGlobal).defined then
        some ⟨{ st with globals := globals }, ins, (globals.getD i noGlobal).vaddr, imageBase⟩
      else none

/-- Step 7: the string table, as `strtab_buf` would hold it. -/
def Image.strtab (img : Image) : List UInt8 := 0 :: img.st.globals.flatMap fun g => g.name ++ [0]

/-- How `main` ends: it rejects the objects, writes behind a table, or leaves an image. -/
inductive Outcome where
  | rejected
  | overrun
  | linked (img : Image)

/-- The `main` of `ld.c` on the objects of the command line, up to the output file.  Step 3 writes
    an entry of `sec_map` for each section, step 7 the name of each global symbol. -/
def ldMain (imageBase : Nat) (objs : List ElfObj) : Outcome :=
  if objs.length > MAX_INPUT_FILES ∨ objs = [] then .rejected
  else if objs.any fun obj => obj.shdrs.length > MAX_SECTIONS_PER_FILE then .overrun
  else
    match link imageBase objs with
    | none => .rejected
    | some img => if img.strtab.length > STRTAB_SIZE then .overrun else .linked img

/-- Step 9: the end of the last section with data, from the image base on. -/
def Image.totalFilesz (img : Image) : Nat :=
  img.st.outs.foldl
    (fun n sec =>
      if sec.type ≠ SHT_NOBITS then u32 (sec.vaddr + sec.size + (4294967296 - img.imageBase)) else n)
    0

def Image.totalMemsz (img : Image) : Nat :=
  img.st.outs.foldl (fun _ sec => u32 (sec.vaddr + sec.size + (4294967296 - img.imageBase))) 0

/-- `sec->offset`. -/
def Image.offset (img : Image) (sec : OutSec) : Nat :=
  u32 (0x1000 + (sec.vaddr + (4294967296 - img.imageBase)))

/-- Step 12, the section data of the output file; the bytes between sections stay zero.  The
    symbol table and what follows it, behind the segment, are left out. -/
def Image.file (img : Image) : Buf :=
  img.st.outs.foldl
    (fun file sec i =>
      if sec.type ≠ SHT_NOBITS ∧ img.offset sec ≤ i ∧ i < img.offset sec + sec.size then
        sec.data (i - img.offset sec)
      else file i)
    fun _ => 0

end Gemios.Ld
