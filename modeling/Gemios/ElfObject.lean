import Gemios.AsFrame
import Gemios.Align
import Gemios.FileImage
import Gemios.Ld
import Mathlib.Logic.Function.Basic

/-!
# Object files

The second half of the `main` of `src/tools/as.c`, which writes an object file, and step 2 of the
`main` of `src/tools/ld.c`, which reads one.
-/

namespace Gemios

/-! ### The records of a file -/

def SHT_SYMTAB : Nat := 2
def SHT_STRTAB : Nat := 3
def ET_REL : Nat := 1
def EM_386 : Nat := 3

/-- `Elf32_Shdr`. -/
structure RawShdr where
  name : Nat
  type : Nat
  flags : Nat
  addr : Nat
  offset : Nat
  size : Nat
  link : Nat
  info : Nat
  addralign : Nat
  entsize : Nat
deriving DecidableEq

def noRawShdr : RawShdr := ⟨0, 0, 0, 0, 0, 0, 0, 0, 0, 0⟩

def RawShdr.words (s : RawShdr) : List Nat :=
  [s.name, s.type, s.flags, s.addr, s.offset, s.size, s.link, s.info, s.addralign, s.entsize]

def RawShdr.bytes (s : RawShdr) : List UInt8 := s.words.flatMap le32Bytes

def RawShdr.read (b : Buf) (p : Nat) : RawShdr :=
  ⟨le32 b p, le32 b (p + 4), le32 b (p + 8), le32 b (p + 12), le32 b (p + 16), le32 b (p + 20),
    le32 b (p + 24), le32 b (p + 28), le32 b (p + 32), le32 b (p + 36)⟩

/-- A relocation section is linked to the symbol table. -/
def RawShdr.linkTo (symtab : Nat) (s : RawShdr) : RawShdr :=
  if s.type = SHT_REL then { s with link := symtab } else s

/-- The header of the relocations of a section. -/
def RawShdr.isRelOf (secIdx : Nat) (s : RawShdr) : Bool := s.type == SHT_REL && s.info == secIdx

/-- `Elf32_Sym`; `st_other` is 0. -/
structure RawSym where
  name : Nat
  value : Nat
  size : Nat
  info : Nat
  shndx : Nat
deriving DecidableEq

def noRawSym : RawSym := ⟨0, 0, 0, 0, 0⟩

def RawSym.bytes (s : RawSym) : List UInt8 :=
  le32Bytes s.name ++ (le32Bytes s.value ++ (le32Bytes s.size ++ ([UInt8.ofNat s.info, 0] ++ le16Bytes s.shndx)))

def RawSym.read (b : Buf) (p : Nat) : RawSym :=
  ⟨le32 b p, le32 b (p + 4), le32 b (p + 8), (b (p + 12)).toNat, le16 b (p + 14)⟩

/-- `Elf32_Rel`, with the two parts of `r_info`. -/
def ElfRel.bytes (r : ElfRel) : List UInt8 := le32Bytes r.offset ++ le32Bytes (r.sym * 256 + r.type)

def ElfRel.read (b : Buf) (p : Nat) : ElfRel := ⟨le32 b p, le32 b (p + 4) / 256, le32 b (p + 4) % 256⟩

def elfIdent : List UInt8 := [0x7F, 0x45, 0x4C, 0x46, 1, 1, 1, 0, 0, 0, 0, 0, 0, 0, 0, 0]

/-- `Elf32_Ehdr` of an object: type, machine and version, entry and program headers (none), the
    section headers, flags, and the sizes and counts. -/
def ehdrBytes (shoff shnum : Nat) : List UInt8 :=
  elfIdent ++ (le16Bytes ET_REL ++ (le16Bytes EM_386 ++ ((le32Bytes 1 ++ le32Bytes 0 ++ le32Bytes 0) ++
    (le32Bytes shoff ++ ((le32Bytes 0 ++ le16Bytes 52 ++ le16Bytes 0 ++ le16Bytes 0 ++ le16Bytes 40) ++
      (le16Bytes shnum ++ le16Bytes (shnum - 1)))))))

/-! ### Writing -/

namespace As

/-- A symbol that is nowhere defined becomes an undefined global one. -/
def Symbol.closed (s : Symbol) : Symbol :=
  if s.defined then s else { s with binding := STB_GLOBAL, sectionIdx := SHN_UNDEF, value := 0 }

/-- The symbol at an index of the assembler's table. -/
def Asm.sym (st : Asm) (i : Nat) : Symbol := (st.symbols.getD i noSymbol).closed

/-- The symbol table with its strings, and the new index of each symbol. -/
structure SymTables where
  entries : List RawSym
  strtab : List UInt8
  reindex : Nat → Nat

/-- The entry of a symbol whose name is at `name`. -/
def Asm.rawSym (st : Asm) (name i : Nat) : RawSym :=
  let s := st.sym i
  ⟨name, s.value, s.size, s.binding * 16 + s.type % 16, u16 s.sectionIdx⟩

def SymTables.add (st : Asm) (t : SymTables) (i : Nat) : SymTables :=
  ⟨t.entries ++ [st.rawSym (u32 t.strtab.length) i], t.strtab ++ (st.sym i).name ++ [0],
    Function.update t.reindex i t.entries.length⟩

def Asm.symIdxs (st : Asm) (binding : Nat) : List Nat :=
  (List.range' 1 (st.symbols.length - 1)).filter fun i => (st.sym i).binding == binding

def Asm.symOrder (st : Asm) : List Nat := st.symIdxs STB_LOCAL ++ st.symIdxs STB_GLOBAL

def Asm.symTables (st : Asm) : SymTables :=
  st.symOrder.foldl (SymTables.add st) ⟨[noRawSym], [0], fun _ => 0⟩

/-- The section headers so far, their names, and `cur_file_offset`. -/
structure Headers where
  shdrs : List RawShdr
  shstrtab : List UInt8
  cur : Nat

/-- `sh_addralign`. -/
def Section.shAlign (sec : Section) : Nat := if sec.align ≠ 0 then sec.align else 4

def Section.rawShdr (sec : Section) (name offset : Nat) : RawShdr :=
  ⟨name, sec.type, sec.flags, 0, offset, u32 sec.size, 0, 0, sec.shAlign, 0⟩

def Headers.addSection (h : Headers) (sec : Section) : Headers :=
  let stored : Prop := sec.type ≠ SHT_NOBITS ∧ sec.size > 0
  let offset := if stored then alignUp h.cur sec.shAlign else h.cur
  ⟨h.shdrs ++ [sec.rawShdr (u32 h.shstrtab.length) offset], h.shstrtab ++ sec.name ++ [0],
    if stored then u32 (offset + sec.size) else h.cur⟩

def Asm.relocsOf (st : Asm) (secIdx : Nat) : List Reloc := st.relocs.filter (·.sectionIdx == secIdx)

def Asm.relSecs (st : Asm) : List Nat :=
  (List.range' 1 (st.sections.length - 1)).filter fun i => st.relocsOf i != []

def relName (name : List UInt8) : List UInt8 := str ".rel" ++ name

def Asm.rawRelShdr (st : Asm) (secIdx name offset : Nat) : RawShdr :=
  ⟨name, SHT_REL, 0, 0, offset, u32 (8 * (st.relocsOf secIdx).length), 0, secIdx, 4, 8⟩

def Headers.addRel (st : Asm) (h : Headers) (secIdx : Nat) : Headers :=
  let s := st.rawRelShdr secIdx (u32 h.shstrtab.length) (alignUp h.cur 4)
  ⟨h.shdrs ++ [s], h.shstrtab ++ relName (st.sections.getD secIdx noSection).name ++ [0],
    u32 (s.offset + s.size)⟩

/-- The headers of all sections and relocation sections. -/
def Asm.headers (st : Asm) : Headers :=
  st.relSecs.foldl (Headers.addRel st) ((st.sections.drop 1).foldl Headers.addSection ⟨[noRawShdr], [0], 52⟩)

structure Layout where
  shdrs : List RawShdr
  shstrtab : List UInt8
  symtabOffset : Nat
  strtabOffset : Nat
  shstrtabOffset : Nat
  shoff : Nat

def Asm.layout (st : Asm) : Layout :=
  let h := st.headers
  let t := st.symTables
  let n := h.shdrs.length
  let symtabOffset := alignUp h.cur 4
  let symtabSize := u32 (16 * t.entries.length)
  let strtabOffset := u32 (symtabOffset + symtabSize)
  let names := h.shstrtab ++ str ".symtab" ++ [0]
  let shstrtabOffset := alignUp (u32 (strtabOffset + u32 t.strtab.length)) 4
  let names' := names ++ str ".strtab" ++ [0]
  let shstrtab := names' ++ str ".shstrtab" ++ [0]
  ⟨h.shdrs.map (RawShdr.linkTo n) ++
      [⟨u32 h.shstrtab.length, SHT_SYMTAB, 0, 0, symtabOffset, symtabSize, n + 1,
          (st.symIdxs STB_LOCAL).length + 1, 4, 16⟩,
        ⟨u32 names.length, SHT_STRTAB, 0, 0, strtabOffset, u32 t.strtab.length, 0, 0, 1, 0⟩,
        ⟨u32 names'.length, SHT_STRTAB, 0, 0, shstrtabOffset, u32 shstrtab.length, 0, 0, 1, 0⟩],
    shstrtab, symtabOffset, strtabOffset, shstrtabOffset,
    alignUp (u32 (shstrtabOffset + u32 shstrtab.length)) 4⟩

/-- The relocations of a section as they are written. -/
def Asm.relRecords (st : Asm) (secIdx : Nat) : List ElfRel :=
  (st.relocsOf secIdx).map fun r => ⟨r.offset, st.symTables.reindex r.symIdx, r.type % 256⟩

def Asm.sectionPieces (st : Asm) : List (Nat × List UInt8) :=
  (List.range' 1 (st.sections.length - 1)).flatMap fun i =>
    let sec := st.sections.getD i noSection
    if sec.type ≠ SHT_NOBITS ∧ sec.size > 0 then [((st.layout.shdrs.getD i noRawShdr).offset, sec.data)] else []

/-- The relocations: the first header that belongs to a section says where. -/
def Asm.relPieces (st : Asm) : List (Nat × List UInt8) :=
  (List.range' 1 (st.sections.length - 1)).flatMap fun i =>
    match (st.layout.shdrs.drop 1).find? (RawShdr.isRelOf i) with
    | some s => [(s.offset, (st.relRecords i).flatMap ElfRel.bytes)]
    | none => []

def Asm.pieces (st : Asm) : List (Nat × List UInt8) :=
  (0, ehdrBytes st.layout.shoff st.layout.shdrs.length) :: (st.sectionPieces ++ st.relPieces ++
    [(st.layout.symtabOffset, st.symTables.entries.flatMap RawSym.bytes),
      (st.layout.strtabOffset, st.symTables.strtab), (st.layout.shstrtabOffset, st.layout.shstrtab),
      (st.layout.shoff, st.layout.shdrs.flatMap RawShdr.bytes)])

def Asm.objectFile (st : Asm) : FileImage := FileImage.empty.writeAll st.pieces

end As

/-! ### Reading -/

namespace Ld

def stringIn (f : FileImage) (p : Nat) : List UInt8 := stringAt f.bytes p (f.size - p)

def readSection (f : FileImage) (shstrtab : Nat) (s : RawShdr) : ElfShdr where
  name := stringIn f (shstrtab + s.name)
  type := s.type
  flags := s.flags
  addralign := s.addralign
  size := s.size
  info := s.info
  data := if s.type ≠ SHT_NOBITS then bytesAt f.bytes s.offset s.size else []
  rels :=
    if s.type = SHT_REL then (List.range (s.size / 8)).map fun r => ElfRel.read f.bytes (s.offset + 8 * r)
    else []

def readSymbol (f : FileImage) (strtab : Nat) (s : RawSym) : ElfSym where
  name := stringIn f (strtab + s.name)
  value := s.value
  size := s.size
  bind := s.info / 16
  type := s.info % 16
  shndx := s.shndx

/-- Step 2 for one file: the header is checked, and the first symbol table is the one that counts. -/
def readObject (path : List UInt8) (f : FileImage) : Option ElfObj :=
  if bytesAt f.bytes 0 4 = [0x7F, 0x45, 0x4C, 0x46] ∧ le16 f.bytes 16 = ET_REL ∧ le16 f.bytes 18 = EM_386 then
    let header := fun i => RawShdr.read f.bytes (le32 f.bytes 32 + 40 * i)
    let shdrs := (List.range (le16 f.bytes 48)).map header
    some {
      path
      shdrs := shdrs.map (readSection f (header (le16 f.bytes 50)).offset)
      symtab :=
        match shdrs.find? fun s => s.type == SHT_SYMTAB with
        | none => []
        | some s => (List.range (s.size / 16)).map fun i =>
            readSymbol f (header s.link).offset (RawSym.read f.bytes (s.offset + 16 * i)) }
  else none

end Ld

end Gemios
