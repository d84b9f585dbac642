import Gemios.CString

/-!
# ELF constants and objects

The constants that `src/tools/as.c` and `src/tools/ld.c` share, and a relocatable object as
the linker finds it in memory: section headers with their names and contents, relocations, and
the symbol table with its names.
-/

namespace Gemios

def SHT_PROGBITS : Nat := 1
def SHT_NOBITS : Nat := 8
def SHT_REL : Nat := 9
def SHF_WRITE : Nat := 1
def SHF_ALLOC : Nat := 2
def SHF_EXECINSTR : Nat := 4
def SHN_UNDEF : Nat := 0
def SHN_ABS : Nat := 0xFFF1
def SHN_COMMON : Nat := 0xFFF2
def STB_LOCAL : Nat := 0
def STB_GLOBAL : Nat := 1
def STB_WEAK : Nat := 2
def STT_OBJECT : Nat := 1
def R_386_NONE : Nat := 0
def R_386_32 : Nat := 1
def R_386_PC32 : Nat := 2
def R_386_PLT32 : Nat := 4
def R_386_16 : Nat := 20
def R_386_PC16 : Nat := 21
def R_386_8 : Nat := 22
def R_386_PC8 : Nat := 23

/-- `Elf32_Rel`, with the two parts of `r_info`. -/
structure ElfRel where
  offset : Nat
  sym : Nat
  type : Nat
deriving DecidableEq

/-- `Elf32_Shdr` with its name, the bytes at `sh_offset`, and for a relocation section the
    relocations there. -/
structure ElfShdr where
  name : List UInt8
  type : Nat
  flags : Nat
  addralign : Nat
  size : Nat
  info : Nat
  data : List UInt8
  rels : List ElfRel
deriving DecidableEq

/-- `Elf32_Sym` with its name; `bind` and `type` are the parts of `st_info`. -/
structure ElfSym where
  name : List UInt8
  value : Nat
  size : Nat
  bind : Nat
  type : Nat
  shndx : Nat
deriving DecidableEq

/-- A relocatable object, read from `path`. -/
structure ElfObj where
  path : List UInt8
  shdrs : List ElfShdr
  symtab : List ElfSym
deriving DecidableEq

def noShdr : ElfShdr := ⟨[], 0, 0, 0, 0, 0, [], []⟩

def noSym : ElfSym := ⟨[], 0, 0, 0, 0, 0⟩

end Gemios
