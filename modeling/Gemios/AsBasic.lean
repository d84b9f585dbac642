import Gemios.Elf
import Mathlib.Data.List.DropRight

/-!
# The assembler's tables

The data of `src/tools/as.c`: sections, symbols, relocations and numeric labels, and the
functions that add to them.  The arrays of the source start at index 1; entry 0 is kept
here as an unused first element, so that the indices are those of the source.  A function
that can end the program with `exit(1)` returns an `Option`.
-/

namespace Gemios.As

/-- `section_t`: `data` holds the bytes written so far. -/
structure Section where
  name : List UInt8
  type : Nat
  flags : Nat
  align : Nat
  data : List UInt8
  size : Nat
deriving DecidableEq

structure Symbol where
  name : List UInt8
  value : Nat
  size : Nat
  type : Nat
  binding : Nat
  sectionIdx : Nat
  defined : Bool
deriving DecidableEq

structure Reloc where
  sectionIdx : Nat
  offset : Nat
  symIdx : Nat
  type : Nat
deriving DecidableEq

structure LabelPos where
  name : List UInt8
  sectionIdx : Nat
  offset : Nat
  lineIdx : Nat
deriving DecidableEq

/-- The static tables of `as.c`. -/
structure Asm where
  sections : List Section
  curSection : Nat
  symbols : List Symbol
  relocs : List Reloc
  labels : List LabelPos
deriving DecidableEq

def MAX_SECTIONS : Nat := 32
def MAX_SYMBOLS : Nat := 4096
def MAX_RELOCS : Nat := 8192
def MAX_LOCAL_LABELS : Nat := 2048

def noSection : Section := ⟨[], 0, 0, 0, [], 0⟩

def noSymbol : Symbol := ⟨[], 0, 0, 0, 0, 0, false⟩

/-! ### Strings -/

def isBlank (c : UInt8) : Bool := c == 0x20 || c == 0x09 || c == 0x0D || c == 0x0A

def cleanString (s : List UInt8) : List UInt8 := s.rdropWhile isBlank

def skipWs (p : List UInt8) : List UInt8 := p.dropWhile isBlank

/-! ### Sections -/

def getOrCreateSection (st : Asm) (name : List UInt8) (type flags align : Nat) : Option (Asm × Nat) :=
  match (st.sections.drop 1).findIdx? (·.name == name) with
  | some i => some (st, i + 1)
  | none =>
    if st.sections.length ≥ MAX_SECTIONS then none
    else
      some ({ st with sections := st.sections ++ [⟨name.take 63, type, flags, align, [], 0⟩] },
        st.sections.length)

def Section.emit (sec : Section) (b : UInt8) : Section :=
  { sec with
    data := if sec.type ≠ SHT_NOBITS then sec.data ++ [b] else sec.data
    size := sec.size + 1 }

def secEmitByte (st : Asm) (secIdx : Nat) (b : UInt8) : Asm :=
  { st with sections := st.sections.modify secIdx (·.emit b) }

def secEmit (st : Asm) (secIdx : Nat) (bs : List UInt8) : Asm :=
  bs.foldl (fun st b => secEmitByte st secIdx b) st

/-- The bytes of `sec_emit_word`. -/
def word (w : BitVec 16) : List UInt8 := [UInt8.ofNat w.toNat, UInt8.ofNat (w.toNat / 256)]

/-- The bytes of `sec_emit_dword`. -/
def dword (dw : BitVec 32) : List UInt8 :=
  [UInt8.ofNat dw.toNat, UInt8.ofNat (dw.toNat / 256), UInt8.ofNat (dw.toNat / 65536),
    UInt8.ofNat (dw.toNat / 16777216)]

def Asm.secSize (st : Asm) (secIdx : Nat) : Nat := (st.sections.getD secIdx noSection).size

/-! ### Symbols and relocations -/

def findOrAddSymbol (st : Asm) (name : List UInt8) : Option (Asm × Nat) :=
  let cleanName := cleanString (name.take 127)
  match (st.symbols.drop 1).findIdx? (·.name == cleanName) with
  | some i => some (st, i + 1)
  | none =>
    if st.symbols.length ≥ MAX_SYMBOLS then none
    else
      some ({ st with symbols := st.symbols ++ [{ noSymbol with name := cleanName }] },
        st.symbols.length)

def addRelocation (st : Asm) (rel : Reloc) : Option Asm :=
  if st.relocs.length ≥ MAX_RELOCS then none else some { st with relocs := st.relocs ++ [rel] }

/-! ### What an instruction or a directive emits -/

/-- One thing that is emitted: a byte, or a 32-bit field that refers to a symbol. -/
inductive Item where
  | byte (b : UInt8)
  | ref (name : List UInt8) (type : Nat) (addend : BitVec 32)
deriving DecidableEq

/-- A `sec_emit_byte`; or `find_or_add_symbol`, in pass 2 `add_relocation` at the end of the
    section, and `sec_emit_dword`. -/
def emitItem (secIdx pass : Nat) (st : Asm) : Item → Option Asm
  | .byte b => some (secEmitByte st secIdx b)
  | .ref name type addend =>
    (findOrAddSymbol st name).bind fun (st, sIdx) =>
      (if pass = 2 then addRelocation st ⟨secIdx, u32 (st.secSize secIdx), sIdx, type⟩
        else some st).map fun st => secEmit st secIdx (dword addend)

def emitItems (secIdx pass : Nat) (st : Asm) (items : List Item) : Option Asm :=
  items.foldlM (emitItem secIdx pass) st

def bytes (bs : List UInt8) : List Item := bs.map .byte

/-! ### Emitting -/

theorem secEmit_append (st : Asm) (secIdx : Nat) (bs cs : List UInt8) :
    secEmit st secIdx (bs ++ cs) = secEmit (secEmit st secIdx bs) secIdx cs :=
  List.foldl_append

@[simp] theorem secEmit_symbols (st : Asm) (secIdx : Nat) (bs : List UInt8) :
    (secEmit st secIdx bs).symbols = st.symbols := by
  induction bs generalizing st with
  | nil => rfl
  | cons b bs ih => exact ih (secEmitByte st secIdx b)

@[simp] theorem secEmit_relocs (st : Asm) (secIdx : Nat) (bs : List UInt8) :
    (secEmit st secIdx bs).relocs = st.relocs := by
  induction bs generalizing st with
  | nil => rfl
  | cons b bs ih => exact ih (secEmitByte st secIdx b)

theorem secEmit_congr {st st' : Asm} (secIdx : Nat) (bs : List UInt8)
    (h : st.sections = st'.sections) :
    (secEmit st secIdx bs).sections = (secEmit st' secIdx bs).sections := by
  induction bs generalizing st st' with
  | nil => exact h
  | cons b bs ih =>
    apply ih
    simp only [secEmitByte, h]

theorem secSize_secEmitByte (st : Asm) {secIdx : Nat} (b : UInt8) (h : secIdx < st.sections.length) :
    (secEmitByte st secIdx b).secSize secIdx = st.secSize secIdx + 1 := by
  simp [Asm.secSize, secEmitByte, List.getD_eq_getElem?_getD, h, Section.emit]

theorem secSize_secEmit (st : Asm) {secIdx : Nat} (bs : List UInt8) (h : secIdx < st.sections.length) :
    (secEmit st secIdx bs).secSize secIdx = st.secSize secIdx + bs.length := by
  induction bs generalizing st with
  | nil => rfl
  | cons b bs ih =>
    have hlen : secIdx < (secEmitByte st secIdx b).sections.length := by
      simpa [secEmitByte] using h
    have := ih (secEmitByte st secIdx b) hlen
    rw [secSize_secEmitByte st b h] at this
    simpa [secEmit, Nat.add_assoc, Nat.add_comm 1] using this

theorem emitItems_append (secIdx pass : Nat) (st : Asm) (xs ys : List Item) :
    emitItems secIdx pass st (xs ++ ys) =
      (emitItems secIdx pass st xs).bind fun st' => emitItems secIdx pass st' ys :=
  List.foldlM_append

theorem emitItems_bytes (secIdx pass : Nat) (st : Asm) (bs : List UInt8) :
    emitItems secIdx pass st (bytes bs) = some (secEmit st secIdx bs) := by
  induction bs generalizing st with
  | nil => rfl
  | cons b bs ih => exact ih (secEmitByte st secIdx b)

theorem findOrAddSymbol_spec {st st' : Asm} {name : List UInt8} {i : Nat}
    (h : findOrAddSymbol st name = some (st', i)) :
    st'.sections = st.sections ∧ st'.relocs = st.relocs ∧
      (st'.symbols.getD i noSymbol).name = cleanString (name.take 127) := by
  simp only [findOrAddSymbol] at h
  split at h
  · rename_i j hj
    simp only [Option.some.injEq, Prod.mk.injEq] at h
    obtain ⟨rfl, rfl⟩ := h
    refine ⟨rfl, rfl, ?_⟩
    obtain ⟨hlt, hname, -⟩ := List.findIdx?_eq_some_iff_getElem.mp hj
    have hlt' : j + 1 < st.symbols.length := by
      simp only [List.length_drop] at hlt
      omega
    simp only [List.getElem_drop, beq_iff_eq] at hname
    rw [List.getD_eq_getElem?_getD, List.getElem?_eq_getElem hlt', ← hname]
    simp only [Option.getD_some, Nat.add_comm]
  · split at h
    · contradiction
    · simp only [Option.some.injEq, Prod.mk.injEq] at h
      obtain ⟨rfl, rfl⟩ := h
      exact ⟨rfl, rfl, by simp⟩

theorem emitItem_ref {secIdx pass : Nat} {st st' : Asm} {name : List UInt8} {type : Nat}
    {addend : BitVec 32}
    (h : emitItem secIdx pass st (.ref name type addend) = some st') :
    st'.sections = (secEmit st secIdx (dword addend)).sections ∧
      ∃ i, (st'.symbols.getD i noSymbol).name = cleanString (name.take 127) ∧
        st'.relocs =
          if pass = 2 then st.relocs ++ [⟨secIdx, u32 (st.secSize secIdx), i, type⟩]
          else st.relocs := by
  simp only [emitItem, Option.bind_eq_some_iff, Option.map_eq_some_iff] at h
  obtain ⟨⟨st₁, i⟩, hfind, st₂, hrel, rfl⟩ := h
  obtain ⟨hsec, hrelocs, hname⟩ := findOrAddSymbol_spec hfind
  have hsize : st₁.secSize secIdx = st.secSize secIdx := by simp only [Asm.secSize, hsec]
  have hst₂ : st₂.sections = st₁.sections ∧ st₂.symbols = st₁.symbols ∧ st₂.relocs =
      if pass = 2 then st₁.relocs ++ [⟨secIdx, u32 (st₁.secSize secIdx), i, type⟩]
      else st₁.relocs := by
    split at hrel
    · rename_i hpass
      simp only [addRelocation] at hrel
      split at hrel
      · contradiction
      · cases hrel
        simp [hpass]
    · rename_i hpass
      cases hrel
      simp [hpass]
  obtain ⟨hsec₂, hsym₂, hrel₂⟩ := hst₂
  refine ⟨secEmit_congr secIdx _ (hsec₂.trans hsec), i, ?_, ?_⟩
  · rw [secEmit_symbols, hsym₂, hname]
  · rw [secEmit_relocs, hrel₂, hrelocs, hsize]

end Gemios.As
