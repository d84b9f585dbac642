import Gemios.AsAccept
import Gemios.ElfWrite

/-!
# Reading an object file back

The linker finds in an object file what the assembler's tables hold: every section with its contents,
every symbol, and every relocation with the symbol that it names.
-/

namespace Gemios

/-! ### Records -/

def RawShdr.Fits (s : RawShdr) : Prop := ∀ w ∈ s.words, w < 4294967296

theorem le32_of_words {b : Buf} {p : Nat} {ws : List Nat} (hfits : ∀ w ∈ ws, w < 4294967296)
    (h : bytesAt b p (ws.flatMap le32Bytes).length = ws.flatMap le32Bytes) {k w : Nat}
    (hk : ws[k]? = some w) : le32 b (p + 4 * k) = w := by
  have hword := bytesAt_record le32Bytes length_le32Bytes h hk
  rw [le32_of_bytesAt hword]
  exact Nat.mod_eq_of_lt (hfits w (List.mem_of_getElem? hk))

theorem RawShdr.read_of_bytesAt {b : Buf} {p : Nat} {s : RawShdr} (hfits : s.Fits)
    (h : bytesAt b p 40 = s.bytes) : RawShdr.read b p = s := by
  have hword : ∀ k w, s.words[k]? = some w → le32 b (p + 4 * k) = w := fun k w => le32_of_words hfits h
  have h0 := hword 0 s.name rfl
  have h1 := hword 1 s.type rfl
  have h2 := hword 2 s.flags rfl
  have h3 := hword 3 s.addr rfl
  have h4 := hword 4 s.offset rfl
  have h5 := hword 5 s.size rfl
  have h6 := hword 6 s.link rfl
  have h7 := hword 7 s.info rfl
  have h8 := hword 8 s.addralign rfl
  have h9 := hword 9 s.entsize rfl
  simp only [Nat.reduceMul, Nat.add_zero] at h0 h1 h2 h3 h4 h5 h6 h7 h8 h9
  simp only [RawShdr.read, h0, h1, h2, h3, h4, h5, h6, h7, h8, h9]

theorem RawSym.read_of_bytesAt {b : Buf} {p : Nat} {s : RawSym}
    (hfits : s.name < 4294967296 ∧ s.value < 4294967296 ∧ s.size < 4294967296 ∧ s.info < 256 ∧ s.shndx < 65536)
    (h : bytesAt b p 16 = s.bytes) : RawSym.read b p = s := by
  obtain ⟨hname, hvalue, hsize, hinfo, hshndx⟩ := hfits
  have h0 := bytesAt_append (s := le32Bytes s.name) h
  have h1 := bytesAt_append (s := le32Bytes s.value) h0.2
  have h2 := bytesAt_append (s := le32Bytes s.size) h1.2
  have h3 := bytesAt_append (s := [UInt8.ofNat s.info, 0]) h2.2
  have hbyte : b (p + 12) = UInt8.ofNat s.info := by
    have hhead := congrArg List.head? h3.1
    simp only [bytesAt, List.length_cons, List.length_nil, List.range_succ_eq_map, List.map_cons, List.head?_cons,
      length_le32Bytes, Nat.add_assoc, Nat.add_zero] at hhead
    exact Option.some.inj hhead
  have hw0 := le32_of_bytesAt h0.1
  have hw1 := le32_of_bytesAt h1.1
  have hw2 := le32_of_bytesAt h2.1
  have hw3 := le16_of_bytesAt h3.2
  simp only [length_le32Bytes, List.length_cons, List.length_nil, Nat.add_assoc, Nat.reduceAdd] at hw1 hw2 hw3
  rw [Nat.mod_eq_of_lt hname] at hw0
  rw [Nat.mod_eq_of_lt hvalue] at hw1
  rw [Nat.mod_eq_of_lt hsize] at hw2
  rw [Nat.mod_eq_of_lt hshndx] at hw3
  simp only [RawSym.read, hw0, hw1, hw2, hw3, hbyte, UInt8.toNat_ofNat']
  rw [Nat.mod_eq_of_lt hinfo]

theorem ElfRel.read_of_bytesAt {b : Buf} {p : Nat} {r : ElfRel}
    (hfits : r.offset < 4294967296 ∧ r.sym < 16777216 ∧ r.type < 256) (h : bytesAt b p 8 = r.bytes) :
    ElfRel.read b p = r := by
  obtain ⟨hoffset, hsym, htype⟩ := hfits
  have h0 := bytesAt_append (s := le32Bytes r.offset) h
  have hw0 := le32_of_bytesAt h0.1
  have hw1 := le32_of_bytesAt h0.2
  rw [length_le32Bytes] at hw1
  rw [Nat.mod_eq_of_lt hoffset] at hw0
  rw [Nat.mod_eq_of_lt (by omega)] at hw1
  have hquot : (r.sym * 256 + r.type) / 256 = r.sym := by omega
  have hrem : (r.sym * 256 + r.type) % 256 = r.type := by omega
  simp only [ElfRel.read, hw0, hw1, hquot, hrem]

theorem ehdr_of_bytesAt {b : Buf} {shoff shnum : Nat} (h : bytesAt b 0 52 = ehdrBytes shoff shnum)
    (hoff : shoff < 4294967296) (hnum : 0 < shnum ∧ shnum < 65536) :
    bytesAt b 0 4 = [0x7F, 0x45, 0x4C, 0x46] ∧ le16 b 16 = ET_REL ∧ le16 b 18 = EM_386 ∧
      le32 b 32 = shoff ∧ le16 b 48 = shnum ∧ le16 b 50 = shnum - 1 := by
  have h0 := bytesAt_append (s := elfIdent) h
  have h1 := bytesAt_append (s := le16Bytes ET_REL) h0.2
  have h2 := bytesAt_append (s := le16Bytes EM_386) h1.2
  have h3 := bytesAt_append (s := le32Bytes 1 ++ le32Bytes 0 ++ le32Bytes 0) h2.2
  have h4 := bytesAt_append (s := le32Bytes shoff) h3.2
  have h5 := bytesAt_append
    (s := le32Bytes 0 ++ le16Bytes 52 ++ le16Bytes 0 ++ le16Bytes 0 ++ le16Bytes 40) h4.2
  have h6 := bytesAt_append (s := le16Bytes shnum) h5.2
  have hmagic := (bytesAt_append (s := [0x7F, 0x45, 0x4C, 0x46]) h0.1).1
  refine ⟨hmagic, le16_of_bytesAt h1.1, le16_of_bytesAt h2.1, ?_, ?_, ?_⟩
  · exact (le32_of_bytesAt h4.1).trans (Nat.mod_eq_of_lt hoff)
  · exact (le16_of_bytesAt h6.1).trans (Nat.mod_eq_of_lt hnum.2)
  · exact (le16_of_bytesAt h6.2).trans (Nat.mod_eq_of_lt (by omega))

namespace As

/-! ### What the tables say -/

def Section.shdr (sec : Section) : ElfShdr where
  name := sec.name
  type := sec.type
  flags := sec.flags
  addralign := sec.shAlign
  size := sec.size
  info := 0
  data := if sec.type ≠ SHT_NOBITS then sec.data else []
  rels := []

/-- The relocations of a section, with the place of their symbols among the symbols. -/
def Asm.relsOf (st : Asm) (secIdx : Nat) : List ElfRel :=
  (st.relocsOf secIdx).map fun r => ⟨r.offset, st.symOrder.idxOf r.symIdx + 1, r.type⟩

def Asm.relShdr (st : Asm) (secIdx : Nat) : ElfShdr where
  name := relName (st.secName secIdx)
  type := SHT_REL
  flags := 0
  addralign := 4
  size := 8 * (st.relocsOf secIdx).length
  info := secIdx
  data := relBytes (st.relsOf secIdx)
  rels := st.relsOf secIdx

def Asm.tableShdrs (st : Asm) : List ElfShdr :=
  [⟨str ".symtab", SHT_SYMTAB, 0, 4, 16 * st.symTables.entries.length, (st.symIdxs STB_LOCAL).length + 1,
      st.symTables.entries.flatMap RawSym.bytes, []⟩,
    ⟨str ".strtab", SHT_STRTAB, 0, 1, st.symTables.strtab.length, 0, st.symTables.strtab, []⟩,
    ⟨str ".shstrtab", SHT_STRTAB, 0, 1, st.layout.shstrtab.length, 0, st.layout.shstrtab, []⟩]

def Asm.elfSym (st : Asm) (i : Nat) : ElfSym :=
  let s := st.sym i
  ⟨s.name, s.value, s.size, s.binding, s.type, s.sectionIdx⟩

def Asm.object (path : List UInt8) (st : Asm) : ElfObj where
  path
  shdrs := noShdr :: ((st.sections.drop 1).map Section.shdr ++ st.relSecs.map st.relShdr ++ st.tableShdrs)
  symtab := noSym :: st.symOrder.map st.elfSym

/-! ### Reading the file -/

theorem Asm.Writable.sym_words {st : Asm} (hw : st.Writable) (i : Nat) :
    (st.sym i).value < 4294967296 ∧ (st.sym i).size < 4294967296 ∧ (st.sym i).type < 16 ∧
      ((st.sym i).binding = STB_LOCAL ∨ (st.sym i).binding = STB_GLOBAL) ∧ (st.sym i).sectionIdx < 65536 ∧
        (0 : UInt8) ∉ (st.sym i).name := by
  have hraw : ∀ s : Symbol, (s = noSymbol ∨ s ∈ st.symbols) →
      s.closed.value < 4294967296 ∧ s.closed.size < 4294967296 ∧ s.closed.type < 16 ∧
        (s.closed.binding = STB_LOCAL ∨ s.closed.binding = STB_GLOBAL) ∧ s.closed.sectionIdx < 65536 ∧
          (0 : UInt8) ∉ s.closed.name := by
    intro s hs
    rcases hs with rfl | hmem
    · decide
    · obtain ⟨hvalue, hsize, htype, hbind, hsec⟩ := hw.symbolWords s hmem
      have hname := hw.symbolNames s hmem
      rw [Symbol.closed]
      split
      · exact ⟨hvalue, hsize, htype, hbind, hsec, hname⟩
      · exact ⟨Nat.zero_lt_succ _, hsize, htype, Or.inr rfl, Nat.zero_lt_succ _, hname⟩
  apply hraw
  rw [List.getD_eq_getElem?_getD]
  cases hsym : st.symbols[i]? with
  | none => exact Or.inl rfl
  | some s => exact Or.inr (List.mem_of_getElem? hsym)

theorem Asm.Writable.mem_symOrder {st : Asm} (hw : st.Writable) {i : Nat} (hpos : 0 < i)
    (hlt : i < st.symbols.length) : i ∈ st.symOrder := by
  have hrange : i ∈ List.range' 1 (st.symbols.length - 1) := by
    rw [List.mem_range'_1]
    omega
  obtain ⟨-, -, -, hbind, -⟩ := hw.sym_words i
  apply List.mem_append.mpr
  rcases hbind with h | h
  · exact Or.inl (List.mem_filter.mpr ⟨hrange, by simp [h]⟩)
  · exact Or.inr (List.mem_filter.mpr ⟨hrange, by simp [h]⟩)

theorem Asm.Writable.relRecords {st : Asm} (hw : st.Writable) {hs rs : List RawShdr} {es : List RawSym}
    (hp : st.Placed hs rs es) (i : Nat) : st.relRecords i = st.relsOf i := by
  apply List.map_congr_left
  intro r hr
  have hmem : r ∈ st.relocs := List.mem_of_mem_filter hr
  obtain ⟨-, hpos, hlt⟩ := hw.relocIdxs r hmem
  rw [hp.reindex r.symIdx (hw.mem_symOrder hpos hlt), Nat.mod_eq_of_lt (hw.relocWords r hmem).2]

theorem Asm.Writable.relsOf_fits {st : Asm} (hw : st.Writable) {i : Nat} {r : ElfRel}
    (hr : r ∈ st.relsOf i) : r.offset < 4294967296 ∧ r.sym < 16777216 ∧ r.type < 256 := by
  obtain ⟨r', hmem', rfl⟩ := List.mem_map.mp hr
  have hmem : r' ∈ st.relocs := List.mem_of_mem_filter hmem'
  obtain ⟨hoffset, htype⟩ := hw.relocWords r' hmem
  refine ⟨hoffset, ?_, htype⟩
  have hle : st.symOrder.idxOf r'.symIdx ≤ st.symOrder.length := List.idxOf_le_length
  have hlen := st.symOrder_length
  have hmax := hw.symbols
  simp only [MAX_SYMBOLS] at hmax
  dsimp only
  omega

/-- What the file holds at the place of each piece. -/
structure Asm.Held (st : Asm) (f : FileImage) : Prop where
  pieces : ∀ p ∈ st.pieces, bytesAt f.bytes p.1 p.2.length = p.2
  inside : ∀ p ∈ st.pieces, p.1 + p.2.length ≤ f.size

theorem Asm.Placed.held {st : Asm} {hs rs : List RawShdr} {es : List RawSym} (hp : st.Placed hs rs es) :
    st.Held st.objectFile := by
  have hread := (hp.stacked.read FileImage.empty).1
  have hlast : ∃ ps, st.pieces = ps ++ [(st.layout.shoff, st.layout.shdrs.flatMap RawShdr.bytes)] :=
    ⟨(0, ehdrBytes st.layout.shoff st.layout.shdrs.length) :: (st.sectionPieces ++ st.relPieces ++
      [(st.layout.symtabOffset, st.symTables.entries.flatMap RawSym.bytes),
        (st.layout.strtabOffset, st.symTables.strtab), (st.layout.shstrtabOffset, st.layout.shstrtab)]),
      by simp [Asm.pieces]⟩
  obtain ⟨ps, hps⟩ := hlast
  have hstacked := hp.stacked
  have hlen := length_shdrRecords st.layout.shdrs
  have hsize : st.objectFile.size = st.layout.shoff + 40 * st.layout.shdrs.length := by
    rw [← hlen] at hstacked ⊢
    rw [Asm.objectFile, hps]
    rw [hps] at hstacked
    apply Stacked.size _ hstacked (Nat.zero_le _)
    · intro hnil
      have hzero := congrArg List.length hnil
      obtain ⟨tables, hlayout, hthree, -⟩ := st.layout_shdrs
      rw [hlen, hlayout, List.length_append, hthree] at hzero
      simp at hzero
  exact ⟨hread, fun p hmem => hsize ▸ (hp.stacked.mem hmem).2⟩

theorem map_eq_map_of_zip {α β γ : Type} {R : α → β → Prop} {as : List α} {bs : List β}
    (h : List.Forall₂ R as bs) {f : β → γ} {g : α → γ}
    (heq : ∀ a b, (a, b) ∈ as.zip bs → R a b → f b = g a) : bs.map f = as.map g := by
  induction h with
  | nil => rfl
  | cons hab hrest ih =>
    rw [List.map_cons, List.map_cons, heq _ _ List.mem_cons_self hab,
      ih fun a b hmem => heq a b (List.mem_cons_of_mem _ hmem)]

theorem Asm.Held.sectionName {st : Asm} {f : FileImage} (h : st.Held f) {off : Nat} {name : List UInt8}
    (htab : InTable st.layout.shstrtab off name) (hname : (0 : UInt8) ∉ name) :
    Ld.stringIn f (st.layout.shstrtabOffset + off) = name := by
  have hmem : (st.layout.shstrtabOffset, st.layout.shstrtab) ∈ st.pieces := by simp [Asm.pieces]
  exact htab.stringAt hname (h.pieces _ hmem) (h.inside _ hmem)

theorem Asm.Held.symbolName {st : Asm} {f : FileImage} (h : st.Held f) {off : Nat} {name : List UInt8}
    (htab : InTable st.symTables.strtab off name) (hname : (0 : UInt8) ∉ name) :
    Ld.stringIn f (st.layout.strtabOffset + off) = name := by
  have hmem : (st.layout.strtabOffset, st.symTables.strtab) ∈ st.pieces := by simp [Asm.pieces]
  exact htab.stringAt hname (h.pieces _ hmem) (h.inside _ hmem)

theorem Asm.Writable.size_lt {st : Asm} (hw : st.Writable) {sec : Section} (hsec : sec ∈ st.sections) :
    sec.size < 4294967296 ∧ sec.shAlign < 4294967296 := by
  have hle : sec.size + sec.shAlign ≤ (st.sections.map fun sec => sec.size + sec.shAlign).sum := by
    obtain ⟨before, after, heq⟩ := List.append_of_mem hsec
    rw [heq, List.map_append, List.map_cons, List.sum_append, List.sum_cons]
    omega
  have hfits := hw.fits
  omega

section

variable {st : Asm} (hw : st.Writable) {hs rs : List RawShdr} {es : List RawSym} (hp : st.Placed hs rs es)
  {f : FileImage} (hf : st.Held f)

include hw hp hf

theorem readSection_section {sec : Section} {s : RawShdr} (hmem : (sec, s) ∈ (st.sections.drop 1).zip hs)
    (hs' : sec.IsHeader s ∧ InTable st.layout.shstrtab s.name sec.name ∧ s.name < 4294967296) (n : Nat) :
    Ld.readSection f st.layout.shstrtabOffset (s.linkTo n) = sec.shdr := by
  have hdrop := (List.of_mem_zip hmem).1
  have hsec : sec ∈ st.sections := List.mem_of_mem_drop hdrop
  have hname := hf.sectionName hs'.2.1 (hw.names sec hsec).1
  have hsize : u32 sec.size = sec.size := u32_of_lt (hw.size_lt hsec).1
  have hrel : sec.type ≠ SHT_REL := by
    rcases hw.types sec hsec with h | h | h <;> rw [h] <;> decide
  have hdata : sec.type ≠ SHT_NOBITS → bytesAt f.bytes s.offset sec.size = sec.data := by
    intro htype
    have hfull := hw.full sec hsec htype
    rw [← hfull]
    by_cases hpos : sec.size > 0
    · apply hf.pieces (s.offset, sec.data)
      have hpiece : (s.offset, sec.data) ∈ st.sectionPieces := by
        rw [hp.sectionPieces, List.mem_flatMap]
        refine ⟨(sec, s), hmem, ?_⟩
        rw [Section.piece, if_pos ⟨htype, hpos⟩]
        exact List.mem_singleton.mpr rfl
      simp [Asm.pieces, hpiece]
    · have hnil : sec.data = [] := List.eq_nil_of_length_eq_zero (by omega)
      rw [hnil]
      rfl
  obtain ⟨name, offset, rfl⟩ : ∃ name offset, s = sec.rawShdr name offset := ⟨_, _, hs'.1.eq⟩
  have hlink : (sec.rawShdr name offset).linkTo n = sec.rawShdr name offset := if_neg hrel
  rw [hlink]
  simp only [Section.rawShdr] at hname hdata
  simp only [Ld.readSection, Section.rawShdr, Section.shdr, hname, hsize, if_neg hrel, ElfShdr.mk.injEq, true_and,
    and_true]
  by_cases htype : sec.type = SHT_NOBITS
  · simp [htype]
  · rw [if_pos htype, if_pos htype, hdata htype]

theorem readSection_rel {i : Nat} {s : RawShdr} (hmem : (i, s) ∈ st.relSecs.zip rs)
    (hs' : st.IsRelHeader i s ∧ InTable st.layout.shstrtab s.name (relName (st.secName i)) ∧ s.name < 4294967296)
    (n : Nat) : Ld.readSection f st.layout.shstrtabOffset (s.linkTo n) = st.relShdr i := by
  have hsecName : (0 : UInt8) ∉ st.secName i := by
    rw [Asm.secName, List.getD_eq_getElem?_getD]
    cases hsec : st.sections[i]? with
    | none => exact List.not_mem_nil
    | some sec => exact (hw.names sec (List.mem_of_getElem? hsec)).1
  have hrelName : (0 : UInt8) ∉ relName (st.secName i) := by
    rw [relName, List.mem_append, not_or]
    exact ⟨by decide, hsecName⟩
  have hname := hf.sectionName hs'.2.1 hrelName
  have hcount : 8 * (st.relocsOf i).length < 4294967296 := by
    have hle : (st.relocsOf i).length ≤ st.relocs.length := List.length_filter_le _ _
    have hmax := hw.relocs
    simp only [MAX_RELOCS] at hmax
    omega
  have hlen : (relBytes (st.relsOf i)).length = 8 * (st.relocsOf i).length := by
    simp [length_relBytes, Asm.relsOf]
  have hdata : bytesAt f.bytes s.offset (relBytes (st.relsOf i)).length = relBytes (st.relsOf i) := by
    apply hf.pieces (s.offset, relBytes (st.relsOf i))
    have hpiece : (s.offset, relBytes (st.relsOf i)) ∈ st.relPieces := by
      rw [hp.relPieces, List.mem_flatMap]
      refine ⟨(i, s), hmem, ?_⟩
      rw [hw.relRecords hp]
      exact List.mem_singleton.mpr rfl
    simp [Asm.pieces, hpiece]
  have hrels : ((List.range (st.relocsOf i).length).map fun r => ElfRel.read f.bytes (s.offset + 8 * r)) =
      st.relsOf i := by
    have hlenR : (st.relsOf i).length = (st.relocsOf i).length := List.length_map _
    apply List.ext_getElem
    · simp [hlenR]
    · intro k hk hk'
      rw [List.getElem_map, List.getElem_range]
      apply ElfRel.read_of_bytesAt (hw.relsOf_fits (List.getElem_mem hk'))
      exact bytesAt_record ElfRel.bytes (fun _ => rfl) hdata (List.getElem?_eq_getElem hk')
  obtain ⟨name, offset, rfl⟩ : ∃ name offset, s = st.rawRelShdr i name offset := ⟨_, _, hs'.1.eq⟩
  simp only [Asm.rawRelShdr, hlen] at hname hdata hrels
  have hquot : 8 * (st.relocsOf i).length / 8 = (st.relocsOf i).length := by omega
  simp only [Ld.readSection, Asm.rawRelShdr, RawShdr.linkTo, Asm.relShdr, hname, u32_of_lt hcount, if_pos, hquot,
    hdata, hrels, ElfShdr.mk.injEq, true_and, and_true]
  exact if_pos (by decide)

theorem readSymbol_entry {i k : Nat} {e : RawSym} (he : es[k]? = some e)
    (hentry : st.IsEntry st.symTables.strtab i e) :
    Ld.readSymbol f st.layout.strtabOffset (RawSym.read f.bytes (st.layout.symtabOffset + 16 * (k + 1))) =
      st.elfSym i := by
  obtain ⟨hvalue, hsize, htype, hbind, hsec, hname⟩ := hw.sym_words i
  have hmem : (st.layout.symtabOffset, st.symTables.entries.flatMap RawSym.bytes) ∈ st.pieces := by
    simp [Asm.pieces]
  have hk : st.symTables.entries[k + 1]? = some e := by
    rw [hp.entries, List.getElem?_cons_succ]
    exact he
  have hrecord := bytesAt_record RawSym.bytes (w := 16) (fun _ => rfl) (hf.pieces _ hmem) hk
  have hbind' : (st.sym i).binding < 16 := by
    rcases hbind with h | h <;> rw [h] <;> decide
  have hstring := hf.symbolName hentry.name hname
  have hlt := hentry.lt
  obtain ⟨name, rfl⟩ : ∃ name, e = st.rawSym name i := ⟨_, hentry.eq⟩
  have hfits : name < 4294967296 ∧ (st.sym i).value < 4294967296 ∧ (st.sym i).size < 4294967296 ∧
      (st.sym i).binding * 16 + (st.sym i).type % 16 < 256 ∧ u16 (st.sym i).sectionIdx < 65536 :=
    ⟨hlt, hvalue, hsize, by omega, Nat.mod_lt _ (by decide)⟩
  rw [RawSym.read_of_bytesAt (s := st.rawSym name i) hfits hrecord]
  have hquot : ((st.sym i).binding * 16 + (st.sym i).type % 16) / 16 = (st.sym i).binding := by omega
  have hrem : ((st.sym i).binding * 16 + (st.sym i).type % 16) % 16 = (st.sym i).type := by omega
  simp only [Asm.rawSym] at hstring
  simp only [Ld.readSymbol, Asm.rawSym, Asm.elfSym, hstring, hquot, hrem, u16_of_lt hsec]

end

/-! ### The headers -/

theorem RawShdr.Fits.linkTo {s : RawShdr} (h : s.Fits) {n : Nat} (hn : n < 4294967296) : (s.linkTo n).Fits := by
  rw [RawShdr.linkTo]
  split
  · simp only [RawShdr.Fits, RawShdr.words, List.forall_mem_cons] at h ⊢
    obtain ⟨h0, h1, h2, h3, h4, h5, -, hrest⟩ := h
    exact ⟨h0, h1, h2, h3, h4, h5, hn, hrest⟩
  · exact h

theorem alignUp_lt_word (x align : Nat) : alignUp x align < 4294967296 :=
  Nat.lt_of_le_of_lt Nat.and_le_left (u32_lt _)

theorem Asm.layout_tables (st : Asm) : ∃ n₁ n₂ n₃ : Nat,
    st.layout.shdrs = st.headers.shdrs.map (RawShdr.linkTo st.headers.shdrs.length) ++
      [⟨u32 n₁, SHT_SYMTAB, 0, 0, st.layout.symtabOffset, u32 (16 * st.symTables.entries.length),
          st.headers.shdrs.length + 1, (st.symIdxs STB_LOCAL).length + 1, 4, 16⟩,
        ⟨u32 n₂, SHT_STRTAB, 0, 0, st.layout.strtabOffset, u32 st.symTables.strtab.length, 0, 0, 1, 0⟩,
        ⟨u32 n₃, SHT_STRTAB, 0, 0, st.layout.shstrtabOffset, u32 st.layout.shstrtab.length, 0, 0, 1, 0⟩] ∧
      InTable st.layout.shstrtab n₁ (str ".symtab") ∧ InTable st.layout.shstrtab n₂ (str ".strtab") ∧
        InTable st.layout.shstrtab n₃ (str ".shstrtab") ∧
          n₁ ≤ st.layout.shstrtab.length ∧ n₂ ≤ st.layout.shstrtab.length ∧ n₃ ≤ st.layout.shstrtab.length := by
  refine ⟨_, _, _, rfl, ?_, ?_, ?_, ?_, ?_, ?_⟩
  · exact ((((InTable.snoc _ _).more _).more _).more _).more _
  · exact ((InTable.snoc _ _).more _).more _
  · exact InTable.snoc _ _
  · simp [Asm.layout]
  · simp [Asm.layout]
  · simp [Asm.layout]

section

variable {st : Asm} (hw : st.Writable) {hs rs : List RawShdr} {es : List RawSym} (hp : st.Placed hs rs es)

include hw hp

theorem Asm.Placed.count : st.headers.shdrs.length ≤ 63 ∧
    st.layout.shdrs.length = st.headers.shdrs.length + 3 := by
  have hlenS := hp.sections.length_eq
  have hlenR := hp.rels.length_eq
  have hrel := st.relSecs_length
  have hmax := hw.sections
  simp only [MAX_SECTIONS] at hmax
  rw [List.length_drop] at hlenS
  constructor
  · rw [hp.shdrs, List.length_cons, List.length_append]
    omega
  · simp [Asm.layout]

theorem Asm.Placed.fits : ∀ s ∈ st.layout.shdrs, s.Fits := by
  obtain ⟨hcount, -⟩ := hp.count hw
  have hn : st.headers.shdrs.length < 4294967296 := by omega
  have hheaders : ∀ s ∈ st.headers.shdrs, s.Fits := by
    rw [hp.shdrs, List.forall_mem_cons, List.forall_mem_append]
    refine ⟨by simp [RawShdr.Fits, RawShdr.words, noRawShdr], ?_, ?_⟩
    · intro s hs'
      obtain ⟨sec, hsec, hhead, -, hname⟩ := exists_of_mem_right hp.sections hs'
      have hmem : sec ∈ st.sections := List.mem_of_mem_drop hsec
      have htype : sec.type < 4294967296 := by
        rcases hw.types sec hmem with h | h | h <;> rw [h] <;> decide
      have hoffset := hhead.offset
      rw [hhead.eq]
      simp [RawShdr.Fits, RawShdr.words, Section.rawShdr, hname, htype, (hw.words sec hmem).1, hoffset, u32_lt,
        (hw.size_lt hmem).2]
    · intro s hs'
      obtain ⟨i, hi, hhead, -, hname⟩ := exists_of_mem_right hp.rels hs'
      have hlt : i < 4294967296 := by
        have hrange := List.mem_range'_1.mp (List.mem_of_mem_filter hi)
        have hmax := hw.sections
        simp only [MAX_SECTIONS] at hmax
        omega
      have hoffset := hhead.offset
      rw [hhead.eq]
      simp [RawShdr.Fits, RawShdr.words, Asm.rawRelShdr, hname, hoffset, u32_lt, hlt, SHT_REL]
  obtain ⟨n₁, n₂, n₃, hlayout, -⟩ := st.layout_tables
  have hsymtab : st.layout.symtabOffset < 4294967296 := alignUp_lt_word _ _
  have hstrtab : st.layout.strtabOffset < 4294967296 := u32_lt _
  have hshstrtab : st.layout.shstrtabOffset < 4294967296 := alignUp_lt_word _ _
  have hlocals : (st.symIdxs STB_LOCAL).length + 1 < 4294967296 := by
    have hle : (st.symIdxs STB_LOCAL).length ≤ st.symOrder.length := by simp [Asm.symOrder]
    have hlen := st.symOrder_length
    have hmax := hw.symbols
    simp only [MAX_SYMBOLS] at hmax
    omega
  have hlink : st.headers.shdrs.length + 1 < 4294967296 := by omega
  rw [hlayout, List.forall_mem_append]
  constructor
  · intro s hs'
    obtain ⟨s', hmem, rfl⟩ := List.mem_map.mp hs'
    exact RawShdr.Fits.linkTo (hheaders s' hmem) hn
  · simp [RawShdr.Fits, RawShdr.words, u32_lt, SHT_SYMTAB, SHT_STRTAB, hsymtab, hstrtab, hshstrtab, hlocals, hlink]

end

theorem Asm.Placed.type_ne_symtab {st : Asm} (hw : st.Writable) {hs rs : List RawShdr} {es : List RawSym}
    (hp : st.Placed hs rs es) : ∀ s ∈ st.headers.shdrs, s.type ≠ SHT_SYMTAB := by
  rw [hp.shdrs, List.forall_mem_cons, List.forall_mem_append]
  refine ⟨by decide, ?_, ?_⟩
  · intro s hs'
    obtain ⟨sec, hsec, hhead, -⟩ := exists_of_mem_right hp.sections hs'
    have htype : s.type = sec.type := by rw [hhead.eq]; rfl
    rw [htype]
    rcases hw.types sec (List.mem_of_mem_drop hsec) with h | h | h <;> rw [h] <;> decide
  · intro s hs'
    obtain ⟨i, -, hhead, -⟩ := exists_of_mem_right hp.rels hs'
    have htype : s.type = SHT_REL := by rw [hhead.eq]; rfl
    rw [htype]
    decide

/-! ### The round trip -/

section

variable {st : Asm} (hw : st.Writable) {hs rs : List RawShdr} {es : List RawSym} (hp : st.Placed hs rs es)
  {f : FileImage} (hf : st.Held f)

include hw hp hf

theorem read_header {i : Nat} {s : RawShdr} (hi : st.layout.shdrs[i]? = some s) :
    RawShdr.read f.bytes (st.layout.shoff + 40 * i) = s := by
  have hmem : (st.layout.shoff, st.layout.shdrs.flatMap RawShdr.bytes) ∈ st.pieces := by simp [Asm.pieces]
  apply RawShdr.read_of_bytesAt (hp.fits hw s (List.mem_of_getElem? hi))
  exact bytesAt_record RawShdr.bytes (fun _ => rfl) (hf.pieces _ hmem) hi

theorem read_headers :
    ((List.range st.layout.shdrs.length).map fun i => RawShdr.read f.bytes (st.layout.shoff + 40 * i)) =
      st.layout.shdrs := by
  apply List.ext_getElem
  · simp
  · intro i hi hi'
    rw [List.getElem_map, List.getElem_range]
    exact read_header hw hp hf (List.getElem?_eq_getElem hi')

theorem read_sections (path : List UInt8) :
    st.layout.shdrs.map (Ld.readSection f st.layout.shstrtabOffset) = (st.object path).shdrs := by
  obtain ⟨n₁, n₂, n₃, hlayout, htab₁, htab₂, htab₃, hle₁, hle₂, hle₃⟩ := st.layout_tables
  obtain ⟨hlenE, hlenT, hlenH⟩ := hp.tables
  have hnull : Ld.readSection f st.layout.shstrtabOffset (noRawShdr.linkTo st.headers.shdrs.length) = noShdr := by
    have hname := hf.sectionName hp.noName.1 List.not_mem_nil
    have hlink : noRawShdr.linkTo st.headers.shdrs.length = noRawShdr := rfl
    rw [hlink]
    simp only [Ld.readSection, noRawShdr, hname]
    rfl
  have hsections : (hs.map (RawShdr.linkTo st.headers.shdrs.length)).map
      (Ld.readSection f st.layout.shstrtabOffset) = (st.sections.drop 1).map Section.shdr := by
    rw [List.map_map]
    exact map_eq_map_of_zip hp.sections fun sec s hmem hs' => readSection_section hw hp hf hmem hs' _
  have hrels : (rs.map (RawShdr.linkTo st.headers.shdrs.length)).map
      (Ld.readSection f st.layout.shstrtabOffset) = st.relSecs.map st.relShdr := by
    rw [List.map_map]
    exact map_eq_map_of_zip hp.rels fun i s hmem hs' => readSection_rel hw hp hf hmem hs' _
  have hheaders : (st.headers.shdrs.map (RawShdr.linkTo st.headers.shdrs.length)).map
      (Ld.readSection f st.layout.shstrtabOffset) =
        noShdr :: ((st.sections.drop 1).map Section.shdr ++ st.relSecs.map st.relShdr) := by
    generalize st.headers.shdrs.length = n at hnull hsections hrels
    rw [hp.shdrs, List.map_cons, List.map_cons, List.map_append, List.map_append, hnull, hsections, hrels]
  have hdata : ∀ off bs, (off, bs) ∈ st.pieces → bytesAt f.bytes off bs.length = bs :=
    fun off bs hmem => hf.pieces (off, bs) hmem
  have hsymtab := hdata st.layout.symtabOffset (st.symTables.entries.flatMap RawSym.bytes) (by simp [Asm.pieces])
  have hstrtab := hdata st.layout.strtabOffset st.symTables.strtab (by simp [Asm.pieces])
  have hshstrtab := hdata st.layout.shstrtabOffset st.layout.shstrtab (by simp [Asm.pieces])
  rw [length_symRecords] at hsymtab
  have hname₁ := hf.sectionName htab₁ (by decide)
  have hname₂ := hf.sectionName htab₂ (by decide)
  have hname₃ := hf.sectionName htab₃ (by decide)
  rw [hlayout, List.map_append, hheaders]
  simp [Asm.object, Asm.tableShdrs, Ld.readSection, u32_of_lt (show n₁ < 4294967296 by omega),
    u32_of_lt (show n₂ < 4294967296 by omega), u32_of_lt (show n₃ < 4294967296 by omega), hname₁, hname₂, hname₃,
    u32_of_lt (show 16 * st.symTables.entries.length < 4294967296 by omega),
    u32_of_lt (show st.symTables.strtab.length < 4294967296 by omega),
    u32_of_lt (show st.layout.shstrtab.length < 4294967296 by omega), hsymtab, hstrtab, hshstrtab,
    SHT_SYMTAB, SHT_STRTAB, SHT_NOBITS, SHT_REL]

theorem read_symbols (path : List UInt8) : ((List.range st.symTables.entries.length).map fun i =>
    Ld.readSymbol f st.layout.strtabOffset (RawSym.read f.bytes (st.layout.symtabOffset + 16 * i))) =
      (st.object path).symtab := by
  have hmem : (st.layout.symtabOffset, st.symTables.entries.flatMap RawSym.bytes) ∈ st.pieces := by
    simp [Asm.pieces]
  have hzero : st.symTables.entries[0]? = some noRawSym := by
    rw [hp.entries]
    rfl
  have hrecord := bytesAt_record RawSym.bytes (w := 16) (fun _ => rfl) (hf.pieces _ hmem) hzero
  have hnull : RawSym.read f.bytes (st.layout.symtabOffset + 16 * 0) = noRawSym :=
    RawSym.read_of_bytesAt (s := noRawSym) (by decide) hrecord
  have hname := hf.symbolName hp.noName.2 List.not_mem_nil
  have hlen : es.length = st.symOrder.length := hp.symbols.length_eq.symm
  rw [hp.entries, List.length_cons, List.range_succ_eq_map, List.map_cons, List.map_map, hnull]
  apply congrArg₂ List.cons
  · simp only [Ld.readSymbol, noRawSym, hname]
    rfl
  · apply List.ext_getElem
    · simp [hlen]
    · intro k hk hk'
      rw [List.length_map, List.length_range] at hk
      have horder : k < st.symOrder.length := hlen ▸ hk
      rw [List.getElem_map, List.getElem_map, List.getElem_range]
      have hentry := (List.forall₂_iff_get.mp hp.symbols).2 k horder hk
      exact readSymbol_entry hw hp hf (List.getElem?_eq_getElem hk) hentry

end

theorem readObject_objectFile {st : Asm} (hw : st.Writable) (path : List UInt8) :
    Ld.readObject path st.objectFile = some (st.object path) := by
  obtain ⟨hs, rs, es, hp⟩ := hw.placed
  have hf := hp.held
  obtain ⟨hcount, hlen⟩ := hp.count hw
  have hmem : (0, ehdrBytes st.layout.shoff st.layout.shdrs.length) ∈ st.pieces := List.mem_cons_self
  obtain ⟨hmagic, htype, hmachine, hshoff, hshnum, hshstrndx⟩ :=
    ehdr_of_bytesAt (hf.pieces _ hmem) hp.shoff ⟨by omega, by omega⟩
  obtain ⟨n₁, n₂, n₃, hlayout, -⟩ := st.layout_tables
  have hlenM : (st.headers.shdrs.map (RawShdr.linkTo st.headers.shdrs.length)).length =
      st.headers.shdrs.length := List.length_map _
  have hstr := read_header hw hp hf (i := st.headers.shdrs.length + 1)
    (by rw [hlayout, List.getElem?_append_right (by omega), hlenM, Nat.add_sub_cancel_left]; rfl)
  have hshstr := read_header hw hp hf (i := st.headers.shdrs.length + 2)
    (by rw [hlayout, List.getElem?_append_right (by omega), hlenM, Nat.add_sub_cancel_left]; rfl)
  have hfind : ∃ s, st.layout.shdrs.find? (fun s => s.type == SHT_SYMTAB) = some s ∧
      s.offset = st.layout.symtabOffset ∧ s.size = u32 (16 * st.symTables.entries.length) ∧
        s.link = st.headers.shdrs.length + 1 := by
    have hnone : (st.headers.shdrs.map (RawShdr.linkTo st.headers.shdrs.length)).find?
        (fun s => s.type == SHT_SYMTAB) = none := by
      rw [List.find?_eq_none]
      intro s hs'
      obtain ⟨s', hmem', rfl⟩ := List.mem_map.mp hs'
      have htype' := hp.type_ne_symtab hw s' hmem'
      simp [htype']
    rw [hlayout, List.find?_append, hnone, Option.none_or]
    exact ⟨_, rfl, rfl, rfl, rfl⟩
  obtain ⟨s, hsome, hoffset, hsize, hlink⟩ := hfind
  have hquot : u32 (16 * st.symTables.entries.length) / 16 = st.symTables.entries.length := by
    have hlenE := hp.tables.1
    rw [u32_of_lt (by omega)]
    omega
  rw [Ld.readObject, if_pos ⟨hmagic, htype, hmachine⟩, Option.some.injEq]
  have hlast : st.layout.shdrs.length - 1 = st.headers.shdrs.length + 2 := by omega
  have hsections := read_sections hw hp hf path
  have hsymbols := read_symbols hw hp hf path
  dsimp only
  rw [hshoff, hshnum, hshstrndx, hlast, hshstr, read_headers hw hp hf, hsome, hsections]
  dsimp only
  rw [hlink, hstr, hoffset, hsize, hquot, hsymbols]
  rfl

/-! ### Accepted sources -/

/-- What the assembler does not check: its names are C strings, the names of relocation sections fit
    `rel_name`, the names of the symbols fit `strtab`, and the sections fit a file of 4 GiB. -/
structure Asm.Fits (st : Asm) : Prop where
  sectionNames : ∀ sec ∈ st.sections, (0 : UInt8) ∉ sec.name
  symbolNames : ∀ s ∈ st.symbols, (0 : UInt8) ∉ s.name
  relNames : ∀ r ∈ st.relocs, (st.secName r.sectionIdx).length < 60
  strtab : (st.symNames st.symOrder).length < 131072
  file : (st.sections.map fun sec => sec.size + sec.shAlign).sum + 4194304 ≤ 4294967296

theorem Asm.Sound.writable {st : Asm} (h : st.Sound) (hfilled : st.Filled) (hfits : st.Fits) : st.Writable where
  sections := h.sections
  symbols := h.symbols.2
  relocs := h.relocs
  full := hfilled.full
  types := fun sec hsec => (h.secs sec hsec).type
  words := fun sec hsec => ⟨(h.secs sec hsec).flags, (h.secs sec hsec).align⟩
  names := fun sec hsec => ⟨hfits.sectionNames sec hsec, (h.secs sec hsec).name⟩
  symbolNames := hfits.symbolNames
  symbolWords := by
    intro s hs
    obtain ⟨hvalue, hsize, htype, hbind, hsec⟩ := h.syms s hs
    have hmax := h.sections
    simp only [MAX_SECTIONS] at hmax
    refine ⟨hvalue, hsize, htype, hbind, ?_⟩
    rcases hsec with hlt | habs | hcommon
    · omega
    · exact habs ▸ by decide
    · exact hcommon ▸ by decide
  relocWords := by
    intro r hr
    obtain ⟨hoffset, htype, -, -⟩ := h.rels r hr
    refine ⟨hoffset, ?_⟩
    rcases htype with h32 | hpc
    · exact h32 ▸ by decide
    · exact hpc ▸ by decide
  relocIdxs := fun r hr => ⟨(h.rels r hr).sectionIdx, (h.rels r hr).symIdx⟩
  relNames := hfits.relNames
  strtab := hfits.strtab
  fits := hfits.file

/-- A relocation of the tables is one of the object: against the same section, for the same symbol. -/
theorem Asm.Writable.object_reloc {st : Asm} (hw : st.Writable) (path : List UInt8) {r : Reloc}
    (hr : r ∈ st.relocs) :
    (st.object path).shdrs[r.sectionIdx]? = st.sections[r.sectionIdx]?.map Section.shdr ∧
      ∃ shdr ∈ (st.object path).shdrs, shdr.type = SHT_REL ∧ shdr.info = r.sectionIdx ∧
        ∃ rel ∈ shdr.rels, rel.offset = r.offset ∧ rel.type = r.type ∧
          (st.object path).symtab[rel.sym]? = some (st.elfSym r.symIdx) := by
  obtain ⟨⟨hpos, hlt⟩, hsym, hsymlt⟩ := hw.relocIdxs r hr
  have hmem : r ∈ st.relocsOf r.sectionIdx := List.mem_filter.mpr ⟨hr, by simp⟩
  constructor
  · obtain ⟨i, hi⟩ : ∃ i, r.sectionIdx = i + 1 := ⟨r.sectionIdx - 1, by omega⟩
    rw [hi] at hlt ⊢
    have hlen : i < ((st.sections.drop 1).map Section.shdr).length := by
      rw [List.length_map, List.length_drop]
      omega
    unfold Asm.object
    dsimp only
    rw [List.getElem?_cons_succ, List.append_assoc, List.getElem?_append_left hlen, List.getElem?_map,
      List.getElem?_drop, Nat.add_comm 1 i]
  · have hrelSec : r.sectionIdx ∈ st.relSecs := by
      refine List.mem_filter.mpr ⟨List.mem_range'_1.mpr (by omega), ?_⟩
      simp only [bne_iff_ne]
      exact List.ne_nil_of_mem hmem
    refine ⟨st.relShdr r.sectionIdx, ?_, rfl, rfl, _, List.mem_map_of_mem hmem, rfl, rfl, ?_⟩
    · simp only [Asm.object, List.mem_cons, List.mem_append]
      exact Or.inr (Or.inl (Or.inr (List.mem_map_of_mem hrelSec)))
    · have hidx : st.symOrder.idxOf r.symIdx < st.symOrder.length :=
        List.idxOf_lt_length_of_mem (hw.mem_symOrder hsym hsymlt)
      simp [Asm.object, hidx, List.getElem_idxOf]

/-- **Round trip**: of a source that `as` accepts, `ld` reads the sections, the symbols and the relocations
    that the assembler's tables say, each relocation with its section and its symbol. -/
theorem as_ld_round_trip {lines : List (List UInt8)} {st : Asm} {log₁ log₂ : List Event}
    (h : assemble lines = some (st, log₁, log₂)) (hfits : st.Fits) (path : List UInt8) :
    Ld.readObject path st.objectFile = some (st.object path) ∧
      ∀ r ∈ st.relocs,
        (st.object path).shdrs[r.sectionIdx]? = st.sections[r.sectionIdx]?.map Section.shdr ∧
        ∃ shdr ∈ (st.object path).shdrs, shdr.type = SHT_REL ∧ shdr.info = r.sectionIdx ∧
          ∃ rel ∈ shdr.rels, rel.offset = r.offset ∧ rel.type = r.type ∧
            (st.object path).symtab[rel.sym]? = some (st.elfSym r.symIdx) := by
  obtain ⟨hsound, hfilled⟩ := assemble_sound h
  have hw := hsound.writable hfilled hfits
  exact ⟨readObject_objectFile hw path, fun r hr => hw.object_reloc path hr⟩

/-- A call of a function that another file defines. -/
theorem as_ld_round_trip_call : ∃ st log₁ log₂, assemble [str "main: call puts"] = some (st, log₁, log₂) ∧
    Ld.readObject (str "a.o") st.objectFile = some (st.object (str "a.o")) ∧
      ∀ r ∈ st.relocs,
        (st.object (str "a.o")).shdrs[r.sectionIdx]? = st.sections[r.sectionIdx]?.map Section.shdr ∧
        ∃ shdr ∈ (st.object (str "a.o")).shdrs, shdr.type = SHT_REL ∧ shdr.info = r.sectionIdx ∧
          ∃ rel ∈ shdr.rels, rel.offset = r.offset ∧ rel.type = r.type ∧
            (st.object (str "a.o")).symtab[rel.sym]? = some (st.elfSym r.symIdx) := by
  have hrun : assemble [str "main: call puts"] =
      some (⟨[noSection, ⟨str ".text", SHT_PROGBITS, SHF_ALLOC ||| SHF_EXECINSTR, 4, [0xE8, 0xFC, 0xFF, 0xFF, 0xFF], 5⟩],
          1, [noSymbol, ⟨str "main", 0, 0, 0, 0, 1, true⟩, ⟨str "puts", 0, 0, 0, 0, 0, false⟩],
          [⟨1, 1, 2, R_386_PC32⟩], [⟨str "main", 1, 0, 0⟩]⟩,
        [.label ⟨str "main", 1, 0, 0⟩], [.label ⟨str "main", 1, 0, 0⟩]) := by
    decide +kernel
  refine ⟨_, _, _, hrun, as_ld_round_trip hrun ?_ (str "a.o")⟩
  exact ⟨by decide, by decide, by decide, by decide, by decide⟩

end As

end Gemios
