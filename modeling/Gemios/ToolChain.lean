import Gemios.ElfRead
import Gemios.LdFile

/-!
# From assembler sources to an image

The sources that `as` accepts, written to object files, read and linked by `ld`: the image holds what the
assembler's tables say, with every reference to a symbol resolved.
-/

namespace Gemios.As

/-! ### The object of a source -/

/-- The tables of a source that the linker can place: its output sections, alignments that divide a page,
    COMMON symbols that are global, and references in sections with contents. -/
structure Asm.Linkable (st : Asm) : Prop where
  count : st.sections.length + st.relSecs.length + 3 ≤ Ld.MAX_SECTIONS_PER_FILE
  outputs : ∀ sec ∈ st.sections.drop 1, sec.flags &&& SHF_ALLOC ≠ 0 ∧
    ∃ i, Ld.targetIdx sec.name = some i ∧ sec.type = Ld.outType i
  aligns : ∀ sec ∈ st.sections, sec.align = 0 ∨ sec.align ∣ 4096
  commons : ∀ s ∈ st.symbols, s.sectionIdx = SHN_COMMON → s.binding ≠ STB_LOCAL ∧ (s.value = 0 ∨ s.value ∣ 4096)
  relocs : ∀ r ∈ st.relocs, ∀ sec, st.sections[r.sectionIdx]? = some sec → sec.type = SHT_PROGBITS

theorem objRels_object {st : Asm} (htypes : ∀ sec ∈ st.sections, sec.Sound) (path : List UInt8) :
    Ld.objRels (st.object path) = st.relSecs.flatMap fun i => (st.relsOf i).map (i, ·) := by
  have hsections : ((st.sections.drop 1).map Section.shdr).flatMap (fun shdr =>
      if shdr.type = SHT_REL then shdr.rels.map fun rel => (shdr.info, rel) else []) = [] := by
    rw [List.flatMap_eq_nil_iff]
    intro shdr hshdr
    obtain ⟨sec, hsec, rfl⟩ := List.mem_map.mp hshdr
    have hne : sec.type ≠ SHT_REL := by
      rcases (htypes sec (List.mem_of_mem_drop hsec)).type with h | h | h <;> rw [h] <;> decide
    exact if_neg hne
  have htables : st.tableShdrs.flatMap (fun shdr =>
      if shdr.type = SHT_REL then shdr.rels.map fun rel => (shdr.info, rel) else []) = [] := rfl
  have hrels : (st.relSecs.map st.relShdr).flatMap (fun shdr =>
      if shdr.type = SHT_REL then shdr.rels.map fun rel => (shdr.info, rel) else []) =
        st.relSecs.flatMap fun i => (st.relsOf i).map (i, ·) := by
    rw [List.flatMap_map]
    rfl
  rw [Ld.objRels]
  unfold Asm.object
  dsimp only
  rw [List.flatMap_cons, List.flatMap_append, List.flatMap_append, hsections, htables, hrels, List.append_nil]
  rfl

theorem mem_objRels {st : Asm} (htypes : ∀ sec ∈ st.sections, sec.Sound) {path : List UInt8} {i : Nat}
    {rel : ElfRel} : (i, rel) ∈ Ld.objRels (st.object path) ↔
      i ∈ st.relSecs ∧ ∃ r ∈ st.relocs, r.sectionIdx = i ∧
        rel = ⟨r.offset, st.symOrder.idxOf r.symIdx + 1, r.type⟩ := by
  rw [objRels_object htypes, List.mem_flatMap]
  constructor
  · rintro ⟨j, hj, hmem⟩
    obtain ⟨rel', hrel', heq⟩ := List.mem_map.mp hmem
    obtain ⟨rfl, rfl⟩ := Prod.mk.inj heq
    obtain ⟨r, hr, rfl⟩ := List.mem_map.mp hrel'
    obtain ⟨hr', hsec⟩ := List.mem_filter.mp hr
    exact ⟨hj, r, hr', beq_iff_eq.mp hsec, rfl⟩
  · rintro ⟨hi, r, hr, hsec, rfl⟩
    refine ⟨i, hi, List.mem_map_of_mem (List.mem_map.mpr ⟨r, ?_, rfl⟩)⟩
    exact List.mem_filter.mpr ⟨hr, beq_iff_eq.mpr hsec⟩

theorem mem_shdrs_object {st : Asm} {path : List UInt8} {shdr : ElfShdr} (h : shdr ∈ (st.object path).shdrs) :
    (∃ sec ∈ st.sections.drop 1, shdr = sec.shdr) ∨
      (shdr.flags = 0 ∧ shdr.type ≠ SHT_NOBITS ∧ shdr.data.length = shdr.size) := by
  unfold Asm.object at h
  dsimp only at h
  rw [List.mem_cons, List.mem_append, List.mem_append] at h
  rcases h with rfl | (h | h) | h
  · exact Or.inr ⟨rfl, by decide, rfl⟩
  · obtain ⟨sec, hsec, rfl⟩ := List.mem_map.mp h
    exact Or.inl ⟨sec, hsec, rfl⟩
  · obtain ⟨i, -, rfl⟩ := List.mem_map.mp h
    refine Or.inr ⟨rfl, by show SHT_REL ≠ SHT_NOBITS; decide, ?_⟩
    show (relBytes (st.relsOf i)).length = 8 * (st.relocsOf i).length
    rw [length_relBytes, Asm.relsOf, List.length_map]
  · have hsymtab := length_symRecords st.symTables.entries
    unfold Asm.tableShdrs at h
    simp only [List.mem_cons, List.not_mem_nil, or_false] at h
    rcases h with rfl | rfl | rfl
    · exact Or.inr ⟨rfl, by show SHT_SYMTAB ≠ SHT_NOBITS; decide, hsymtab⟩
    · exact Or.inr ⟨rfl, by show SHT_STRTAB ≠ SHT_NOBITS; decide, rfl⟩
    · exact Or.inr ⟨rfl, by show SHT_STRTAB ≠ SHT_NOBITS; decide, rfl⟩

theorem relWidth_four {type : Nat} (h : type = R_386_32 ∨ type = R_386_PC32) : Ld.relWidth type = 4 := by
  rcases h with rfl | rfl <;> rfl

structure Asm.Accepted (st : Asm) : Prop where
  sound : st.Sound
  filled : st.Filled
  apart : st.Apart
  fits : st.Fits
  linkable : st.Linkable

theorem Asm.Accepted.writable {st : Asm} (h : st.Accepted) : st.Writable := h.sound.writable h.filled h.fits

theorem secSize_of_getElem? {st : Asm} {i : Nat} {sec : Section} (h : st.sections[i]? = some sec) :
    st.secSize i = sec.size := by
  rw [Asm.secSize, List.getD_eq_getElem?_getD, h]
  rfl

theorem Asm.Accepted.reloc_section {st : Asm} (h : st.Accepted) {r : Reloc} (hr : r ∈ st.relocs) (path : List UInt8) :
    ∃ sec, st.sections[r.sectionIdx]? = some sec ∧ (st.object path).shdrs[r.sectionIdx]? = some sec.shdr ∧
      sec.type = SHT_PROGBITS ∧ r.offset + 4 ≤ sec.size ∧ sec ∈ st.sections.drop 1 := by
  have hidx := (h.sound.rels r hr).sectionIdx
  have hsec : st.sections[r.sectionIdx]? = some st.sections[r.sectionIdx] := List.getElem?_eq_getElem hidx.2
  have hobj := (h.writable.object_reloc path hr).1
  rw [hsec] at hobj
  have hin := h.apart.inside r hr
  rw [secSize_of_getElem? hsec] at hin
  refine ⟨_, hsec, hobj, h.linkable.relocs r hr _ hsec, hin, ?_⟩
  apply List.mem_of_getElem? (i := r.sectionIdx - 1)
  rw [List.getElem?_drop, ← hsec]
  congr 1
  omega

theorem Asm.Accepted.sym_linked {st : Asm} (h : st.Accepted) (i : Nat) :
    (st.sym i).sectionIdx < st.sections.length ∨ (st.sym i).sectionIdx = SHN_ABS ∨
      ((st.sym i).sectionIdx = SHN_COMMON ∧ (st.sym i).binding ≠ STB_LOCAL ∧
        ((st.sym i).value = 0 ∨ (st.sym i).value ∣ 4096)) := by
  have hzero : 0 < st.sections.length := Nat.lt_trans h.sound.cur.1 h.sound.cur.2
  unfold Asm.sym
  rw [List.getD_eq_getElem?_getD]
  cases hsym : st.symbols[i]? with
  | none => exact Or.inl hzero
  | some s =>
    have hmem := List.mem_of_getElem? hsym
    rw [Option.getD_some, Symbol.closed]
    split
    · rcases (h.sound.syms s hmem).sectionIdx with hlt | habs | hcommon
      · exact Or.inl hlt
      · exact Or.inr (Or.inl habs)
      · exact Or.inr (Or.inr ⟨hcommon, h.linkable.commons s hmem hcommon⟩)
    · exact Or.inl hzero

/-- **The object of an accepted source is valid**: the linker's own conditions hold of it. -/
theorem Asm.Accepted.validObj {st : Asm} (h : st.Accepted) (path : List UInt8) : Ld.ValidObj (st.object path) := by
  have hw := h.writable
  have hlen : (st.object path).shdrs.length = 1 + (st.sections.length - 1 + st.relSecs.length + 3) := by
    simp [Asm.object, Asm.tableShdrs]
    omega
  have hpos : 0 < st.sections.length := Nat.lt_trans h.sound.cur.1 h.sound.cur.2
  have hcount := h.linkable.count
  have hsyms : ∀ sym ∈ (st.object path).symtab, sym = noSym ∨ ∃ i, sym = st.elfSym i := by
    intro sym hsym
    rcases List.mem_cons.mp hsym with rfl | hmem
    · exact Or.inl rfl
    · obtain ⟨i, -, rfl⟩ := List.mem_map.mp hmem
      exact Or.inr ⟨i, rfl⟩
  have hrels : ∀ r ∈ Ld.objRels (st.object path), ∃ r' ∈ st.relocs, r'.sectionIdx = r.1 ∧
      r.2 = ⟨r'.offset, st.symOrder.idxOf r'.symIdx + 1, r'.type⟩ :=
    fun r hr => ((mem_objRels h.sound.secs).mp hr).2
  refine ⟨?_, ?_, ?_, ?_, ?_, ?_, ?_, ?_⟩
  · omega
  · intro shdr hshdr htype
    rcases mem_shdrs_object hshdr with ⟨sec, hsec, rfl⟩ | ⟨-, -, hdata⟩
    · have htype' : sec.type ≠ SHT_NOBITS := htype
      have hfull := h.filled.full sec (List.mem_of_mem_drop hsec) htype'
      simp only [Section.shdr, if_pos htype']
      exact hfull
    · exact hdata
  · intro shdr hshdr halloc
    rcases mem_shdrs_object hshdr with ⟨sec, hsec, rfl⟩ | ⟨hflags, -⟩
    · exact (h.linkable.outputs sec hsec).2
    · rw [hflags] at halloc
      exact absurd (Nat.zero_and _) halloc
  · intro shdr hshdr halloc
    rcases mem_shdrs_object hshdr with ⟨sec, hsec, rfl⟩ | ⟨hflags, -⟩
    · have halign := h.linkable.aligns sec (List.mem_of_mem_drop hsec)
      simp only [Section.shdr, Section.shAlign]
      split
      · exact Or.inr (halign.resolve_left ‹_›)
      · exact Or.inr (by decide)
    · rw [hflags] at halloc
      exact absurd (Nat.zero_and _) halloc
  · intro sym hsym hcommon
    rcases hsyms sym hsym with rfl | ⟨i, rfl⟩
    · exact Or.inl rfl
    · have hidx : (st.sym i).sectionIdx = SHN_COMMON := by simpa [Ld.isCommon, Asm.elfSym] using hcommon
      rcases h.sym_linked i with hlt | habs | ⟨-, -, hvalue⟩
      · have hmax := h.sound.sections
        rw [hidx] at hlt
        exact absurd (Nat.lt_of_lt_of_le hlt hmax) (by decide)
      · rw [hidx] at habs
        exact absurd habs (by decide)
      · exact hvalue
  · intro sym hsym
    rcases hsyms sym hsym with rfl | ⟨i, rfl⟩
    · exact Or.inl (by rw [hlen]; show 0 < _; omega)
    · rcases h.sym_linked i with hlt | habs | ⟨hcommon, hbind, -⟩
      · refine Or.inl (Nat.lt_of_lt_of_le hlt ?_)
        omega
      · exact Or.inr (Or.inl habs)
      · exact Or.inr (Or.inr ⟨hcommon, hbind⟩)
  · intro r hr
    obtain ⟨r', hr', hsec, hrel⟩ := hrels r hr
    obtain ⟨sec, -, hobj, htype, hin, -⟩ := h.reloc_section hr' path
    have hidx := (h.sound.rels r' hr').symIdx
    have hmem := List.idxOf_lt_length_of_mem (hw.mem_symOrder hidx.1 hidx.2)
    have hwidth : Ld.relWidth r.2.type = 4 := by
      rw [hrel]
      exact relWidth_four (h.sound.rels r' hr').type
    refine ⟨?_, Or.inl (by rw [hwidth]; decide), sec.shdr, hsec ▸ hobj, htype, ?_⟩
    · rw [hrel]
      simpa [Asm.object] using hmem
    · rw [hwidth, hrel]
      exact hin
  · rw [objRels_object h.sound.secs, List.pairwise_flatMap]
    constructor
    · intro i _
      rw [List.pairwise_map, Asm.relsOf, List.pairwise_map]
      have hpair := (h.apart.apart.filter (·.sectionIdx == i)).imp_of_mem
        (S := fun r r' : Reloc => r.offset + 4 ≤ r'.offset) fun {r r'} hr hr' hlt => by
          have heq := (List.mem_filter.mp hr).2
          have heq' := (List.mem_filter.mp hr').2
          rw [beq_iff_eq] at heq heq'
          exact hlt (heq.trans heq'.symm)
      apply hpair.imp_of_mem
      intro r r' hr hr' hlt _
      have htype := relWidth_four (h.sound.rels r (List.mem_of_mem_filter hr)).type
      dsimp only
      rw [htype]
      exact Or.inl hlt
    · have hnodup : st.relSecs.Nodup := List.Nodup.filter _ List.nodup_range'
      apply hnodup.imp_of_mem
      intro i j _ _ hne r hr r' hr' heq
      obtain ⟨rel, -, rfl⟩ := List.mem_map.mp hr
      obtain ⟨rel', -, rfl⟩ := List.mem_map.mp hr'
      exact absurd heq hne

/-! ### The image -/

/-- The image holds a source: its bytes at their addresses, and in every field that a relocation is for,
    S + A or S + A - P. -/
structure Asm.InImage (st : Asm) (img : Ld.Image) (inp : Ld.Input) : Prop where
  bytes : ∀ i sec, 0 < i → st.sections[i]? = some sec → sec.type = SHT_PROGBITS → ∀ k b, sec.data[k]? = some b →
    (∀ r ∈ st.relocs, r.sectionIdx = i → k < r.offset ∨ r.offset + 4 ≤ k) →
      img.file (img.fileOffset (img.addrOf inp i k)) = b
  fields : ∀ r ∈ st.relocs, ∀ sec, st.sections[r.sectionIdx]? = some sec →
    (le32 img.file (img.fileOffset (img.addrOf inp r.sectionIdx r.offset)) : Int) =
      Ld.relocValue r.type (Ld.symValue img.st inp (st.elfSym r.symIdx)) (img.addrOf inp r.sectionIdx r.offset)
        (le32 (sec.data.getD · 0) r.offset)

theorem secTarget_shdr {st : Asm} (h : st.Linkable) {sec : Section} (hsec : sec ∈ st.sections.drop 1) :
    (Ld.secTarget sec.shdr).isSome := by
  obtain ⟨halloc, i, htarget, -⟩ := h.outputs sec hsec
  have heq : Ld.secTarget sec.shdr = some i := (if_neg halloc).trans htarget
  rw [heq]
  rfl

theorem Asm.Accepted.inImage {st : Asm} (h : st.Accepted) {path : List UInt8} {img : Ld.Image} {inp : Ld.Input}
    (hinp : inp ∈ img.inputs) (hobj : inp.obj = st.object path) (hok : Ld.LayoutOk img) : st.InImage img inp := by
  have hw := h.writable
  constructor
  · intro i sec hi hsec htype k b hb hfree
    obtain ⟨j, rfl⟩ : ∃ j, i = j + 1 := ⟨i - 1, by omega⟩
    have hdrop : (st.sections.drop 1)[j]? = some sec := by
      rw [List.getElem?_drop, Nat.add_comm]
      exact hsec
    have hlen : j < ((st.sections.drop 1).map Section.shdr).length := by
      rw [List.length_map]
      exact (List.getElem?_eq_some_iff.mp hdrop).1
    have hshdr : inp.obj.shdrs[j + 1]? = some sec.shdr := by
      rw [hobj, Asm.object, List.getElem?_cons_succ, List.append_assoc, List.getElem?_append_left hlen,
        List.getElem?_map, hdrop]
      rfl
    have htype' : sec.type ≠ SHT_NOBITS := by rw [htype]; decide
    have hdata : sec.shdr.data[k]? = some b := by
      simp only [Section.shdr, if_pos htype']
      exact hb
    have hfield : ¬Ld.InField inp.obj (j + 1) k := by
      rintro ⟨rel, hrel, hlo, hhi⟩
      rw [hobj, mem_objRels h.sound.secs] at hrel
      obtain ⟨-, r, hr, hidx, rfl⟩ := hrel
      have hapart := hfree r hr hidx
      rw [relWidth_four (h.sound.rels r hr).type] at hhi
      dsimp only at hlo hhi
      omega
    exact (hok.bytes inp hinp (j + 1) sec.shdr hshdr htype
      (secTarget_shdr h.linkable (List.mem_of_getElem? hdrop)) k b hdata hfield).2.2
  · intro r hr sec hsec
    obtain ⟨sec', hsec', hshdr, htype, -, hdrop⟩ := h.reloc_section hr path
    obtain rfl : sec' = sec := Option.some.inj (hsec'.symm.trans hsec)
    obtain ⟨hidx, hsym⟩ := (h.sound.rels r hr).symIdx
    have hmem := hw.mem_symOrder hidx hsym
    have hrelSec : r.sectionIdx ∈ st.relSecs := by
      have hrange := (h.sound.rels r hr).sectionIdx
      refine List.mem_filter.mpr ⟨List.mem_range'_1.mpr (by omega), bne_iff_ne.mpr ?_⟩
      exact List.ne_nil_of_mem (List.mem_filter.mpr ⟨hr, beq_iff_eq.mpr rfl⟩)
    have hrel : (r.sectionIdx, (⟨r.offset, st.symOrder.idxOf r.symIdx + 1, r.type⟩ : ElfRel)) ∈
        Ld.objRels inp.obj := by
      rw [hobj, mem_objRels h.sound.secs]
      exact ⟨hrelSec, r, hr, rfl, rfl⟩
    have hvalue := hok.relocated inp hinp r.sectionIdx sec'.shdr _ (hobj ▸ hshdr)
      (secTarget_shdr h.linkable hdrop) hrel
    have hwidth := relWidth_four (h.sound.rels r hr).type
    have hsymbol : inp.obj.symtab.getD (st.symOrder.idxOf r.symIdx + 1) noSym = st.elfSym r.symIdx := by
      have hlt := List.idxOf_lt_length_of_mem hmem
      rw [hobj]
      simp [Asm.object, List.getD_eq_getElem?_getD, hlt]
    have htype' : sec'.type ≠ SHT_NOBITS := by rw [htype]; decide
    dsimp only at hvalue
    rw [hwidth, Ld.leBytes_four, Ld.leBytes_four, hsymbol] at hvalue
    simp only [Section.shdr, if_pos htype'] at hvalue
    exact hvalue

end Gemios.As
