import Gemios.LdImage
import Gemios.LdResolve

/-!
# When the layout of the image is right

What a linked image has to be: the sections and COMMON symbols are apart, aligned, inside the
segment and below `_kernel_end`, their bytes are in the file, and every relocated field holds its
value.  This is so for exactly the inputs that fit.
-/

namespace Gemios.Ld

/-! ### The pieces of an image -/

/-- An input section or a COMMON symbol in its output section. -/
structure Piece where
  out : Nat
  offset : Nat
  size : Nat
  align : Nat
deriving DecidableEq

def Input.pieces (inp : Input) : List Piece :=
  (inp.obj.shdrs.zip inp.secMap).filterMap fun p =>
    p.2.outSecIdx.map fun out => ⟨out, p.2.outOffset, p.1.size, shAlign p.1⟩

def Image.pieces (img : Image) : List Piece :=
  img.inputs.flatMap Input.pieces ++
    img.st.commons.map fun c => ⟨OUT_SEC_BSS, c.offset, c.size, c.align⟩

def Image.vaddr (img : Image) (p : Piece) : Nat :=
  u32 ((img.st.outs.getD p.out default).vaddr + p.offset)

def Piece.req (p : Piece) : Req × Nat := (⟨p.size, p.align⟩, p.offset)

theorem Input.pieces_filter (inp : Input) (i : Nat) :
    (inp.pieces.filter (·.out == i)).map Piece.req =
      (mappedTo i inp.obj.shdrs inp.secMap).map fun q => (shdrReq q.1, q.2) := by
  simp only [Input.pieces, mappedTo, List.filter_filterMap, List.map_filterMap]
  congr 1
  funext q
  cases q.2.outSecIdx with
  | none => simp
  | some out =>
    by_cases hout : out = i <;> simp [hout, Piece.req, shdrReq]

theorem Laid.pieces_filter {base : Nat} {objs : List ElfObj} {img : Image} (h : Laid base objs img)
    {i : Nat} (hi : i < 5) :
    (img.pieces.filter (·.out == i)).map Piece.req =
      wordPack Req.len Req.align 0 (reqs objs i) := by
  obtain ⟨-, -, hmap⟩ := mapFiles_spec (show i < standardSections.length from hi) objs
  rw [standardSections_zero, ← h.inputs] at hmap
  have hsecs : ((img.inputs.flatMap Input.pieces).filter (·.out == i)).map Piece.req =
      (wordPack ElfShdr.size shAlign 0 (shdrsOf objs i)).map fun q => (shdrReq q.1, q.2) := by
    rw [← hmap, List.filter_flatMap, List.map_flatMap, List.map_flatMap]
    congr 1
    funext inp
    exact inp.pieces_filter i
  rw [Image.pieces, List.filter_append, List.map_append, hsecs, reqs, wordPack_append, wordPack_map,
    wordEnd_map]
  congr 1
  have hall : ∀ p ∈ img.st.commons.map fun c => (⟨OUT_SEC_BSS, c.offset, c.size, c.align⟩ : Piece),
      p.out = OUT_SEC_BSS := by
    intro p hp
    obtain ⟨c, -, rfl⟩ := List.mem_map.mp hp
    rfl
  by_cases hbss : i = OUT_SEC_BSS
  · subst hbss
    rw [if_pos rfl, wordPack_map, List.filter_eq_self.mpr fun p hp => by simp [hall p hp], h.commons,
      List.map_map, List.map_map]
    rfl
  · rw [if_neg hbss, List.filter_eq_nil_iff.mpr fun p hp => by simp [hall p hp, Ne.symm hbss]]
    rfl

/-! ### What is asked of the image -/

/-- The relocations of a file with the index of the section they are for. -/
def objRels (obj : ElfObj) : List (Nat × ElfRel) :=
  obj.shdrs.flatMap fun shdr =>
    if shdr.type = SHT_REL then shdr.rels.map fun rel => (shdr.info, rel) else []

/-- Byte `k` of section `s` is in a field that is relocated. -/
def InField (obj : ElfObj) (s k : Nat) : Prop :=
  ∃ rel, (s, rel) ∈ objRels obj ∧ rel.offset ≤ k ∧ k < rel.offset + relWidth rel.type

/-- A valid object: it fits the tables, every section that is not NOBITS has its bytes, the
    allocatable sections have names, types and alignments of the output sections, and the
    relocations are for separate fields inside sections with contents. -/
structure ValidObj (obj : ElfObj) : Prop where
  sections : obj.shdrs.length ≤ MAX_SECTIONS_PER_FILE
  data : ∀ shdr ∈ obj.shdrs, shdr.type ≠ SHT_NOBITS → shdr.data.length = shdr.size
  types : ∀ shdr ∈ obj.shdrs, shdr.flags &&& SHF_ALLOC ≠ 0 →
    ∃ i, targetIdx shdr.name = some i ∧ shdr.type = outType i
  aligns : ∀ shdr ∈ obj.shdrs, shdr.flags &&& SHF_ALLOC ≠ 0 →
    shdr.addralign = 0 ∨ shdr.addralign ∣ 4096
  commons : ∀ sym ∈ obj.symtab, isCommon sym → sym.value = 0 ∨ sym.value ∣ 4096
  syms : ∀ sym ∈ obj.symtab, sym.shndx < obj.shdrs.length ∨ sym.shndx = SHN_ABS ∨
    (sym.shndx = SHN_COMMON ∧ sym.bind ≠ STB_LOCAL)
  rels : ∀ r ∈ objRels obj, r.2.sym < obj.symtab.length ∧
    (relWidth r.2.type ≠ 0 ∨ r.2.type = R_386_NONE) ∧
    ∃ shdr, obj.shdrs[r.1]? = some shdr ∧ shdr.type = SHT_PROGBITS ∧
      r.2.offset + relWidth r.2.type ≤ shdr.size
  fields : (objRels obj).Pairwise fun r r' => r.1 = r'.1 →
    r.2.offset + relWidth r.2.type ≤ r'.2.offset ∨ r'.2.offset + relWidth r'.2.type ≤ r.2.offset

/-- The place in the file of the byte at an address. -/
def Image.fileOffset (img : Image) (v : Nat) : Nat := 0x1000 + (v - img.imageBase)

/-- The address of byte `k` of section `s` of a file. -/
def Image.addrOf (img : Image) (inp : Input) (s k : Nat) : Nat := (inp.map s).vaddr img.st.outs + k

/-- **The layout is right.** -/
structure LayoutOk (img : Image) : Prop where
  bytes : ∀ inp ∈ img.inputs, ∀ s shdr, inp.obj.shdrs[s]? = some shdr → shdr.type = SHT_PROGBITS →
    (secTarget shdr).isSome → ∀ k b, shdr.data[k]? = some b → ¬InField inp.obj s k →
      img.imageBase ≤ img.addrOf inp s k ∧
      img.addrOf inp s k < img.imageBase + img.totalFilesz ∧
      img.file (img.fileOffset (img.addrOf inp s k)) = b
  apart : img.pieces.Pairwise fun p q =>
    img.vaddr p + p.size ≤ img.vaddr q ∨ img.vaddr q + q.size ≤ img.vaddr p
  aligned : ∀ p ∈ img.pieces, p.align ∣ img.vaddr p
  relocated : ∀ inp ∈ img.inputs, ∀ s shdr rel, inp.obj.shdrs[s]? = some shdr →
    (secTarget shdr).isSome → (s, rel) ∈ objRels inp.obj →
      (leBytes img.file (img.fileOffset (img.addrOf inp s rel.offset)) (relWidth rel.type) : Int) =
        relocValue rel.type (symValue img.st inp (inp.obj.symtab.getD rel.sym noSym))
          (img.addrOf inp s rel.offset) (leBytes (shdr.data.getD · 0) rel.offset (relWidth rel.type))
  covered : ∀ p ∈ img.pieces, 0 < p.size → img.imageBase ≤ img.vaddr p ∧
    img.vaddr p + p.size ≤ img.imageBase + img.totalMemsz
  kernelEnd : ∀ p ∈ img.pieces, 0 < p.size →
    img.vaddr p + p.size ≤ valueOf img.st.globals (str "_kernel_end")

def reqSize (objs : List ElfObj) (i : Nat) : Nat := packEnd Req.len Req.align 0 (reqs objs i)

def imageEnd (base : Nat) (objs : List ElfObj) : Nat := packEnd (reqSize objs) outAlign base outIdxs

/-- The layout fits: the image base suits the alignments of `.multiboot`, and the image ends
    below the last 4096 bytes of the address space, unless it has no byte. -/
structure LayoutFits (base : Nat) (objs : List ElfObj) : Prop where
  multiboot : ∀ r ∈ reqs objs OUT_SEC_MULTIBOOT, r.align ∣ ceilTo base 4
  room : (∀ i < 5, ∀ r ∈ reqs objs i, r.len = 0) ∨ imageEnd base objs ≤ 4294963200

/-- The inputs fit: the layout does, and so do the names of the global symbols. -/
structure Fits (base : Nat) (objs : List ElfObj) : Prop extends LayoutFits base objs where
  names : StrtabFits objs

/-! ### Valid requests -/

section

variable {base : Nat} {objs : List ElfObj} {img : Image}

theorem mem_shdrsOf {shdr : ElfShdr} {i : Nat} (h : shdr ∈ shdrsOf objs i) :
    ∃ obj ∈ objs, shdr ∈ obj.shdrs ∧ secTarget shdr = some i := by
  obtain ⟨hmem, htarget⟩ := List.mem_filter.mp h
  obtain ⟨obj, hobj, hshdr⟩ := List.mem_flatMap.mp hmem
  exact ⟨obj, hobj, hshdr, by simpa using htarget⟩

theorem alloc_of_target {shdr : ElfShdr} (h : (secTarget shdr).isSome) :
    shdr.flags &&& SHF_ALLOC ≠ 0 := by
  intro hzero
  simp [secTarget, hzero] at h

theorem shAlign_dvd (hvalid : ∀ obj ∈ objs, ValidObj obj) {shdr : ElfShdr} {i : Nat}
    (h : shdr ∈ shdrsOf objs i) : shAlign shdr ∣ 4096 := by
  obtain ⟨obj, hobj, hshdr, htarget⟩ := mem_shdrsOf h
  have halloc := alloc_of_target (show (secTarget shdr).isSome by rw [htarget]; rfl)
  unfold shAlign
  split
  · exact ((hvalid obj hobj).aligns shdr hshdr halloc).resolve_left ‹_›
  · decide

theorem commonAlign_dvd (hvalid : ∀ obj ∈ objs, ValidObj obj) {sym : ElfSym}
    (h : sym ∈ commonSyms objs) : commonAlign sym ∣ 4096 := by
  obtain ⟨hmem, hcommon⟩ := List.mem_filter.mp h
  obtain ⟨obj, hobj, hsym⟩ := List.mem_flatMap.mp hmem
  unfold commonAlign
  split
  · exact ((hvalid obj hobj).commons sym hsym hcommon).resolve_left ‹_›
  · decide

theorem reqs_dvd (hvalid : ∀ obj ∈ objs, ValidObj obj) (i : Nat) :
    ∀ r ∈ reqs objs i, r.align ∣ 4096 := by
  intro r hr
  rcases List.mem_append.mp hr with hr | hr
  · obtain ⟨shdr, hshdr, rfl⟩ := List.mem_map.mp hr
    exact shAlign_dvd hvalid hshdr
  · split at hr
    · obtain ⟨sym, hsym, rfl⟩ := List.mem_map.mp hr
      exact commonAlign_dvd hvalid hsym
    · contradiction

theorem outAlign_dvd {i : Nat} (hi : i < 5) : outAlign i ∣ 4096 := by
  have : ∀ j : Fin 5, outAlign j ∣ 4096 := by decide
  exact this ⟨i, hi⟩

theorem outAlign_of_pos {i : Nat} (hi : i < 5) (hpos : i ≠ OUT_SEC_MULTIBOOT) : outAlign i = 4096 := by
  have : ∀ j : Fin 5, (j : Nat) ≠ OUT_SEC_MULTIBOOT → outAlign j = 4096 := by decide
  exact this ⟨i, hi⟩ hpos

/-! ### Pieces and requests -/

theorem Input.pieces_out {inp : Input} (hok : inp.Ok) {p : Piece} (hp : p ∈ inp.pieces) : p.out < 5 := by
  obtain ⟨⟨shdr, m⟩, hmem, hp⟩ := List.mem_filterMap.mp hp
  obtain ⟨out, hout, rfl⟩ := Option.map_eq_some_iff.mp hp
  have hin : m.outSecIdx ∈ inp.secMap.map (·.outSecIdx) :=
    List.mem_map_of_mem (List.of_mem_zip hmem).2
  rw [hok, List.mem_map] at hin
  obtain ⟨shdr', -, htarget⟩ := hin
  exact secTarget_lt (htarget.trans hout)

theorem Laid.out_lt (h : Laid base objs img) {p : Piece} (hp : p ∈ img.pieces) : p.out < 5 := by
  rcases List.mem_append.mp hp with hp | hp
  · obtain ⟨inp, hinp, hp⟩ := List.mem_flatMap.mp hp
    rw [h.inputs] at hinp
    exact Input.pieces_out (mapFiles_ok _ _ inp hinp) hp
  · obtain ⟨c, -, rfl⟩ := List.mem_map.mp hp
    exact show OUT_SEC_BSS < 5 by decide

theorem Laid.mem_pieces (h : Laid base objs img) {p : Piece} (hp : p ∈ img.pieces) :
    p.req ∈ wordPack Req.len Req.align 0 (reqs objs p.out) := by
  rw [← h.pieces_filter (h.out_lt hp)]
  exact List.mem_map_of_mem (List.mem_filter.mpr ⟨hp, by simp⟩)

theorem Laid.exists_piece (h : Laid base objs img) {i : Nat} (hi : i < 5) {q : Req × Nat}
    (hq : q ∈ wordPack Req.len Req.align 0 (reqs objs i)) :
    ∃ p ∈ img.pieces, p.out = i ∧ p.req = q := by
  rw [← h.pieces_filter hi] at hq
  obtain ⟨p, hp, hpq⟩ := List.mem_map.mp hq
  obtain ⟨hmem, hout⟩ := List.mem_filter.mp hp
  exact ⟨p, hmem, by simpa using hout, hpq⟩

theorem Laid.exists_piece_of_req (h : Laid base objs img) {i : Nat} (hi : i < 5) {r : Req}
    (hr : r ∈ reqs objs i) : ∃ p ∈ img.pieces, p.out = i ∧ p.req.1 = r := by
  have hr' : r ∈ (wordPack Req.len Req.align 0 (reqs objs i)).map Prod.fst := by
    rwa [wordPack_fst]
  obtain ⟨q, hq, rfl⟩ := List.mem_map.mp hr'
  obtain ⟨p, hp, hout, hpq⟩ := h.exists_piece hi hq
  exact ⟨p, hp, hout, congrArg Prod.fst hpq⟩

/-! ### Alignment -/

theorem vaddr_multiboot {base v : Nat} {size : Nat → Nat}
    (h : (OUT_SEC_MULTIBOOT, v) ∈ wordPack size outAlign base outIdxs) : v = alignUp base 4 := by
  rcases List.mem_cons.mp h with heq | hrest
  · exact (Prod.ext_iff.mp heq).2
  · exact absurd (show OUT_SEC_MULTIBOOT ∈ _ from mem_of_wordPack hrest) (by decide)

theorem Laid.aligned_iff (h : Laid base objs img) (hvalid : ∀ obj ∈ objs, ValidObj obj)
    (hbase : base < 4294967296) :
    (∀ p ∈ img.pieces, p.align ∣ img.vaddr p) ↔
      ∀ r ∈ reqs objs OUT_SEC_MULTIBOOT, r.align ∣ ceilTo base 4 := by
  -- a piece is aligned in memory if its output section is, for its alignment
  have hpiece : ∀ p ∈ img.pieces, p.align ∣ 4096 ∧ (p.align ∣ img.vaddr p ↔
      p.align ∣ (img.st.outs.getD p.out default).vaddr) := by
    intro p hp
    have hmem := h.mem_pieces hp
    have hdvd : p.align ∣ 4096 := reqs_dvd hvalid _ _ (mem_of_wordPack hmem)
    have hoff : p.align ∣ p.offset := wordPack_dvd (reqs_dvd hvalid _) hmem
    refine ⟨hdvd, ?_⟩
    rw [Image.vaddr, dvd_u32 hdvd]
    exact (Nat.dvd_add_iff_left hoff).symm
  obtain ⟨v, hv⟩ := exists_vaddr base objs (show OUT_SEC_MULTIBOOT < 5 by decide)
  have hfirst : (img.st.outs.getD OUT_SEC_MULTIBOOT default).vaddr = u32 (ceilTo base 4) := by
    rw [← alignUp_eq_u32 (by decide) hbase, ← vaddr_multiboot hv]
    exact h.vaddrs _ hv
  refine ⟨fun hall r hr => ?_, fun hall p hp => ?_⟩
  · obtain ⟨p, hp, hout, rfl⟩ := h.exists_piece_of_req (by decide) hr
    obtain ⟨hdvd, hiff⟩ := hpiece p hp
    have := hiff.mp (hall p hp)
    rw [hout, hfirst, dvd_u32 hdvd] at this
    exact this
  · obtain ⟨hdvd, hiff⟩ := hpiece p hp
    rw [hiff]
    by_cases hout : p.out = OUT_SEC_MULTIBOOT
    · rw [hout, hfirst, dvd_u32 hdvd]
      have hmem := mem_of_wordPack (h.mem_pieces hp)
      rw [hout] at hmem
      exact hall _ hmem
    · have hlt := h.out_lt hp
      obtain ⟨v, hv⟩ := exists_vaddr base objs hlt
      have hmul : outAlign p.out ∣ v :=
        wordPack_dvd (fun i hi => outAlign_dvd (mem_outIdxs.mp hi)) hv
      rw [outAlign_of_pos hlt hout] at hmul
      rw [h.vaddrs _ hv]
      exact hdvd.trans hmul

/-! ### Room -/

theorem image_cases (hvalid : ∀ obj ∈ objs, ValidObj obj)
    (hmulti : ∀ r ∈ reqs objs OUT_SEC_MULTIBOOT, r.align ∣ ceilTo base 4)
    (hbase : base ≤ 4294963200) :
    (imageEnd base objs ≤ 4294963200 ∧
      wordPack (wordSize objs) outAlign base outIdxs = pack (reqSize objs) outAlign base outIdxs ∧
      ∀ i < 5, wordPack Req.len Req.align 0 (reqs objs i) = pack Req.len Req.align 0 (reqs objs i) ∧
        wordSize objs i = reqSize objs i) ∨
    (4294963200 < imageEnd base objs ∧
      ∃ p ∈ wordPack (wordSize objs) outAlign base outIdxs,
        ∃ q ∈ wordPack Req.len Req.align 0 (reqs objs p.1),
          p.2 + q.2 ≤ 4294963200 ∧ 4294963200 < p.2 + q.2 + q.1.len) := by
  have hgroups : ∀ p ∈ pack (reqSize objs) outAlign base outIdxs,
      ∀ r ∈ reqs objs p.1, r.align ∣ p.2 := by
    intro p hp r hr
    rcases List.mem_cons.mp hp with rfl | hrest
    · exact hmulti r hr
    · have hout : p.1 ∈ outIdxs.tail := mem_of_pack hrest
      have hlt := mem_outIdxs.mp (List.mem_of_mem_tail hout)
      have hpos : p.1 ≠ OUT_SEC_MULTIBOOT := by
        intro heq
        rw [heq] at hout
        exact absurd hout (by decide)
      have hmul := pack_dvd hp
      rw [outAlign_of_pos hlt hpos] at hmul
      exact (reqs_dvd hvalid _ r hr).trans hmul
  rcases wordGroups_cases (fun i hi => outAlign_dvd (mem_outIdxs.mp hi))
    (fun i _ => reqs_dvd hvalid i) hgroups hbase with ⟨hend, hpack, -, heach⟩ | hover
  · exact .inl ⟨hend, hpack, fun i hi => heach i (mem_outIdxs.mpr hi)⟩
  · exact .inr hover

theorem LayoutOk.fits (hok : LayoutOk img) (h : Laid base objs img)
    (hvalid : ∀ obj ∈ objs, ValidObj obj) (hbase : base < 4294967296) : LayoutFits base objs := by
  have hmulti := (h.aligned_iff hvalid hbase).mp hok.aligned
  refine ⟨hmulti, ?_⟩
  by_contra hroom
  rw [not_or, Nat.not_le] at hroom
  obtain ⟨hsome, hover⟩ := hroom
  -- `_kernel_end` is a multiple of 4096 below the end of the address space
  have hend : valueOf img.st.globals (str "_kernel_end") ≤ 4294963200 := by
    have hlt : alignUp (u32 (img.st.bss.vaddr + img.st.bss.size)) 4096 < 4294967296 :=
      Nat.lt_of_le_of_lt Nat.and_le_left (Nat.mod_lt _ (by decide))
    obtain ⟨n, hn⟩ := dvd_alignUp (Nat.dvd_refl 4096) (u32 (img.st.bss.vaddr + img.st.bss.size))
    rw [h.kernelEnd]
    omega
  by_cases hlow : base ≤ 4294963200
  · rcases image_cases hvalid hmulti hlow with ⟨hle, -⟩ | ⟨-, p, hp, q, hq, hle, hlt⟩
    · omega
    · obtain ⟨pc, hpc, hout, rfl⟩ := h.exists_piece (mem_outIdxs.mp (mem_of_wordPack hp)) hq
      have hv : img.vaddr pc = p.2 + pc.offset := by
        rw [Image.vaddr, hout, h.vaddrs p hp]
        exact u32_of_lt (Nat.lt_of_le_of_lt hle (by decide))
      have := hok.kernelEnd pc hpc (by simp only [Piece.req] at hle hlt; omega)
      simp only [Piece.req] at hlt
      omega
  · -- nothing can be above the image base and below `_kernel_end`
    simp only [not_forall] at hsome
    obtain ⟨i, hi, r, hr, hlen⟩ := hsome
    obtain ⟨pc, hpc, -, rfl⟩ := h.exists_piece_of_req hi hr
    have hpos : 0 < pc.size := Nat.pos_of_ne_zero hlen
    have h1 := (hok.covered pc hpc hpos).1
    have h2 := hok.kernelEnd pc hpc hpos
    rw [h.imageBase] at h1
    omega

/-! ### A layout with room -/

/-- Two pieces do not share bytes of an output section. -/
def Piece.Apart (p q : Piece) : Prop :=
  p.out = q.out → p.offset + p.size ≤ q.offset ∨ q.offset + q.size ≤ p.offset

theorem pairwise_of_key {α : Type} {R : α → α → Prop} (key : α → Nat) {l : List α}
    (hsame : ∀ i, (l.filter (key · == i)).Pairwise R)
    (hdiff : ∀ a ∈ l, ∀ b ∈ l, key a ≠ key b → R a b) : l.Pairwise R := by
  induction l with
  | nil => exact .nil
  | cons a l ih =>
    refine .cons (fun b hb => ?_) (ih (fun i => ?_) fun a' ha' b' hb' =>
      hdiff a' (List.mem_cons_of_mem _ ha') b' (List.mem_cons_of_mem _ hb'))
    · by_cases hkey : key a = key b
      · have hpair := hsame (key b)
        rw [List.filter_cons_of_pos (by simpa using hkey)] at hpair
        exact (List.pairwise_cons.mp hpair).1 b (List.mem_filter.mpr ⟨hb, by simp⟩)
      · exact hdiff a (List.mem_cons_self ..) b (List.mem_cons_of_mem _ hb) hkey
    · refine (hsame i).sublist ?_
      exact (List.sublist_cons_self a l).filter _

/-- The layout of an image that does not wrap. -/
structure Roomy (base : Nat) (objs : List ElfObj) (img : Image) : Prop where
  low : ∀ i < 5, base ≤ (img.st.outs.getD i default).vaddr
  order : ∀ i j, i < j → j < 5 → (img.st.outs.getD i default).vaddr +
    (img.st.outs.getD i default).size ≤ (img.st.outs.getD j default).vaddr
  high : img.st.bss.vaddr + img.st.bss.size ≤ 4294963200
  inside : ∀ p ∈ img.pieces, p.offset + p.size ≤ (img.st.outs.getD p.out default).size
  apart : img.pieces.Pairwise Piece.Apart
  packed : ∀ i < 5, wordPack Req.len Req.align 0 (reqs objs i) = pack Req.len Req.align 0 (reqs objs i)
  sizes : ∀ i < 5, (img.st.outs.getD i default).size = reqSize objs i

theorem Laid.roomy (h : Laid base objs img) (hvalid : ∀ obj ∈ objs, ValidObj obj)
    (hmulti : ∀ r ∈ reqs objs OUT_SEC_MULTIBOOT, r.align ∣ ceilTo base 4)
    (hend : imageEnd base objs ≤ 4294963200) : Roomy base objs img := by
  have hpos : ∀ i ∈ outIdxs, 0 < outAlign i := fun i hi => pos_of_dvd (outAlign_dvd (mem_outIdxs.mp hi))
  have hreqpos : ∀ i, ∀ r ∈ reqs objs i, 0 < r.align := fun i r hr => pos_of_dvd (reqs_dvd hvalid i r hr)
  have hbase : base ≤ 4294963200 := (le_packEnd hpos base).trans hend
  rcases image_cases hvalid hmulti hbase with ⟨-, hgroups, hpacks⟩ | ⟨hover, -⟩
  swap
  · omega
  have hvaddr : ∀ i < 5, (i, (img.st.outs.getD i default).vaddr) ∈
      pack (reqSize objs) outAlign base outIdxs := by
    intro i hi
    obtain ⟨v, hv⟩ := exists_vaddr base objs hi
    rw [h.vaddrs _ hv, ← hgroups]
    exact hv
  have hsizes : ∀ i < 5, (img.st.outs.getD i default).size = reqSize objs i :=
    fun i hi => (h.sizes i hi).trans (hpacks i hi).2
  have hinside : ∀ p ∈ img.pieces, p.offset + p.size ≤ (img.st.outs.getD p.out default).size := by
    intro p hp
    have hmem := h.mem_pieces hp
    rw [(hpacks p.out (h.out_lt hp)).1] at hmem
    rw [hsizes _ (h.out_lt hp)]
    exact (pack_bounds (hreqpos p.out) hmem).2
  refine ⟨fun i hi => (pack_bounds hpos (hvaddr i hi)).1, fun i j hij hj => ?_, ?_, hinside, ?_,
    fun i hi => (hpacks i hi).1, hsizes⟩
  · have hpair : (pack (reqSize objs) outAlign base outIdxs).Pairwise
        fun p q => p.2 + reqSize objs p.1 ≤ q.2 := pack_pairwise hpos base
    have hlt : (pack (reqSize objs) outAlign base outIdxs).Pairwise fun p q => p.1 < q.1 := by
      refine List.pairwise_map.mp ?_
      rw [pack_fst]
      decide
    -- the sections with larger numbers come later
    have hup : (pack (reqSize objs) outAlign base outIdxs).Pairwise
        fun p q => p.1 < q.1 → p.2 + reqSize objs p.1 ≤ q.2 := by
      refine hpair.imp ?_
      intro p q hle _
      exact hle
    have hdown : (pack (reqSize objs) outAlign base outIdxs).Pairwise
        (flip fun p q => p.1 < q.1 → p.2 + reqSize objs p.1 ≤ q.2) := by
      refine hlt.imp ?_
      intro p q hpq hqp
      exact absurd hqp (Nat.lt_asymm hpq)
    have hall := hup.forall_of_forall_of_flip (fun p _ hlt => absurd hlt (Nat.lt_irrefl _)) hdown
    rw [hsizes i (by omega)]
    exact hall (hvaddr i (by omega)) (hvaddr j hj) hij
  · have := (pack_bounds hpos (hvaddr OUT_SEC_BSS (by decide))).2
    rw [Tables.bss, hsizes OUT_SEC_BSS (by decide)]
    exact this.trans hend
  · refine pairwise_of_key Piece.out (fun i => ?_) fun p _ q _ hne heq => absurd heq hne
    by_cases hi : i < 5
    · have hpair : (pack Req.len Req.align 0 (reqs objs i)).Pairwise
          fun p q => p.2 + p.1.len ≤ q.2 := pack_pairwise (hreqpos i) 0
      rw [← (hpacks i hi).1, ← h.pieces_filter hi, List.pairwise_map] at hpair
      exact hpair.imp fun hpq _ => .inl hpq
    · rw [List.filter_eq_nil_iff.mpr]
      · exact .nil
      · intro p hp
        have := h.out_lt hp
        simp only [beq_iff_eq]
        omega

end

end Gemios.Ld
