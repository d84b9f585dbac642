import Mathlib.Data.List.GetD
import Mathlib.Data.List.Pairwise
import Gemios.LdLayout

/-!
# The output file

The bytes of an image with room, in memory and in the file.
-/

namespace Gemios.Ld

variable {base : Nat} {objs : List ElfObj} {img : Image}

/-! ### The segment -/

theorem Roomy.end_le (hr : Roomy base objs img) {i : Nat} (hi : i < 5) :
    (img.st.outs.getD i default).vaddr + (img.st.outs.getD i default).size ≤
      img.st.bss.vaddr + img.st.bss.size := by
  rcases Nat.lt_or_eq_of_le (Nat.le_of_lt_succ hi) with hlt | rfl
  · exact (hr.order i OUT_SEC_BSS hlt (by decide)).trans (Nat.le_add_right _ _)
  · exact Nat.le_refl _

theorem Roomy.vaddr_eq (hr : Roomy base objs img) (h : Laid base objs img) {p : Piece}
    (hp : p ∈ img.pieces) : img.vaddr p = (img.st.outs.getD p.out default).vaddr + p.offset := by
  have hin := hr.inside p hp
  have hend := hr.end_le (h.out_lt hp)
  have hhigh := hr.high
  exact u32_of_lt (by omega)

theorem Roomy.totalMemsz (hr : Roomy base objs img) (h : Laid base objs img) :
    img.imageBase + img.totalMemsz = img.st.bss.vaddr + img.st.bss.size := by
  obtain ⟨a, b, c, d, e, hfive⟩ := exists_five h.length
  have hbss : img.st.bss = e := by rw [Tables.bss, hfive]; rfl
  have hlow := hr.low OUT_SEC_BSS (by decide)
  have hhigh := hr.high
  rw [← Tables.bss] at hlow
  rw [hbss] at hlow hhigh ⊢
  have htotal : img.totalMemsz = u32 (e.vaddr + e.size + (4294967296 - img.imageBase)) := by
    rw [Image.totalMemsz, hfive]
    rfl
  rw [htotal, h.imageBase, u32]
  omega

theorem Roomy.totalFilesz (hr : Roomy base objs img) (h : Laid base objs img) :
    img.imageBase + img.totalFilesz = (img.st.outs.getD OUT_SEC_DATA default).vaddr +
      (img.st.outs.getD OUT_SEC_DATA default).size := by
  have hlow := hr.low OUT_SEC_DATA (by decide)
  have hhigh := (hr.end_le (show OUT_SEC_DATA < 5 by decide)).trans hr.high
  have hd := h.types OUT_SEC_DATA (by decide)
  have he := h.types OUT_SEC_BSS (by decide)
  obtain ⟨a, b, c, d, e, hfive⟩ := exists_five h.length
  rw [hfive] at hlow hhigh hd he ⊢
  have hdtype : d.type ≠ SHT_NOBITS := by
    rw [show d.type = outType OUT_SEC_DATA from hd]
    decide
  have hetype : ¬e.type ≠ SHT_NOBITS := by
    rw [show e.type = outType OUT_SEC_BSS from he]
    decide
  have htotal : img.totalFilesz = u32 (d.vaddr + d.size + (4294967296 - img.imageBase)) := by
    rw [Image.totalFilesz, hfive]
    simp only [List.foldl_cons, List.foldl_nil, if_pos hdtype, if_neg hetype]
  change base ≤ d.vaddr at hlow
  change d.vaddr + d.size ≤ _ at hhigh
  change _ = d.vaddr + d.size
  rw [htotal, h.imageBase, u32]
  omega

/-! ### The file -/

theorem outType_of_lt {i : Nat} (hi : i < 4) : outType i ≠ SHT_NOBITS := by
  have : ∀ j : Fin 4, outType j ≠ SHT_NOBITS := by decide
  exact this ⟨i, hi⟩

/-- Byte `x` of the file is one of the section. -/
def Image.Covers (img : Image) (sec : OutSec) (x : Nat) : Prop :=
  sec.type ≠ SHT_NOBITS ∧ img.offset sec ≤ x ∧ x < img.offset sec + sec.size

theorem file_eq {x : Nat} {b : UInt8} {sec : OutSec} (hsec : sec ∈ img.st.outs)
    (hcovers : img.Covers sec x)
    (hall : ∀ sec ∈ img.st.outs, img.Covers sec x → sec.data (x - img.offset sec) = b) :
    img.file x = b := by
  have hfold : ∀ (l : List OutSec) (file : Buf),
      (∀ sec ∈ l, img.Covers sec x → sec.data (x - img.offset sec) = b) →
      ((∃ sec ∈ l, img.Covers sec x) ∨ file x = b) →
      l.foldl (fun file sec i => if sec.type ≠ SHT_NOBITS ∧ img.offset sec ≤ i ∧
        i < img.offset sec + sec.size then sec.data (i - img.offset sec) else file i) file x = b := by
    intro l
    induction l with
    | nil =>
      rintro file - (⟨sec, hmem, -⟩ | hfile)
      · contradiction
      · exact hfile
    | cons sec l ih =>
      intro file hall hor
      rw [List.forall_mem_cons] at hall
      refine ih _ hall.2 ?_
      by_cases hc : img.Covers sec x
      · exact .inr ((if_pos hc).trans (hall.1 hc))
      · rcases hor with ⟨sec', hmem, hc'⟩ | hfile
        · rcases List.mem_cons.mp hmem with rfl | hmem
          · exact absurd hc' hc
          · exact .inl ⟨sec', hmem, hc'⟩
        · exact .inr ((if_neg hc).trans hfile)
  exact hfold img.st.outs _ hall (.inl ⟨sec, hsec, hcovers⟩)

theorem Roomy.offset_eq (hr : Roomy base objs img) (h : Laid base objs img) {i : Nat} (hi : i < 5)
    (hpos : 0 < (img.st.outs.getD i default).size) :
    img.offset (img.st.outs.getD i default) =
      0x1000 + ((img.st.outs.getD i default).vaddr - img.imageBase) := by
  have hlow := hr.low i hi
  have hhigh := (hr.end_le hi).trans hr.high
  rw [Image.offset, h.imageBase, u32]
  omega

theorem Roomy.file_at (hr : Roomy base objs img) (h : Laid base objs img) {i o : Nat} (hi : i < 4)
    (ho : o < (img.st.outs.getD i default).size) :
    img.file (img.fileOffset ((img.st.outs.getD i default).vaddr + o)) = img.st.data i o := by
  have hlen := h.length
  have hmem : img.st.outs.getD i default ∈ img.st.outs := by
    rw [List.getD_eq_getElem _ _ (by omega)]
    exact List.getElem_mem _
  have htype : (img.st.outs.getD i default).type ≠ SHT_NOBITS := by
    rw [h.types i (by omega)]
    exact outType_of_lt hi
  have hoff := hr.offset_eq h (show i < 5 by omega) (by omega)
  have hlow := hr.low i (by omega)
  rw [← h.imageBase] at hlow
  refine file_eq hmem ⟨htype, ?_, ?_⟩ ?_
  · rw [hoff, Image.fileOffset]
    omega
  · rw [hoff, Image.fileOffset]
    omega
  · intro sec hsec hcovers
    obtain ⟨j, hj, rfl⟩ := List.mem_iff_getElem.mp hsec
    rw [← List.getD_eq_getElem _ default hj] at hcovers ⊢
    obtain ⟨-, hge, hlt⟩ := hcovers
    have hlow' := hr.low j (by omega)
    rw [← h.imageBase] at hlow'
    have hoff' := hr.offset_eq h (show j < 5 by omega) (by omega)
    rw [hoff', Image.fileOffset] at hge hlt ⊢
    -- the sections are apart in memory, so it is the same section
    rcases Nat.lt_trichotomy j i with hji | rfl | hij
    · have := hr.order j i hji (by omega)
      omega
    · rw [Tables.data]
      congr 1
      omega
    · have := hr.order i j hij (by omega)
      omega

/-! ### The bytes of a section -/

theorem Laid.section_piece (h : Laid base objs img) {inp : Input} (hinp : inp ∈ img.inputs) {s : Nat}
    {shdr : ElfShdr} (hs : inp.obj.shdrs[s]? = some shdr) {i : Nat} (htarget : secTarget shdr = some i) :
    (inp.map s).outSecIdx = some i ∧ inp.secMap[s]? = some (inp.map s) ∧
      (shdr, (inp.map s).outOffset) ∈ wordPack ElfShdr.size shAlign 0 (shdrsOf objs i) ∧
      ⟨i, (inp.map s).outOffset, shdr.size, shAlign shdr⟩ ∈ inp.pieces := by
  rw [h.inputs] at hinp
  have hok := mapFiles_ok _ _ inp hinp
  have hout : (inp.map s).outSecIdx = some i := by
    rw [hok.map, List.getD_eq_getElem?_getD, hs]
    exact htarget
  have hm : inp.secMap[s]? = some (inp.map s) := by
    rw [Input.map, List.getD_eq_getElem?_getD]
    cases hsm : inp.secMap[s]? with
    | some m => rfl
    | none =>
      rw [Input.map, List.getD_eq_getElem?_getD, hsm] at hout
      contradiction
  have hzip : (shdr, inp.map s) ∈ inp.obj.shdrs.zip inp.secMap :=
    List.mem_of_getElem? (List.getElem?_zip_eq_some.mpr ⟨hs, hm⟩)
  refine ⟨hout, hm, ?_, List.mem_filterMap.mpr ⟨_, hzip, by simp [hout]⟩⟩
  obtain ⟨-, -, hmap⟩ := mapFiles_spec (show i < standardSections.length from secTarget_lt htarget) objs
  rw [standardSections_zero] at hmap
  rw [← hmap]
  exact List.mem_flatMap.mpr ⟨inp, hinp, List.mem_filterMap.mpr ⟨_, hzip, by simp [hout]⟩⟩

theorem Roomy.section_data (hr : Roomy base objs img) (h : Laid base objs img)
    (hvalid : ∀ obj ∈ objs, ValidObj obj) {inp : Input} (hinp : inp ∈ img.inputs) {s : Nat}
    {shdr : ElfShdr} (hs : inp.obj.shdrs[s]? = some shdr) {i : Nat} (hi : i < 4)
    (htarget : secTarget shdr = some i) {k : Nat} (hk : k < shdr.size) :
    ((mapFiles standardSections objs).1.getD i default).data ((inp.map s).outOffset + k) =
      (srcOf shdr).getD k 0 := by
  obtain ⟨-, hout, -⟩ := mapFiles_spec (show i < standardSections.length from secTarget_lt htarget) objs
  have hdvd : ∀ shdr ∈ shdrsOf objs i, shAlign shdr ∣ 4096 := fun shdr => shAlign_dvd hvalid
  have htype : (standardSections.getD i default).type ≠ SHT_NOBITS := outType_of_lt hi
  have hend : packEnd ElfShdr.size shAlign 0 (shdrsOf objs i) ≤ 4294963200 := by
    have hsize := hr.sizes i (by omega)
    have hhigh := (hr.end_le (show i < 5 by omega)).trans hr.high
    rw [reqSize, reqs, if_neg (show i ≠ OUT_SEC_BSS from Nat.ne_of_lt hi), List.append_nil,
      packEnd_map] at hsize
    change _ = packEnd ElfShdr.size shAlign 0 (shdrsOf objs i) at hsize
    omega
  have hpack : wordPack ElfShdr.size shAlign 0 (shdrsOf objs i) =
      pack ElfShdr.size shAlign 0 (shdrsOf objs i) := by
    rcases wordPack_cases ElfShdr.size (Nat.le_refl 4294963200) hdvd
      (fun shdr hshdr => (hdvd shdr hshdr).trans ⟨1048575, rfl⟩) (Nat.zero_le _) with
      ⟨-, hpack, -⟩ | ⟨hover, -⟩
    · exact hpack
    · omega
  obtain ⟨-, -, hmem, -⟩ := h.section_piece hinp hs htarget
  rw [hpack] at hmem
  rw [← standardSections_zero i] at hend hmem
  rw [hout]
  exact (foldl_appendShdr_data hdvd htype hend).2 _ hmem k hk

/-! ### The relocated fields -/

theorem fileOps_eq (inp : Input) : fileOps inp = (objRels inp.obj).filterMap fun r =>
    (inp.map r.1).outSecIdx.map fun out => ⟨inp, r.1, out, r.2⟩ := by
  rw [fileOps, objRels, List.filterMap_flatMap]
  congr 1
  funext shdr
  split
  · rw [List.filterMap_map]
    cases hout : (inp.map shdr.info).outSecIdx with
    | none => simp [hout]
    | some out => simp [hout]
  · rfl

theorem Laid.mem_objs (h : Laid base objs img) {inp : Input} (hinp : inp ∈ img.inputs) :
    inp.obj ∈ objs := by
  have := List.mem_map_of_mem (f := Input.obj) hinp
  rwa [h.inputs, mapFiles_objs] at this

theorem Laid.op_section (h : Laid base objs img) (hvalid : ∀ obj ∈ objs, ValidObj obj) {inp : Input}
    (hinp : inp ∈ img.inputs) {op : Op} (hop : op ∈ fileOps inp) :
    op.inp = inp ∧ (op.target, op.rel) ∈ objRels inp.obj ∧
      ∃ shdr, inp.obj.shdrs[op.target]? = some shdr ∧ shdr.type = SHT_PROGBITS ∧
        secTarget shdr = some op.out ∧ op.rel.offset + op.width ≤ shdr.size := by
  rw [fileOps_eq, List.mem_filterMap] at hop
  obtain ⟨⟨t, rel⟩, hmem, hop⟩ := hop
  obtain ⟨out, hout, rfl⟩ := Option.map_eq_some_iff.mp hop
  obtain ⟨-, -, shdr, hs, htype, hle⟩ := (hvalid _ (h.mem_objs hinp)).rels _ hmem
  rw [h.inputs] at hinp
  have htarget : secTarget shdr = some out := by
    rw [(mapFiles_ok _ _ inp hinp).map, List.getD_eq_getElem?_getD, hs] at hout
    exact hout
  exact ⟨rfl, hmem, shdr, hs, htype, htarget, hle⟩

theorem Piece.Apart.symm {p q : Piece} (h : p.Apart q) : q.Apart p := fun heq => (h heq.symm).symm

theorem sections_apart {inp : Input} (hp : inp.pieces.Pairwise Piece.Apart) {s s' : Nat} (hne : s ≠ s')
    {shdr shdr' : ElfShdr} {m m' : SecMap} (hs : inp.obj.shdrs[s]? = some shdr)
    (hs' : inp.obj.shdrs[s']? = some shdr') (hm : inp.secMap[s]? = some m)
    (hm' : inp.secMap[s']? = some m') {i : Nat} (hout : m.outSecIdx = some i)
    (hout' : m'.outSecIdx = some i) :
    m.outOffset + shdr.size ≤ m'.outOffset ∨ m'.outOffset + shdr'.size ≤ m.outOffset := by
  have hz : (inp.obj.shdrs.zip inp.secMap)[s]? = some (shdr, m) :=
    List.getElem?_zip_eq_some.mpr ⟨hs, hm⟩
  have hz' : (inp.obj.shdrs.zip inp.secMap)[s']? = some (shdr', m') :=
    List.getElem?_zip_eq_some.mpr ⟨hs', hm'⟩
  obtain ⟨hlt, heq⟩ := List.getElem?_eq_some_iff.mp hz
  obtain ⟨hlt', heq'⟩ := List.getElem?_eq_some_iff.mp hz'
  rw [Input.pieces, List.pairwise_filterMap, List.pairwise_iff_getElem] at hp
  rcases Nat.lt_or_gt_of_ne hne with hss | hss
  · have := hp s s' hlt hlt' hss
    rw [heq, heq'] at this
    exact this ⟨i, m.outOffset, shdr.size, shAlign shdr⟩ (by simp [hout])
      ⟨i, m'.outOffset, shdr'.size, shAlign shdr'⟩ (by simp [hout']) rfl
  · have := hp s' s hlt' hlt hss
    rw [heq, heq'] at this
    exact (this ⟨i, m'.outOffset, shdr'.size, shAlign shdr'⟩ (by simp [hout'])
      ⟨i, m.outOffset, shdr.size, shAlign shdr⟩ (by simp [hout]) rfl).symm

theorem Roomy.ops_apart (hr : Roomy base objs img) (h : Laid base objs img)
    (hvalid : ∀ obj ∈ objs, ValidObj obj) : (img.inputs.flatMap fileOps).Pairwise Op.Apart := by
  have hpieces := (List.pairwise_append.mp hr.apart).1
  rw [List.pairwise_flatMap] at hpieces ⊢
  refine ⟨fun inp hinp => ?_, hpieces.2.imp_of_mem ?_⟩
  · have hall := fun op (hop : op ∈ fileOps inp) => h.op_section hvalid hinp hop
    rw [fileOps_eq] at hall ⊢
    rw [List.pairwise_filterMap]
    refine (hvalid _ (h.mem_objs hinp)).fields.imp_of_mem ?_
    intro r r' hmem hmem' hfield op hop op' hop' hout
    obtain ⟨-, -, shdr, hs, -, htarget, hle⟩ := hall op (List.mem_filterMap.mpr ⟨r, hmem, hop⟩)
    obtain ⟨-, -, shdr', hs', -, htarget', hle'⟩ := hall op' (List.mem_filterMap.mpr ⟨r', hmem', hop'⟩)
    obtain ⟨o, -, rfl⟩ := Option.map_eq_some_iff.mp hop
    obtain ⟨o', -, rfl⟩ := Option.map_eq_some_iff.mp hop'
    simp only [Op.loc, Op.width] at *
    by_cases hsame : r.1 = r'.1
    · have := hfield hsame
      rw [hsame]
      omega
    · obtain ⟨hidx, hm, -⟩ := h.section_piece hinp hs htarget
      obtain ⟨hidx', hm', -⟩ := h.section_piece hinp hs' htarget'
      have := sections_apart (hpieces.1 inp hinp) hsame hs hs' hm hm' hidx (hout ▸ hidx')
      omega
  · intro inp inp' hinp hinp' hcross op hop op' hop' hout
    obtain ⟨rfl, -, shdr, hs, -, htarget, hle⟩ := h.op_section hvalid hinp hop
    obtain ⟨rfl, -, shdr', hs', -, htarget', hle'⟩ := h.op_section hvalid hinp' hop'
    obtain ⟨-, -, -, hmem⟩ := h.section_piece hinp hs htarget
    obtain ⟨-, -, -, hmem'⟩ := h.section_piece hinp' hs' htarget'
    have := hcross _ hmem _ hmem' hout
    simp only [Op.loc] at *
    omega

/-! ### The whole layout -/

theorem Roomy.sections_apart (hr : Roomy base objs img) (h : Laid base objs img) {inp inp' : Input}
    (hinp : inp ∈ img.inputs) (hinp' : inp' ∈ img.inputs) {s s' : Nat} (hne : inp ≠ inp' ∨ s ≠ s')
    {shdr shdr' : ElfShdr} (hs : inp.obj.shdrs[s]? = some shdr) (hs' : inp'.obj.shdrs[s']? = some shdr')
    {i : Nat} (htarget : secTarget shdr = some i) (htarget' : secTarget shdr' = some i) :
    (inp.map s).outOffset + shdr.size ≤ (inp'.map s').outOffset ∨
      (inp'.map s').outOffset + shdr'.size ≤ (inp.map s).outOffset := by
  have hpieces := List.pairwise_flatMap.mp (List.pairwise_append.mp hr.apart).1
  obtain ⟨hidx, hm, -, hmem⟩ := h.section_piece hinp hs htarget
  obtain ⟨hidx', hm', -, hmem'⟩ := h.section_piece hinp' hs' htarget'
  by_cases hsame : inp = inp'
  · subst hsame
    exact Ld.sections_apart (hpieces.1 inp hinp) (hne.resolve_left fun hnot => hnot rfl) hs hs' hm hm'
      hidx hidx'
  · have hsymm : Std.Symm fun inp inp' : Input =>
        ∀ p ∈ inp.pieces, ∀ q ∈ inp'.pieces, p.Apart q :=
      ⟨fun _ _ hap p hp q hq => (hap q hq p hp).symm⟩
    exact hpieces.2.forall hinp hinp' hsame _ hmem _ hmem' rfl

theorem target_lt_four {obj : ElfObj} (hvalid : ValidObj obj) {shdr : ElfShdr}
    (hshdr : shdr ∈ obj.shdrs) (htype : shdr.type = SHT_PROGBITS) {i : Nat}
    (htarget : secTarget shdr = some i) : i < 4 := by
  have halloc := alloc_of_target (show (secTarget shdr).isSome by rw [htarget]; rfl)
  obtain ⟨j, hj, hout⟩ := hvalid.types shdr hshdr halloc
  rw [secTarget, if_neg halloc, hj, Option.some.injEq] at htarget
  have hlt := targetIdx_lt hj
  rcases Nat.lt_or_eq_of_le (Nat.le_of_lt_succ hlt) with hj4 | rfl
  · rwa [← htarget]
  · rw [htype] at hout
    exact absurd hout (by decide)

section

variable (hr : Roomy base objs img) (h : Laid base objs img) {inp : Input} (hinp : inp ∈ img.inputs)
  {s : Nat} {shdr : ElfShdr} (hs : inp.obj.shdrs[s]? = some shdr) {i : Nat}
  (htarget : secTarget shdr = some i)

include hr h hinp hs htarget

theorem Roomy.addr_eq :
    (inp.map s).vaddr img.st.outs = (img.st.outs.getD i default).vaddr + (inp.map s).outOffset ∧
      (inp.map s).outOffset + shdr.size ≤ (img.st.outs.getD i default).size := by
  obtain ⟨hidx, -, -, hmem⟩ := h.section_piece hinp hs htarget
  have hp : (⟨i, (inp.map s).outOffset, shdr.size, shAlign shdr⟩ : Piece) ∈ img.pieces :=
    List.mem_append_left _ (List.mem_flatMap.mpr ⟨inp, hinp, hmem⟩)
  have hv := hr.vaddr_eq h hp
  refine ⟨?_, hr.inside _ hp⟩
  rw [SecMap.vaddr, hidx]
  exact hv

theorem Roomy.file_section {k : Nat} (hi : i < 4) (hk : k < shdr.size) :
    img.file (img.fileOffset (img.addrOf inp s k)) = img.st.data i ((inp.map s).outOffset + k) := by
  obtain ⟨haddr, hin⟩ := hr.addr_eq h hinp hs htarget
  rw [Image.addrOf, haddr, Nat.add_assoc]
  exact hr.file_at h hi (by omega)

theorem Roomy.in_segment {k : Nat} (hi : i < 4) (hk : k < shdr.size) :
    img.imageBase ≤ img.addrOf inp s k ∧ img.addrOf inp s k < img.imageBase + img.totalFilesz := by
  obtain ⟨haddr, hin⟩ := hr.addr_eq h hinp hs htarget
  have hlow := hr.low i (by omega)
  rw [hr.totalFilesz h, h.imageBase, Image.addrOf, haddr]
  rcases Nat.lt_or_eq_of_le (Nat.le_of_lt_succ hi) with hlt | rfl
  · have := hr.order i OUT_SEC_DATA hlt (by decide)
    omega
  · simp only [OUT_SEC_DATA]
    omega

end

/-- With room, bytes that are not relocated are those of the input, and relocated fields hold
    their values. -/
theorem Roomy.contents (hr : Roomy base objs img) (h : Laid base objs img)
    (hvalid : ∀ obj ∈ objs, ValidObj obj) {inp : Input} (hinp : inp ∈ img.inputs) {s : Nat}
    {shdr : ElfShdr} (hs : inp.obj.shdrs[s]? = some shdr) (htype : shdr.type = SHT_PROGBITS) {i : Nat}
    (htarget : secTarget shdr = some i) :
    (∀ k < shdr.size, ¬InField inp.obj s k →
      img.st.data i ((inp.map s).outOffset + k) = shdr.data.getD k 0) ∧
    ∀ rel, (s, rel) ∈ objRels inp.obj →
      (leBytes (img.st.data i) ((inp.map s).outOffset + rel.offset) (relWidth rel.type) : Int) =
        relocValue rel.type (symValue img.st inp (inp.obj.symtab.getD rel.sym noSym))
          (u32 (img.addrOf inp s rel.offset))
          (leBytes (shdr.data.getD · 0) rel.offset (relWidth rel.type)) := by
  have hi := target_lt_four (hvalid _ (h.mem_objs hinp)) (List.mem_of_getElem? hs) htype htarget
  obtain ⟨st, st', hrun, hshape, houts, hlen, hdata⟩ := h.relocated
  have hout : ∀ op ∈ img.inputs.flatMap fileOps, op.out < st.outs.length := by
    intro op hop
    obtain ⟨inp', hinp', hop'⟩ := List.mem_flatMap.mp hop
    obtain ⟨-, -, _, _, -, ht, -⟩ := h.op_section hvalid hinp' hop'
    rw [hlen]
    exact secTarget_lt ht
  obtain ⟨hfields, hkeep⟩ := foldlM_apply_spec (hr.ops_apart h hvalid) hout hrun
  have hfinal : ∀ j, st'.data j = img.st.data j := fun j => by rw [Tables.data, houts, Tables.data]
  -- the bytes before relocation
  have hbefore : ∀ k < shdr.size, st.data i ((inp.map s).outOffset + k) = shdr.data.getD k 0 := by
    intro k hk
    rw [hdata i hi, hr.section_data h hvalid hinp hs hi htarget hk, srcOf, if_pos]
    rw [htype]
    decide
  refine ⟨fun k hk hfield => ?_, fun rel hrel => ?_⟩
  · rw [← hfinal, hkeep i _ ?_, hbefore k hk]
    intro op hop hopout
    obtain ⟨inp', hinp', hop'⟩ := List.mem_flatMap.mp hop
    obtain ⟨hoi, hmem, shdr', hs', -, htarget', hle⟩ := h.op_section hvalid hinp' hop'
    by_cases hsame : inp' = inp ∧ op.target = s
    · -- a relocation for this section: the byte is not in its field
      obtain ⟨rfl, rfl⟩ := hsame
      have hnot : ¬(op.rel.offset ≤ k ∧ k < op.rel.offset + op.width) :=
        fun hin => hfield ⟨op.rel, hmem, hin⟩
      rw [Op.loc, hoi]
      omega
    · have hne : inp' ≠ inp ∨ op.target ≠ s := by
        rwa [not_and_or] at hsame
      have := hr.sections_apart h hinp' hinp hne hs' hs htarget' (hopout ▸ htarget)
      rw [Op.loc, hoi]
      omega
  · obtain ⟨hidx, -⟩ := h.section_piece hinp hs htarget
    obtain ⟨-, -, shdr', hs', -, hle⟩ := (hvalid _ (h.mem_objs hinp)).rels _ hrel
    rw [hs, Option.some.injEq] at hs'
    subst hs'
    change rel.offset + relWidth rel.type ≤ shdr.size at hle
    have hop : (⟨inp, s, i, rel⟩ : Op) ∈ fileOps inp := by
      rw [fileOps_eq]
      exact List.mem_filterMap.mpr ⟨(s, rel), hrel, by simp [hidx]⟩
    have hfield := hfields _ (List.mem_flatMap.mpr ⟨inp, hinp, hop⟩)
    have hsource : leBytes (st.data i) ((inp.map s).outOffset + rel.offset) (relWidth rel.type) =
        leBytes (shdr.data.getD · 0) rel.offset (relWidth rel.type) := by
      refine leBytes_congr fun k hk => ?_
      rw [Nat.add_assoc]
      exact hbefore _ (by omega)
    simp only [Op.loc, Op.width, Op.sym, Op.place, hfinal, houts, hsource, ← hshape.symValue] at hfield
    exact hfield

theorem Roomy.layoutOk (hr : Roomy base objs img) (h : Laid base objs img)
    (hvalid : ∀ obj ∈ objs, ValidObj obj) (haligned : ∀ p ∈ img.pieces, p.align ∣ img.vaddr p) :
    LayoutOk img := by
  have hends : ∀ p ∈ img.pieces, img.vaddr p + p.size ≤ img.st.bss.vaddr + img.st.bss.size := by
    intro p hp
    have hin := hr.inside p hp
    have hend := hr.end_le (h.out_lt hp)
    rw [hr.vaddr_eq h hp]
    omega
  refine ⟨?_, ?_, haligned, ?_, fun p hp hpos => ⟨?_, ?_⟩, fun p hp hpos => ?_⟩
  · intro inp hinp s shdr hs htype hsome k b hb hfield
    obtain ⟨i, htarget⟩ := Option.isSome_iff_exists.mp hsome
    have hobj := hvalid _ (h.mem_objs hinp)
    have hshdr := List.mem_of_getElem? hs
    have hi := target_lt_four hobj hshdr htype htarget
    have hk : k < shdr.size := by
      rw [← hobj.data shdr hshdr (by rw [htype]; decide)]
      exact (List.getElem?_eq_some_iff.mp hb).1
    obtain ⟨hlow, hlt⟩ := hr.in_segment h hinp hs htarget hi hk
    refine ⟨hlow, hlt, ?_⟩
    rw [hr.file_section h hinp hs htarget hi hk,
      (hr.contents h hvalid hinp hs htype htarget).1 k hk hfield, List.getD_eq_getElem?_getD, hb]
    rfl
  · refine hr.apart.imp_of_mem ?_
    intro p q hp hq hap
    rw [hr.vaddr_eq h hp, hr.vaddr_eq h hq]
    have hinp := hr.inside p hp
    have hinq := hr.inside q hq
    rcases Nat.lt_trichotomy p.out q.out with hlt | heq | hlt
    · have := hr.order _ _ hlt (h.out_lt hq)
      omega
    · have := hap heq
      rw [heq]
      omega
    · have := hr.order _ _ hlt (h.out_lt hp)
      omega
  · intro inp hinp s shdr rel hs hsome hrel
    obtain ⟨i, htarget⟩ := Option.isSome_iff_exists.mp hsome
    have hobj := hvalid _ (h.mem_objs hinp)
    obtain ⟨-, -, shdr', hs', htype, hle⟩ := hobj.rels _ hrel
    rw [hs, Option.some.injEq] at hs'
    subst hs'
    change rel.offset + relWidth rel.type ≤ shdr.size at hle
    have hi := target_lt_four hobj (List.mem_of_getElem? hs) htype htarget
    have hvalue := (hr.contents h hvalid hinp hs htype htarget).2 rel hrel
    have hplace : u32 (img.addrOf inp s rel.offset) = img.addrOf inp s rel.offset := by
      obtain ⟨haddr, hin⟩ := hr.addr_eq h hinp hs htarget
      have hend := (hr.end_le (show i < 5 by omega)).trans hr.high
      rw [Image.addrOf, haddr]
      exact u32_of_lt (by omega)
    have hfile : leBytes img.file (img.fileOffset (img.addrOf inp s rel.offset)) (relWidth rel.type) =
        leBytes (img.st.data i) ((inp.map s).outOffset + rel.offset) (relWidth rel.type) := by
      refine leBytes_congr fun k hk => ?_
      have hlt : rel.offset + k < shdr.size := by omega
      have hlow := (hr.in_segment h hinp hs htarget hi (show rel.offset < shdr.size by omega)).1
      rw [Nat.add_assoc, ← hr.file_section h hinp hs htarget hi hlt]
      congr 1
      simp only [Image.fileOffset, Image.addrOf] at hlow ⊢
      omega
    rw [hfile, hvalue, hplace]
  · have := hr.low _ (h.out_lt hp)
    rw [h.imageBase, hr.vaddr_eq h hp]
    omega
  · rw [hr.totalMemsz h]
    exact hends p hp
  · rw [h.kernelEnd, u32_of_lt (Nat.lt_of_le_of_lt hr.high (by decide)),
      alignUp_eq_ceilTo (Nat.dvd_refl 4096) hr.high]
    exact (hends p hp).trans (le_ceilTo (by decide) _)

theorem Laid.layoutOk_empty (h : Laid base objs img) (hvalid : ∀ obj ∈ objs, ValidObj obj)
    (hempty : ∀ i < 5, ∀ r ∈ reqs objs i, r.len = 0)
    (haligned : ∀ p ∈ img.pieces, p.align ∣ img.vaddr p) : LayoutOk img := by
  have hzero : ∀ p ∈ img.pieces, p.size = 0 := fun p hp =>
    hempty p.out (h.out_lt hp) _ (mem_of_wordPack (h.mem_pieces hp))
  have hsection : ∀ inp ∈ img.inputs, ∀ (s : Nat) (shdr : ElfShdr), inp.obj.shdrs[s]? = some shdr →
      (secTarget shdr).isSome → shdr.size = 0 := by
    intro inp hinp s shdr hs hsome
    obtain ⟨i, htarget⟩ := Option.isSome_iff_exists.mp hsome
    obtain ⟨-, -, -, hmem⟩ := h.section_piece hinp hs htarget
    exact hzero _ (List.mem_append_left _ (List.mem_flatMap.mpr ⟨inp, hinp, hmem⟩))
  refine ⟨?_, ?_, haligned, ?_, fun p hp hpos => ?_, fun p hp hpos => ?_⟩
  · intro inp hinp s shdr hs htype hsome k b hb
    have hlen := (hvalid _ (h.mem_objs hinp)).data shdr (List.mem_of_getElem? hs) (by rw [htype]; decide)
    rw [hsection inp hinp s shdr hs hsome] at hlen
    rw [List.length_eq_zero_iff.mp hlen] at hb
    contradiction
  · refine List.pairwise_of_forall_mem_list fun p hp q hq => ?_
    rw [hzero p hp, hzero q hq]
    exact Nat.le_total _ _
  · intro inp hinp s shdr rel hs hsome hrel
    obtain ⟨-, -, shdr', hs', -, hle⟩ := (hvalid _ (h.mem_objs hinp)).rels _ hrel
    rw [hs, Option.some.injEq] at hs'
    subst hs'
    have hwidth : relWidth rel.type = 0 := by
      have := hsection inp hinp s shdr hs hsome
      change rel.offset + relWidth rel.type ≤ shdr.size at hle
      omega
    simp [relocValue, hwidth, leBytes]
  · rw [hzero p hp] at hpos
    contradiction
  · rw [hzero p hp] at hpos
    contradiction

theorem link_layoutOk_iff {base : Nat} {objs : List ElfObj} {img : Image} (hbase : base < 4294967296)
    (hvalid : ∀ obj ∈ objs, ValidObj obj) (hlink : link base objs = some img) :
    LayoutOk img ↔ LayoutFits base objs := by
  have h := link_laid hlink
  refine ⟨fun hok => hok.fits h hvalid hbase, fun hfits => ?_⟩
  have haligned := (h.aligned_iff hvalid hbase).mpr hfits.multiboot
  rcases hfits.room with hempty | hend
  · exact h.layoutOk_empty hvalid hempty haligned
  · exact (h.roomy hvalid hfits.multiboot hend).layoutOk h hvalid haligned

theorem sectionsFit_of_valid {objs : List ElfObj} (hvalid : ∀ obj ∈ objs, ValidObj obj) :
    SectionsFit objs := fun obj hobj => (hvalid obj hobj).sections

/-- A `.multiboot` section with an alignment of 8 and the address of `_start` in it. -/
def bootObj : ElfObj :=
  ⟨str "boot.o", [noShdr,
      ⟨str ".multiboot", SHT_PROGBITS, SHF_ALLOC, 8, 8, 0, [2, 0xb0, 0xad, 0x1b, 0, 0, 0, 0], []⟩,
      ⟨str ".rel.multiboot", SHT_REL, 0, 4, 8, 1, [4, 0, 0, 0, 1, 1, 0, 0], [⟨4, 1, R_386_32⟩]⟩],
    [noSym, ⟨str "_start", 0, 0, STB_GLOBAL, 0, 1⟩]⟩

theorem bootObj_valid : ∀ obj ∈ [bootObj], ValidObj obj := by
  intro obj hobj
  rw [List.mem_singleton] at hobj
  subst hobj
  refine ⟨by decide, by decide, ?_, by decide, by decide, by decide, ?_, by decide⟩
  · intro shdr hshdr halloc
    exact ⟨OUT_SEC_MULTIBOOT, by revert shdr; decide⟩
  · intro r hr
    have hr' : r = (1, ⟨4, 1, R_386_32⟩) := by
      revert r
      decide
    subst hr'
    exact ⟨by decide, by decide, _, rfl, rfl, by decide⟩

end Gemios.Ld
