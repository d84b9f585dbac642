import Gemios.LdReloc

/-!
# The layout of the image

The output sections of a successful link, in terms of what the input files ask for.
-/

namespace Gemios.Ld

/-! ### What the files ask for -/

structure Req where
  len : Nat
  align : Nat
deriving DecidableEq

def shdrReq (shdr : ElfShdr) : Req := ⟨shdr.size, shAlign shdr⟩

def commonReq (sym : ElfSym) : Req := ⟨sym.size, commonAlign sym⟩

def commonSyms (objs : List ElfObj) : List ElfSym := (objs.flatMap (·.symtab)).filter isCommon

/-- What goes to output section `i`, in order. -/
def reqs (objs : List ElfObj) (i : Nat) : List Req :=
  (shdrsOf objs i).map shdrReq ++
    if i = OUT_SEC_BSS then (commonSyms objs).map commonReq else []

/-- The output sections in the order of their addresses. -/
def outIdxs : List Nat :=
  [OUT_SEC_MULTIBOOT, OUT_SEC_TEXT, OUT_SEC_RODATA, OUT_SEC_DATA, OUT_SEC_BSS]

def outAlign (i : Nat) : Nat := (standardSections.getD i default).align

def outType (i : Nat) : Nat := (standardSections.getD i default).type

/-- The size of output section `i` as the linker computes it. -/
def wordSize (objs : List ElfObj) (i : Nat) : Nat := wordEnd Req.len Req.align 0 (reqs objs i)

theorem mem_outIdxs {i : Nat} : i ∈ outIdxs ↔ i < 5 := by
  simp only [outIdxs, List.mem_cons, List.not_mem_nil, or_false, OUT_SEC_MULTIBOOT, OUT_SEC_TEXT,
    OUT_SEC_RODATA, OUT_SEC_DATA, OUT_SEC_BSS]
  omega

theorem standardSections_zero (i : Nat) : (standardSections.getD i default).size = 0 := by
  by_cases hi : i < 5
  · have : ∀ j : Fin 5, (standardSections.getD j default).size = 0 := by decide
    exact this ⟨i, hi⟩
  · have hnone : standardSections[i]? = none := List.getElem?_eq_none (Nat.le_of_not_lt hi)
    rw [List.getD_eq_getElem?_getD, hnone]
    rfl

/-! ### Addresses -/

theorem layout_length (cur : Nat) (secs : List OutSec) : (layout cur secs).length = secs.length := by
  induction secs generalizing cur with
  | nil => rfl
  | cons sec secs ih => simp [layout, ih]

theorem exists_five : ∀ {outs : List OutSec}, outs.length = 5 → ∃ a b c d e, outs = [a, b, c, d, e]
  | [a, b, c, d, e], _ => ⟨a, b, c, d, e, rfl⟩

theorem layout_five {outs : List OutSec} (hlen : outs.length = 5) {size : Nat → Nat} (base : Nat)
    (hsize : ∀ i < 4, (outs.getD i default).size = size i)
    (halign : ∀ i < 5, (outs.getD i default).align = outAlign i) :
    ∀ p ∈ wordPack size outAlign base outIdxs,
      (layout base outs).getD p.1 default = { outs.getD p.1 default with vaddr := p.2 } := by
  obtain ⟨a, b, c, d, e, rfl⟩ := exists_five hlen
  have h0 : a.size = size 0 := hsize 0 (by decide)
  have h1 : b.size = size 1 := hsize 1 (by decide)
  have h2 : c.size = size 2 := hsize 2 (by decide)
  have h3 : d.size = size 3 := hsize 3 (by decide)
  have ha0 : a.align = outAlign 0 := halign 0 (by decide)
  have ha1 : b.align = outAlign 1 := halign 1 (by decide)
  have ha2 : c.align = outAlign 2 := halign 2 (by decide)
  have ha3 : d.align = outAlign 3 := halign 3 (by decide)
  have ha4 : e.align = outAlign 4 := halign 4 (by decide)
  simp [outIdxs, wordPack, layout, OUT_SEC_MULTIBOOT, OUT_SEC_TEXT, OUT_SEC_RODATA, OUT_SEC_DATA,
    OUT_SEC_BSS, h0, h1, h2, h3, ha0, ha1, ha2, ha3, ha4]

/-! ### The output sections -/

theorem mapFiles_outs (objs : List ElfObj) {i : Nat} (hi : i < 5) :
    ((mapFiles standardSections objs).1.getD i default).size =
        wordEnd ElfShdr.size shAlign 0 (shdrsOf objs i) ∧
      ((mapFiles standardSections objs).1.getD i default).type = outType i ∧
      ((mapFiles standardSections objs).1.getD i default).align = outAlign i := by
  obtain ⟨-, hout, -⟩ := mapFiles_spec (show i < standardSections.length from hi) objs
  obtain ⟨htype, halign⟩ := foldl_appendShdr_fixed (shdrsOf objs i) (standardSections.getD i default)
  rw [hout, foldl_appendShdr_size, standardSections_zero]
  exact ⟨rfl, htype, halign⟩

theorem mapFiles_length (objs : List ElfObj) : (mapFiles standardSections objs).1.length = 5 :=
  (mapFiles_spec (show 0 < standardSections.length by decide) objs).1

theorem wordSize_eq (objs : List ElfObj) (i : Nat) :
    wordSize objs i = if i = OUT_SEC_BSS then
        wordEnd ElfSym.size commonAlign (wordEnd ElfShdr.size shAlign 0 (shdrsOf objs i))
          (commonSyms objs)
      else wordEnd ElfShdr.size shAlign 0 (shdrsOf objs i) := by
  unfold wordSize reqs
  split
  · rw [wordEnd_append, wordEnd_map, wordEnd_map]
    rfl
  · rw [List.append_nil, wordEnd_map]
    rfl

structure Laid (base : Nat) (objs : List ElfObj) (img : Image) : Prop where
  inputs : img.inputs = (mapFiles standardSections objs).2
  imageBase : img.imageBase = base
  length : img.st.outs.length = 5
  vaddrs : ∀ p ∈ wordPack (wordSize objs) outAlign base outIdxs,
    (img.st.outs.getD p.1 default).vaddr = p.2
  sizes : ∀ i < 5, (img.st.outs.getD i default).size = wordSize objs i
  types : ∀ i < 5, (img.st.outs.getD i default).type = outType i
  commons : img.st.commons = (wordPack ElfSym.size commonAlign
    (wordEnd ElfShdr.size shAlign 0 (shdrsOf objs OUT_SEC_BSS)) (commonSyms objs)).map commonAt
  kernelEnd : valueOf img.st.globals (str "_kernel_end") =
    alignUp (u32 (img.st.bss.vaddr + img.st.bss.size)) 4096
  relocated : ∃ st st', (img.inputs.flatMap fileOps).foldlM Op.apply st = some st' ∧
    SameShape st' img.st ∧ st'.outs = img.st.outs ∧ st.outs.length = 5 ∧
    ∀ i < 4, st.data i = ((mapFiles standardSections objs).1.getD i default).data

theorem defineKernelEnd_value {st st' : Tables} (h : defineKernelEnd st = some st') :
    valueOf st'.globals (str "_kernel_end") =
      alignUp (u32 (st.bss.vaddr + st.bss.size)) 4096 := by
  obtain ⟨⟨globals, i⟩, hfind, rfl⟩ := Option.map_eq_some_iff.mp h
  obtain ⟨hidx, hentry, -⟩ := findOrAddGlobalSym_short kernelEnd_length hfind
  simp only [valueOf, entry_modify (defineOwn_name _) hidx, if_true, hentry]
  rfl

theorem layout_outs (base : Nat) (objs : List ElfObj) :
    ∀ p ∈ wordPack (wordSize objs) outAlign base outIdxs,
      (layout base (mapFiles standardSections objs).1).getD p.1 default =
        { (mapFiles standardSections objs).1.getD p.1 default with vaddr := p.2 } := by
  refine layout_five (mapFiles_length objs) base (fun i hi => ?_) fun i hi => (mapFiles_outs objs hi).2.2
  rw [(mapFiles_outs objs (by omega)).1, wordSize_eq,
    if_neg (show i ≠ OUT_SEC_BSS from Nat.ne_of_lt hi)]

theorem exists_vaddr (base : Nat) (objs : List ElfObj) {i : Nat} (hi : i < 5) :
    ∃ v, (i, v) ∈ wordPack (wordSize objs) outAlign base outIdxs := by
  have hmem : i ∈ (wordPack (wordSize objs) outAlign base outIdxs).map Prod.fst := by
    rw [wordPack_fst]
    exact mem_outIdxs.mpr hi
  obtain ⟨⟨j, v⟩, hp, rfl⟩ := List.mem_map.mp hmem
  exact ⟨v, hp⟩

theorem addFiles_outs {base : Nat} {objs : List ElfObj} {st : Tables}
    (h : addFiles ⟨layout base (mapFiles standardSections objs).1, [], []⟩
      (mapFiles standardSections objs).2 = some st) :
    st.outs.length = 5 ∧
      (∀ p ∈ wordPack (wordSize objs) outAlign base outIdxs,
        (st.outs.getD p.1 default).vaddr = p.2) ∧
      (∀ i < 5, (st.outs.getD i default).size = wordSize objs i) ∧
      (∀ i < 5, (st.outs.getD i default).type = outType i) ∧
      (∀ i < 4, st.data i = ((mapFiles standardSections objs).1.getD i default).data) ∧
      st.commons = (wordPack ElfSym.size commonAlign
        (wordEnd ElfShdr.size shAlign 0 (shdrsOf objs OUT_SEC_BSS)) (commonSyms objs)).map commonAt := by
  have hlen : (layout base (mapFiles standardSections objs).1).length = 5 := by
    rw [layout_length, mapFiles_length]
  have hgrown := addFiles_bssGrown (by rw [hlen]; decide) h
  have hlay := layout_outs base objs
  have hsyms : ((mapFiles standardSections objs).2.flatMap (·.obj.symtab)).filter isCommon =
      commonSyms objs := by
    rw [← List.flatMap_map, mapFiles_objs]
    rfl
  obtain ⟨v, hv⟩ := exists_vaddr base objs (show OUT_SEC_BSS < 5 by decide)
  have hbss := hlay _ hv
  have hsize : (layout base (mapFiles standardSections objs).1 |>.getD OUT_SEC_BSS default).size =
      wordEnd ElfShdr.size shAlign 0 (shdrsOf objs OUT_SEC_BSS) := by
    rw [hbss]
    exact (mapFiles_outs objs (show OUT_SEC_BSS < 5 by decide)).1
  refine ⟨hgrown.length.trans hlen, fun p hp => ?_, fun i hi => ?_, fun i hi => ?_, fun i hi => ?_, ?_⟩
  · by_cases hp4 : p.1 = OUT_SEC_BSS
    · rw [hp4]
      have := hlay p hp
      rw [hp4] at this
      exact hgrown.vaddr.trans (congrArg OutSec.vaddr this)
    · rw [hgrown.others _ hp4, hlay p hp]
  · rw [wordSize_eq]
    split
    · rename_i hi4
      rw [hi4]
      refine hgrown.size.trans ?_
      rw [hsyms, ← hsize]
      rfl
    · rename_i hi4
      obtain ⟨v, hv⟩ := exists_vaddr base objs hi
      rw [hgrown.others _ hi4, hlay _ hv]
      exact (mapFiles_outs objs hi).1
  · obtain ⟨v, hv⟩ := exists_vaddr base objs hi
    by_cases hi4 : i = OUT_SEC_BSS
    · have := hlay _ hv
      rw [hi4] at this ⊢
      refine hgrown.type.trans ((congrArg OutSec.type this).trans ?_)
      exact (mapFiles_outs objs (show OUT_SEC_BSS < 5 by decide)).2.1
    · rw [hgrown.others _ hi4, hlay _ hv]
      exact (mapFiles_outs objs hi).2.1
  · obtain ⟨v, hv⟩ := exists_vaddr base objs (show i < 5 by omega)
    rw [Tables.data, hgrown.others i (Nat.ne_of_lt hi), hlay _ hv]
  · rw [hgrown.commons, hsyms, ← hsize]
    rfl

theorem link_laid {base : Nat} {objs : List ElfObj} {img : Image} (h : link base objs = some img) :
    Laid base objs img := by
  obtain ⟨st, st₁, st₂, globals', i, hsteps, rfl⟩ := link_eq_some_iff.mp h
  obtain ⟨-, -, hadd, hend, -, hrel, hstart, -⟩ := hsteps
  obtain ⟨hlen, hvaddrs, hsizes, htypes, hdata, hcommons⟩ := addFiles_outs hadd
  obtain ⟨hcommons₁, houts₁, -, -⟩ := defineKernelEnd_spec hend
  rw [applyRelocations_eq] at hrel
  have hshape := foldlM_apply_shape hrel
  obtain ⟨-, hvalues⟩ := findOrAddGlobalSym_valueOf hstart
  rw [← houts₁] at hlen hvaddrs hsizes htypes
  refine ⟨rfl, rfl, ?_, fun p hp => ?_, fun j hj => ?_, fun j hj => ?_, ?_, ?_, ?_⟩
  · exact hshape.length.trans hlen
  · exact (hshape.vaddr p.1).trans (hvaddrs p hp)
  · exact (hshape.size j).trans (hsizes j hj)
  · exact (hshape.type j).trans (htypes j hj)
  · exact hshape.commons.trans (hcommons₁.trans hcommons)
  · refine (hvalues _).trans ((hshape.values _).trans ((defineKernelEnd_value hend).trans ?_))
    simp only [Tables.bss] at hshape ⊢
    rw [hshape.vaddr, hshape.size, houts₁]
  · refine ⟨_, st₂, hrel, ⟨rfl, fun _ => rfl, fun _ => rfl, fun _ => rfl, hvalues, rfl⟩, rfl, hlen,
      fun j hj => ?_⟩
    simp only [Tables.data, houts₁]
    exact hdata j hj

end Gemios.Ld
