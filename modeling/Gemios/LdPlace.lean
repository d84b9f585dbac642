import Gemios.Pack
import Gemios.LdAccept

/-!
# Where the linker places the input sections

Steps 3 to 5 of the linker, one output section at a time: the sections and COMMON symbols that
go there are packed one after another.
-/

namespace Gemios.Ld

/-! ### One output section -/

/-- The bytes of an input section; those of `.bss` have none. -/
def srcOf (shdr : ElfShdr) : List UInt8 := if shdr.type ≠ SHT_NOBITS then shdr.data else []

/-- An input section is added to its output section. -/
def OutSec.appendShdr (sec : OutSec) (shdr : ElfShdr) : OutSec :=
  sec.append (srcOf shdr) shdr.size (shAlign shdr)

theorem shAlign_pos (shdr : ElfShdr) : 0 < shAlign shdr := by
  unfold shAlign
  split <;> omega

theorem append_size (sec : OutSec) (src : List UInt8) (len : Nat) {align : Nat} (h : 0 < align) :
    (sec.append src len align).size = u32 (alignUp sec.size align + len) := by
  simp only [OutSec.append, if_neg (show ¬align < 1 by omega)]

theorem append_data {sec : OutSec} (htype : sec.type ≠ SHT_NOBITS) (src : List UInt8) (len : Nat)
    {align : Nat} (h : 0 < align) (o : Nat) :
    (sec.append src len align).data o =
      if alignUp sec.size align ≤ o ∧ o < alignUp sec.size align + len then
        src.getD (o - alignUp sec.size align) 0
      else if sec.size ≤ o ∧ o < alignUp sec.size align then 0 else sec.data o := by
  simp only [OutSec.append, if_neg (show ¬align < 1 by omega), if_neg htype]

theorem foldl_appendShdr_size (l : List ElfShdr) (sec : OutSec) :
    (l.foldl OutSec.appendShdr sec).size = wordEnd ElfShdr.size shAlign sec.size l := by
  induction l generalizing sec with
  | nil => rfl
  | cons shdr l ih =>
    rw [List.foldl_cons, ih, OutSec.appendShdr, append_size _ _ _ (shAlign_pos shdr)]
    rfl

theorem foldl_appendShdr_fixed (l : List ElfShdr) (sec : OutSec) :
    (l.foldl OutSec.appendShdr sec).type = sec.type ∧
      (l.foldl OutSec.appendShdr sec).align = sec.align := by
  induction l generalizing sec with
  | nil => exact ⟨rfl, rfl⟩
  | cons shdr l ih => exact ih _

/-- As long as the words do not wrap, each section has its bytes at its offset, and nothing
    that is there before changes. -/
theorem foldl_appendShdr_data {l : List ElfShdr} (hl : ∀ shdr ∈ l, shAlign shdr ∣ 4096) {sec : OutSec}
    (htype : sec.type ≠ SHT_NOBITS)
    (hend : packEnd ElfShdr.size shAlign sec.size l ≤ 4294963200) :
    (∀ o < sec.size, (l.foldl OutSec.appendShdr sec).data o = sec.data o) ∧
      ∀ p ∈ pack ElfShdr.size shAlign sec.size l, ∀ k < p.1.size,
        (l.foldl OutSec.appendShdr sec).data (p.2 + k) = (srcOf p.1).getD k 0 := by
  induction l generalizing sec with
  | nil => exact ⟨fun _ _ => rfl, by simp [pack]⟩
  | cons shdr l ih =>
    rw [List.forall_mem_cons] at hl
    rw [packEnd] at hend
    have hpos := fun shdr hmem => pos_of_dvd (hl.2 shdr hmem)
    have hle : ceilTo sec.size (shAlign shdr) + shdr.size ≤
        packEnd ElfShdr.size shAlign (ceilTo sec.size (shAlign shdr) + shdr.size) l :=
      le_packEnd hpos _
    have hceil := le_ceilTo (shAlign_pos shdr) sec.size
    have hword : alignUp sec.size (shAlign shdr) = ceilTo sec.size (shAlign shdr) :=
      alignUp_eq_ceilTo hl.1 (by omega)
    have hsize : (sec.appendShdr shdr).size = ceilTo sec.size (shAlign shdr) + shdr.size := by
      rw [OutSec.appendShdr, append_size _ _ _ (shAlign_pos shdr), hword, u32_of_lt (by omega)]
    obtain ⟨hkeep, hput⟩ := ih hl.2 (show (sec.appendShdr shdr).type ≠ SHT_NOBITS from htype)
      (by rwa [hsize])
    rw [hsize] at hkeep hput
    have hdata := append_data htype (srcOf shdr) shdr.size (shAlign_pos shdr)
    rw [hword] at hdata
    rw [List.foldl_cons]
    refine ⟨fun o ho => ?_, fun p hp k hk => ?_⟩
    · rw [hkeep o (by omega), OutSec.appendShdr, hdata, if_neg (by omega), if_neg (by omega)]
    · rcases List.mem_cons.mp hp with rfl | hp
      · rw [hkeep _ (Nat.add_lt_add_left hk _), OutSec.appendShdr, hdata,
          if_pos ⟨Nat.le_add_right _ _, Nat.add_lt_add_left hk _⟩, Nat.add_sub_cancel_left]
      · exact hput p hp k hk

/-! ### All of them -/

/-- The input sections that go to output section `i`, in order. -/
def shdrsOf (objs : List ElfObj) (i : Nat) : List ElfShdr :=
  (objs.flatMap (·.shdrs)).filter (secTarget · == some i)

/-- The sections of a file that are mapped to output section `i`, with their offsets. -/
def mappedTo (i : Nat) (shdrs : List ElfShdr) (ms : List SecMap) : List (ElfShdr × Nat) :=
  (shdrs.zip ms).filterMap fun p =>
    if p.2.outSecIdx = some i then some (p.1, p.2.outOffset) else none

theorem targetIdx_lt {name : List UInt8} {i : Nat} (h : targetIdx name = some i) : i < 5 := by
  unfold targetIdx at h
  split_ifs at h <;> cases h <;> decide

theorem secTarget_lt {shdr : ElfShdr} {i : Nat} (h : secTarget shdr = some i) : i < 5 := by
  unfold secTarget at h
  split at h
  · contradiction
  · exact targetIdx_lt h

theorem mapSection_eq (outs : List OutSec) (shdr : ElfShdr) :
    mapSection outs shdr =
      match secTarget shdr with
      | none => (outs, ⟨none, 0⟩)
      | some i => (outs.modify i (·.appendShdr shdr),
          ⟨some i, alignUp (outs.getD i default).size (shAlign shdr)⟩) := by
  unfold mapSection secTarget
  split
  · rfl
  · cases targetIdx shdr.name <;> rfl

theorem mapSection_length (outs : List OutSec) (shdr : ElfShdr) :
    (mapSection outs shdr).1.length = outs.length := by
  rw [mapSection_eq]
  cases secTarget shdr with
  | none => rfl
  | some i => exact List.length_modify ..

theorem getD_modify (outs : List OutSec) (f : OutSec → OutSec) {i j : Nat} (hj : j < outs.length) :
    (outs.modify i f).getD j default =
      if i = j then f (outs.getD j default) else outs.getD j default := by
  simp only [List.getD_eq_getElem?_getD, List.getElem?_modify, List.getElem?_eq_getElem hj]
  split <;> rfl

section

variable {outs : List OutSec} {i : Nat} (hi : i < outs.length)

include hi

theorem mapSection_hit {shdr : ElfShdr} (h : secTarget shdr = some i) :
    (mapSection outs shdr).1.getD i default = (outs.getD i default).appendShdr shdr ∧
      (mapSection outs shdr).2 = ⟨some i, alignUp (outs.getD i default).size (shAlign shdr)⟩ := by
  rw [mapSection_eq, h]
  exact ⟨by rw [getD_modify _ _ hi, if_pos rfl], rfl⟩

theorem mapSection_miss {shdr : ElfShdr} (h : secTarget shdr ≠ some i) :
    (mapSection outs shdr).1.getD i default = outs.getD i default ∧
      (mapSection outs shdr).2.outSecIdx ≠ some i := by
  rw [mapSection_target, mapSection_eq]
  refine ⟨?_, h⟩
  cases hj : secTarget shdr with
  | none => rfl
  | some j =>
    have hne : j ≠ i := fun heq => h (hj.trans (congrArg some heq))
    exact (getD_modify _ _ hi).trans (if_neg hne)

theorem mapSections_spec (shdrs : List ElfShdr) :
    (mapSections outs shdrs).1.length = outs.length ∧
    (mapSections outs shdrs).1.getD i default =
      (shdrs.filter (secTarget · == some i)).foldl OutSec.appendShdr (outs.getD i default) ∧
    mappedTo i shdrs (mapSections outs shdrs).2 =
      wordPack ElfShdr.size shAlign (outs.getD i default).size
        (shdrs.filter (secTarget · == some i)) := by
  induction shdrs generalizing outs with
  | nil => exact ⟨rfl, rfl, rfl⟩
  | cons shdr shdrs ih =>
    obtain ⟨hlen, hout, hmap⟩ := ih (by rwa [mapSection_length outs shdr])
    simp only [mappedTo] at hmap
    simp only [mapSections, mappedTo, List.zip_cons_cons, List.filterMap_cons, List.filter_cons]
    refine ⟨hlen.trans (mapSection_length outs shdr), ?_⟩
    by_cases h : secTarget shdr = some i
    · obtain ⟨hsec, hm⟩ := mapSection_hit hi h
      simp only [hout, hmap, hsec, hm, h, beq_self_eq_true, if_true, List.foldl_cons, wordPack,
        true_and]
      rw [OutSec.appendShdr, append_size _ _ _ (shAlign_pos shdr)]
    · obtain ⟨hsec, hm⟩ := mapSection_miss hi h
      simp only [hout, hmap, hsec, beq_iff_eq, if_neg h, if_neg hm, and_self]

theorem mapFiles_spec (objs : List ElfObj) :
    (mapFiles outs objs).1.length = outs.length ∧
    (mapFiles outs objs).1.getD i default =
      (shdrsOf objs i).foldl OutSec.appendShdr (outs.getD i default) ∧
    ((mapFiles outs objs).2.flatMap fun inp => mappedTo i inp.obj.shdrs inp.secMap) =
      wordPack ElfShdr.size shAlign (outs.getD i default).size (shdrsOf objs i) := by
  induction objs generalizing outs with
  | nil => exact ⟨rfl, rfl, rfl⟩
  | cons obj objs ih =>
    obtain ⟨hlen₁, hout₁, hmap₁⟩ := mapSections_spec hi obj.shdrs
    obtain ⟨hlen, hout, hmap⟩ := ih (by rwa [hlen₁])
    simp only [mapFiles, List.flatMap_cons, shdrsOf, List.filter_append, List.foldl_append,
      wordPack_append] at hout hmap ⊢
    refine ⟨hlen.trans hlen₁, hout.trans (by rw [hout₁]), ?_⟩
    rw [hmap₁, hmap, hout₁, foldl_appendShdr_size]

end

/-! ### COMMON symbols -/

/-- The allocation of a COMMON symbol at an offset. -/
def commonAt (p : ElfSym × Nat) : Common := ⟨p.1.name, p.2, p.1.size, commonAlign p.1⟩

theorem commonAlign_pos (sym : ElfSym) : 0 < commonAlign sym := by
  unfold commonAlign
  split <;> omega

/-- What the symbols `syms` of step 5 do to the output sections: the COMMON ones are packed at
    the end of `.bss`. -/
structure BssGrown (syms : List ElfSym) (st st' : Tables) : Prop where
  length : st'.outs.length = st.outs.length
  others : ∀ j, j ≠ OUT_SEC_BSS → st'.outs.getD j default = st.outs.getD j default
  vaddr : st'.bss.vaddr = st.bss.vaddr
  type : st'.bss.type = st.bss.type
  size : st'.bss.size = wordEnd ElfSym.size commonAlign st.bss.size (syms.filter isCommon)
  commons : st'.commons = st.commons ++
    (wordPack ElfSym.size commonAlign st.bss.size (syms.filter isCommon)).map commonAt

theorem BssGrown.refl (st : Tables) : BssGrown [] st st :=
  ⟨rfl, fun _ _ => rfl, rfl, rfl, rfl, (List.append_nil _).symm⟩

theorem BssGrown.trans {syms syms' : List ElfSym} {st st' st'' : Tables} (h : BssGrown syms st st')
    (h' : BssGrown syms' st' st'') : BssGrown (syms ++ syms') st st'' := by
  refine ⟨h'.length.trans h.length, fun j hj => (h'.others j hj).trans (h.others j hj),
    h'.vaddr.trans h.vaddr, h'.type.trans h.type, ?_, ?_⟩
  · rw [h'.size, h.size, List.filter_append, wordEnd_append]
  · rw [h'.commons, h.commons, h.size, List.filter_append, wordPack_append, List.map_append,
      List.append_assoc]

theorem addSymbol_bssGrown {inp : Input} {st st' : Tables} (hlen : OUT_SEC_BSS < st.outs.length)
    {i : Nat} {sym : ElfSym} (h : addSymbol inp st i sym = some st') : BssGrown [sym] st st' := by
  obtain ⟨houts, hcommons⟩ := addSymbol_allocates h
  by_cases hcommon : isCommon sym
  · simp only [hcommon, if_true] at houts hcommons
    have hbss : st'.bss = st.bss.append [] sym.size (commonAlign sym) := by
      rw [Tables.bss, houts, getD_modify _ _ hlen, if_pos rfl]
      rfl
    refine ⟨by rw [houts, List.length_modify], fun j hj => ?_, by rw [hbss]; rfl, by rw [hbss]; rfl,
      ?_, ?_⟩
    · simp [houts, List.getD_eq_getElem?_getD, Ne.symm hj]
    · rw [hbss, append_size _ _ _ (commonAlign_pos sym)]
      simp [hcommon, wordEnd]
    · simp [hcommons, hcommon, wordPack, commonAt]
  · simp only [hcommon, Bool.false_eq_true, if_false, List.append_nil] at houts hcommons
    refine ⟨by rw [houts], fun j _ => by rw [houts], ?_, ?_, ?_, ?_⟩
    · rw [Tables.bss, houts, Tables.bss]
    · rw [Tables.bss, houts, Tables.bss]
    · rw [Tables.bss, houts]
      simp [hcommon, wordEnd, Tables.bss]
    · simp [hcommons, hcommon, wordPack]

theorem addSymbols_bssGrown {inp : Input} {st st' : Tables} (hlen : OUT_SEC_BSS < st.outs.length)
    {i : Nat} {syms : List ElfSym} (h : addSymbols inp st i syms = some st') :
    BssGrown syms st st' := by
  induction syms generalizing st i with
  | nil =>
    cases h
    exact .refl _
  | cons sym syms ih =>
    simp only [addSymbols, Option.bind_eq_some_iff] at h
    obtain ⟨st₁, h1, h2⟩ := h
    have hgrown := addSymbol_bssGrown hlen h1
    exact hgrown.trans (ih (by rwa [hgrown.length]) h2)

theorem addFiles_bssGrown {ins : List Input} {st st' : Tables} (hlen : OUT_SEC_BSS < st.outs.length)
    (h : addFiles st ins = some st') : BssGrown (ins.flatMap (·.obj.symtab)) st st' := by
  induction ins generalizing st with
  | nil =>
    cases h
    exact .refl _
  | cons inp ins ih =>
    simp only [addFiles, List.foldlM_cons, Option.bind_eq_bind, Option.bind_eq_some_iff] at h
    obtain ⟨st₁, h1, h2⟩ := h
    have hgrown := addSymbols_bssGrown hlen h1
    exact hgrown.trans (ih (by rwa [hgrown.length]) h2)

end Gemios.Ld
