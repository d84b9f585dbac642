import Gemios.ElfObject
import Mathlib.Algebra.Ring.Nat
import Mathlib.Data.List.Nodup
import Mathlib.Data.List.Perm.Subperm

/-!
# Where an object file has its parts

The section headers in the order in which they are made, their names in `.shstrtab`, the symbols and
their names in `.strtab`, and that the pieces of the file lie one behind the other.
-/

namespace Gemios

theorem toNat_land_add (y m : BitVec 32) : (y &&& ~~~m).toNat + (y &&& m).toNat = y.toNat := by
  have hapart : (y &&& ~~~m) &&& (y &&& m) = 0#32 := by
    apply BitVec.eq_of_getLsbD_eq
    intro i hi
    cases hm : m.getLsbD i <;> simp [hm]
  have hwhole : (y &&& ~~~m) + (y &&& m) = y := by
    rw [BitVec.add_eq_or_of_and_eq_zero _ _ hapart]
    apply BitVec.eq_of_getLsbD_eq
    intro i hi
    cases hm : m[i] <;> simp [hm, hi]
  rw [← BitVec.toNat_add_of_and_eq_zero hapart, hwhole]

theorem alignUp_bounds {x align : Nat} (halign : 0 < align) (h : x + align ≤ 4294967296) :
    x ≤ alignUp x align ∧ alignUp x align < x + align := by
  have hy : (BitVec.ofNat 32 (x + align - 1)).toNat = x + align - 1 := by
    rw [BitVec.toNat_ofNat]
    exact Nat.mod_eq_of_lt (by omega)
  have hm : (BitVec.ofNat 32 (align - 1)).toNat = align - 1 := by
    rw [BitVec.toNat_ofNat]
    exact Nat.mod_eq_of_lt (by omega)
  have hmask : 4294967296 - align = (~~~BitVec.ofNat 32 (align - 1)).toNat := by
    rw [BitVec.toNat_not, hm]
    omega
  have hround : alignUp x align =
      (BitVec.ofNat 32 (x + align - 1) &&& ~~~BitVec.ofNat 32 (align - 1)).toNat := by
    rw [alignUp, u32_of_lt (by omega), hmask, BitVec.toNat_and, hy]
  have hsplit := toNat_land_add (BitVec.ofNat 32 (x + align - 1)) (BitVec.ofNat 32 (align - 1))
  have hlow : (BitVec.ofNat 32 (x + align - 1) &&& BitVec.ofNat 32 (align - 1)).toNat ≤ align - 1 := by
    rw [BitVec.toNat_and, hm]
    exact Nat.and_le_right
  omega

namespace As

/-! ### The symbol table -/

/-- The entry of a symbol, whose name is in the string table. -/
structure Asm.IsEntry (st : Asm) (strtab : List UInt8) (i : Nat) (e : RawSym) : Prop where
  eq : e = st.rawSym e.name i
  name : InTable strtab e.name (st.sym i).name
  lt : e.name < 4294967296

/-- The names of symbols, as they are put into the string table. -/
def Asm.symNames (st : Asm) (is : List Nat) : List UInt8 := is.flatMap fun i => (st.sym i).name ++ [0]

theorem SymTables.foldl_strtab (st : Asm) (is : List Nat) (t : SymTables) :
    (is.foldl (SymTables.add st) t).strtab = t.strtab ++ st.symNames is := by
  induction is generalizing t with
  | nil => simp [Asm.symNames]
  | cons i is ih =>
    rw [List.foldl_cons, ih]
    simp [SymTables.add, Asm.symNames]

/-- **The tables of the symbols**: an entry for each, in order, and its index. -/
theorem SymTables.foldl_add (st : Asm) (is : List Nat) (t : SymTables) (hnodup : is.Nodup)
    (hroom : t.strtab.length + (st.symNames is).length < 4294967296) :
    (∃ es, (is.foldl (SymTables.add st) t).entries = t.entries ++ es ∧
      List.Forall₂ (Asm.IsEntry st (t.strtab ++ st.symNames is)) is es) ∧
      (∀ i ∈ is, (is.foldl (SymTables.add st) t).reindex i = t.entries.length + is.idxOf i) ∧
        ∀ i, i ∉ is → (is.foldl (SymTables.add st) t).reindex i = t.reindex i := by
  induction is generalizing t with
  | nil => exact ⟨⟨[], (List.append_nil _).symm, List.Forall₂.nil⟩, fun i hi => absurd hi List.not_mem_nil, fun i _ => rfl⟩
  | cons i is ih =>
    obtain ⟨hi, hrest⟩ := List.nodup_cons.mp hnodup
    have hnames : st.symNames (i :: is) = (st.sym i).name ++ [0] ++ st.symNames is := rfl
    have hadd : (SymTables.add st t i).strtab = t.strtab ++ (st.sym i).name ++ [0] := rfl
    have hlen : (SymTables.add st t i).entries.length = t.entries.length + 1 := by simp [SymTables.add]
    have htab : (SymTables.add st t i).strtab ++ st.symNames is = t.strtab ++ st.symNames (i :: is) := by
      simp [hadd, hnames]
    have hroom' : (SymTables.add st t i).strtab.length + (st.symNames is).length < 4294967296 := by
      rw [← List.length_append, htab, List.length_append]
      exact hroom
    obtain ⟨⟨es, hes, hentries⟩, hidx, hkeep⟩ := ih (SymTables.add st t i) hrest hroom'
    rw [htab] at hentries
    have hentry : Asm.IsEntry st (t.strtab ++ st.symNames (i :: is)) i (st.rawSym (u32 t.strtab.length) i) := by
      refine ⟨rfl, ?_, u32_lt _⟩
      rw [← htab, hadd, Asm.rawSym, u32_of_lt (by omega)]
      exact (InTable.snoc t.strtab (st.sym i).name).more _
    refine ⟨⟨_ :: es, ?_, List.Forall₂.cons hentry hentries⟩, ?_, ?_⟩
    · rw [List.foldl_cons, hes]
      simp [SymTables.add]
    · intro j hj
      rw [List.foldl_cons]
      rcases List.mem_cons.mp hj with rfl | hmem
      · rw [hkeep j hi]
        simp [SymTables.add]
      · have hne : i ≠ j := fun hij => hi (hij ▸ hmem)
        rw [hidx j hmem, hlen, List.idxOf_cons_ne _ hne]
        omega
    · intro j hj
      rw [List.mem_cons, not_or] at hj
      rw [List.foldl_cons, hkeep j hj.2]
      exact Function.update_of_ne hj.1 _ _

/-! ### The section headers -/

/-- One more header, whose part of the file is `piece`. -/
structure Headers.Adds (h h' : Headers) (s : RawShdr) (name : List UInt8) (piece : List (Nat × List UInt8))
    (room : Nat) : Prop where
  shdrs : h'.shdrs = h.shdrs ++ [s]
  shstrtab : h'.shstrtab = h.shstrtab ++ name ++ [0]
  name : s.name = u32 h.shstrtab.length
  stacked : Stacked h.cur piece h'.cur
  room : h'.cur ≤ h.cur + room

section

variable {α : Type} (name : α → List UInt8) (piece : α → RawShdr → List (Nat × List UInt8)) (room : α → Nat)
  (P : α → RawShdr → Prop)

/-- The names of headers, as they are put into the string table. -/
def headerNames (as : List α) : List UInt8 := as.flatMap fun a => name a ++ [0]

/-- More headers, one for each of `as`. -/
structure Headers.Ran (h h' : Headers) (as : List α) (ss : List RawShdr) : Prop where
  shdrs : h'.shdrs = h.shdrs ++ ss
  shstrtab : h'.shstrtab = h.shstrtab ++ headerNames name as
  entries : List.Forall₂ (fun a s => P a s ∧ InTable h'.shstrtab s.name (name a) ∧ s.name < 4294967296) as ss
  stacked : Stacked h.cur ((as.zip ss).flatMap fun p => piece p.1 p.2) h'.cur
  room : h'.cur ≤ h.cur + (as.map room).sum

theorem Headers.run {f : Headers → α → Headers} (as : List α)
    (hstep : ∀ a ∈ as, ∀ h : Headers, h.cur + room a < 4294967296 →
      ∃ s, P a s ∧ h.Adds (f h a) s (name a) (piece a s) (room a)) (h : Headers)
    (hroom : h.cur + (as.map room).sum < 4294967296)
    (hnames : h.shstrtab.length + (headerNames name as).length < 4294967296) :
    ∃ ss, Headers.Ran name piece room P h (as.foldl f h) as ss := by
  induction as generalizing h with
  | nil =>
    exact ⟨[], (List.append_nil _).symm, (List.append_nil _).symm, List.Forall₂.nil, Nat.le_refl _,
      Nat.le_add_right _ _⟩
  | cons a as ih =>
    rw [List.map_cons, List.sum_cons] at hroom
    obtain ⟨s, hs, hadds⟩ := hstep a List.mem_cons_self h (by omega)
    have hcur := hadds.room
    have htab : (f h a).shstrtab ++ headerNames name as = h.shstrtab ++ headerNames name (a :: as) := by
      rw [hadds.shstrtab]
      simp [headerNames]
    have hnames' : (f h a).shstrtab.length + (headerNames name as).length < 4294967296 := by
      rw [← List.length_append, htab, List.length_append]
      exact hnames
    obtain ⟨ss, hran⟩ := ih (fun b hb => hstep b (List.mem_cons_of_mem a hb)) (f h a) (by omega) hnames'
    refine ⟨s :: ss, ?_, ?_, ?_, ?_, ?_⟩
    · rw [List.foldl_cons, hran.shdrs, hadds.shdrs, List.append_assoc]
      rfl
    · rw [List.foldl_cons, hran.shstrtab, htab]
    · apply List.Forall₂.cons _ hran.entries
      refine ⟨hs, ?_, hadds.name ▸ u32_lt _⟩
      rw [hadds.name, u32_of_lt (by omega), hran.shstrtab, hadds.shstrtab]
      exact (InTable.snoc h.shstrtab (name a)).more _
    · exact hadds.stacked.append hran.stacked
    · have hrest := hran.room
      rw [List.map_cons, List.sum_cons, List.foldl_cons]
      omega

end

/-! ### Sections and relocation sections -/

def Section.piece (sec : Section) (s : RawShdr) : List (Nat × List UInt8) :=
  if sec.type ≠ SHT_NOBITS ∧ sec.size > 0 then [(s.offset, sec.data)] else []

structure Section.IsHeader (sec : Section) (s : RawShdr) : Prop where
  eq : s = sec.rawShdr s.name s.offset
  offset : s.offset < 4294967296

theorem Section.shAlign_pos (sec : Section) : 0 < sec.shAlign := by
  rw [Section.shAlign]
  split
  · apply Nat.pos_of_ne_zero
    assumption
  · decide

theorem Headers.addSection_adds {sec : Section} (hdata : sec.type ≠ SHT_NOBITS → sec.data.length = sec.size)
    {h : Headers} (hroom : h.cur + (sec.size + sec.shAlign) < 4294967296) :
    ∃ s, sec.IsHeader s ∧
      h.Adds (h.addSection sec) s sec.name (sec.piece s) (sec.size + sec.shAlign) := by
  have hup := alignUp_bounds (x := h.cur) sec.shAlign_pos (by omega)
  by_cases hstored : sec.type ≠ SHT_NOBITS ∧ sec.size > 0
  · have hadd : h.addSection sec =
        ⟨h.shdrs ++ [sec.rawShdr (u32 h.shstrtab.length) (alignUp h.cur sec.shAlign)],
          h.shstrtab ++ sec.name ++ [0], u32 (alignUp h.cur sec.shAlign + sec.size)⟩ := by
      simp only [Headers.addSection, if_pos hstored]
    rw [u32_of_lt (n := alignUp h.cur sec.shAlign + sec.size) (by omega)] at hadd
    refine ⟨sec.rawShdr (u32 h.shstrtab.length) (alignUp h.cur sec.shAlign), ⟨rfl, ?_⟩, ?_⟩
    · exact Nat.lt_of_lt_of_le hup.2 (by omega)
    · rw [hadd, Section.piece, if_pos hstored]
      refine ⟨rfl, rfl, rfl, ⟨hup.1, ?_⟩, ?_⟩
      · exact Nat.le_of_eq (by rw [hdata hstored.1]; rfl)
      · dsimp only
        omega
  · have hadd : h.addSection sec =
        ⟨h.shdrs ++ [sec.rawShdr (u32 h.shstrtab.length) h.cur], h.shstrtab ++ sec.name ++ [0], h.cur⟩ := by
      simp only [Headers.addSection, if_neg hstored]
    refine ⟨sec.rawShdr (u32 h.shstrtab.length) h.cur, ⟨rfl, ?_⟩, ?_⟩
    · exact Nat.lt_of_le_of_lt (Nat.le_add_right _ _) hroom
    · rw [hadd, Section.piece, if_neg hstored]
      exact ⟨rfl, rfl, rfl, Nat.le_refl _, Nat.le_add_right _ _⟩

def relBytes (rels : List ElfRel) : List UInt8 := rels.flatMap ElfRel.bytes

theorem length_relBytes (rels : List ElfRel) : (relBytes rels).length = 8 * rels.length :=
  length_records ElfRel.bytes (w := 8) (fun _ => rfl) rels

structure Asm.IsRelHeader (st : Asm) (secIdx : Nat) (s : RawShdr) : Prop where
  eq : s = st.rawRelShdr secIdx s.name s.offset
  offset : s.offset < 4294967296

def Asm.secName (st : Asm) (secIdx : Nat) : List UInt8 := (st.sections.getD secIdx noSection).name

theorem Headers.addRel_adds {st : Asm} {secIdx : Nat} {h : Headers}
    (hroom : h.cur + (8 * (st.relocsOf secIdx).length + 4) < 4294967296) :
    ∃ s, st.IsRelHeader secIdx s ∧ h.Adds (h.addRel st secIdx) s (relName (st.secName secIdx))
      [(s.offset, relBytes (st.relRecords secIdx))] (8 * (st.relocsOf secIdx).length + 4) := by
  have hup : h.cur ≤ alignUp h.cur 4 ∧ alignUp h.cur 4 < h.cur + 4 := alignUp_bounds (by decide) (by omega)
  have hlen : (relBytes (st.relRecords secIdx)).length = 8 * (st.relocsOf secIdx).length := by
    simp [length_relBytes, Asm.relRecords]
  have hend : u32 (alignUp h.cur 4 + u32 (8 * (st.relocsOf secIdx).length)) =
      alignUp h.cur 4 + 8 * (st.relocsOf secIdx).length := by
    rw [u32_of_lt (n := 8 * (st.relocsOf secIdx).length) (by omega), u32_of_lt (by omega)]
  refine ⟨st.rawRelShdr secIdx (u32 h.shstrtab.length) (alignUp h.cur 4), ⟨rfl, ?_⟩, rfl, rfl, rfl,
    ⟨hup.1, ?_⟩, ?_⟩
  · exact Nat.lt_of_lt_of_le hup.2 (by omega)
  · apply Nat.le_of_eq
    rw [hlen]
    exact hend.symm
  · apply Nat.le_trans (Nat.le_of_eq hend)
    omega

/-! ### The pieces -/

theorem flatMap_zip {α β γ : Type} {R : α → β → Prop} {as : List α} {bs : List β}
    (h : List.Forall₂ R as bs) {F : α → List γ} {g : α → β → List γ} (hF : ∀ a b, (a, b) ∈ as.zip bs → F a = g a b) :
    as.flatMap F = (as.zip bs).flatMap fun p => g p.1 p.2 := by
  induction h with
  | nil => rfl
  | cons hab hrest ih =>
    rw [List.zip_cons_cons, List.flatMap_cons, List.flatMap_cons, hF _ _ List.mem_cons_self,
      ih fun a b hmem => hF a b (List.mem_cons_of_mem _ hmem)]

theorem flatMap_range'_zip {α β γ : Type} {R : α → β → Prop} {as : List α} {bs : List β}
    (h : List.Forall₂ R as bs) {F : Nat → List γ} {g : α → β → List γ} {k : Nat}
    (hF : ∀ j a b, as[j]? = some a → bs[j]? = some b → F (k + j) = g a b) :
    (List.range' k as.length).flatMap F = (as.zip bs).flatMap fun p => g p.1 p.2 := by
  induction h generalizing k with
  | nil => rfl
  | cons hab hrest ih =>
    have hhead := hF 0 _ _ rfl rfl
    have htail := ih (k := k + 1) fun j a b ha hb => by
      rw [Nat.add_assoc, Nat.add_comm 1 j]
      exact hF (j + 1) a b ha hb
    rw [List.length_cons, List.range'_succ, List.flatMap_cons, List.zip_cons_cons, List.flatMap_cons, htail]
    exact congrArg (· ++ _) hhead

theorem exists_of_mem_right {α β : Type} {R : α → β → Prop} {as : List α} {bs : List β}
    (h : List.Forall₂ R as bs) {b : β} (hb : b ∈ bs) : ∃ a ∈ as, R a b := by
  induction h with
  | nil => exact absurd hb List.not_mem_nil
  | cons hab hrest ih =>
    rcases List.mem_cons.mp hb with rfl | hmem
    · exact ⟨_, List.mem_cons_self, hab⟩
    · obtain ⟨a, ha, hR⟩ := ih hmem
      exact ⟨a, List.mem_cons_of_mem _ ha, hR⟩

theorem flatMap_filter_of_nil {α γ : Type} {F : α → List γ} {p : α → Bool} {as : List α}
    (h : ∀ a ∈ as, p a = false → F a = []) : as.flatMap F = (as.filter p).flatMap F := by
  induction as with
  | nil => rfl
  | cons a as ih =>
    have hrest := ih fun b hb => h b (List.mem_cons_of_mem a hb)
    rw [List.flatMap_cons, hrest]
    cases hp : p a with
    | true => rw [List.filter_cons_of_pos hp, List.flatMap_cons]
    | false =>
      have hnot : ¬p a = true := by simp [hp]
      rw [List.filter_cons_of_neg hnot, h a List.mem_cons_self hp, List.nil_append]

theorem find?_relHeader {st : Asm} {is : List Nat} {rs : List RawShdr}
    (h : List.Forall₂ st.IsRelHeader is rs) (i : Nat) :
    (i ∉ is → rs.find? (RawShdr.isRelOf i) = none) ∧
      ∀ s, is.Nodup → (i, s) ∈ is.zip rs → rs.find? (RawShdr.isRelOf i) = some s := by
  induction h with
  | nil => exact ⟨fun _ => rfl, fun s _ hmem => absurd hmem List.not_mem_nil⟩
  | @cons j r is rs hr hrest ih =>
    have htype : r.type = SHT_REL := by rw [hr.eq]; rfl
    have hinfo : r.info = j := by rw [hr.eq]; rfl
    constructor
    · intro hi
      rw [List.mem_cons, not_or] at hi
      have hne : ¬r.isRelOf i = true := by
        simp [RawShdr.isRelOf, hinfo, Ne.symm hi.1]
      rw [List.find?_cons_of_neg hne]
      exact ih.1 hi.2
    · intro s hnodup hmem
      obtain ⟨hj, hnodup'⟩ := List.nodup_cons.mp hnodup
      rcases List.mem_cons.mp hmem with heq | hin
      · obtain ⟨rfl, rfl⟩ := Prod.mk.inj heq
        apply List.find?_cons_of_pos
        simp [RawShdr.isRelOf, htype, hinfo]
      · have hne : j ≠ i := by
          intro hji
          exact hj (hji ▸ (List.of_mem_zip hin).1)
        have hnot : ¬r.isRelOf i = true := by
          simp [RawShdr.isRelOf, hinfo, hne]
        rw [List.find?_cons_of_neg hnot]
        exact ih.2 s hnodup' hin

@[simp] theorem linkTo_type (n : Nat) (s : RawShdr) : (s.linkTo n).type = s.type := by
  rw [RawShdr.linkTo]
  split <;> rfl

@[simp] theorem linkTo_info (n : Nat) (s : RawShdr) : (s.linkTo n).info = s.info := by
  rw [RawShdr.linkTo]
  split <;> rfl

@[simp] theorem linkTo_offset (n : Nat) (s : RawShdr) : (s.linkTo n).offset = s.offset := by
  rw [RawShdr.linkTo]
  split <;> rfl

/-! ### Tables that can be written -/

/-- Tables that an object file can hold: C strings, 32-bit words, buffers that are large enough. -/
structure Asm.Writable (st : Asm) : Prop where
  sections : st.sections.length ≤ MAX_SECTIONS
  symbols : st.symbols.length ≤ MAX_SYMBOLS
  relocs : st.relocs.length ≤ MAX_RELOCS
  full : ∀ sec ∈ st.sections, sec.type ≠ SHT_NOBITS → sec.data.length = sec.size
  types : ∀ sec ∈ st.sections, sec.type = 0 ∨ sec.type = SHT_PROGBITS ∨ sec.type = SHT_NOBITS
  words : ∀ sec ∈ st.sections, sec.flags < 4294967296 ∧ sec.align < 4294967296
  names : ∀ sec ∈ st.sections, (0 : UInt8) ∉ sec.name ∧ sec.name.length < 64
  symbolNames : ∀ s ∈ st.symbols, (0 : UInt8) ∉ s.name
  symbolWords : ∀ s ∈ st.symbols, s.value < 4294967296 ∧ s.size < 4294967296 ∧ s.type < 16 ∧
    (s.binding = STB_LOCAL ∨ s.binding = STB_GLOBAL) ∧ s.sectionIdx < 65536
  relocWords : ∀ r ∈ st.relocs, r.offset < 4294967296 ∧ r.type < 256
  relocIdxs : ∀ r ∈ st.relocs, (0 < r.sectionIdx ∧ r.sectionIdx < st.sections.length) ∧
    0 < r.symIdx ∧ r.symIdx < st.symbols.length
  /-- `rel_name` has 64 bytes. -/
  relNames : ∀ r ∈ st.relocs, (st.secName r.sectionIdx).length < 60
  strtab : (st.symNames st.symOrder).length < 131072
  fits : (st.sections.map fun sec => sec.size + sec.shAlign).sum + 4194304 ≤ 4294967296

theorem sum_map_le {α : Type} {f : α → Nat} {c : Nat} {as : List α} (h : ∀ a ∈ as, f a ≤ c) :
    (as.map f).sum ≤ as.length * c := by
  induction as with
  | nil => exact Nat.zero_le _
  | cons a as ih =>
    have ha := h a List.mem_cons_self
    have hrest := ih fun b hb => h b (List.mem_cons_of_mem a hb)
    rw [List.map_cons, List.sum_cons, List.length_cons, Nat.succ_mul]
    omega

theorem length_headerNames {α : Type} (name : α → List UInt8) (as : List α) :
    (headerNames name as).length = (as.map fun a => (name a).length + 1).sum := by
  simp [headerNames, List.length_flatMap]

theorem Asm.relSecs_length (st : Asm) : st.relSecs.length ≤ st.sections.length - 1 := by
  apply Nat.le_trans (List.length_filter_le _ _)
  simp

theorem Asm.symOrder_nodup (st : Asm) : st.symOrder.Nodup := by
  apply List.Nodup.append
  · exact List.Nodup.filter _ List.nodup_range'
  · exact List.Nodup.filter _ List.nodup_range'
  · intro i hlocal hglobal
    have hl := (List.mem_filter.mp hlocal).2
    have hg := (List.mem_filter.mp hglobal).2
    simp only [beq_iff_eq] at hl hg
    rw [hl] at hg
    cases hg

theorem Asm.symOrder_length (st : Asm) : st.symOrder.length ≤ st.symbols.length - 1 := by
  have hsub : st.symOrder ⊆ List.range' 1 (st.symbols.length - 1) := by
    intro i hi
    rcases List.mem_append.mp hi with h | h
    · exact List.mem_of_mem_filter h
    · exact List.mem_of_mem_filter h
  have hle := (List.subperm_of_subset st.symOrder_nodup hsub).length_le
  rwa [List.length_range'] at hle

namespace Asm.Writable

variable {st : Asm} (hw : st.Writable)

include hw

theorem secName_length (i : Nat) : (st.secName i).length ≤ 63 := by
  rw [Asm.secName, List.getD_eq_getElem?_getD]
  cases hsec : st.sections[i]? with
  | none => exact Nat.zero_le _
  | some sec => exact Nat.le_of_lt_succ (hw.names sec (List.mem_of_getElem? hsec)).2

theorem headerNames_length :
    (headerNames (·.name) (st.sections.drop 1)).length + (headerNames (fun i => relName (st.secName i)) st.relSecs).length ≤ 5000 := by
  have hsec : (headerNames (·.name) (st.sections.drop 1)).length ≤ (st.sections.drop 1).length * 64 := by
    rw [length_headerNames]
    exact sum_map_le fun sec hsec => (hw.names sec (List.mem_of_mem_drop hsec)).2
  have hrel : (headerNames (fun i => relName (st.secName i)) st.relSecs).length ≤ st.relSecs.length * 68 := by
    rw [length_headerNames]
    apply sum_map_le
    intro i _
    have hlen := hw.secName_length i
    simp only [relName, List.length_append]
    exact Nat.add_le_add (Nat.add_le_add_left hlen 4) (Nat.le_refl 1)
  have hsecs := hw.sections
  have hrels := st.relSecs_length
  rw [List.length_drop] at hsec
  simp only [MAX_SECTIONS] at hsecs
  omega

theorem sections_room :
    ((st.sections.drop 1).map fun sec => sec.size + sec.shAlign).sum + 4194304 ≤ 4294967296 := by
  have hfits := hw.fits
  have hsplit := congrArg List.sum (congrArg (List.map fun sec => sec.size + sec.shAlign)
    (List.take_append_drop 1 st.sections))
  rw [List.map_append, List.sum_append] at hsplit
  omega

theorem rels_room : (st.relSecs.map fun i => 8 * (st.relocsOf i).length + 4).sum ≤ 2031740 := by
  have hsum : (st.relSecs.map fun i => 8 * (st.relocsOf i).length + 4).sum ≤ st.relSecs.length * 65540 := by
    apply sum_map_le
    intro i _
    have hle : (st.relocsOf i).length ≤ st.relocs.length := List.length_filter_le _ _
    have hmax := hw.relocs
    simp only [MAX_RELOCS] at hmax
    omega
  have hsecs := hw.sections
  have hrels := st.relSecs_length
  simp only [MAX_SECTIONS] at hsecs
  omega

end Asm.Writable

/-! ### The whole file -/

/-- The headers and the symbols that are written, and that the pieces do not overlap. -/
structure Asm.Placed (st : Asm) (hs rs : List RawShdr) (es : List RawSym) : Prop where
  shdrs : st.headers.shdrs = noRawShdr :: (hs ++ rs)
  sections : List.Forall₂ (fun sec s => sec.IsHeader s ∧ InTable st.layout.shstrtab s.name sec.name ∧
    s.name < 4294967296) (st.sections.drop 1) hs
  rels : List.Forall₂ (fun i s => st.IsRelHeader i s ∧
    InTable st.layout.shstrtab s.name (relName (st.secName i)) ∧ s.name < 4294967296) st.relSecs rs
  entries : st.symTables.entries = noRawSym :: es
  symbols : List.Forall₂ (st.IsEntry st.symTables.strtab) st.symOrder es
  reindex : ∀ i ∈ st.symOrder, st.symTables.reindex i = st.symOrder.idxOf i + 1
  sectionPieces : st.sectionPieces = ((st.sections.drop 1).zip hs).flatMap fun p => p.1.piece p.2
  relPieces : st.relPieces = (st.relSecs.zip rs).flatMap fun p => [(p.2.offset, relBytes (st.relRecords p.1))]
  stacked : Stacked 0 st.pieces (st.layout.shoff + 40 * st.layout.shdrs.length)
  shoff : st.layout.shoff < 4294967296
  noName : InTable st.layout.shstrtab 0 [] ∧ InTable st.symTables.strtab 0 []
  tables : st.symTables.entries.length ≤ 4096 ∧ st.symTables.strtab.length ≤ 131072 ∧
    st.layout.shstrtab.length ≤ 65536

theorem length_symRecords (es : List RawSym) : (es.flatMap RawSym.bytes).length = 16 * es.length :=
  length_records RawSym.bytes (w := 16) (fun _ => rfl) es

theorem length_shdrRecords (ss : List RawShdr) : (ss.flatMap RawShdr.bytes).length = 40 * ss.length :=
  length_records RawShdr.bytes (w := 40) (fun _ => rfl) ss

theorem Asm.layout_shstrtab (st : Asm) : ∃ more, st.layout.shstrtab = st.headers.shstrtab ++ more := by
  refine ⟨str ".symtab" ++ [0] ++ (str ".strtab" ++ [0]) ++ (str ".shstrtab" ++ [0]), ?_⟩
  simp [Asm.layout]

theorem Asm.layout_shdrs (st : Asm) : ∃ tables : List RawShdr,
    st.layout.shdrs = st.headers.shdrs.map (RawShdr.linkTo st.headers.shdrs.length) ++ tables ∧
      tables.length = 3 ∧ ∀ s ∈ tables, s.type ≠ SHT_REL := by
  refine ⟨_, rfl, rfl, ?_⟩
  simp [SHT_SYMTAB, SHT_STRTAB, SHT_REL]

theorem isRelOf_linkTo (n i : Nat) : RawShdr.isRelOf i ∘ RawShdr.linkTo n = RawShdr.isRelOf i := by
  funext s
  simp [RawShdr.isRelOf]

theorem find?_layout {st : Asm} {hs rs : List RawShdr} (hshdrs : st.headers.shdrs = noRawShdr :: (hs ++ rs))
    (hsec : ∀ s ∈ hs, s.type ≠ SHT_REL) (i : Nat) :
    (st.layout.shdrs.drop 1).find? (RawShdr.isRelOf i) =
      (rs.find? (RawShdr.isRelOf i)).map (RawShdr.linkTo st.headers.shdrs.length) := by
  obtain ⟨tables, hlayout, -, htables⟩ := st.layout_shdrs
  have hnone : ∀ l : List RawShdr, (∀ s ∈ l, s.type ≠ SHT_REL) → l.find? (RawShdr.isRelOf i) = none := by
    intro l hl
    rw [List.find?_eq_none]
    intro s hs
    simp [RawShdr.isRelOf, hl s hs]
  have hdrop : st.layout.shdrs.drop 1 =
      (hs ++ rs).map (RawShdr.linkTo st.headers.shdrs.length) ++ tables := by
    rw [hlayout, hshdrs]
    rfl
  rw [hdrop, List.find?_append, hnone tables htables, Option.or_none, List.find?_map, isRelOf_linkTo,
    List.find?_append, hnone hs hsec, Option.none_or]

theorem Asm.stacked_tables (st : Asm) (hcur : st.headers.cur + 1000000 ≤ 4294967296)
    (hentries : st.symTables.entries.length ≤ 4096) (hstrtab : st.symTables.strtab.length ≤ 131072)
    (hshstrtab : st.layout.shstrtab.length ≤ 65536) :
    Stacked st.headers.cur
      [(st.layout.symtabOffset, st.symTables.entries.flatMap RawSym.bytes),
        (st.layout.strtabOffset, st.symTables.strtab), (st.layout.shstrtabOffset, st.layout.shstrtab),
        (st.layout.shoff, st.layout.shdrs.flatMap RawShdr.bytes)]
      (st.layout.shoff + 40 * st.layout.shdrs.length) ∧ st.layout.shoff < 4294967296 := by
  have hlen := length_symRecords st.symTables.entries
  have hlen' := length_shdrRecords st.layout.shdrs
  have h1 : st.headers.cur ≤ alignUp st.headers.cur 4 ∧ alignUp st.headers.cur 4 < st.headers.cur + 4 :=
    alignUp_bounds (by decide) (by omega)
  have hsymtab : st.layout.symtabOffset = alignUp st.headers.cur 4 := rfl
  have hstr : st.layout.strtabOffset = st.layout.symtabOffset + 16 * st.symTables.entries.length := by
    have hdef : st.layout.strtabOffset =
      u32 (alignUp st.headers.cur 4 + u32 (16 * st.symTables.entries.length)) := rfl
    rw [hdef, u32_of_lt (n := 16 * st.symTables.entries.length) (by omega), u32_of_lt (by omega), hsymtab]
  have hshstr : st.layout.shstrtabOffset = alignUp (st.layout.strtabOffset + st.symTables.strtab.length) 4 := by
    have hdef : st.layout.shstrtabOffset =
      alignUp (u32 (st.layout.strtabOffset + u32 st.symTables.strtab.length)) 4 := rfl
    rw [hdef, u32_of_lt (n := st.symTables.strtab.length) (by omega), u32_of_lt (by omega)]
  have h2 : st.layout.strtabOffset + st.symTables.strtab.length ≤ st.layout.shstrtabOffset ∧
      st.layout.shstrtabOffset < st.layout.strtabOffset + st.symTables.strtab.length + 4 := by
    rw [hshstr]
    exact alignUp_bounds (by decide) (by omega)
  have hshoff : st.layout.shoff = alignUp (st.layout.shstrtabOffset + st.layout.shstrtab.length) 4 := by
    have hdef : st.layout.shoff = alignUp (u32 (st.layout.shstrtabOffset + u32 st.layout.shstrtab.length)) 4 := rfl
    rw [hdef, u32_of_lt (n := st.layout.shstrtab.length) (by omega), u32_of_lt (by omega)]
  have h3 : st.layout.shstrtabOffset + st.layout.shstrtab.length ≤ st.layout.shoff ∧
      st.layout.shoff < st.layout.shstrtabOffset + st.layout.shstrtab.length + 4 := by
    rw [hshoff]
    exact alignUp_bounds (by decide) (by omega)
  refine ⟨⟨?_, ?_, ?_, ?_, ?_⟩, ?_⟩
  · exact h1.1
  · rw [hlen, hstr]
  · exact h2.1
  · exact h3.1
  · rw [hlen']
    exact Nat.le_refl _
  · omega

theorem Asm.Writable.placed {st : Asm} (hw : st.Writable) : ∃ hs rs es, st.Placed hs rs es := by
  have hroomS := hw.sections_room
  have hroomR := hw.rels_room
  have hnames := hw.headerNames_length
  obtain ⟨hs, hranS⟩ := Headers.run (·.name) Section.piece (fun sec => sec.size + sec.shAlign)
    Section.IsHeader (f := Headers.addSection) (st.sections.drop 1)
    (fun sec hsec h hroom => Headers.addSection_adds (hw.full sec (List.mem_of_mem_drop hsec)) hroom)
    ⟨[noRawShdr], [0], 52⟩ (by dsimp only; omega) (by simp only [List.length_singleton]; omega)
  have hcurS := hranS.room
  dsimp only at hcurS
  have htabS := congrArg List.length hranS.shstrtab
  simp only [List.length_append, List.length_singleton] at htabS
  obtain ⟨rs, hranR⟩ := Headers.run (fun i => relName (st.secName i))
    (fun i s => [(s.offset, relBytes (st.relRecords i))]) (fun i => 8 * (st.relocsOf i).length + 4)
    st.IsRelHeader (f := Headers.addRel st) st.relSecs (fun i _ h hroom => Headers.addRel_adds hroom)
    ((st.sections.drop 1).foldl Headers.addSection ⟨[noRawShdr], [0], 52⟩) (by omega) (by omega)
  have hheaders : st.relSecs.foldl (Headers.addRel st)
      ((st.sections.drop 1).foldl Headers.addSection ⟨[noRawShdr], [0], 52⟩) = st.headers := rfl
  rw [hheaders] at hranR
  have hcur := hranR.room
  obtain ⟨more, hmore⟩ := st.layout_shstrtab
  obtain ⟨⟨es, hes, hentries⟩, hidx, -⟩ := SymTables.foldl_add st st.symOrder ⟨[noRawSym], [0], fun _ => 0⟩
    st.symOrder_nodup (by
      have hstrtab := hw.strtab
      simp only [List.length_singleton]
      omega)
  have hzero : InTable [0] 0 [] := ⟨[], [], rfl, rfl⟩
  have hshdrs : st.headers.shdrs = noRawShdr :: (hs ++ rs) := by
    rw [hranR.shdrs, hranS.shdrs]
    rfl
  have htypes : ∀ s ∈ hs, s.type ≠ SHT_REL := by
    intro s hs'
    obtain ⟨sec, hsec, hhead, -⟩ := exists_of_mem_right hranS.entries hs'
    have htype : s.type = sec.type := by rw [hhead.eq]; rfl
    rw [htype]
    rcases hw.types sec (List.mem_of_mem_drop hsec) with h | h | h <;> rw [h] <;> decide
  have hrelH : List.Forall₂ st.IsRelHeader st.relSecs rs := hranR.entries.imp fun _ _ h => h.1
  have hnodup : st.relSecs.Nodup := List.Nodup.filter _ List.nodup_range'
  have hsectionPieces : st.sectionPieces = ((st.sections.drop 1).zip hs).flatMap fun p => p.1.piece p.2 := by
    obtain ⟨tables, hlayout, -, -⟩ := st.layout_shdrs
    rw [Asm.sectionPieces, ← List.length_drop]
    apply flatMap_range'_zip hranS.entries
    intro j sec s hsec hs'
    have hsec' : st.sections.getD (1 + j) noSection = sec := by
      rw [List.getElem?_drop] at hsec
      rw [List.getD_eq_getElem?_getD, hsec]
      rfl
    have hs'' : (st.layout.shdrs.getD (1 + j) noRawShdr).offset = s.offset := by
      have hj : j < hs.length := (List.getElem?_eq_some_iff.mp hs').1
      rw [List.getD_eq_getElem?_getD, hlayout, hshdrs, Nat.add_comm, List.map_cons, List.cons_append,
        List.getElem?_cons_succ, List.map_append, List.append_assoc,
        List.getElem?_append_left (by rwa [List.length_map]), List.getElem?_map, hs']
      exact linkTo_offset _ _
    simp only [hsec', hs'']
    rfl
  have hrelPieces : st.relPieces =
      (st.relSecs.zip rs).flatMap fun p => [(p.2.offset, relBytes (st.relRecords p.1))] := by
    rw [Asm.relPieces, flatMap_filter_of_nil (p := fun i => st.relocsOf i != [])]
    · apply flatMap_zip (g := fun i s => [(s.offset, relBytes (st.relRecords i))]) hrelH
      intro i s hmem
      rw [find?_layout hshdrs htypes, (find?_relHeader hrelH i).2 s hnodup hmem]
      simp [relBytes]
    · intro i hi hnone
      have hnot : i ∉ st.relSecs := by
        intro hmem
        have hsome := (List.mem_filter.mp hmem).2
        rw [hnone] at hsome
        cases hsome
      rw [find?_layout hshdrs htypes, (find?_relHeader hrelH i).1 hnot]
      rfl
  have hlenE : st.symTables.entries.length ≤ 4096 := by
    have hlen := hentries.length_eq
    have horder := st.symOrder_length
    have hmax := hw.symbols
    have hsplit : st.symTables.entries = noRawSym :: es := hes
    simp only [MAX_SYMBOLS] at hmax
    rw [hsplit, List.length_cons]
    omega
  have hlenT : st.symTables.strtab.length ≤ 131072 := by
    have hstrtab := hw.strtab
    have hsplit : st.symTables.strtab = [0] ++ st.symNames st.symOrder := SymTables.foldl_strtab _ _ _
    rw [hsplit, List.length_append, List.length_singleton]
    omega
  have hlenH : st.layout.shstrtab.length ≤ 65536 := by
    have hlen := congrArg List.length hranR.shstrtab
    have hlayout : st.layout.shstrtab.length = st.headers.shstrtab.length + 26 := by
      simp [Asm.layout, str]
    simp only [List.length_append] at hlen
    omega
  obtain ⟨hstacked, hshoff⟩ := st.stacked_tables (by omega) hlenE hlenT hlenH
  refine ⟨hs, rs, es, hshdrs, ?_, ?_, hes, ?_, ?_, hsectionPieces, hrelPieces, ⟨Nat.le_refl 0, ?_⟩, hshoff,
    ⟨?_, ?_⟩, hlenE, hlenT, hlenH⟩
  · apply hranS.entries.imp
    rintro sec s ⟨hs, htab, hlt⟩
    refine ⟨hs, ?_, hlt⟩
    rw [hmore, hranR.shstrtab, List.append_assoc]
    exact htab.more _
  · apply hranR.entries.imp
    rintro i s ⟨hs, htab, hlt⟩
    exact ⟨hs, hmore ▸ htab.more _, hlt⟩
  · rw [Asm.symTables, SymTables.foldl_strtab]
    exact hentries
  · intro i hi
    rw [Asm.symTables, hidx i hi, List.length_singleton, Nat.add_comm]
  rotate_left
  · rw [hmore, hranR.shstrtab, hranS.shstrtab]
    exact ((hzero.more _).more _).more _
  · rw [Asm.symTables, SymTables.foldl_strtab]
    exact hzero.more _
  · rw [hsectionPieces, hrelPieces]
    exact (hranS.stacked.append hranR.stacked).append hstacked

end As

end Gemios
