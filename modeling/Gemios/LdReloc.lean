import Mathlib.Algebra.Order.Ring.Int
import Gemios.LdPlace

/-!
# Relocation

Step 6 of the linker: what a relocation writes, and that relocations of separate fields do not
disturb each other.
-/

namespace Gemios.Ld

/-! ### Fields -/

/-- The number in the `w` bytes from `i` on, low byte first. -/
def leBytes (b : Buf) : Nat → Nat → Nat
  | _, 0 => 0
  | i, w + 1 => (b i).toNat + 256 * leBytes b (i + 1) w

theorem leBytes_congr {b b' : Buf} {i j w : Nat} (h : ∀ k < w, b (i + k) = b' (j + k)) :
    leBytes b i w = leBytes b' j w := by
  induction w generalizing i j with
  | zero => rfl
  | succ w ih =>
    have h0 := h 0 (Nat.succ_pos w)
    rw [Nat.add_zero, Nat.add_zero] at h0
    rw [leBytes, leBytes, h0, ih fun k hk => ?_]
    rw [Nat.add_assoc, Nat.add_assoc, Nat.add_comm 1]
    exact h (k + 1) (Nat.succ_lt_succ hk)

theorem leBytes_one (b : Buf) (i : Nat) : leBytes b i 1 = (b i).toNat := rfl

theorem leBytes_two (b : Buf) (i : Nat) : leBytes b i 2 = le16 b i := rfl

theorem leBytes_four (b : Buf) (i : Nat) : leBytes b i 4 = le32 b i := by
  simp only [leBytes, le32, le16, Nat.add_assoc, Nat.reduceAdd]
  omega

/-- The width of the field of a relocation type, 0 for a type that changes nothing. -/
def relWidth (type : Nat) : Nat :=
  if type = R_386_32 ∨ type = R_386_PC32 ∨ type = R_386_PLT32 then 4
  else if type = R_386_16 ∨ type = R_386_PC16 then 2
  else if type = R_386_8 ∨ type = R_386_PC8 then 1
  else 0

/-- The types whose value is relative to the place. -/
def isPcRel (type : Nat) : Bool :=
  type == R_386_PC32 || type == R_386_PLT32 || type == R_386_PC16 || type == R_386_PC8

/-- S + A, or S + A - P, modulo the width of the field. -/
def relocValue (type S P A : Nat) : Int :=
  ((S : Int) + A - if isPcRel type then (P : Int) else 0) % (256 ^ relWidth type : Nat)

section

variable (data : Buf) (loc : Nat)

theorem put32_field (v : Nat) :
    (∀ o, o < loc ∨ loc + 4 ≤ o → put32 data loc v o = data o) ∧
      leBytes (put32 data loc v) loc 4 = v % 4294967296 :=
  ⟨fun _ => put32_of_ne, by rw [leBytes_four, le32_put32]⟩

theorem put16_field (v : Nat) :
    (∀ o, o < loc ∨ loc + 2 ≤ o → put16 data loc v o = data o) ∧
      leBytes (put16 data loc v) loc 2 = v % 65536 :=
  ⟨fun _ => put16_of_ne, by rw [leBytes_two, le16_put16]⟩

theorem put8_field (v : Nat) :
    (∀ o, o < loc ∨ loc + 1 ≤ o → (fun i => if i = loc then UInt8.ofNat v else data i) o = data o) ∧
      leBytes (fun i => if i = loc then UInt8.ofNat v else data i) loc 1 = v % 256 := by
  refine ⟨fun o ho => if_neg (by omega), ?_⟩
  rw [leBytes_one]
  simp only [if_true, UInt8.toNat_ofNat']

theorem relocate_eq (type S P : Nat) : relocate data loc type S P =
    let v := fun A => S + A + if isPcRel type then 4294967296 - P else 0
    if relWidth type = 4 then put32 data loc (u32 (v (le32 data loc)))
    else if relWidth type = 2 then put16 data loc (u16 (v (le16 data loc)))
    else if relWidth type = 1 then
      fun i => if i = loc then UInt8.ofNat (v (data loc).toNat) else data i
    else data := by
  by_cases h : type = R_386_32 ∨ type = R_386_PC32 ∨ type = R_386_PLT32 ∨ type = R_386_16 ∨
      type = R_386_PC16 ∨ type = R_386_8 ∨ type = R_386_PC8
  · rcases h with rfl | rfl | rfl | rfl | rfl | rfl | rfl <;> rfl
  · simp only [not_or] at h
    simp only [relocate, relWidth, h, or_self, if_false, Nat.reduceEqDiff]

theorem relWidth_cases (type : Nat) :
    relWidth type = 4 ∨ relWidth type = 2 ∨ relWidth type = 1 ∨ relWidth type = 0 := by
  unfold relWidth
  split_ifs <;> simp

theorem relocate_spec {type P : Nat} (S : Nat) (hP : P < 4294967296) :
    (∀ o, o < loc ∨ loc + relWidth type ≤ o → relocate data loc type S P o = data o) ∧
      (leBytes (relocate data loc type S P) loc (relWidth type) : Int) =
        relocValue type S P (leBytes data loc (relWidth type)) := by
  rw [relocate_eq, relocValue]
  rcases relWidth_cases type with hw | hw | hw | hw
  · simp only [hw, if_true]
    obtain ⟨hout, hfield⟩ := put32_field data loc
      (u32 (S + le32 data loc + if isPcRel type then 4294967296 - P else 0))
    refine ⟨hout, ?_⟩
    rw [hfield, leBytes_four, u32]
    split <;> omega
  · simp only [hw, if_true, Nat.reduceEqDiff, if_false]
    obtain ⟨hout, hfield⟩ := put16_field data loc
      (u16 (S + le16 data loc + if isPcRel type then 4294967296 - P else 0))
    refine ⟨hout, ?_⟩
    rw [hfield, leBytes_two, u16]
    split <;> omega
  · simp only [hw, if_true, OfNat.one_ne_ofNat, if_false]
    obtain ⟨hout, hfield⟩ := put8_field data loc
      (S + (data loc).toNat + if isPcRel type then 4294967296 - P else 0)
    refine ⟨hout, ?_⟩
    rw [hfield, leBytes_one]
    split <;> omega
  · simp only [hw, OfNat.zero_ne_ofNat, if_false, Nat.zero_ne_one, leBytes]
    exact ⟨by simp, by simp⟩

end

/-! ### Values of symbols -/

/-- The value of a name in the table, 0 for a name that is not in it. -/
def valueOf (globals : List GlobalSym) (name : List UInt8) : Nat :=
  ((entry globals name).map (·.vaddr)).getD 0

/-- The value of a symbol of a file for a relocation. -/
def symValue (st : Tables) (inp : Input) (sym : ElfSym) : Nat :=
  if sym.bind = STB_LOCAL ∧ sym.shndx ≠ SHN_UNDEF then symVaddr st.outs inp sym
  else valueOf st.globals sym.name

theorem findOrAddGlobalSym_valueOf {globals globals' : List GlobalSym} {name : List UInt8} {i : Nat}
    (h : findOrAddGlobalSym globals name = some (globals', i)) :
    (globals'.getD i noGlobal).vaddr = valueOf globals name ∧
      ∀ n, valueOf globals' n = valueOf globals n := by
  simp only [findOrAddGlobalSym] at h
  split at h
  · rename_i j hj
    cases h
    obtain ⟨g, hget, hentry⟩ := findGlobal_eq_some hj
    exact ⟨by simp [valueOf, hentry, hget], fun _ => rfl⟩
  · rename_i hnone
    have hentry := findGlobal_eq_none.mp hnone
    split at h
    · contradiction
    · cases h
      refine ⟨by simp [valueOf, hentry, noGlobal], fun n => ?_⟩
      rw [valueOf, entry_append, valueOf]
      cases entry globals n with
      | some g => rfl
      | none =>
        simp only [Option.none_or]
        split <;> rfl

/-- The tables differ in the contents of output sections and in entries without a value. -/
structure SameShape (st st' : Tables) : Prop where
  length : st'.outs.length = st.outs.length
  vaddr : ∀ j, (st'.outs.getD j default).vaddr = (st.outs.getD j default).vaddr
  size : ∀ j, (st'.outs.getD j default).size = (st.outs.getD j default).size
  type : ∀ j, (st'.outs.getD j default).type = (st.outs.getD j default).type
  values : ∀ n, valueOf st'.globals n = valueOf st.globals n
  commons : st'.commons = st.commons

theorem SameShape.refl (st : Tables) : SameShape st st :=
  ⟨rfl, fun _ => rfl, fun _ => rfl, fun _ => rfl, fun _ => rfl, rfl⟩

theorem SameShape.trans {st st' st'' : Tables} (h : SameShape st st') (h' : SameShape st' st'') :
    SameShape st st'' :=
  ⟨h'.length.trans h.length, fun j => (h'.vaddr j).trans (h.vaddr j),
    fun j => (h'.size j).trans (h.size j), fun j => (h'.type j).trans (h.type j),
    fun n => (h'.values n).trans (h.values n), h'.commons.trans h.commons⟩

section

variable {st st' : Tables} (h : SameShape st st')

include h

theorem SameShape.mapVaddr (m : SecMap) : m.vaddr st'.outs = m.vaddr st.outs := by
  unfold SecMap.vaddr
  split
  · rw [h.vaddr]
  · rfl

theorem SameShape.symValue (inp : Input) (sym : ElfSym) :
    Ld.symValue st' inp sym = Ld.symValue st inp sym := by
  simp only [Ld.symValue, symVaddr, h.mapVaddr, h.values]

end

/-! ### One relocation -/

/-- A relocation of a file: the section it is for, the output section, and the entry. -/
structure Op where
  inp : Input
  target : Nat
  out : Nat
  rel : ElfRel

/-- The place of the field in the output section. -/
def Op.loc (op : Op) : Nat := (op.inp.map op.target).outOffset + op.rel.offset

def Op.width (op : Op) : Nat := relWidth op.rel.type

def Op.sym (op : Op) : ElfSym := op.inp.obj.symtab.getD op.rel.sym noSym

def Op.place (op : Op) (outs : List OutSec) : Nat :=
  u32 ((op.inp.map op.target).vaddr outs + op.rel.offset)

def Op.apply (st : Tables) (op : Op) : Option Tables := applyRel op.inp op.target op.out st op.rel

/-- The bytes of output section `j`. -/
def Tables.data (st : Tables) (j : Nat) : Buf := (st.outs.getD j default).data

theorem Op.apply_eq {st st' : Tables} {op : Op} (h : op.apply st = some st') :
    st'.outs = st.outs.modify op.out (fun sec => { sec with
      data := relocate sec.data op.loc op.rel.type (symValue st op.inp op.sym) (op.place st.outs) }) ∧
    st'.commons = st.commons ∧ ∀ n, valueOf st'.globals n = valueOf st.globals n := by
  obtain ⟨⟨st₁, S⟩, hsym, rfl⟩ := Option.map_eq_some_iff.mp h
  unfold relocSym at hsym
  unfold symValue
  split at hsym
  · rename_i hlocal
    cases hsym
    exact ⟨by rw [Op.sym, if_pos hlocal]; rfl, rfl, fun _ => rfl⟩
  · rename_i hglobal
    obtain ⟨⟨globals, i⟩, hfind, heq⟩ := Option.map_eq_some_iff.mp hsym
    cases heq
    obtain ⟨hvalue, hvalues⟩ := findOrAddGlobalSym_valueOf hfind
    exact ⟨by rw [Op.sym, if_neg hglobal, ← hvalue]; rfl, rfl, hvalues⟩

theorem Op.apply_shape {st st' : Tables} {op : Op} (h : op.apply st = some st') : SameShape st st' := by
  obtain ⟨houts, hcommons, hvalues⟩ := Op.apply_eq h
  refine ⟨by rw [houts, List.length_modify], ?_, ?_, ?_, hvalues, hcommons⟩
  · exact fun j => by rw [houts, modify_data OutSec.vaddr fun _ _ => rfl]
  · exact fun j => by rw [houts, modify_data OutSec.size fun _ _ => rfl]
  · exact fun j => by rw [houts, modify_data OutSec.type fun _ _ => rfl]

theorem Op.apply_spec {st st' : Tables} {op : Op} (hout : op.out < st.outs.length)
    (h : op.apply st = some st') :
    (leBytes (st'.data op.out) op.loc op.width : Int) =
        relocValue op.rel.type (symValue st op.inp op.sym) (op.place st.outs)
          (leBytes (st.data op.out) op.loc op.width) ∧
      ∀ j o, (op.out = j → o < op.loc ∨ op.loc + op.width ≤ o) → st'.data j o = st.data j o := by
  obtain ⟨houts, -, -⟩ := Op.apply_eq h
  obtain ⟨hkeep, hfield⟩ := relocate_spec (st.data op.out) op.loc (symValue st op.inp op.sym)
    (show op.place st.outs < 4294967296 from Nat.mod_lt _ (by decide))
  have hdata : st'.data op.out = relocate (st.data op.out) op.loc op.rel.type
      (symValue st op.inp op.sym) (op.place st.outs) := by
    rw [Tables.data, houts, getD_modify _ _ hout, if_pos rfl]
    rfl
  refine ⟨hdata ▸ hfield, fun j o ho => ?_⟩
  by_cases hj : op.out = j
  · rw [← hj, hdata]
    exact hkeep o (ho hj)
  · simp [Tables.data, houts, List.getD_eq_getElem?_getD, hj]

/-! ### All relocations -/

/-- The fields of two relocations do not overlap. -/
def Op.Apart (op op' : Op) : Prop :=
  op.out = op'.out → op.loc + op.width ≤ op'.loc ∨ op'.loc + op'.width ≤ op.loc

/-- The relocations of a file that are applied, in order. -/
def fileOps (inp : Input) : List Op :=
  inp.obj.shdrs.flatMap fun shdr =>
    if shdr.type = SHT_REL then
      match (inp.map shdr.info).outSecIdx with
      | none => []
      | some out => shdr.rels.map fun rel => ⟨inp, shdr.info, out, rel⟩
    else []

theorem foldlM_flatMap {α β γ : Type} (f : α → List β) (g : γ → β → Option γ) (l : List α) (c : γ) :
    (l.flatMap f).foldlM g c = l.foldlM (fun c a => (f a).foldlM g c) c := by
  induction l generalizing c with
  | nil => rfl
  | cons a l ih =>
    rw [List.flatMap_cons, List.foldlM_append, List.foldlM_cons]
    congr 1
    funext c'
    exact ih c'

theorem applyShdr_eq (inp : Input) (st : Tables) (shdr : ElfShdr) :
    applyShdr inp st shdr =
      (if shdr.type = SHT_REL then
        match (inp.map shdr.info).outSecIdx with
        | none => []
        | some out => shdr.rels.map fun rel => (⟨inp, shdr.info, out, rel⟩ : Op)
      else []).foldlM Op.apply st := by
  unfold applyShdr
  split
  · cases (inp.map shdr.info).outSecIdx with
    | none => rfl
    | some out => rw [List.foldlM_map]; rfl
  · rfl

theorem applyRelocations_eq (st : Tables) (ins : List Input) :
    applyRelocations st ins = (ins.flatMap fileOps).foldlM Op.apply st := by
  rw [foldlM_flatMap, applyRelocations]
  congr 1
  funext st' inp
  rw [fileOps, foldlM_flatMap]
  congr 1
  funext st'' shdr
  exact applyShdr_eq inp st'' shdr

theorem foldlM_apply_shape {ops : List Op} {st st' : Tables} (h : ops.foldlM Op.apply st = some st') :
    SameShape st st' :=
  foldlM_rel SameShape.refl (fun _ _ _ => SameShape.trans) (fun _ _ _ => Op.apply_shape) h

/-- **Relocations of separate fields.**  Each field holds the value for what it held before,
    and no other byte changes. -/
theorem foldlM_apply_spec {ops : List Op} (hapart : ops.Pairwise Op.Apart) {st st' : Tables}
    (hout : ∀ op ∈ ops, op.out < st.outs.length) (h : ops.foldlM Op.apply st = some st') :
    (∀ op ∈ ops, (leBytes (st'.data op.out) op.loc op.width : Int) =
        relocValue op.rel.type (symValue st' op.inp op.sym) (op.place st'.outs)
          (leBytes (st.data op.out) op.loc op.width)) ∧
      ∀ j o, (∀ op ∈ ops, op.out = j → o < op.loc ∨ op.loc + op.width ≤ o) →
        st'.data j o = st.data j o := by
  induction ops generalizing st with
  | nil =>
    cases h
    exact ⟨by simp, fun _ _ _ => rfl⟩
  | cons op ops ih =>
    simp only [List.foldlM_cons, Option.bind_eq_bind, Option.bind_eq_some_iff] at h
    obtain ⟨st₁, h1, h2⟩ := h
    obtain ⟨hfirst, hrest⟩ := List.pairwise_cons.mp hapart
    rw [List.forall_mem_cons] at hout
    obtain ⟨hfield₁, hkeep₁⟩ := Op.apply_spec hout.1 h1
    have hshape₁ := Op.apply_shape h1
    have hshape := foldlM_apply_shape h2
    obtain ⟨hfields, hkeep⟩ := ih hrest (fun o ho => by
      rw [hshape₁.length]
      exact hout.2 o ho) h2
    have hplace : ∀ op : Op, op.place st'.outs = op.place st.outs := by
      intro op
      rw [Op.place, Op.place, (hshape₁.trans hshape).mapVaddr]
    refine ⟨?_, fun j o ho => ?_⟩
    · rw [List.forall_mem_cons]
      refine ⟨?_, fun op' hop' => ?_⟩
      · -- the later relocations leave the field of the first alone
        have hsame : leBytes (st'.data op.out) op.loc op.width =
            leBytes (st₁.data op.out) op.loc op.width := by
          refine leBytes_congr fun k hk => hkeep _ _ fun op' hop' hj => ?_
          have := hfirst op' hop' hj.symm
          omega
        rw [hsame, hfield₁, (hshape₁.trans hshape).symValue, hplace]
      · -- and the first leaves theirs alone
        have hsame : leBytes (st₁.data op'.out) op'.loc op'.width =
            leBytes (st.data op'.out) op'.loc op'.width := by
          refine leBytes_congr fun k hk => hkeep₁ _ _ fun hj => ?_
          have := hfirst op' hop' hj
          omega
        rw [hfields op' hop', hsame]
    · rw [List.forall_mem_cons] at ho
      rw [hkeep j o ho.2, hkeep₁ j o ho.1]

end Gemios.Ld
