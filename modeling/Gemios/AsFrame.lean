import Gemios.AsActs
import Mathlib.Data.List.Forall2

/-!
# What an action leaves alone

The numeric labels change at a label only, the current section at a section directive only, and
what a section holds stays at its beginning.
-/

namespace Gemios.As

structure Section.Grown (s s' : Section) : Prop where
  name : s'.name = s.name
  type : s'.type = s.type
  more : ∃ bs : List UInt8, s'.size = s.size + bs.length ∧
    s'.data = if s.type ≠ SHT_NOBITS then s.data ++ bs else s.data

theorem Section.Grown.refl (s : Section) : s.Grown s := by
  refine ⟨rfl, rfl, [], rfl, ?_⟩
  rw [List.append_nil, ite_self]

theorem Section.Grown.trans {s s' s'' : Section} (h : s.Grown s') (h' : s'.Grown s'') :
    s.Grown s'' := by
  obtain ⟨bs, hsize, hdata⟩ := h.more
  obtain ⟨cs, hsize', hdata'⟩ := h'.more
  refine ⟨h'.name.trans h.name, h'.type.trans h.type, bs ++ cs, ?_, ?_⟩
  · rw [hsize', hsize, List.length_append, Nat.add_assoc]
  · rw [hdata', h.type, hdata]
    split
    · rw [List.append_assoc]
    · rfl

theorem Section.grown_emit (s : Section) (b : UInt8) : s.Grown (s.emit b) := by
  refine ⟨rfl, rfl, [b], rfl, rfl⟩

/-- Tables after a step that emits, or adds a symbol or a relocation. -/
structure Quiet (st st' : Asm) : Prop where
  labels : st'.labels = st.labels
  cur : st'.curSection = st.curSection
  sections : List.Forall₂ Section.Grown st.sections st'.sections

theorem Quiet.of_eq {st st' : Asm} (hlabels : st'.labels = st.labels)
    (hcur : st'.curSection = st.curSection) (hsections : st'.sections = st.sections) :
    Quiet st st' :=
  ⟨hlabels, hcur, hsections ▸ List.forall₂_same.mpr fun s _ => Section.Grown.refl s⟩

theorem Quiet.refl (st : Asm) : Quiet st st := Quiet.of_eq rfl rfl rfl

theorem forall₂_grown_trans {ss ss' ss'' : List Section} (h : List.Forall₂ Section.Grown ss ss')
    (h' : List.Forall₂ Section.Grown ss' ss'') : List.Forall₂ Section.Grown ss ss'' := by
  induction h generalizing ss'' with
  | nil => exact h'
  | cons hs hrest ih =>
    cases h' with
    | cons hs' hrest' => exact List.Forall₂.cons (hs.trans hs') (ih hrest')

theorem Quiet.trans {st st' st'' : Asm} (h : Quiet st st') (h' : Quiet st' st'') : Quiet st st'' :=
  ⟨h'.labels.trans h.labels, h'.cur.trans h.cur, forall₂_grown_trans h.sections h'.sections⟩

theorem forall₂_modify {f : Section → Section} (hf : ∀ s : Section, s.Grown (f s))
    (ss : List Section) (i : Nat) : List.Forall₂ Section.Grown ss (ss.modify i f) := by
  induction ss generalizing i with
  | nil =>
    cases i <;> exact List.Forall₂.nil
  | cons s ss ih =>
    cases i with
    | zero =>
      exact List.Forall₂.cons (hf s) (List.forall₂_same.mpr fun s _ => Section.Grown.refl s)
    | succ i => exact List.Forall₂.cons (Section.Grown.refl s) (ih i)

/-! ### Section names -/

def Asm.sectionNames (st : Asm) : List (List UInt8) := st.sections.map (·.name)

theorem Quiet.sectionNames {st st' : Asm} (h : Quiet st st') :
    st'.sectionNames = st.sectionNames := by
  have hmap : ∀ ss ss' : List Section, List.Forall₂ Section.Grown ss ss' →
      ss'.map (·.name) = ss.map (·.name) := by
    intro ss ss' hs
    induction hs with
    | nil => rfl
    | cons hs hrest ih => rw [List.map_cons, List.map_cons, hs.name, ih]
  exact hmap _ _ h.sections

/-- Where `get_or_create_section` finds a name. -/
def sectionIndex (names : List (List UInt8)) (name : List UInt8) : Option Nat :=
  ((names.drop 1).findIdx? (· == name)).map (· + 1)

theorem sectionIndex_prefix {names names' : List (List UInt8)} {name : List UInt8} {i : Nat}
    (h : sectionIndex names name = some i) (hp : names <+: names') :
    sectionIndex names' name = some i := by
  obtain ⟨more, rfl⟩ := hp
  unfold sectionIndex at h ⊢
  obtain ⟨k, hk, rfl⟩ := Option.map_eq_some_iff.mp h
  have hlen : 1 ≤ names.length := by
    cases names with
    | nil => cases hk
    | cons n names => exact Nat.le_add_left 1 _
  rw [List.drop_append_of_le_length hlen, List.findIdx?_append, hk]
  rfl

theorem findIdx?_sectionNames (st : Asm) (name : List UInt8) :
    (st.sections.drop 1).findIdx? (·.name == name) =
      (st.sectionNames.drop 1).findIdx? (· == name) := by
  unfold Asm.sectionNames
  rw [← List.map_drop, List.findIdx?_map]
  rfl

theorem getOrCreateSection_of_index {st : Asm} {name : List UInt8} {i : Nat}
    (h : sectionIndex st.sectionNames name = some i) (type flags align : Nat) :
    getOrCreateSection st name type flags align = some (st, i) := by
  obtain ⟨k, hk, rfl⟩ := Option.map_eq_some_iff.mp h
  unfold getOrCreateSection
  rw [findIdx?_sectionNames, hk]

theorem getOrCreateSection_spec {st st' : Asm} {name : List UInt8} {type flags align i : Nat}
    (h : getOrCreateSection st name type flags align = some (st', i)) :
    st'.labels = st.labels ∧
      (st'.sections = st.sections ∧ sectionIndex st.sectionNames name = some i ∨
        st'.sections = st.sections ++ [⟨name.take 63, type, flags, align, [], 0⟩] ∧
          i = st.sections.length ∧ sectionIndex st.sectionNames name = none) := by
  unfold getOrCreateSection at h
  rw [findIdx?_sectionNames] at h
  split at h
  · rename_i k hk
    obtain ⟨rfl, rfl⟩ := Prod.mk.inj (Option.some.inj h)
    refine ⟨rfl, Or.inl ⟨rfl, ?_⟩⟩
    unfold sectionIndex
    rw [hk]
    rfl
  · rename_i hk
    split at h
    · cases h
    · obtain ⟨rfl, rfl⟩ := Prod.mk.inj (Option.some.inj h)
      refine ⟨rfl, Or.inr ⟨rfl, rfl, ?_⟩⟩
      unfold sectionIndex
      rw [hk]
      rfl

theorem getOrCreateSection_names {st st' : Asm} {name : List UInt8} {type flags align i : Nat}
    (h : getOrCreateSection st name type flags align = some (st', i)) :
    st.sectionNames <+: st'.sectionNames := by
  unfold Asm.sectionNames
  obtain ⟨-, ⟨hsec, -⟩ | ⟨hsec, -, -⟩⟩ := getOrCreateSection_spec h
  · exact hsec ▸ List.prefix_refl _
  · rw [hsec, List.map_append]
    exact List.prefix_append _ _

theorem getOrCreateSection_index {st st' : Asm} {name : List UInt8} {type flags align i : Nat}
    (h : getOrCreateSection st name type flags align = some (st', i)) (hne : st.sections ≠ [])
    (hshort : name.length ≤ 63) : sectionIndex st'.sectionNames name = some i := by
  obtain ⟨-, ⟨hsec, hindex⟩ | ⟨hsec, rfl, hnone⟩⟩ := getOrCreateSection_spec h
  · unfold Asm.sectionNames at hindex ⊢
    rwa [hsec]
  · obtain ⟨s, ss, hss⟩ := List.exists_cons_of_ne_nil hne
    have hnames : st.sectionNames = s.name :: ss.map (·.name) := by
      unfold Asm.sectionNames
      rw [hss]
      rfl
    have hnames' : st'.sectionNames = s.name :: (ss.map (·.name) ++ [name]) := by
      unfold Asm.sectionNames
      rw [hsec, hss, List.map_append, List.take_of_length_le hshort]
      rfl
    unfold sectionIndex at hnone ⊢
    rw [hnames, List.drop_succ_cons, List.drop_zero, Option.map_eq_none_iff] at hnone
    rw [hnames', List.drop_succ_cons, List.drop_zero, List.findIdx?_append, hnone, hss]
    simp [List.findIdx?_cons]

/-! ### Emitting -/

theorem quiet_secEmitByte (st : Asm) (i : Nat) (b : UInt8) : Quiet st (secEmitByte st i b) :=
  ⟨rfl, rfl, forall₂_modify (fun s => s.grown_emit b) st.sections i⟩

theorem quiet_secEmit (st : Asm) (i : Nat) (bs : List UInt8) : Quiet st (secEmit st i bs) := by
  induction bs generalizing st with
  | nil => exact Quiet.refl st
  | cons b bs ih => exact (quiet_secEmitByte st i b).trans (ih _)

theorem quiet_findOrAddSymbol {st st' : Asm} {name : List UInt8} {i : Nat}
    (h : findOrAddSymbol st name = some (st', i)) : Quiet st st' := by
  unfold findOrAddSymbol at h
  dsimp only at h
  split at h
  · cases h
    exact Quiet.refl st
  · split at h
    · cases h
    · cases h
      exact Quiet.of_eq rfl rfl rfl

theorem quiet_emitItem {secIdx pass : Nat} {st st' : Asm} {item : Item}
    (h : emitItem secIdx pass st item = some st') : Quiet st st' := by
  cases item with
  | byte b =>
    cases h
    exact quiet_secEmitByte st secIdx b
  | ref name type addend =>
    obtain ⟨⟨st₁, i⟩, hfind, h⟩ := Option.bind_eq_some_iff.mp h
    obtain ⟨st₂, hrel, rfl⟩ := Option.map_eq_some_iff.mp h
    have hquiet : Quiet st₁ st₂ := by
      split at hrel
      · unfold addRelocation at hrel
        split at hrel
        · cases hrel
        · cases hrel
          exact Quiet.of_eq rfl rfl rfl
      · cases hrel
        exact Quiet.refl st₁
    exact ((quiet_findOrAddSymbol hfind).trans hquiet).trans (quiet_secEmit st₂ secIdx _)

theorem quiet_emitItems {secIdx pass : Nat} {st st' : Asm} {items : List Item}
    (h : emitItems secIdx pass st items = some st') : Quiet st st' := by
  induction items generalizing st with
  | nil =>
    obtain rfl := Option.some.inj h
    exact Quiet.refl _
  | cons item items ih =>
    obtain ⟨st₁, hitem, hrest⟩ := Option.bind_eq_some_iff.mp h
    exact (quiet_emitItem hitem).trans (ih hrest)

theorem quiet_alignTo (st : Asm) (n : Nat) : Quiet st (st.alignTo n) := by
  have halign : ∀ s : Section, s.Grown { s with align := max s.align n } := by
    intro s
    refine ⟨rfl, rfl, [], rfl, ?_⟩
    rw [List.append_nil, ite_self]
  have hemit := quiet_secEmit st st.curSection
    (List.replicate (((st.secSize st.curSection + n - 1) &&& ((4294967296 - n) % 4294967296)) -
      st.secSize st.curSection) 0)
  exact hemit.trans ⟨rfl, rfl, forall₂_modify halign _ _⟩

theorem quiet_symbol {st st' : Asm} {name : List UInt8} {f : Asm → Symbol → Symbol}
    (h : (findOrAddSymbol st name).map (fun (st, i) => st.modifySymbol i (f st)) = some st') :
    Quiet st st' := by
  obtain ⟨⟨st₁, i⟩, hfind, rfl⟩ := Option.map_eq_some_iff.mp h
  exact (quiet_findOrAddSymbol hfind).trans (Quiet.of_eq rfl rfl rfl)

theorem quiet_runCmd {pass : Nat} {st st' : Asm} {cmd : Cmd}
    (hcmd : ∀ name type flags, cmd ≠ .switch name type flags)
    (h : runCmd pass st cmd = some st') : Quiet st st' := by
  cases cmd with
  | emit items => exact quiet_emitItems h
  | switch name type flags => exact absurd rfl (hcmd name type flags)
  | binding name binding => exact quiet_symbol (f := fun _ s => { s with binding }) h
  | common name size align => exact quiet_symbol (f := fun _ s => { s with
      binding := STB_GLOBAL, size := size.toNat, value := align.toNat
      sectionIdx := SHN_COMMON, defined := true }) h
  | align n =>
    cases h
    exact quiet_alignTo st n
  | set name expr => exact quiet_symbol (f := fun st s => { s with
      value := (evalExpr st.symbols expr).1.toNat, sectionIdx := SHN_ABS, defined := true }) h
  | fault => cases h

theorem quiet_defineLabel {pass : Nat} {st st' : Asm} {l : LabelPos}
    (h : defineLabel pass st l = some st') :
    ∃ st₁, Quiet st st₁ ∧ st' = st₁.recordLabel pass l := by
  obtain ⟨⟨st₁, i⟩, hfind, rfl⟩ := Option.map_eq_some_iff.mp h
  refine ⟨st₁.modifySymbol i _, (quiet_findOrAddSymbol hfind).trans ?_, rfl⟩
  exact Quiet.of_eq rfl rfl rfl

/-! ### Statements -/

def Cmd.switch? : Cmd → Option (List UInt8 × Nat × Nat)
  | .switch name type flags => some (name, type, flags)
  | _ => none

@[simp] theorem Cmd.switch?_emit (items : List Item) : (Cmd.emit items).switch? = none := rfl

@[simp] theorem Cmd.switch?_binding (name : List UInt8) (binding : Nat) :
    (Cmd.binding name binding).switch? = none := rfl

@[simp] theorem Cmd.switch?_common (name : List UInt8) (size align : BitVec 32) :
    (Cmd.common name size align).switch? = none := rfl

@[simp] theorem Cmd.switch?_align (n : Nat) : (Cmd.align n).switch? = none := rfl

@[simp] theorem Cmd.switch?_set (name expr : List UInt8) : (Cmd.set name expr).switch? = none := rfl

def Act.switch? : Act → Option (List UInt8 × Nat × Nat)
  | .stmt token p raw => (statement initAsm 0 token p raw).switch?
  | _ => none

theorem directive_switch? (symbols symbols' : List Symbol) (token p : List UInt8)
    (raw : List (List UInt8)) (ops ops' : List Operand) :
    (directive symbols token p raw ops).switch? = (directive symbols' token p raw ops').switch? := by
  have helim : ∀ o : Option (List UInt8),
      (o.elim Cmd.fault fun bs => Cmd.emit (bytes bs)).switch? = none := by
    intro o
    cases o <;> rfl
  unfold directive
  cases raw with
  | nil => simp [apply_ite Cmd.switch?, helim]
  | cons r rest =>
    cases rest with
    | nil => simp [apply_ite Cmd.switch?, helim]
    | cons r' rest => simp [apply_ite Cmd.switch?, helim]

theorem branchCmd_switch? {symbols : List Symbol} {token : List UInt8} {raw : List (List UInt8)}
    {cmd : Cmd} (h : branchCmd symbols token raw = some cmd) : cmd.switch? = none := by
  unfold branchCmd at h
  dsimp only at h
  split at h
  · split at h
    · split at h <;> cases h <;> rfl
    · split at h
      · split at h
        · cases h
          rfl
        · split at h <;> cases h <;> rfl
      · obtain ⟨e, -, rfl⟩ := Option.map_eq_some_iff.mp h
        rfl
  · split at h <;> cases h
    rfl
  · cases h

theorem statement_switch? (st st' : Asm) (line line' : Nat) (token p : List UInt8)
    (raw : List (List UInt8)) :
    (statement st line token p raw).switch? = (statement st' line' token p raw).switch? := by
  have hother : ∀ (st : Asm) (line : Nat), token.head? ≠ some 0x2E →
      (statement st line token p raw).switch? = none := by
    intro st line hdot
    unfold statement
    dsimp only
    rw [if_neg hdot]
    cases localJump token raw with
    | some j => rfl
    | none =>
      dsimp only
      cases hbranch : branchCmd st.symbols token raw with
      | some cmd => exact branchCmd_switch? hbranch
      | none => rfl
  by_cases hdot : token.head? = some 0x2E
  · unfold statement
    dsimp only
    rw [if_pos hdot, if_pos hdot]
    exact directive_switch? _ _ _ _ _ _ _
  · rw [hother st line hdot, hother st' line' hdot]

theorem shortOpcode_head {token : List UInt8} {opcode : UInt8} (h : shortOpcode token = some opcode) :
    token.head? ≠ some 0x2E := by
  have hjmp : ∀ n ∈ ["jmp", "jmpl"], (str n).head? ≠ some 0x2E := by decide +kernel
  have hjcc : ∀ e ∈ jccTable, (str e.1).head? ≠ some 0x2E := by decide +kernel
  unfold shortOpcode at h
  split at h
  · rename_i htoken
    obtain ⟨n, hn, heq⟩ := List.any_eq_true.mp htoken
    exact beq_iff_eq.mp heq ▸ hjmp n hn
  · obtain ⟨r, hr, -⟩ := Option.map_eq_some_iff.mp h
    obtain ⟨e, he, -⟩ := Option.map_eq_some_iff.mp hr
    have htoken := List.find?_some he
    exact beq_iff_eq.mp htoken ▸ hjcc e (List.mem_of_find?_eq_some he)

theorem statement_jump {st : Asm} {line : Nat} {token p : List UInt8} {raw : List (List UInt8)}
    {j : LocalJump} (h : localJump token raw = some j) :
    statement st line token p raw = .emit (bytes [j.opcode, j.disp st line]) := by
  have hdot : token.head? ≠ some 0x2E := by
    unfold localJump at h
    split at h
    · split at h
      · obtain ⟨opcode, hop, -⟩ := Option.map_eq_some_iff.mp h
        exact shortOpcode_head hop
      · cases h
    · cases h
  unfold statement
  dsimp only
  rw [if_neg hdot, h]

/-! ### One action -/

inductive Act.Step (pass line : Nat) (st : Asm) : Act → Asm → List Event → Prop
  | label (name : List UInt8) {st₁ : Asm} (h : Quiet st st₁) :
    Step pass line st (.label name) (st₁.recordLabel pass (st.labelPos line name))
      [.label (st.labelPos line name)]
  | rep (b : UInt8) : Step pass line st (.rep b) (secEmitByte st st.curSection b) []
  | jump {token p : List UInt8} {raw : List (List UInt8)} {j : LocalJump}
    (hs : (Act.stmt token p raw).switch? = none) (h : localJump token raw = some j) :
    Step pass line st (.stmt token p raw) (secEmit st st.curSection [j.opcode, j.disp st line])
      [.jump j st.curSection (st.secSize st.curSection) line (j.disp st line)]
  | switch {token p : List UInt8} {raw : List (List UInt8)} {name : List UInt8}
    {type flags i : Nat} {st₁ : Asm}
    (hs : (Act.stmt token p raw).switch? = some (name, type, flags))
    (h : getOrCreateSection st name type flags 4 = some (st₁, i)) :
    Step pass line st (.stmt token p raw) { st₁ with curSection := i } []
  | other {token p : List UInt8} {raw : List (List UInt8)} {st' : Asm}
    (hs : (Act.stmt token p raw).switch? = none) (h : Quiet st st') :
    Step pass line st (.stmt token p raw) st' []

theorem LineAct.run_step {pass : Nat} {st st' : Asm} {a : LineAct} {log : List Event}
    (h : a.run pass st = some (st', log)) : a.act.Step pass a.line st st' log := by
  obtain ⟨line, act⟩ := a
  cases act with
  | label name =>
    obtain ⟨st₁, hdefine, heq⟩ := Option.map_eq_some_iff.mp h
    obtain ⟨rfl, rfl⟩ := Prod.mk.inj heq
    obtain ⟨st₂, hquiet, rfl⟩ := quiet_defineLabel hdefine
    exact Act.Step.label name hquiet
  | rep b =>
    obtain ⟨rfl, rfl⟩ := Prod.mk.inj (Option.some.inj h)
    exact Act.Step.rep b
  | stmt token p raw =>
    obtain ⟨st₁, hcmd, heq⟩ := Option.map_eq_some_iff.mp h
    obtain ⟨rfl, rfl⟩ := Prod.mk.inj heq
    dsimp only at hcmd ⊢
    unfold jumpEvents
    cases hjump : localJump token raw with
    | some j =>
      rw [statement_jump hjump, runCmd, emitItems_bytes] at hcmd
      obtain rfl := Option.some.inj hcmd
      have hs : (Act.stmt token p raw).switch? = none := by
        unfold Act.switch?
        dsimp only
        rw [statement_jump hjump]
        rfl
      exact Act.Step.jump hs hjump
    | none =>
      have hswitch := statement_switch? st initAsm line 0 token p raw
      cases hs : (Act.stmt token p raw).switch? with
      | none =>
        refine Act.Step.other hs (quiet_runCmd ?_ hcmd)
        intro name type flags heq
        rw [heq] at hswitch
        exact absurd (hswitch.trans hs) (Option.some_ne_none _)
      | some s =>
        obtain ⟨name, type, flags⟩ := s
        have hstmt : statement st line token p raw = .switch name type flags := by
          generalize statement st line token p raw = cmd at hswitch
          cases cmd with
          | switch name' type' flags' =>
            have heq := hswitch.trans hs
            cases heq
            rfl
          | _ => cases hswitch.trans hs
        rw [hstmt] at hcmd
        obtain ⟨⟨st₂, i⟩, hsec, rfl⟩ := Option.map_eq_some_iff.mp hcmd
        exact Act.Step.switch hs hsec

/-! ### What sections hold -/

/-- What a section holds stays at its beginning. -/
def Grows (st st' : Asm) : Prop :=
  ∀ (i : Nat) (s : Section), st.sections[i]? = some s →
    ∃ s', st'.sections[i]? = some s' ∧ s.Grown s'

theorem Grows.trans {st st' st'' : Asm} (h : Grows st st') (h' : Grows st' st'') :
    Grows st st'' := by
  intro i s hs
  obtain ⟨s', hs', hg⟩ := h i s hs
  obtain ⟨s'', hs'', hg'⟩ := h' i s' hs'
  exact ⟨s'', hs'', hg.trans hg'⟩

theorem grows_of_eq {st st' : Asm} (h : st'.sections = st.sections) : Grows st st' := by
  intro i s hs
  rw [h]
  exact ⟨s, hs, Section.Grown.refl s⟩

theorem Quiet.grows {st st' : Asm} (h : Quiet st st') : Grows st st' := by
  have hget : ∀ (ss ss' : List Section), List.Forall₂ Section.Grown ss ss' →
      ∀ (i : Nat) (s : Section), ss[i]? = some s → ∃ s', ss'[i]? = some s' ∧ s.Grown s' := by
    intro ss ss' hss
    induction hss with
    | nil => exact fun i s hs => nomatch hs
    | cons hg hrest ih =>
      intro i s hs
      cases i with
      | zero =>
        cases hs
        exact ⟨_, rfl, hg⟩
      | succ i => exact ih i s hs
  exact hget _ _ h.sections

theorem recordLabel_sections (pass : Nat) (st : Asm) (l : LabelPos) :
    (st.recordLabel pass l).sections = st.sections ∧
      (st.recordLabel pass l).curSection = st.curSection := by
  unfold Asm.recordLabel
  split
  · split <;> exact ⟨rfl, rfl⟩
  · split <;> exact ⟨rfl, rfl⟩

theorem Act.Step.grows {pass line : Nat} {st st' : Asm} {act : Act} {log : List Event}
    (h : act.Step pass line st st' log) : Grows st st' := by
  cases h with
  | label name hq => exact hq.grows.trans (grows_of_eq (recordLabel_sections _ _ _).1)
  | rep b => exact (quiet_secEmitByte _ _ _).grows
  | jump hs hj => exact (quiet_secEmit _ _ _).grows
  | switch hs hsec =>
    obtain ⟨-, ⟨heq, -⟩ | ⟨heq, -, -⟩⟩ := getOrCreateSection_spec hsec
    · exact grows_of_eq heq
    · intro i s hi
      refine ⟨s, ?_, Section.Grown.refl s⟩
      dsimp only
      rw [heq, List.getElem?_append_left (List.getElem?_eq_some_iff.mp hi).1]
      exact hi
  | other hs hq => exact hq.grows

theorem runActs_grows {pass : Nat} {st st' : Asm} {acts : List LineAct} {log : List Event}
    (h : runActs pass st acts = some (st', log)) : Grows st st' := by
  induction acts generalizing st log with
  | nil =>
    obtain ⟨rfl, -⟩ := Prod.mk.inj (Option.some.inj h)
    exact grows_of_eq rfl
  | cons a acts ih =>
    obtain ⟨st₁, log₁, log₂, ha, hacts, rfl⟩ := runActs_cons h
    exact (LineAct.run_step ha).grows.trans (ih hacts)

/-- The current section exists, and what is in a section is as long as its size. -/
structure Asm.Filled (st : Asm) : Prop where
  cur : st.curSection < st.sections.length
  full : ∀ s ∈ st.sections, s.type ≠ SHT_NOBITS → s.data.length = s.size

theorem Quiet.filled {st st' : Asm} (h : Quiet st st') (hst : st.Filled) : st'.Filled := by
  have hfull : ∀ (ss ss' : List Section), List.Forall₂ Section.Grown ss ss' →
      (∀ s ∈ ss, s.type ≠ SHT_NOBITS → s.data.length = s.size) →
        ∀ s ∈ ss', s.type ≠ SHT_NOBITS → s.data.length = s.size := by
    intro ss ss' hss
    induction hss with
    | nil => exact fun _ s hs => nomatch hs
    | @cons s s' ss ss' hg hrest ih =>
      intro hall
      rw [List.forall_mem_cons] at hall ⊢
      refine ⟨fun htype => ?_, ih hall.2⟩
      rw [hg.type] at htype
      obtain ⟨bs, hsize, hdata⟩ := hg.more
      rw [hdata, if_pos htype, hsize, List.length_append, hall.1 htype]
  refine ⟨?_, hfull _ _ h.sections hst.full⟩
  rw [h.cur, ← h.sections.length_eq]
  exact hst.cur

theorem sectionIndex_lt {names : List (List UInt8)} {name : List UInt8} {i : Nat}
    (h : sectionIndex names name = some i) : i < names.length := by
  obtain ⟨k, hk, rfl⟩ := Option.map_eq_some_iff.mp h
  obtain ⟨hlt, -⟩ := List.findIdx?_eq_some_iff_getElem.mp hk
  rw [List.length_drop] at hlt
  omega

theorem Act.Step.filled {pass line : Nat} {st st' : Asm} {act : Act} {log : List Event}
    (h : act.Step pass line st st' log) (hst : st.Filled) : st'.Filled := by
  cases h with
  | label name hq =>
    rename_i st₁
    obtain ⟨hsec, hcur⟩ := recordLabel_sections pass st₁ (st.labelPos line name)
    have hst₁ := hq.filled hst
    exact ⟨by rw [hsec, hcur]; exact hst₁.cur, by rw [hsec]; exact hst₁.full⟩
  | rep b => exact (quiet_secEmitByte _ _ _).filled hst
  | jump hs hj => exact (quiet_secEmit _ _ _).filled hst
  | switch hs hsec =>
    obtain ⟨-, ⟨heq, hindex⟩ | ⟨heq, rfl, -⟩⟩ := getOrCreateSection_spec hsec
    · have hlt := sectionIndex_lt hindex
      unfold Asm.sectionNames at hlt
      rw [List.length_map] at hlt
      exact ⟨heq ▸ hlt, heq ▸ hst.full⟩
    · constructor
      · dsimp only
        rw [heq, List.length_append]
        exact Nat.lt_succ_self _
      · dsimp only
        rw [heq, List.forall_mem_append, List.forall_mem_singleton]
        exact ⟨hst.full, fun _ => rfl⟩
  | other hs hq => exact hq.filled hst

theorem runActs_filled {pass : Nat} {st st' : Asm} {acts : List LineAct} {log : List Event}
    (h : runActs pass st acts = some (st', log)) (hst : st.Filled) : st'.Filled := by
  induction acts generalizing st log with
  | nil =>
    obtain ⟨rfl, -⟩ := Prod.mk.inj (Option.some.inj h)
    exact hst
  | cons a acts ih =>
    obtain ⟨st₁, log₁, log₂, ha, hacts, rfl⟩ := runActs_cons h
    exact ih hacts ((LineAct.run_step ha).filled hst)

end Gemios.As
