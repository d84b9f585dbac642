import Gemios.AsFrame

/-!
# The table of numeric labels

`g_local_labels` of `src/tools/as.c` over the two passes.  Pass 1 adds the labels until the table
is full; pass 2 moves the first entry of the line that it comes to.  An entry that is alone with
its line has the offset of pass 1 until its label, and that of pass 2 from there on.
-/

namespace Gemios.As

def Event.label? : Event → Option LabelPos
  | .label l => some l
  | .jump .. => none

def marks (log : List Event) : List LabelPos := log.filterMap Event.label?

theorem marks_append (log log' : List Event) : marks (log ++ log') = marks log ++ marks log' :=
  List.filterMap_append

def LineAct.label? (a : LineAct) : Option (List UInt8 × Nat) :=
  match a.act with
  | .label name => some (name, a.line)
  | _ => none

def actLabels (acts : List LineAct) : List (List UInt8 × Nat) := acts.filterMap LineAct.label?

theorem runActs_marks {pass : Nat} {st st' : Asm} {acts : List LineAct} {log : List Event}
    (h : runActs pass st acts = some (st', log)) :
    (marks log).map (fun l => (l.name, l.lineIdx)) = actLabels acts := by
  induction acts generalizing st log with
  | nil =>
    obtain ⟨-, rfl⟩ := Prod.mk.inj (Option.some.inj h)
    rfl
  | cons a acts ih =>
    obtain ⟨st₁, log₁, log₂, ha, hacts, rfl⟩ := runActs_cons h
    have hstep : (marks log₁).map (fun l => (l.name, l.lineIdx)) = actLabels [a] := by
      have hrun := LineAct.run_step ha
      obtain ⟨line, act⟩ := a
      cases hrun <;> rfl
    rw [marks_append, List.map_append, hstep, ih hacts]
    exact List.filterMap_append.symm

/-! ### Pass 1 -/

/-- The entry for a label: 63 characters of its name are kept. -/
def LabelPos.stored (l : LabelPos) : LabelPos := { l with name := l.name.take 63 }

theorem step_one {line : Nat} {st st' : Asm} {act : Act} {log : List Event}
    (h : act.Step 1 line st st' log) (hlen : st.labels.length ≤ MAX_LOCAL_LABELS) :
    st'.labels = (st.labels ++ (marks log).map LabelPos.stored).take MAX_LOCAL_LABELS := by
  have hsame : st.labels = (st.labels ++ []).take MAX_LOCAL_LABELS := by
    rw [List.append_nil, List.take_of_length_le hlen]
  cases h with
  | label name hq =>
    rename_i st₁
    have hlog : (marks [.label (st.labelPos line name)]).map LabelPos.stored =
        [(st.labelPos line name).stored] := rfl
    rw [hlog]
    unfold Asm.recordLabel
    rw [if_pos rfl, hq.labels]
    split
    · rename_i hlt
      refine (List.take_of_length_le ?_).symm
      rw [List.length_append]
      exact hlt
    · rename_i hge
      rw [hq.labels, List.take_append_of_le_length (Nat.not_lt.mp hge), List.take_of_length_le hlen]
  | rep b => exact hsame
  | jump hs hj => exact (quiet_secEmit _ _ _).labels.trans hsame
  | switch hs hsec => exact (getOrCreateSection_spec hsec).1.trans hsame
  | other hs hq => exact hq.labels.trans hsame

theorem take_append_take {α : Type} (n : Nat) (as bs : List α) :
    (as.take n ++ bs).take n = (as ++ bs).take n := by
  rw [List.take_append, List.take_append, List.take_take, Nat.min_self, List.length_take]
  congr 2
  omega

theorem runActs_one {st st' : Asm} {acts : List LineAct} {log : List Event}
    (h : runActs 1 st acts = some (st', log)) (hlen : st.labels.length ≤ MAX_LOCAL_LABELS) :
    st'.labels = (st.labels ++ (marks log).map LabelPos.stored).take MAX_LOCAL_LABELS := by
  induction acts generalizing st log with
  | nil =>
    obtain ⟨rfl, rfl⟩ := Prod.mk.inj (Option.some.inj h)
    rw [marks, List.filterMap_nil, List.map_nil, List.append_nil, List.take_of_length_le hlen]
  | cons a acts ih =>
    obtain ⟨st₁, log₁, log₂, ha, hacts, rfl⟩ := runActs_cons h
    have hone := step_one (LineAct.run_step ha) hlen
    have hlen₁ : st₁.labels.length ≤ MAX_LOCAL_LABELS := by
      rw [hone, List.length_take]
      exact Nat.min_le_left _ _
    rw [ih hacts hlen₁, hone, take_append_take, marks_append, List.map_append, List.append_assoc]

/-! ### Pass 2 -/

def LabelPos.key (l : LabelPos) : List UInt8 × Nat × Nat := (l.name, l.sectionIdx, l.lineIdx)

/-- The offset of an entry after the labels of a log. -/
def LabelPos.moved (e : LabelPos) (ls : List LabelPos) : LabelPos :=
  { e with offset := ls.foldl (fun o l => if l.lineIdx = e.lineIdx then l.offset else o) e.offset }

/-- No other entry has the line of entry `k`. -/
def Alone (labels : List LabelPos) (k : Nat) : Prop :=
  ∀ i e e', labels[i]? = some e → labels[k]? = some e' → e.lineIdx = e'.lineIdx → i = k

theorem recordLabel_two (st : Asm) (l : LabelPos) :
    (st.recordLabel 2 l).labels.map LabelPos.key = st.labels.map LabelPos.key ∧
      ∀ k e, Alone st.labels k → st.labels[k]? = some e →
        (st.recordLabel 2 l).labels[k]? = some (e.moved [l]) := by
  unfold Asm.recordLabel
  rw [if_neg (by decide)]
  cases hfind : st.labels.findIdx? (fun k => k.lineIdx == l.lineIdx) with
  | none =>
    refine ⟨rfl, fun k e hk he => ?_⟩
    have hne : l.lineIdx ≠ e.lineIdx := by
      intro heq
      have hall := List.findIdx?_eq_none_iff.mp hfind e (List.mem_of_getElem? he)
      simp [heq] at hall
    unfold LabelPos.moved
    rw [List.foldl_cons, List.foldl_nil, if_neg hne]
    exact he
  | some i =>
    obtain ⟨hi, hline, -⟩ := List.findIdx?_eq_some_iff_getElem.mp hfind
    rw [beq_iff_eq] at hline
    dsimp only
    constructor
    · refine List.ext_getElem? fun k => ?_
      rw [List.getElem?_map, List.getElem?_map, List.getElem?_modify]
      cases st.labels[k]? with
      | none => rfl
      | some e =>
        simp only [Option.map_eq_map, Option.map_some]
        split <;> rfl
    · intro k e hk he
      rw [List.getElem?_modify, he]
      unfold LabelPos.moved
      rw [List.foldl_cons, List.foldl_nil]
      by_cases hl : l.lineIdx = e.lineIdx
      · have hik : i = k := hk i _ e (List.getElem?_eq_getElem hi) he (hline.trans hl)
        rw [if_pos hl]
        simp [hik]
      · have hik : i ≠ k := by
          rintro rfl
          have heq : st.labels[i] = e := List.getElem_of_getElem? he |>.2
          exact hl (hline.symm.trans (congrArg LabelPos.lineIdx heq))
        rw [if_neg hl]
        simp [hik]

theorem step_two {line : Nat} {st st' : Asm} {act : Act} {log : List Event}
    (h : act.Step 2 line st st' log) :
    st'.labels.map LabelPos.key = st.labels.map LabelPos.key ∧
      ∀ k e, Alone st.labels k → st.labels[k]? = some e →
        st'.labels[k]? = some (e.moved (marks log)) := by
  have hsame : ∀ {st'' : Asm}, st''.labels = st.labels →
      st''.labels.map LabelPos.key = st.labels.map LabelPos.key ∧
        ∀ k e, Alone st.labels k → st.labels[k]? = some e →
          st''.labels[k]? = some (e.moved []) := by
    intro st'' hlabels
    rw [hlabels]
    exact ⟨rfl, fun k e hk he => he⟩
  cases h with
  | label name hq =>
    rename_i st₁
    rw [← hq.labels]
    exact recordLabel_two st₁ (st.labelPos line name)
  | rep b => exact hsame rfl
  | jump hs hj => exact hsame (quiet_secEmit _ _ _).labels
  | switch hs hsec => exact hsame (getOrCreateSection_spec hsec).1
  | other hs hq => exact hsame hq.labels

theorem alone_of_key {ls ls' : List LabelPos} (h : ls'.map LabelPos.key = ls.map LabelPos.key)
    {k : Nat} (hk : Alone ls k) : Alone ls' k := by
  have hline : ∀ {i : Nat} {e : LabelPos}, ls'[i]? = some e →
      ∃ e', ls[i]? = some e' ∧ e'.lineIdx = e.lineIdx := by
    intro i e he
    have hkey : (ls.map LabelPos.key)[i]? = some e.key := by
      rw [← h, List.getElem?_map, he]
      rfl
    rw [List.getElem?_map, Option.map_eq_some_iff] at hkey
    obtain ⟨e', he', heq⟩ := hkey
    exact ⟨e', he', congrArg (·.2.2) heq⟩
  intro i e e' hi hk' heq
  obtain ⟨f, hf, hfe⟩ := hline hi
  obtain ⟨f', hf', hfe'⟩ := hline hk'
  exact hk i f f' hf hf' (hfe.trans (heq.trans hfe'.symm))

theorem runActs_two {st st' : Asm} {acts : List LineAct} {log : List Event}
    (h : runActs 2 st acts = some (st', log)) :
    st'.labels.map LabelPos.key = st.labels.map LabelPos.key ∧
      ∀ k e, Alone st.labels k → st.labels[k]? = some e →
        st'.labels[k]? = some (e.moved (marks log)) := by
  induction acts generalizing st log with
  | nil =>
    obtain ⟨rfl, rfl⟩ := Prod.mk.inj (Option.some.inj h)
    exact ⟨rfl, fun k e hk he => he⟩
  | cons a acts ih =>
    obtain ⟨st₁, log₁, log₂, ha, hacts, rfl⟩ := runActs_cons h
    obtain ⟨hkey, hentry⟩ := step_two (LineAct.run_step ha)
    obtain ⟨hkeys, hentries⟩ := ih hacts
    refine ⟨hkeys.trans hkey, fun k e hk he => ?_⟩
    rw [hentries k _ (alone_of_key hkey hk) (hentry k e hk he), marks_append]
    unfold LabelPos.moved
    rw [List.foldl_append]

theorem moved_of_forall_ne {e : LabelPos} {ls : List LabelPos}
    (h : ∀ l ∈ ls, l.lineIdx ≠ e.lineIdx) : e.moved ls = e := by
  induction ls with
  | nil => rfl
  | cons l ls ih =>
    rw [List.forall_mem_cons] at h
    have hrest := ih h.2
    unfold LabelPos.moved at hrest ⊢
    rw [List.foldl_cons, if_neg h.1]
    exact hrest

theorem moved_of_unique {e l : LabelPos} {before after : List LabelPos}
    (hl : l.lineIdx = e.lineIdx) (h : ∀ l' ∈ after, l'.lineIdx ≠ e.lineIdx) :
    e.moved (before ++ l :: after) = { e with offset := l.offset } := by
  have hafter := moved_of_forall_ne (e := { e with offset := l.offset }) h
  unfold LabelPos.moved at hafter ⊢
  rw [List.foldl_append, List.foldl_cons, if_pos hl]
  exact hafter

/-! ### The sections in both passes -/

/-- The sections of the labels that an action defines in a section. -/
def Act.labelSections (act : Act) (sectionIdx : Nat) : List Nat :=
  match act with
  | .label _ => [sectionIdx]
  | _ => []

theorem step_section {pass line : Nat} {st st' : Asm} {act : Act} {log : List Event}
    (h : act.Step pass line st st' log) :
    (marks log).map (·.sectionIdx) = act.labelSections st.curSection ∧
      ((act.switch? = none ∧ st'.curSection = st.curSection ∧ st'.sectionNames = st.sectionNames) ∨
        ∃ name type flags i st₁, act.switch? = some (name, type, flags) ∧
          getOrCreateSection st name type flags 4 = some (st₁, i) ∧
            st' = { st₁ with curSection := i }) := by
  cases h with
  | label name hq =>
    rename_i st₁
    obtain ⟨hsec, hcur⟩ := recordLabel_sections pass st₁ (st.labelPos line name)
    refine ⟨rfl, Or.inl ⟨rfl, hcur.trans hq.cur, ?_⟩⟩
    rw [← hq.sectionNames]
    exact congrArg (List.map (·.name)) hsec
  | rep b => exact ⟨rfl, Or.inl ⟨rfl, rfl, (quiet_secEmitByte _ _ _).sectionNames⟩⟩
  | jump hs hj =>
    have hq := quiet_secEmit st st.curSection
    exact ⟨rfl, Or.inl ⟨hs, (hq _).cur, (hq _).sectionNames⟩⟩
  | switch hs hsec => exact ⟨rfl, Or.inr ⟨_, _, _, _, _, hs, hsec, rfl⟩⟩
  | other hs hq => exact ⟨rfl, Or.inl ⟨hs, hq.cur, hq.sectionNames⟩⟩

theorem step_names {pass line : Nat} {st st' : Asm} {act : Act} {log : List Event}
    (h : act.Step pass line st st' log) : st.sectionNames <+: st'.sectionNames := by
  obtain ⟨-, ⟨-, -, hnames⟩ | ⟨name, type, flags, i, st₁, -, hsec, rfl⟩⟩ := step_section h
  · exact hnames ▸ List.prefix_refl _
  · have hpre : st.sectionNames <+: st₁.sectionNames := getOrCreateSection_names hsec
    exact hpre

theorem runActs_names {pass : Nat} {st st' : Asm} {acts : List LineAct} {log : List Event}
    (h : runActs pass st acts = some (st', log)) : st.sectionNames <+: st'.sectionNames := by
  induction acts generalizing st log with
  | nil =>
    obtain ⟨rfl, -⟩ := Prod.mk.inj (Option.some.inj h)
    exact List.prefix_refl _
  | cons a acts ih =>
    obtain ⟨st₁, log₁, log₂, ha, hacts, rfl⟩ := runActs_cons h
    exact (step_names (LineAct.run_step ha)).trans (ih hacts)

/-- The section names of the actions fit into the table. -/
def ShortNames (acts : List LineAct) : Prop :=
  ∀ a ∈ acts, ∀ name type flags, a.act.switch? = some (name, type, flags) → name.length ≤ 63

theorem step_agree {line : Nat} {s₁ t₁ s₂ t₂ : Asm} {act : Act} {log₁ log₂ : List Event}
    (h₁ : act.Step 1 line s₁ t₁ log₁) (h₂ : act.Step 2 line s₂ t₂ log₂)
    (hcur : s₁.curSection = s₂.curSection) (hne : s₁.sections ≠ [])
    (hnames : t₁.sectionNames <+: s₂.sectionNames)
    (hshort : ∀ name type flags, act.switch? = some (name, type, flags) → name.length ≤ 63) :
    t₁.curSection = t₂.curSection ∧ t₂.sectionNames = s₂.sectionNames ∧
      (marks log₁).map (·.sectionIdx) = (marks log₂).map (·.sectionIdx) := by
  obtain ⟨hlog₁, hcase₁⟩ := step_section h₁
  obtain ⟨hlog₂, hcase₂⟩ := step_section h₂
  have hlog : (marks log₁).map (·.sectionIdx) = (marks log₂).map (·.sectionIdx) := by
    rw [hlog₁, hlog₂, hcur]
  obtain ⟨hs, hcur₁, -⟩ | ⟨name, type, flags, i, u₁, hs, hsec, rfl⟩ := hcase₁
  · obtain ⟨-, hcur₂, hnames₂⟩ | ⟨name, type, flags, i, u₂, hs', -⟩ := hcase₂
    · exact ⟨hcur₁.trans (hcur.trans hcur₂.symm), hnames₂, hlog⟩
    · rw [hs] at hs'
      cases hs'
  · obtain ⟨hs', -⟩ | ⟨name', type', flags', i', u₂, hs', hsec', rfl⟩ := hcase₂
    · rw [hs] at hs'
      cases hs'
    · rw [hs] at hs'
      cases hs'
      have hindex := sectionIndex_prefix (getOrCreateSection_index hsec hne (hshort _ _ _ hs)) hnames
      rw [getOrCreateSection_of_index hindex] at hsec'
      obtain ⟨rfl, rfl⟩ := Prod.mk.inj (Option.some.inj hsec')
      exact ⟨rfl, rfl, hlog⟩

theorem sections_ne_nil {st st' : Asm} (h : st.sectionNames <+: st'.sectionNames)
    (hne : st.sections ≠ []) : st'.sections ≠ [] := by
  intro hnil
  unfold Asm.sectionNames at h
  rw [hnil, List.map_nil, List.prefix_nil, List.map_eq_nil_iff] at h
  exact hne h

theorem runActs_agree {s₁ t₁ s₂ t₂ : Asm} {acts : List LineAct} {log₁ log₂ : List Event}
    (h₁ : runActs 1 s₁ acts = some (t₁, log₁)) (h₂ : runActs 2 s₂ acts = some (t₂, log₂))
    (hcur : s₁.curSection = s₂.curSection) (hne : s₁.sections ≠ [])
    (hnames : t₁.sectionNames <+: s₂.sectionNames) (hshort : ShortNames acts) :
    (marks log₁).map (·.sectionIdx) = (marks log₂).map (·.sectionIdx) := by
  induction acts generalizing s₁ s₂ log₁ log₂ with
  | nil =>
    obtain ⟨-, rfl⟩ := Prod.mk.inj (Option.some.inj h₁)
    obtain ⟨-, rfl⟩ := Prod.mk.inj (Option.some.inj h₂)
    rfl
  | cons a acts ih =>
    obtain ⟨u₁, log₁, log₁', ha₁, hacts₁, rfl⟩ := runActs_cons h₁
    obtain ⟨u₂, log₂, log₂', ha₂, hacts₂, rfl⟩ := runActs_cons h₂
    have hstep := LineAct.run_step ha₁
    obtain ⟨hcur', hnames', hlog⟩ := step_agree hstep (LineAct.run_step ha₂) hcur hne
      ((runActs_names hacts₁).trans hnames) (hshort a List.mem_cons_self)
    have hrest := ih hacts₁ hacts₂ hcur' (sections_ne_nil (step_names hstep) hne)
      (hnames' ▸ hnames) (fun b hb => hshort b (List.mem_cons_of_mem a hb))
    rw [marks_append, marks_append, List.map_append, List.map_append, hlog, hrest]

end Gemios.As
