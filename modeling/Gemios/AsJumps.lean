import Gemios.AsTable

/-!
# Jumps to numeric labels

`jmp` and the conditional jumps of `src/tools/as.c` to the nearest label of a digit.  The label is
searched by its line in the table of `Gemios.AsTable`, and only the low byte of the displacement is
emitted.
-/

namespace Gemios.As

/-! ### The search -/

theorem foldl_best {α β : Type} {f : β → α → β} {P : β → Prop} {r : β} {l : List α} {acc : β}
    (hacc : P acc) (hkeep : ∀ b, P b → ∀ x ∈ l, P (f b x) ∨ f b x = r)
    (hbest : ∃ x ∈ l, ∀ b, P b → f b x = r) (hr : ∀ x ∈ l, f r x = r) : l.foldl f acc = r := by
  have hdone : ∀ l' : List α, (∀ x ∈ l', f r x = r) → l'.foldl f r = r := by
    intro l' h
    induction l' with
    | nil => rfl
    | cons x l' ih =>
      rw [List.foldl_cons, h x List.mem_cons_self]
      exact ih fun y hy => h y (List.mem_cons_of_mem x hy)
  induction l generalizing acc with
  | nil =>
    obtain ⟨x, hx, -⟩ := hbest
    cases hx
  | cons x l ih =>
    rw [List.forall_mem_cons] at hr
    rw [List.foldl_cons]
    have hstep := hkeep acc hacc x List.mem_cons_self
    by_cases heq : f acc x = r
    · rw [heq]
      exact hdone l hr.2
    · obtain ⟨y, hy, hbest⟩ := hbest
      have hyl : y ∈ l := (List.mem_cons.mp hy).resolve_left fun h => heq (h ▸ hbest acc hacc)
      exact ih (hstep.resolve_right heq) (fun b hb z hz => hkeep b hb z (List.mem_cons_of_mem x hz))
        ⟨y, hyl, hbest⟩ hr.2

section

variable {labels : List LabelPos} {name : List UInt8} {secIdx line : Nat} {e : LabelPos}

theorem backTarget_eq (he : e ∈ labels) (hname : e.name = name) (hsec : e.sectionIdx = secIdx)
    (hline : e.lineIdx < line)
    (hmax : ∀ e' ∈ labels, e'.name = name → e'.sectionIdx = secIdx → e'.lineIdx < line →
      e' = e ∨ e'.lineIdx < e.lineIdx) :
    backTarget labels name secIdx line = ((e.lineIdx : Int), int32 e.offset) := by
  unfold backTarget
  refine foldl_best (P := fun acc : Int × Int => acc.1 < e.lineIdx) ?_ ?_ ⟨e, he, ?_⟩ ?_
  · dsimp only
    omega
  · intro acc hacc e' he'
    split
    · rename_i hgood
      obtain ⟨hname', hsec', hline', -⟩ := hgood
      rcases hmax e' he' hname' hsec' hline' with rfl | hlt
      · exact Or.inr rfl
      · exact Or.inl (Int.ofNat_lt.mpr hlt)
    · exact Or.inl hacc
  · intro acc hacc
    exact if_pos ⟨hname, hsec, hline, hacc⟩
  · intro e' he'
    refine if_neg ?_
    rintro ⟨hname', hsec', hline', hlt⟩
    have hlt' : e.lineIdx < e'.lineIdx := Int.ofNat_lt.mp hlt
    rcases hmax e' he' hname' hsec' hline' with rfl | hlt''
    · exact Nat.lt_irrefl _ hlt'
    · exact Nat.lt_asymm hlt' hlt''

theorem forwardTarget_eq (he : e ∈ labels) (hname : e.name = name) (hsec : e.sectionIdx = secIdx)
    (hline : line < e.lineIdx) (hfar : e.lineIdx < 999999)
    (hmin : ∀ e' ∈ labels, e'.name = name → e'.sectionIdx = secIdx → line < e'.lineIdx →
      e' = e ∨ e.lineIdx < e'.lineIdx) :
    forwardTarget labels name secIdx line = (e.lineIdx, int32 e.offset) := by
  unfold forwardTarget
  refine foldl_best (P := fun acc : Nat × Int => e.lineIdx < acc.1) hfar ?_ ⟨e, he, ?_⟩ ?_
  · intro acc hacc e' he'
    split
    · rename_i hgood
      obtain ⟨hname', hsec', hline', -⟩ := hgood
      rcases hmin e' he' hname' hsec' hline' with rfl | hlt
      · exact Or.inr rfl
      · exact Or.inl hlt
    · exact Or.inl hacc
  · intro acc hacc
    exact if_pos ⟨hname, hsec, hline, hacc⟩
  · intro e' he'
    refine if_neg ?_
    rintro ⟨hname', hsec', hline', hlt⟩
    rcases hmin e' he' hname' hsec' hline' with rfl | hlt'
    · exact Nat.lt_irrefl _ hlt
    · exact Nat.lt_asymm hlt hlt'

end

/-! ### The displacement -/

theorem int32_of_lt {n : Nat} (h : n < 2147483648) : int32 n = n := by
  unfold int32
  rw [BitVec.toInt_ofNat']
  apply Int.bmod_eq_of_le <;> omega

theorem byte_toInt {x : Int} (hlow : -128 ≤ x) (hhigh : x ≤ 127) :
    (UInt8.ofNat (x % 256).toNat).toBitVec.toInt = x := by
  have hcast : ((x % 256).toNat : Int) = x % 256 := Int.toNat_of_nonneg (by omega)
  rw [UInt8.toBitVec_ofNat', BitVec.toInt_ofNat', hcast]
  have hmod : (x % 256).bmod (2 ^ 8) = x.bmod 256 := Int.emod_bmod x 256
  rw [hmod]
  apply Int.bmod_eq_of_le <;> omega

/-- A jump with a displacement of 8 bits gets from `off` to a label at `target`. -/
def ShortReach (off target : Nat) : Prop :=
  (off : Int) + 2 - 128 ≤ target ∧ (target : Int) ≤ off + 2 + 127

theorem disp_iff {j : LocalJump} {st : Asm} {line offset : Nat}
    (htarget : j.target st line = int32 offset) (hsmall : offset < 2147483648)
    (hsize : st.secSize st.curSection + 2 < 2147483648) :
    (offset : Int) = st.secSize st.curSection + 2 + (j.disp st line).toBitVec.toInt ↔
      ShortReach (st.secSize st.curSection) offset := by
  unfold ShortReach
  constructor
  · intro heq
    have hlow := BitVec.le_toInt (j.disp st line).toBitVec
    have hhigh := BitVec.toInt_lt (x := (j.disp st line).toBitVec)
    omega
  · rintro ⟨hlow, hhigh⟩
    unfold LocalJump.disp
    dsimp only
    rw [htarget, int32_of_lt hsmall, int32_of_lt (by omega), if_pos (Int.natCast_nonneg offset),
      byte_toInt (by omega) (by omega)]
    omega

/-! ### A jump in a run -/

theorem runActs_jump {pass : Nat} {st st' : Asm} {acts : List LineAct} {log before after : List Event}
    {j : LocalJump} {sec off line : Nat} {disp : UInt8}
    (h : runActs pass st acts = some (st', log))
    (hlog : log = before ++ .jump j sec off line disp :: after) :
    ∃ acts₁ a acts₂ s, acts = acts₁ ++ a :: acts₂ ∧ a.line = line ∧ a.act.isStmt ∧
      runActs pass st acts₁ = some (s, before) ∧ sec = s.curSection ∧
        off = s.secSize s.curSection ∧ disp = j.disp s line ∧
          runActs pass (secEmit s sec [j.opcode, disp]) acts₂ = some (st', after) := by
  induction acts generalizing st log before with
  | nil =>
    obtain ⟨-, rfl⟩ := Prod.mk.inj (Option.some.inj h)
    simp at hlog
  | cons a acts ih =>
    obtain ⟨st₁, log₁, log₂, ha, hacts, rfl⟩ := runActs_cons h
    -- the jump is one of the actions behind `a`
    have hlater : ∀ before', before = log₁ ++ before' →
        log₂ = before' ++ .jump j sec off line disp :: after →
        ∃ acts₁ a' acts₂ s, a :: acts = acts₁ ++ a' :: acts₂ ∧ a'.line = line ∧ a'.act.isStmt ∧
          runActs pass st acts₁ = some (s, before) ∧ sec = s.curSection ∧
            off = s.secSize s.curSection ∧ disp = j.disp s line ∧
              runActs pass (secEmit s sec [j.opcode, disp]) acts₂ = some (st', after) := by
      rintro before' rfl hlog₂
      obtain ⟨acts₁, a', acts₂, s, rfl, hline, hstmt, hrun, hrest⟩ := ih hacts hlog₂
      refine ⟨a :: acts₁, a', acts₂, s, rfl, hline, hstmt, ?_, hrest⟩
      rw [runActs, ha, Option.bind_some]
      dsimp only
      rw [hrun]
      rfl
    have hstep := LineAct.run_step ha
    obtain ⟨aline, act⟩ := a
    cases hstep with
    | label name hq =>
      cases before with
      | nil => cases hlog
      | cons e before =>
        obtain ⟨rfl, hlog₂⟩ := List.cons.inj hlog
        exact hlater before rfl hlog₂
    | rep b => exact hlater before rfl hlog
    | jump hs hj =>
      cases before with
      | nil =>
        obtain ⟨hevent, rfl⟩ := List.cons.inj hlog
        cases hevent
        exact ⟨[], _, acts, st, rfl, rfl, rfl, rfl, rfl, rfl, rfl, hacts⟩
      | cons e before =>
        obtain ⟨rfl, hlog₂⟩ := List.cons.inj hlog
        exact hlater before rfl hlog₂
    | switch hs hsec => exact hlater before rfl hlog
    | other hs hq => exact hlater before rfl hlog

/-! ### The labels around a jump -/

theorem actLabels_le {acts : List LineAct} (h : acts.Pairwise LineAct.Before) :
    (actLabels acts).Pairwise fun a b => a.2 ≤ b.2 := by
  refine (List.pairwise_filterMap.mpr (h.imp ?_))
  rintro a b hab x hx y hy
  obtain ⟨aline, aact⟩ := a
  obtain ⟨bline, bact⟩ := b
  cases aact <;> cases hx
  cases bact <;> cases hy
  exact hab.1

theorem mem_actLabels {acts : List LineAct} {l : List UInt8 × Nat} (h : l ∈ actLabels acts) :
    ∃ a ∈ acts, a.line = l.2 := by
  obtain ⟨a, ha, hl⟩ := List.mem_filterMap.mp h
  refine ⟨a, ha, ?_⟩
  obtain ⟨line, act⟩ := a
  cases act <;> cases hl
  rfl

theorem marks_le {pass : Nat} {st st' : Asm} {acts : List LineAct} {log : List Event}
    (h : runActs pass st acts = some (st', log)) (hacts : acts.Pairwise LineAct.Before) :
    (marks log).Pairwise fun a b => a.lineIdx ≤ b.lineIdx := by
  have hle := actLabels_le hacts
  rw [← runActs_marks h, List.pairwise_map] at hle
  exact hle

theorem marks_line {pass : Nat} {st st' : Asm} {acts : List LineAct} {log : List Event}
    (h : runActs pass st acts = some (st', log)) {l : LabelPos} (hl : l ∈ marks log) :
    ∃ a ∈ acts, a.line = l.lineIdx := by
  have hmem : (l.name, l.lineIdx) ∈ actLabels acts := by
    rw [← runActs_marks h]
    exact List.mem_map.mpr ⟨l, hl, rfl⟩
  exact mem_actLabels hmem

/-- Label `i` is on the side of a jump that it looks at, behind `n` labels. -/
def LocalJump.Side (j : LocalJump) (n i : Nat) : Prop := if j.back then i < n else n ≤ i

/-- Label `k` is the one that a jump is for: the nearest of its digit in its section, on its side
    of the `n` labels before it. -/
structure LocalJump.Nearest (j : LocalJump) (sec n : Nat) (ls : List LabelPos) (k : Nat)
    (l : LabelPos) : Prop where
  entry : ls[k]? = some l
  name : l.name = [j.digit]
  inSection : l.sectionIdx = sec
  side : j.Side n k
  nearest : ∀ (i : Nat) (l' : LabelPos), ls[i]? = some l' → l'.name = [j.digit] →
    l'.sectionIdx = sec → j.Side n i → if j.back then i ≤ k else k ≤ i

/-- The table at a jump on a line, behind `n` of the labels. -/
structure AtJump (ls : List LabelPos) (n line : Nat) (labels : List LabelPos) : Prop where
  entry : ∀ (i : Nat) (e : LabelPos), labels[i]? = some e →
    ∃ l, ls[i]? = some l ∧ e.name = l.name.take 63 ∧ e.sectionIdx = l.sectionIdx ∧
      e.lineIdx = l.lineIdx
  sorted : ls.Pairwise fun a b => a.lineIdx ≤ b.lineIdx
  before : ∀ (i : Nat) (l : LabelPos), i < n → ls[i]? = some l → l.lineIdx ≤ line
  after : ∀ (i : Nat) (l : LabelPos), n ≤ i → ls[i]? = some l → line < l.lineIdx

theorem take_eq_singleton {name : List UInt8} {c : UInt8} (h : name.take 63 = [c]) :
    name = [c] := by
  have hlen := congrArg List.length h
  rw [List.length_take, List.length_singleton] at hlen
  rwa [List.take_of_length_le (by omega)] at h

theorem getElem?_line_le {ls : List LabelPos} (h : ls.Pairwise fun a b => a.lineIdx ≤ b.lineIdx)
    {i k : Nat} {a b : LabelPos} (hik : i < k) (ha : ls[i]? = some a) (hb : ls[k]? = some b) :
    a.lineIdx ≤ b.lineIdx := by
  obtain ⟨hi, rfl⟩ := List.getElem?_eq_some_iff.mp ha
  obtain ⟨hk, rfl⟩ := List.getElem?_eq_some_iff.mp hb
  exact List.pairwise_iff_getElem.mp h i k hi hk hik

theorem AtJump.target {ls : List LabelPos} {n line : Nat} {st : Asm} {j : LocalJump} {k : Nat}
    {l e : LabelPos} (h : AtJump ls n line st.labels) (hl : j.Nearest st.curSection n ls k l)
    (hk : Alone ls k) (he : st.labels[k]? = some e) (hname : e.name = [j.digit])
    (hoff : e.offset = l.offset)
    (hline : if j.back then l.lineIdx ≠ line else l.lineIdx < 999999) :
    j.target st line = int32 l.offset := by
  have hmem : e ∈ st.labels := List.mem_of_getElem? he
  obtain ⟨l₀, hl₀, -, hsec, heline⟩ := h.entry k e he
  obtain rfl : l = l₀ := Option.some.inj (hl.entry.symm.trans hl₀)
  have hsec' := hsec.trans hl.inSection
  -- another entry of the digit in the section is not on the line of this one
  have hother : ∀ e' ∈ st.labels, e'.name = [j.digit] → e'.sectionIdx = st.curSection →
      ∃ i l', st.labels[i]? = some e' ∧ ls[i]? = some l' ∧ l'.name = [j.digit] ∧
        l'.sectionIdx = st.curSection ∧ e'.lineIdx = l'.lineIdx ∧
          (i ≠ k → l'.lineIdx ≠ l.lineIdx) := by
    intro e' he' hname' hsec'
    obtain ⟨i, hi⟩ := List.mem_iff_getElem?.mp he'
    obtain ⟨l', hl', hn, hs, hln⟩ := h.entry i e' hi
    refine ⟨i, l', hi, hl', take_eq_singleton (hn.symm.trans hname'), hs.symm.trans hsec', hln, ?_⟩
    intro hne heq
    exact hne (hk i l' l hl' hl.entry heq)
  have hside := hl.side
  have hnear := hl.nearest
  unfold LocalJump.target
  unfold LocalJump.Side at hside hnear
  cases hb : j.back with
  | true =>
    simp only [hb, if_true] at hside hnear hline ⊢
    have hlt : l.lineIdx < line := Nat.lt_of_le_of_ne (h.before k l hside hl.entry) hline
    rw [backTarget_eq hmem hname hsec' (heline ▸ hlt), hoff]
    intro e' he' hname' hsec' hline'
    obtain ⟨i, l', hi, hl', hn, hs, hln, hne⟩ := hother e' he' hname' hsec'
    have hin : i < n := by
      by_contra hge
      have hafter := h.after i l' (Nat.not_lt.mp hge) hl'
      omega
    rcases Nat.lt_or_eq_of_le (hnear i l' hl' hn hs hin) with hik | rfl
    · have hle := getElem?_line_le h.sorted hik hl' hl.entry
      have hne' := hne (Nat.ne_of_lt hik)
      right
      omega
    · left
      exact Option.some.inj (hi.symm.trans he)
  | false =>
    simp only [hb, Bool.false_eq_true, if_false] at hside hnear hline ⊢
    have hlt : line < l.lineIdx := h.after k l hside hl.entry
    rw [forwardTarget_eq hmem hname hsec' (heline ▸ hlt) (heline ▸ hline), hoff]
    intro e' he' hname' hsec' hline'
    obtain ⟨i, l', hi, hl', hn, hs, hln, hne⟩ := hother e' he' hname' hsec'
    have hin : n ≤ i := by
      by_contra hlt'
      have hbefore := h.before i l' (Nat.not_le.mp hlt') hl'
      omega
    rcases Nat.lt_or_eq_of_le (hnear i l' hl' hn hs hin) with hik | rfl
    · have hle := getElem?_line_le h.sorted hik hl.entry hl'
      have hne' := hne (Nat.ne_of_gt hik)
      right
      omega
    · left
      exact Option.some.inj (hi.symm.trans he)

/-! ### The table at a jump -/

theorem map_key_eq {ls ls' : List LabelPos}
    (h : ls.map (fun l => (l.name, l.lineIdx)) = ls'.map fun l => (l.name, l.lineIdx))
    (hsec : ls.map (·.sectionIdx) = ls'.map (·.sectionIdx)) :
    ls.map LabelPos.key = ls'.map LabelPos.key := by
  induction ls generalizing ls' with
  | nil =>
    cases ls' with
    | nil => rfl
    | cons l' ls' => cases h
  | cons l ls ih =>
    cases ls' with
    | nil => cases h
    | cons l' ls' =>
      obtain ⟨hhead, htail⟩ := List.cons.inj h
      obtain ⟨hsechead, hsectail⟩ := List.cons.inj hsec
      obtain ⟨hname, hline⟩ := Prod.mk.inj hhead
      have hkey : l.key = l'.key := Prod.ext hname (Prod.ext hsechead hline)
      rw [List.map_cons, List.map_cons, ih htail hsectail, hkey]

theorem entry_of_key {ls ls' labels : List LabelPos} (hkeys : ls.map LabelPos.key = ls'.map LabelPos.key)
    (hlabels : labels.map LabelPos.key =
      ((ls.map LabelPos.stored).take MAX_LOCAL_LABELS).map LabelPos.key)
    {i : Nat} {e : LabelPos} (he : labels[i]? = some e) :
    ∃ l, ls'[i]? = some l ∧ e.name = l.name.take 63 ∧ e.sectionIdx = l.sectionIdx ∧
      e.lineIdx = l.lineIdx := by
  have hkey : (((ls.map LabelPos.stored).take MAX_LOCAL_LABELS).map LabelPos.key)[i]? = some e.key := by
    rw [← hlabels, List.getElem?_map, he]
    rfl
  rw [List.getElem?_map, Option.map_eq_some_iff] at hkey
  obtain ⟨f, hf, hfe⟩ := hkey
  have hf' : (ls.map LabelPos.stored)[i]? = some f := by
    rw [List.getElem?_take] at hf
    split at hf
    · exact hf
    · cases hf
  rw [List.getElem?_map, Option.map_eq_some_iff] at hf'
  obtain ⟨l₁, hl₁, rfl⟩ := hf'
  have hkey' : (ls'.map LabelPos.key)[i]? = some l₁.key := by
    rw [← hkeys, List.getElem?_map, hl₁]
    rfl
  rw [List.getElem?_map, Option.map_eq_some_iff] at hkey'
  obtain ⟨l, hl, hll⟩ := hkey'
  unfold LabelPos.key LabelPos.stored at hfe
  unfold LabelPos.key at hll
  simp only [Prod.mk.injEq] at hfe hll
  obtain ⟨hname, hsec, hline⟩ := hfe
  obtain ⟨hname', hsec', hline'⟩ := hll
  exact ⟨l, hl, by rw [← hname, hname'], hsec.symm.trans hsec'.symm, hline.symm.trans hline'.symm⟩

/-- What the search needs to find the label of a jump: it is in the table, alone with its line, on
    another line than the jump and below the line that the search begins with, and where pass 1 had
    it if it comes behind the jump. -/
structure LocalJump.Found (j : LocalJump) (line : Nat) (ls₁ ls : List LabelPos) (k : Nat)
    (l : LabelPos) : Prop where
  inTable : k < MAX_LOCAL_LABELS
  alone : Alone ls k
  apart : if j.back then l.lineIdx ≠ line else l.lineIdx < 999999
  steady : j.back = false → ∀ l₁, ls₁[k]? = some l₁ → l₁.offset = l.offset
  small : l.offset < 2147483648

theorem moved_offset {j : LocalJump} {sec line k : Nat} {ls₁ before after : List LabelPos}
    {l l₁ : LabelPos} (hl : j.Nearest sec before.length (before ++ after) k l)
    (hr : j.Found line ls₁ (before ++ after) k l) (hl₁ : ls₁[k]? = some l₁)
    (hline : l₁.lineIdx = l.lineIdx) : (l₁.stored.moved before).offset = l.offset := by
  have hline' : l₁.stored.lineIdx = l.lineIdx := hline
  have hentry := hl.entry
  have hside := hl.side
  unfold LocalJump.Side at hside
  cases hb : j.back with
  | true =>
    rw [hb, if_pos rfl] at hside
    rw [List.getElem?_append_left hside] at hentry
    obtain ⟨hk, hget⟩ := List.getElem?_eq_some_iff.mp hentry
    have hsplit : before = before.take k ++ l :: before.drop (k + 1) := by
      rw [← hget, List.getElem_cons_drop, List.take_append_drop]
    have hrest : ∀ l' ∈ before.drop (k + 1), l'.lineIdx ≠ l₁.stored.lineIdx := by
      intro l' hl' heq
      obtain ⟨i, hi⟩ := List.mem_iff_getElem?.mp hl'
      rw [List.getElem?_drop] at hi
      have hi' : (before ++ after)[k + 1 + i]? = some l' := by
        rw [List.getElem?_append_left (List.getElem?_eq_some_iff.mp hi).1]
        exact hi
      have hik := hr.alone _ _ _ hi' hl.entry (heq.trans hline')
      omega
    rw [hsplit, moved_of_unique hline'.symm hrest]
  | false =>
    rw [hb, if_neg Bool.false_ne_true] at hside
    have hnone : ∀ l' ∈ before, l'.lineIdx ≠ l₁.stored.lineIdx := by
      intro l' hl' heq
      obtain ⟨i, hi⟩ := List.mem_iff_getElem?.mp hl'
      have hlt := (List.getElem?_eq_some_iff.mp hi).1
      have hi' : (before ++ after)[i]? = some l' := by
        rw [List.getElem?_append_left hlt]
        exact hi
      have hik := hr.alone _ _ _ hi' hl.entry (heq.trans hline')
      omega
    rw [moved_of_forall_ne hnone]
    exact hr.steady hb l₁ hl₁

theorem beginPass_sectionNames (st : Asm) (pass : Nat) :
    (st.beginPass pass).sectionNames = st.sectionNames := by
  unfold Asm.beginPass Asm.sectionNames
  rw [List.map_map]
  rfl

theorem beginPass_filled {st : Asm} (h : 1 < st.sections.length) (pass : Nat) :
    (st.beginPass pass).Filled := by
  unfold Asm.beginPass
  constructor
  · dsimp only
    rw [List.length_map]
    exact h
  · intro s hs
    obtain ⟨s', -, rfl⟩ := List.mem_map.mp hs
    exact fun _ => rfl

/-- The table at a jump of pass 2, and the entry of a label that is alone with its line. -/
theorem jump_site {acts acts₁ acts₂ : List LineAct} {a : LineAct} {st₁ s st : Asm}
    {log₁ before after : List Event} {log₂ : List Event}
    (hacts : acts = acts₁ ++ a :: acts₂) (hord : acts.Pairwise LineAct.Before) (ha : a.act.isStmt)
    (h₁ : runActs 1 (initAsm.beginPass 1) acts = some (st₁, log₁))
    (h₂ : runActs 2 (st₁.beginPass 2) acts = some (st, log₂))
    (hbefore : runActs 2 (st₁.beginPass 2) acts₁ = some (s, before)) {s' : Asm}
    (hafter : runActs 2 s' acts₂ = some (st, after)) (hshort : ShortNames acts)
    (hmarks : marks log₂ = marks before ++ marks after) :
    AtJump (marks log₂) (marks before).length a.line s.labels ∧
      ∀ k, k < MAX_LOCAL_LABELS → Alone (marks log₂) k → ∀ l, (marks log₂)[k]? = some l →
        ∃ l₁, (marks log₁)[k]? = some l₁ ∧ l₁.key = l.key ∧
          s.labels[k]? = some (l₁.stored.moved (marks before)) := by
  have hone := runActs_one h₁ (Nat.zero_le _)
  obtain ⟨hkeys₂, hentries⟩ := runActs_two hbefore
  have hlabels : (st₁.beginPass 2).labels =
      ((marks log₁).map LabelPos.stored).take MAX_LOCAL_LABELS := hone
  have hagree : (marks log₁).map LabelPos.key = (marks log₂).map LabelPos.key := by
    refine map_key_eq ((runActs_marks h₁).trans (runActs_marks h₂).symm) ?_
    refine runActs_agree h₁ h₂ rfl (by decide) ?_ hshort
    exact beginPass_sectionNames st₁ 2 ▸ List.prefix_refl _
  rw [hlabels] at hkeys₂ hentries
  have hsorted := marks_le h₂ hord
  rw [hacts, List.pairwise_append, List.pairwise_cons] at hord
  obtain ⟨-, ⟨hlater, -⟩, hearlier⟩ := hord
  constructor
  · constructor
    · exact fun i e he => entry_of_key hagree hkeys₂ he
    · exact hsorted
    · intro i l hi hl
      rw [hmarks, List.getElem?_append_left hi] at hl
      obtain ⟨b, hb, hline⟩ := marks_line hbefore (List.mem_of_getElem? hl)
      rw [← hline]
      exact (hearlier b hb a List.mem_cons_self).1
    · intro i l hi hl
      rw [hmarks, List.getElem?_append_right hi] at hl
      obtain ⟨b, hb, hline⟩ := marks_line hafter (List.mem_of_getElem? hl)
      rw [← hline]
      exact (hlater b hb).2 ha
  · intro k hk halone l hl
    have hkey : ((marks log₁).map LabelPos.key)[k]? = some l.key := by
      rw [hagree, List.getElem?_map, hl]
      rfl
    rw [List.getElem?_map, Option.map_eq_some_iff] at hkey
    obtain ⟨l₁, hl₁, hkey⟩ := hkey
    refine ⟨l₁, hl₁, hkey, hentries k l₁.stored ?_ ?_⟩
    · intro i e e' hi hk' heq
      obtain ⟨f, hf, -, -, hfe⟩ := entry_of_key hagree rfl hi
      obtain ⟨f', hf', -, -, hfe'⟩ := entry_of_key hagree rfl hk'
      exact halone i f f' hf hf' (hfe.symm.trans (heq.trans hfe'))
    · rw [List.getElem?_take, if_pos hk, List.getElem?_map, hl₁]
      rfl

theorem jump_bytes {pass : Nat} {s st : Asm} {acts : List LineAct} {log : List Event}
    {opcode disp : UInt8} (h : runActs pass (secEmit s s.curSection [opcode, disp]) acts = some (st, log))
    (hs : s.Filled) :
    ∃ sect, st.sections[s.curSection]? = some sect ∧
      (sect.type ≠ SHT_NOBITS →
        (sect.data.drop (s.secSize s.curSection)).take 2 = [opcode, disp]) := by
  obtain ⟨sect, hsect⟩ : ∃ sect, s.sections[s.curSection]? = some sect :=
    ⟨_, List.getElem?_eq_getElem hs.cur⟩
  have hsize : s.secSize s.curSection = sect.size := by
    unfold Asm.secSize
    rw [List.getD_eq_getElem?_getD, hsect]
    rfl
  have hemit : (secEmit s s.curSection [opcode, disp]).sections[s.curSection]? =
      some ((sect.emit opcode).emit disp) := by
    have hsec : (secEmit s s.curSection [opcode, disp]).sections =
        (s.sections.modify s.curSection (·.emit opcode)).modify s.curSection (·.emit disp) := rfl
    rw [hsec, List.getElem?_modify_eq, List.getElem?_modify_eq, hsect]
    rfl
  obtain ⟨sect', hsect', hgrown⟩ := runActs_grows h _ _ hemit
  refine ⟨sect', hsect', fun htype => ?_⟩
  rw [hgrown.type] at htype
  obtain ⟨bs, -, hdata⟩ := hgrown.more
  have htype' : sect.type ≠ SHT_NOBITS := htype
  have hfull := hs.full sect (List.mem_of_getElem? hsect) htype'
  have hbytes : ((sect.emit opcode).emit disp).data = sect.data ++ [opcode, disp] := by
    unfold Section.emit
    dsimp only
    rw [if_pos htype', if_pos htype', List.append_assoc]
    rfl
  rw [hdata, if_pos htype, hbytes, hsize, ← hfull, List.append_assoc, List.drop_left]
  rfl

/-- In every run of the assembler, a jump whose nearest label is found lands on it exactly if 8
    bits reach that far, and its two bytes are in the section. -/
theorem local_jumps_land {lines : List (List UInt8)} {st : Asm} {log₁ log₂ : List Event}
    (h : assemble lines = some (st, log₁, log₂))
    (hshort : ∀ acts, sourceActs 0 lines = some acts → ShortNames acts)
    {before after : List Event} {j : LocalJump} {sec off line : Nat} {disp : UInt8}
    (hjump : log₂ = before ++ .jump j sec off line disp :: after) {k : Nat} {l : LabelPos}
    (hl : j.Nearest sec (marks before).length (marks log₂) k l)
    (hr : j.Found line (marks log₁) (marks log₂) k l) (hsize : off + 2 < 2147483648) :
    ((l.offset : Int) = off + 2 + disp.toBitVec.toInt ↔ ShortReach off l.offset) ∧
      ∃ sect, st.sections[sec]? = some sect ∧
        (sect.type ≠ SHT_NOBITS → (sect.data.drop off).take 2 = [j.opcode, disp]) := by
  obtain ⟨acts, st₁, hsource, h₁, h₂⟩ := assemble_acts h
  obtain ⟨acts₁, a, acts₂, s, hacts, rfl, hstmt, hbefore, rfl, rfl, rfl, hafter⟩ :=
    runActs_jump h₂ hjump
  have hmarks : marks log₂ = marks before ++ marks after := by
    rw [hjump, marks_append]
    rfl
  obtain ⟨hsite, htable⟩ := jump_site hacts (sourceActs_ordered hsource).1 hstmt h₁ h₂ hbefore
    hafter (hshort acts hsource) hmarks
  obtain ⟨l₁, hl₁, hkey, he⟩ := htable k hr.inTable hr.alone l hl.entry
  have hname : l₁.stored.name = [j.digit] := by
    have hname₁ : l₁.name = [j.digit] := (congrArg (·.1) hkey).trans hl.name
    unfold LabelPos.stored
    dsimp only
    rw [hname₁]
    rfl
  have hoff : (l₁.stored.moved (marks before)).offset = l.offset := by
    rw [hmarks] at hl hr
    exact moved_offset hl hr hl₁ (congrArg (·.2.2) hkey)
  have htarget : j.target s a.line = int32 l.offset :=
    hsite.target hl hr.alone he hname hoff hr.apart
  have hfilled : s.Filled := by
    have hlen := (runActs_names h₁).length_le
    unfold Asm.sectionNames at hlen
    rw [List.length_map, List.length_map] at hlen
    exact runActs_filled hbefore (beginPass_filled hlen 2)
  exact ⟨disp_iff htarget hr.small hsize, jump_bytes hafter hfilled⟩

/-- A jump ahead, between two labels of one digit. -/
theorem local_jumps_land_sample :
    ∃ st log₁, assemble [str "1:", str "jmp 1f", str "1:"] =
        some (st, log₁, [.label ⟨str "1", 1, 0, 0⟩, .jump ⟨0xEB, 0x31, false⟩ 1 0 1 0,
          .label ⟨str "1", 1, 2, 2⟩]) ∧
      ((((2 : Nat) : Int) = (0 : Nat) + 2 + (0 : UInt8).toBitVec.toInt ↔ ShortReach 0 2) ∧
        ∃ sect, st.sections[1]? = some sect ∧
          (sect.type ≠ SHT_NOBITS → (sect.data.drop 0).take 2 = [0xEB, 0])) := by
  have hrun : assemble [str "1:", str "jmp 1f", str "1:"] =
      some (⟨[noSection, ⟨str ".text", SHT_PROGBITS, SHF_ALLOC ||| SHF_EXECINSTR, 4, [0xEB, 0], 2⟩],
          1, [noSymbol, ⟨str "1", 2, 0, 0, 0, 1, true⟩], [],
          [⟨str "1", 1, 0, 0⟩, ⟨str "1", 1, 2, 2⟩]⟩,
        [.label ⟨str "1", 1, 0, 0⟩, .jump ⟨0xEB, 0x31, false⟩ 1 0 1 0, .label ⟨str "1", 1, 2, 2⟩],
        [.label ⟨str "1", 1, 0, 0⟩, .jump ⟨0xEB, 0x31, false⟩ 1 0 1 0,
          .label ⟨str "1", 1, 2, 2⟩]) := by
    decide +kernel
  have hacts : sourceActs 0 [str "1:", str "jmp 1f", str "1:"] =
      some [⟨0, .label (str "1")⟩, ⟨1, .stmt (str "jmp") (str "1f") [str "1f"]⟩,
        ⟨2, .label (str "1")⟩] := by
    decide +kernel
  have hshort : ∀ acts, sourceActs 0 [str "1:", str "jmp 1f", str "1:"] = some acts →
      ShortNames acts := by
    have hnone : ∀ a ∈ [(⟨0, .label (str "1")⟩ : LineAct),
        ⟨1, .stmt (str "jmp") (str "1f") [str "1f"]⟩, ⟨2, .label (str "1")⟩],
        a.act.switch? = none := by
      decide +kernel
    intro acts h a ha name type flags hs
    rw [hacts] at h
    obtain rfl := Option.some.inj h
    rw [hnone a ha] at hs
    cases hs
  have hlog : [Event.label ⟨str "1", 1, 0, 0⟩, .jump ⟨0xEB, 0x31, false⟩ 1 0 1 0,
        .label ⟨str "1", 1, 2, 2⟩] =
      [Event.label ⟨str "1", 1, 0, 0⟩] ++ .jump ⟨0xEB, 0x31, false⟩ 1 0 1 0 ::
        [.label ⟨str "1", 1, 2, 2⟩] := rfl
  refine ⟨_, _, hrun, local_jumps_land (k := 1) (l := ⟨str "1", 1, 2, 2⟩) hrun hshort hlog
    ?_ ?_ (by decide)⟩
  · exact
      { entry := rfl
        name := by decide +kernel
        inSection := rfl
        side := Nat.le_refl 1
        nearest := fun _ _ _ _ _ hside => hside }
  · refine
      { inTable := by decide
        alone := ?_
        apart := by decide
        steady := fun _ _ h => by cases h; rfl
        small := by decide }
    rintro (_ | _ | i) e e' hi hk hline
    · cases hi
      cases hk
      cases hline
    · rfl
    · cases hi

/-- A label on the line of the jump is not found, a label that is missing is not reported, and a
    label that is too far is missed: the jumps go to the next instruction, and 54 bytes ahead. -/
theorem local_jumps_astray :
    (assemble [str "1: jmp 1b"]).map (·.2.2) =
        some [.label ⟨str "1", 1, 0, 0⟩, .jump ⟨0xEB, 0x31, true⟩ 1 0 0 0] ∧
      (assemble [str "jmp 1f"]).map (·.2.2) = some [.jump ⟨0xEB, 0x31, false⟩ 1 0 0 0] ∧
        (assemble [str "1:", str ".zero 200", str "jmp 1b"]).map (·.2.2) =
          some [.label ⟨str "1", 1, 0, 0⟩, .jump ⟨0xEB, 0x31, true⟩ 1 200 2 0x36] := by
  decide +kernel

end Gemios.As
