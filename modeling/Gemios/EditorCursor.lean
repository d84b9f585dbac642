import Gemios.EditorColumn

/-!
# The cursor is where the text is

The loops of `editor_render` and `utf8_byte_to_column` over a line in memory are the walks over its text.
Which lines both measure alike, and which both read without going past the NUL.
-/

namespace Gemios.Editor

/-! ### The walks in memory -/

section

variable {mem : Buf} {line : Nat} {s : List UInt8} (h : IsStr mem line s)
include h

theorem columnLoop_eq {byteIdx : Nat} (hle : byteIdx ≤ s.length) {n idx : Nat}
    (hn : byteIdx ≤ idx + n) (col : Nat) :
    columnLoop mem line byteIdx n idx col = columnOf 0 (s.drop idx) (byteIdx - idx) col := by
  induction n generalizing idx col with
  | zero => rw [columnLoop, show byteIdx - idx = 0 by omega, columnOf_zero]
  | succ n ih =>
    rw [columnLoop]
    rcases Nat.lt_or_ge idx byteIdx with hlt | hge
    · have hidx : idx < s.length := by omega
      have hbyte := h.bytes idx hidx
      have hne : s[idx] ≠ 0 := h.nonzero _ (List.getElem_mem hidx)
      have hpos := utf8CharLength_pos s[idx]
      rw [hbyte, if_pos ⟨hlt, hne⟩, List.drop_eq_getElem_cons hidx, columnOf_cons (by omega),
        ← List.drop_eq_getElem_cons hidx, List.drop_drop, Nat.sub_sub]
      by_cases htab : s[idx] = 9
      · have hlen : utf8CharLength s[idx] = 1 := by rw [htab]; rfl
        rw [if_pos htab, ih (by omega), hlen, colAfter, if_pos htab]
      · rw [if_neg htab, ih (by omega), colAfter, if_neg htab]
    · rw [if_neg (by omega), show byteIdx - idx = 0 by omega, columnOf_zero]

theorem utf8ByteToColumn_eq {byteIdx : Nat} (hle : byteIdx ≤ s.length) :
    utf8ByteToColumn mem line byteIdx = columnOf 0 s byteIdx 0 :=
  columnLoop_eq h hle (Nat.le_add_left _ _) 0

omit h in
theorem columnReads_le {byteIdx : Nat} (hle : byteIdx ≤ s.length) (n idx : Nat) :
    ∀ r ∈ columnReads mem line byteIdx n idx, r ≤ line + s.length := by
  induction n generalizing idx with
  | zero => simp [columnReads]
  | succ n ih =>
    rw [columnReads]
    split
    · rename_i hlt
      rw [List.forall_mem_cons]
      refine ⟨by omega, ?_⟩
      split
      · split
        · exact ih _
        · exact ih _
      · simp
    · simp

theorem all_cont_iff {m : Nat} :
    (m ≤ s.length ∧ (s.take m).all isCont = true) ↔ ∀ i < m, isCont (mem (line + i)) = true := by
  constructor
  · rintro ⟨hle, hall⟩ i hi
    rw [h.bytes i (by omega)]
    refine List.all_eq_true.mp hall _ ?_
    rw [List.mem_take_iff_getElem]
    exact ⟨i, by omega, rfl⟩
  · intro hcont
    have hle : m ≤ s.length := by
      by_contra hlt
      have hnul := hcont s.length (by omega)
      rw [h.nul] at hnul
      exact absurd hnul (by decide)
    refine ⟨hle, List.all_eq_true.mpr fun x hx => ?_⟩
    obtain ⟨i, hi, rfl⟩ := List.mem_take_iff_getElem.mp hx
    rw [← h.bytes i (by omega)]
    exact hcont i (by omega)

end

theorem utf8Decode_length {mem : Buf} {str : Nat} {b : UInt8} {t : List UInt8}
    (h : IsStr mem str (b :: t)) : (utf8Decode mem str).length = pieceLen (b :: t) := by
  have hb : mem str = b := h.bytes 0 (Nat.succ_pos _)
  have hne : b ≠ 0 := h.nonzero b List.mem_cons_self
  have ht : IsStr mem (str + 1) t := h.tail (List.cons_ne_nil b t)
  unfold utf8Decode pieceLen
  dsimp only
  simp only [all_cont_iff ht]
  rw [hb, if_neg hne]
  by_cases h1 : b &&& 0x80 = 0
  · have hlen : utf8CharLength b = 1 := if_pos h1
    rw [if_pos h1, hlen]
    simp
  by_cases h2 : b &&& 0xE0 = 0xC0
  · have hlen : utf8CharLength b = 2 := by rw [utf8CharLength, if_neg h1, if_pos h2]
    rw [if_neg h1, if_pos h2, hlen]
    cases hc1 : isCont (mem (str + 1)) <;> simp [hc1]
  by_cases h3 : b &&& 0xF0 = 0xE0
  · have hlen : utf8CharLength b = 3 := by rw [utf8CharLength, if_neg h1, if_neg h2, if_pos h3]
    have hiff : (∀ i < 2, isCont (mem (str + 1 + i)) = true) ↔
        isCont (mem (str + 1)) = true ∧ isCont (mem (str + 2)) = true := by
      constructor
      · intro hall
        exact ⟨hall 0 (by decide), hall 1 (by decide)⟩
      · rintro ⟨hc1, hc2⟩ i hi
        match i with
        | 0 => exact hc1
        | 1 => exact hc2
    rw [if_neg h1, if_neg h2, if_pos h3, hlen]
    simp only [Nat.reduceSub, Nat.reduceAdd, hiff]
    cases isCont (mem (str + 1)) <;> cases isCont (mem (str + 2)) <;> rfl
  by_cases h4 : b &&& 0xF8 = 0xF0
  · have hlen : utf8CharLength b = 4 := by
      rw [utf8CharLength, if_neg h1, if_neg h2, if_neg h3, if_pos h4]
    have hiff : (∀ i < 3, isCont (mem (str + 1 + i)) = true) ↔
        isCont (mem (str + 1)) = true ∧ isCont (mem (str + 2)) = true ∧
          isCont (mem (str + 3)) = true := by
      constructor
      · intro hall
        exact ⟨hall 0 (by decide), hall 1 (by decide), hall 2 (by decide)⟩
      · rintro ⟨hc1, hc2, hc3⟩ i hi
        match i with
        | 0 => exact hc1
        | 1 => exact hc2
        | 2 => exact hc3
    rw [if_neg h1, if_neg h2, if_neg h3, if_pos h4, hlen]
    simp only [Nat.reduceSub, Nat.reduceAdd, hiff]
    cases isCont (mem (str + 1)) <;> cases isCont (mem (str + 2)) <;>
      cases isCont (mem (str + 3)) <;> rfl
  · have hlen : utf8CharLength b = 1 := by
      rw [utf8CharLength, if_neg h1, if_neg h2, if_neg h3, if_neg h4]
    rw [if_neg h1, if_neg h2, if_neg h3, if_neg h4, hlen]
    simp

theorem utf8Decode_reads {mem : Buf} {str : Nat} (hne : mem str ≠ 0) :
    (utf8Decode mem str).reads = List.range' str (utf8CharLength (mem str)) := by
  unfold utf8Decode utf8CharLength
  dsimp only
  rw [if_neg hne]
  by_cases h1 : mem str &&& 0x80 = 0
  · rw [if_pos h1, if_pos h1]
    rfl
  by_cases h2 : mem str &&& 0xE0 = 0xC0
  · rw [if_neg h1, if_neg h1, if_pos h2, if_pos h2]
    split <;> rfl
  by_cases h3 : mem str &&& 0xF0 = 0xE0
  · rw [if_neg h1, if_neg h1, if_neg h2, if_neg h2, if_pos h3, if_pos h3]
    split <;> rfl
  by_cases h4 : mem str &&& 0xF8 = 0xF0
  · rw [if_neg h1, if_neg h1, if_neg h2, if_neg h2, if_neg h3, if_neg h3, if_pos h4, if_pos h4]
    split <;> rfl
  · rw [if_neg h1, if_neg h1, if_neg h2, if_neg h2, if_neg h3, if_neg h3, if_neg h4, if_neg h4]
    rfl

theorem tabLoop_fst (leftCol limit : Int) {nextTab : Nat} {n col : Nat} (hcol : col ≤ nextTab)
    (hn : nextTab ≤ col + n) :
    (tabLoop leftCol limit nextTab n col).1 ≤ nextTab ∧
      ((tabLoop leftCol limit nextTab n col).1 = nextTab ∨
        limit ≤ (tabLoop leftCol limit nextTab n col).1) := by
  induction n generalizing col with
  | zero =>
    have heq : col = nextTab := by omega
    exact ⟨hcol, .inl heq⟩
  | succ n ih =>
    rw [tabLoop]
    split
    · rename_i hin
      exact ih (by omega) (by omega)
    · rename_i hout
      refine ⟨hcol, ?_⟩
      dsimp only
      omega

theorem startsFrom_le {k skip : Nat} {l : List UInt8} {col : Nat} :
    ∀ st ∈ startsFrom k skip l col, col ≤ st.2 := by
  induction l generalizing k skip col with
  | nil => simp [startsFrom]
  | cons b t ih =>
    cases skip with
    | succ skip => exact ih
    | zero =>
      rw [startsFrom, List.forall_mem_cons]
      refine ⟨Nat.le_refl _, fun st hst => ?_⟩
      exact Nat.le_trans (Nat.le_of_lt (lt_colAfter b col)) (ih st hst)

/-- A character that `utf8_decode` reads without going past the NUL. -/
def ReadsInside (mem : Buf) (line len bIdx : Nat) : Prop :=
  bIdx + utf8CharLength (mem (line + bIdx)) ≤ len + 1

section

variable {mem : Buf} {line : Nat} {s : List UInt8} (h : IsStr mem line s) {leftCol limit : Int}
include h

variable (leftCol) in
theorem renderLoop_step (n : Nat) {bIdx col : Nat} (hidx : bIdx < s.length) (hcol : (col : Int) < limit) :
    ∃ col', (col' = colAfter s[bIdx] col ∨ limit ≤ col' ∧ col' ≤ colAfter s[bIdx] col) ∧
      (renderLoop mem line s.length leftCol limit (n + 1) bIdx col).starts =
        (if leftCol ≤ col then [(bIdx, col)] else []) ++
          (renderLoop mem line s.length leftCol limit n (bIdx + pieceLen (s.drop bIdx)) col').starts ∧
      ((∀ r ∈ (renderLoop mem line s.length leftCol limit (n + 1) bIdx col).reads,
          r ≤ line + s.length) ↔ ReadsInside mem line s.length bIdx ∧
        ∀ r ∈ (renderLoop mem line s.length leftCol limit n (bIdx + pieceLen (s.drop bIdx)) col').reads,
          r ≤ line + s.length) := by
  have hbyte := h.bytes bIdx hidx
  have hne : mem (line + bIdx) ≠ 0 := hbyte ▸ h.nonzero _ (List.getElem_mem hidx)
  have hdrop := h.drop (Nat.le_of_lt hidx)
  rw [List.drop_eq_getElem_cons hidx] at hdrop ⊢
  rw [renderLoop, if_pos ⟨hidx, hcol⟩, hbyte]
  dsimp only
  by_cases htab : s[bIdx] = 9
  · have hpiece : pieceLen (s[bIdx] :: s.drop (bIdx + 1)) = 1 := by
      have hone : IsChar [s[bIdx]] := ⟨s[bIdx], [], rfl, by rw [htab]; rfl, by simp⟩
      exact hone.pieceLen_append _
    have hinside : ReadsInside mem line s.length bIdx := by
      have hlen : utf8CharLength 9 = 1 := rfl
      rw [ReadsInside, hbyte, htab, hlen]
      omega
    have hend := tabLoop_fst leftCol limit (Nat.le_add_right col (4 - col % 4))
      (Nat.add_le_add_left (Nat.sub_le 4 (col % 4)) col)
    refine ⟨(tabLoop leftCol limit (col + (4 - col % 4)) 4 col).1, ?_, ?_, ?_⟩
    · rw [colAfter, if_pos htab]
      rcases hend.2 with heq | hle
      · exact .inl heq
      · exact .inr ⟨hle, hend.1⟩
    · rw [if_pos htab, hpiece]
    · rw [if_pos htab, hpiece]
      simp only [List.forall_mem_cons, hinside, true_and]
      exact and_iff_right (by omega)
  · have hlen := utf8Decode_length hdrop
    have hpos := pieceLen_cons s[bIdx] (s.drop (bIdx + 1))
    have hreads := utf8Decode_reads hne
    refine ⟨col + 1, .inl (if_neg htab).symm, ?_, ?_⟩
    · rw [if_neg htab, if_neg (by omega), hlen]
    · rw [if_neg htab, if_neg (by omega), hlen, hreads]
      have hinside : (∀ r ∈ List.range' (line + bIdx) (utf8CharLength (mem (line + bIdx))),
          r ≤ line + s.length) ↔ ReadsInside mem line s.length bIdx := by
        have hcount := utf8CharLength_pos (mem (line + bIdx))
        rw [ReadsInside]
        constructor
        · intro hall
          have hlast := hall (line + bIdx + (utf8CharLength (mem (line + bIdx)) - 1)) (by
            rw [List.mem_range'_1]
            omega)
          omega
        · intro hle r hr
          rw [List.mem_range'_1] at hr
          omega
      simp only [List.cons_append, List.forall_mem_cons, List.forall_mem_append, hinside]
      exact and_iff_right (by omega)

theorem renderLoop_starts {n bIdx col : Nat} (hn : s.length ≤ bIdx + n) :
    (renderLoop mem line s.length leftCol limit n bIdx col).starts =
      (startsFrom bIdx 0 (s.drop bIdx) col).filter fun st => leftCol ≤ st.2 ∧ (st.2 : Int) < limit := by
  have hcut : ∀ {k l} {c : Nat}, limit ≤ c →
      (startsFrom k 0 l c).filter (fun st => leftCol ≤ st.2 ∧ (st.2 : Int) < limit) = [] := by
    intro k l c hc
    rw [List.filter_eq_nil_iff]
    intro st hst
    have hle := startsFrom_le st hst
    simp only [decide_eq_true_eq, not_and]
    omega
  induction n generalizing bIdx col with
  | zero =>
    rw [List.drop_eq_nil_of_le (show s.length ≤ bIdx from hn), startsFrom]
    rfl
  | succ n ih =>
    rcases Nat.lt_or_ge bIdx s.length with hidx | hidx
    · by_cases hcol : (col : Int) < limit
      · obtain ⟨col', hcol', hstarts, -⟩ := renderLoop_step h leftCol n hidx hcol
        have hpos : 0 < pieceLen (s.drop bIdx) := by
          rw [List.drop_eq_getElem_cons hidx]
          exact pieceLen_cons _ _
        have hrest : (renderLoop mem line s.length leftCol limit n (bIdx + pieceLen (s.drop bIdx))
            col').starts = (startsFrom (bIdx + pieceLen (s.drop bIdx)) 0
              (s.drop (bIdx + pieceLen (s.drop bIdx))) (colAfter s[bIdx] col)).filter
                fun st => leftCol ≤ st.2 ∧ (st.2 : Int) < limit := by
          rw [ih (by omega)]
          rcases hcol' with rfl | ⟨hle, hle'⟩
          · rfl
          · rw [hcut hle, hcut (by omega)]
        rw [hstarts, hrest]
        rw [List.drop_eq_getElem_cons hidx, startsFrom_cons, ← List.drop_eq_getElem_cons hidx,
          List.drop_drop, List.filter_cons]
        by_cases hleft : leftCol ≤ col
        · rw [if_pos hleft, if_pos (by simp [hleft, hcol])]
          rfl
        · rw [if_neg hleft, if_neg (by simp [hleft])]
          rfl
      · rw [renderLoop, if_neg (fun hc => hcol hc.2), hcut (by omega)]
    · rw [List.drop_eq_nil_of_le hidx, startsFrom, renderLoop, if_neg (by omega)]
      rfl

theorem renderLoop_reads_iff {n bIdx col : Nat} (hn : s.length ≤ bIdx + n) :
    (∀ r ∈ (renderLoop mem line s.length leftCol limit n bIdx col).reads, r ≤ line + s.length) ↔
      ∀ st ∈ startsFrom bIdx 0 (s.drop bIdx) col, (st.2 : Int) < limit →
        ReadsInside mem line s.length st.1 := by
  have hcut : ∀ {k l} {c : Nat}, limit ≤ c → ∀ st ∈ startsFrom k 0 l c, (st.2 : Int) < limit →
      ReadsInside mem line s.length st.1 := by
    intro k l c hc st hst hlt
    have hle := startsFrom_le st hst
    omega
  induction n generalizing bIdx col with
  | zero =>
    rw [List.drop_eq_nil_of_le (show s.length ≤ bIdx from hn), startsFrom, renderLoop]
    simp
  | succ n ih =>
    rcases Nat.lt_or_ge bIdx s.length with hidx | hidx
    · by_cases hcol : (col : Int) < limit
      · obtain ⟨col', hcol', -, hreads⟩ := renderLoop_step h leftCol n hidx hcol
        have hpos : 0 < pieceLen (s.drop bIdx) := by
          rw [List.drop_eq_getElem_cons hidx]
          exact pieceLen_cons _ _
        have hn' : s.length ≤ bIdx + pieceLen (s.drop bIdx) + n := by omega
        refine hreads.trans ((and_congr_right fun _ => ih hn').trans ?_)
        rw [List.drop_eq_getElem_cons hidx, startsFrom_cons, List.forall_mem_cons,
          ← List.drop_eq_getElem_cons hidx, List.drop_drop]
        simp only [hcol, true_implies]
        refine and_congr_right fun _ => ?_
        rcases hcol' with rfl | ⟨hle, hle'⟩
        · rfl
        · exact iff_of_true (hcut hle) (hcut (by omega))
      · rw [renderLoop, if_neg (fun hc => hcol hc.2)]
        exact iff_of_true (by simp) (hcut (by omega))
    · rw [List.drop_eq_nil_of_le hidx, startsFrom, renderLoop, if_neg (by omega)]
      simp

end

/-! ### A line and its cursor -/

theorem startsFrom_lt {k skip : Nat} {l : List UInt8} {col : Nat} :
    ∀ st ∈ startsFrom k skip l col, st.1 < k + l.length := by
  induction l generalizing k skip col with
  | nil => simp [startsFrom]
  | cons b t ih =>
    rw [List.length_cons]
    cases skip with
    | succ skip =>
      intro st hst
      have hlt := ih st hst
      omega
    | zero =>
      rw [startsFrom, List.forall_mem_cons]
      refine ⟨by dsimp only; omega, fun st hst => ?_⟩
      have hlt := ih st hst
      omega

theorem exists_mem_startsFrom {l : List UInt8} {i : Nat} (hi : i < l.length)
    (hlead : isCont l[i] = false) (k col : Nat) : ∃ c, (k + i, c) ∈ startsFrom k 0 l col := by
  induction hn : l.length using Nat.strongRecOn generalizing l i k col with
  | ind n ih =>
    obtain ⟨b, t, rfl⟩ : ∃ b t, l = b :: t := List.exists_cons_of_length_pos (by omega)
    have hpos := pieceLen_cons b t
    rw [startsFrom_cons]
    rcases Nat.eq_zero_or_pos i with rfl | hipos
    · exact ⟨col, List.mem_cons_self⟩
    · have hbehind : pieceLen (b :: t) ≤ i := by
        by_contra hin
        rcases char_or_stray b t with ⟨p, rest, heq, hp⟩ | ⟨hone, -⟩
        · have hlen := hp.pieceLen_append rest
          rw [← heq] at hlen
          obtain ⟨c, u, rfl, -, hcont⟩ := hp
          obtain ⟨i, rfl⟩ : ∃ j, i = j + 1 := ⟨i - 1, by omega⟩
          have hiu : i < u.length := by
            rw [List.length_cons] at hlen
            omega
          have hbyte : (b :: t)[i + 1] = u[i] := by
            simp only [heq, List.cons_append, List.getElem_cons_succ]
            exact List.getElem_append_left hiu
          rw [hbyte, hcont _ (List.getElem_mem hiu)] at hlead
          cases hlead
        · omega
      have hdrop : ((b :: t).drop (pieceLen (b :: t))).length < n := by
        rw [List.length_drop]
        omega
      obtain ⟨c, hc⟩ := ih _ hdrop (l := (b :: t).drop (pieceLen (b :: t)))
        (i := i - pieceLen (b :: t)) (by rw [List.length_drop]; omega)
        (by
          rw [List.getElem_drop]
          simpa only [Nat.add_sub_cancel' hbehind] using hlead)
        (k + pieceLen (b :: t)) (colAfter b col) rfl
      rw [show k + pieceLen (b :: t) + (i - pieceLen (b :: t)) = k + i by omega] at hc
      exact ⟨c, List.mem_cons_of_mem _ hc⟩

/-- At every scroll offset, the column of the cursor at a character is the one in which the character
    is drawn, and neither loop reads past the NUL. -/
structure CursorExact (mem : Buf) (line : Nat) (s : List UInt8) (termW : Nat) : Prop where
  column : ∀ leftCol, ∀ st ∈ (renderLine mem line s.length termW leftCol).starts,
    utf8ByteToColumn mem line st.1 = st.2
  renderInside : ∀ leftCol, ∀ r ∈ (renderLine mem line s.length termW leftCol).reads,
    r ≤ line + s.length
  columnInside : ∀ leftCol, ∀ st ∈ (renderLine mem line s.length termW leftCol).starts,
    ∀ r ∈ columnReads mem line st.1 st.1 0, r ≤ line + s.length

/-- No byte announces more than one byte behind the end of the line. -/
def EndsWhole (s : List UInt8) : Prop :=
  ∀ k (h : k < s.length), k + utf8CharLength s[k] ≤ s.length + 1

section

variable {mem : Buf} {line : Nat} {s : List UInt8} (h : IsStr mem line s)
include h

theorem renderLine_starts (termW leftCol : Nat) :
    (renderLine mem line s.length termW leftCol).starts = (startsFrom 0 0 s 0).filter
      fun st => (leftCol : Int) ≤ st.2 ∧ (st.2 : Int) < (termW : Int) - GUTTER_WIDTH + leftCol :=
  renderLoop_starts h (Nat.le_add_left _ _)

theorem renderInside_iff (termW : Nat) :
    (∀ leftCol, ∀ r ∈ (renderLine mem line s.length termW leftCol).reads, r ≤ line + s.length) ↔
      EndsWhole s := by
  have hreads : ∀ leftCol, (∀ r ∈ (renderLine mem line s.length termW leftCol).reads,
      r ≤ line + s.length) ↔ ∀ st ∈ startsFrom 0 0 s 0,
        (st.2 : Int) < (termW : Int) - GUTTER_WIDTH + leftCol → ReadsInside mem line s.length st.1 :=
    fun leftCol => renderLoop_reads_iff h (Nat.le_add_left _ _)
  simp only [hreads]
  constructor
  · intro hall k hk
    cases hcont : isCont s[k] with
    | true =>
      rw [utf8CharLength_of_isCont hcont]
      omega
    | false =>
      obtain ⟨c, hc⟩ := exists_mem_startsFrom hk hcont 0 0
      rw [Nat.zero_add] at hc
      have hinside := hall (c + 7) (k, c) hc (by
        simp only [GUTTER_WIDTH]
        omega)
      rwa [ReadsInside, h.bytes k hk] at hinside
  · intro hends leftCol st hst _
    have hlt := startsFrom_lt st hst
    rw [Nat.zero_add] at hlt
    rw [ReadsInside, h.bytes st.1 hlt]
    exact hends st.1 hlt

theorem column_iff (termW : Nat) :
    (∀ leftCol, ∀ st ∈ (renderLine mem line s.length termW leftCol).starts,
      utf8ByteToColumn mem line st.1 = st.2) ↔ (GUTTER_WIDTH < termW → Steady s) := by
  simp only [renderLine_starts h, List.mem_filter, decide_eq_true_eq]
  have hcolumn : ∀ st ∈ startsFrom 0 0 s 0,
      utf8ByteToColumn mem line st.1 = columnOf 0 s st.1 0 := by
    intro st hst
    have hlt := startsFrom_lt st hst
    exact utf8ByteToColumn_eq h (by omega)
  constructor
  · intro hall hwide
    rw [← agrees_iff_steady s 0]
    intro st hst
    rw [← hcolumn st hst]
    exact hall st.2 st ⟨hst, Int.le_refl _, by omega⟩
  · rintro hsteady leftCol st ⟨hst, hleft, hright⟩
    rw [hcolumn st hst]
    exact (agrees_iff_steady s 0).mpr (hsteady (by omega)) st hst

/-- **The cursor is drawn where the text is** exactly if no byte announces more than one byte behind
    the end and, on a row that has room for text, the line is steady. -/
theorem cursor_exact_iff (termW : Nat) :
    CursorExact mem line s termW ↔ EndsWhole s ∧ (GUTTER_WIDTH < termW → Steady s) := by
  rw [← renderInside_iff h termW, ← column_iff h termW]
  constructor
  · intro hexact
    exact ⟨hexact.renderInside, hexact.column⟩
  · rintro ⟨hreads, hcolumn⟩
    refine ⟨hcolumn, hreads, fun leftCol st hst => ?_⟩
    rw [renderLine_starts h] at hst
    have hlt := startsFrom_lt st (List.mem_filter.mp hst).1
    rw [Nat.zero_add] at hlt
    exact columnReads_le (Nat.le_of_lt hlt) _ _

end

/-- A byte that announces two, and two letters. -/
def cutLine : List UInt8 := [0xC3, 0x61, 0x62]

theorem cutLine_isStr : IsStr (fun a => cutLine.getD a 0) 0 cutLine := by
  refine ⟨fun k hk => ?_, by simp [cutLine], rfl⟩
  rw [Nat.zero_add]
  exact List.getD_eq_getElem _ _ hk

theorem cursor_exact_iff_cut :
    CursorExact (fun a => cutLine.getD a 0) 0 cutLine 80 ↔
      EndsWhole cutLine ∧ (GUTTER_WIDTH < 80 → Steady cutLine) :=
  cursor_exact_iff cutLine_isStr 80

/-- The second letter is drawn in column 2, the cursor on it in column 1. -/
theorem cursor_left_of_letter : ¬CursorExact (fun a => cutLine.getD a 0) 0 cutLine 80 := by
  intro h
  have hcolumn := h.column 0 (2, 2) (by decide)
  have hcount : utf8ByteToColumn (fun a => cutLine.getD a 0) 0 (2 : Nat) = 1 := by decide +kernel
  rw [hcount] at hcolumn
  cases hcolumn

end Gemios.Editor
