import Gemios.EditorLines
import Mathlib.Data.List.TakeWhile

/-!
# The editor is the editor on lines

The loop of `editor_open` keeps the text in the line buffers and the cursor on the text, and every
key does to them what it does in the editor on a list of lines.
-/

namespace Gemios.Editor

/-! ### The cursor on the text -/

theorem OnText.clamp {d : Doc} (ht : OnText d) : d.clamp = d := by
  have hrow : min d.row (d.lines.length - 1) = d.row :=
    Nat.min_eq_left (Nat.le_sub_one_of_lt ht.row)
  unfold Doc.clamp
  dsimp only
  rw [hrow, show d.line d.row = d.cur from rfl, Nat.min_eq_left ht.col]

theorem onText_clamp {d : Doc} (hne : 0 < d.lines.length) : OnText d.clamp := by
  refine ⟨?_, Nat.min_le_right _ _⟩
  exact Nat.lt_of_le_of_lt (Nat.min_le_right _ _) (Nat.sub_lt hne Nat.one_pos)

namespace Holds

variable {s : Ed} {row : Nat → List UInt8} {d : Doc}

theorem adjustView (h : Holds s row d) : Holds s.adjustView row d.clamp := by
  have hpos := h.pos
  have hrow : s.adjustView.curRow = ((min d.row (s.numLines - 1) : Nat) : Int) := by
    unfold Ed.adjustView
    dsimp only
    rw [h.curRow, if_neg (by omega : ¬ (d.row : Int) < 0)]
    split <;> omega
  have hcol : s.adjustView.curCol =
      ((min d.col (row (min d.row (s.numLines - 1))).length : Nat) : Int) := by
    have hadjust : s.adjustView.curCol =
        let len : Int := Editor.strlen s.mem (Ed.line s.adjustView.curRow.toNat)
        let col : Int := if s.curCol < 0 then 0 else s.curCol
        if col > len then len else col := rfl
    rw [hadjust, hrow, Int.toNat_natCast, h.strlen (by omega), h.curCol]
    dsimp only
    rw [if_neg (by omega : ¬ (d.col : Int) < 0)]
    split <;> omega
  refine ⟨h.table, h.lines, ?_, ?_, h.pos, h.le⟩
  · rw [hrow, Doc.clamp, h.length]
  · rw [hcol, Doc.clamp, h.length, h.line (by omega)]

end Holds

/-! ### Keys -/

/-- The text is d, once the cursor is put on the text. -/
def Follows (s : Ed) (d : Doc) : Prop := ∃ row d', Holds s row d' ∧ d'.clamp = d.clamp

namespace Follows

theorem of_holds {s : Ed} {d : Doc} (h : ∃ row, Holds s row d) : Follows s d :=
  h.elim fun row h => ⟨row, d, h, rfl⟩

theorem ite {p : Prop} [Decidable p] {s t : Ed} {d e : Doc} (hpos : p → Follows s d)
    (hneg : ¬ p → Follows t e) : Follows (if p then s else t) (if p then d else e) := by
  split
  · rename_i h
    exact hpos h
  · rename_i h
    exact hneg h

end Follows

theorem Doc.clamp_row (d : Doc) (row row' : Nat) (h : min row (d.lines.length - 1) =
    min row' (d.lines.length - 1)) : ({ d with row := row } : Doc).clamp = { d with row := row' }.clamp := by
  unfold Doc.clamp Doc.line
  dsimp only
  rw [h]

namespace Holds

variable {s : Ed} {row : Nat → List UInt8} {d : Doc}

theorem congr (h : Holds s row d) {s' : Ed} (hmem : s'.mem = s.mem)
    (hlines : s'.numLines = s.numLines) (hrow : s'.curRow = s.curRow) (hcol : s'.curCol = s.curCol) :
    Holds s' row d :=
  ⟨by rw [hmem]; exact h.table, by rw [hlines]; exact h.lines, by rw [hrow]; exact h.curRow,
    by rw [hcol]; exact h.curCol, by rw [hlines]; exact h.pos, by rw [hlines]; exact h.le⟩

theorem moveRow (h : Holds s row d) {r : Nat} {x : Int} (hx : x = r) :
    Holds { s with curRow := x } row { d with row := r } :=
  ⟨h.table, h.lines, hx, h.curCol, h.pos, h.le⟩

theorem moveCol (h : Holds s row d) {k : Nat} {x : Int} (hx : x = k) :
    Holds { s with curCol := x } row { d with col := k } :=
  ⟨h.table, h.lines, h.curRow, hx, h.pos, h.le⟩

theorem saveFile (h : Holds s row d) (env : Ed.SaveEnv) : Holds (s.saveFile env).1 row d := by
  unfold Ed.saveFile
  repeat' split
  all_goals exact h.congr rfl rfl rfl rfl

theorem command_exit (h : Holds s row d) {c : Nat} (env : Ed.SaveEnv)
    (hc : c = KEY_CTRL_S ∨ c = KEY_CTRL_Q ∨ c = KEY_CTRL_X ∨ c = KEY_ESC) :
    Holds (s.command c env) row d := by
  unfold Ed.command
  by_cases hsave : c = KEY_CTRL_S
  · rw [if_pos hsave]
    exact h.saveFile env
  · rw [if_neg hsave, if_pos (hc.resolve_left hsave)]
    split
    · exact h.congr rfl rfl rfl rfl
    · exact h.congr rfl rfl rfl rfl

theorem tab (h : Holds s row d) (ht : OnText d) :
    ∃ row', Holds ((((s.insertChar 32).insertChar 32).insertChar 32).insertChar 32) row'
      ((((d.insert 32).insert 32).insert 32).insert 32) := by
  have hspace : (32 : UInt8) ≠ 0 := by decide
  obtain ⟨⟨row₁, h₁⟩, ht₁⟩ := h.insertChar ht hspace
  obtain ⟨⟨row₂, h₂⟩, ht₂⟩ := h₁.insertChar ht₁ hspace
  obtain ⟨⟨row₃, h₃⟩, ht₃⟩ := h₂.insertChar ht₂ hspace
  exact (h₃.insertChar ht₃ hspace).1

theorem newDocument (h : Holds s row d) : ∃ row', Holds s.newDocument row' ⟨[[]], 0, 0⟩ :=
  h.emptied rfl rfl rfl rfl

theorem up (h : Holds s row d) :
    Holds (if s.curRow > 0 then { s with curRow := s.curRow - 1 } else s) row
      { d with row := d.row - 1 } := by
  have hrow := h.curRow
  split
  · exact h.moveRow (by omega)
  · exact ⟨h.table, h.lines, by show s.curRow = ((d.row - 1 : Nat) : Int); omega, h.curCol, h.pos, h.le⟩

theorem pageUp (h : Holds s row d) :
    Holds { s with curRow := if s.curRow - 20 < 0 then 0 else s.curRow - 20 } row
      { d with row := d.row - 20 } := by
  have hrow := h.curRow
  refine h.moveRow ?_
  split <;> omega

theorem down (h : Holds s row d) (ht : OnText d) :
    Follows (if s.curRow < (s.numLines : Int) - 1 then { s with curRow := s.curRow + 1 } else s)
      { d with row := d.row + 1 } := by
  have hrow := h.curRow
  have hlt := h.row_lt ht
  split
  · exact .of_holds ⟨row, h.moveRow (by omega)⟩
  · refine ⟨row, d, h, ?_⟩
    refine d.clamp_row d.row (d.row + 1) ?_
    rw [h.length]
    omega

theorem pageDown (h : Holds s row d) (ht : OnText d) :
    Follows
      { s with
        curRow := if s.curRow + 20 ≥ s.numLines then (s.numLines : Int) - 1 else s.curRow + 20 }
      { d with row := d.row + 20 } := by
  have hrow := h.curRow
  have hlt := h.row_lt ht
  refine ⟨row, { d with row := min (d.row + 20) (s.numLines - 1) }, h.moveRow ?_, ?_⟩
  · split <;> omega
  · refine d.clamp_row _ _ ?_
    rw [h.length, Nat.min_assoc, Nat.min_self]

theorem command (h : Holds s row d) (ht : OnText d) (c : Nat) (env : Ed.SaveEnv) :
    Follows (s.command c env) (d.command c) := by
  by_cases hexit : c = KEY_CTRL_S ∨ c = KEY_CTRL_Q ∨ c = KEY_CTRL_X ∨ c = KEY_ESC
  · rw [Doc.command, if_pos hexit]
    exact .of_holds ⟨row, h.command_exit env hexit⟩
  · unfold Ed.command Doc.command
    rw [if_neg fun hc => hexit (.inl hc), if_neg fun hc => hexit (.inr hc), if_neg hexit]
    refine .ite (fun _ => ?_) fun _ => .ite (fun _ => .of_holds (h.deleteLine ht)) fun _ =>
      .ite (fun _ => .of_holds ⟨row, h.up⟩) fun _ => .ite (fun _ => h.down ht) fun _ =>
      .ite (fun _ => .of_holds ⟨row, h.moveCol (h.prevChar ht)⟩) fun _ =>
      .ite (fun _ => .of_holds ⟨row, h.moveCol (h.nextChar ht)⟩) fun _ =>
      .ite (fun _ => .of_holds ⟨row, h.moveCol rfl⟩) fun _ =>
      .ite (fun _ => .of_holds ⟨row, h.moveCol (by rw [h.strlen_cur ht])⟩) fun _ =>
      .ite (fun _ => .of_holds ⟨row, h.pageUp⟩) fun _ => .ite (fun _ => h.pageDown ht) fun _ =>
      .ite (fun _ => .of_holds (h.backspace ht)) fun _ =>
      .ite (fun _ => .of_holds (h.delete ht)) fun _ =>
      .ite (fun _ => .of_holds (h.insertNewline ht).1) fun _ =>
      .ite (fun _ => .of_holds (h.tab ht)) fun _ => .ite (fun hc => ?_) fun _ => .of_holds ⟨row, h⟩
    · -- the document before is gone, saved or not
      split
      · exact .of_holds (h.saveFile env).newDocument
      · exact .of_holds h.newDocument
    · have hbyte : UInt8.ofNat c ≠ 0 := by
        intro heq
        have hnat : (UInt8.ofNat c).toNat = c := Nat.mod_eq_of_lt (Nat.lt_succ_of_le hc.2)
        rw [heq] at hnat
        exact absurd hnat (by show 0 ≠ c; omega)
      exact .of_holds (h.insertChar ht hbyte).1

end Holds

/-! ### Loading -/

theorem toLines_nil {p : List UInt8} (h : p.head?.getD 0 = 0) : toLines p = [] := by
  cases p with
  | nil => rw [toLines]
  | cons b p => rw [toLines, if_pos (show b = 0 from h)]

theorem toLines_step {p : List UInt8} (h : p.head?.getD 0 ≠ 0) :
    toLines p = (p.takeWhile fun b => !Ed.endsLine b) ::
      toLines (Ed.skipNewline (p.drop (p.takeWhile fun b => !Ed.endsLine b).length)) := by
  induction p with
  | nil => exact absurd rfl h
  | cons b p ih =>
    have hb : b ≠ 0 := h
    rw [toLines, if_neg hb]
    by_cases hcrlf : b = 13 ∧ p.head? = some 10
    · obtain ⟨rfl, hhead⟩ := hcrlf
      obtain ⟨q, rfl⟩ := List.head?_eq_some_iff.mp hhead
      rw [if_pos ⟨rfl, hhead⟩]
      rfl
    · rw [if_neg hcrlf]
      by_cases hend : b = 10 ∨ b = 13
      · rw [if_pos hend]
        rcases hend with rfl | rfl
        · rfl
        · have hskip : Ed.skipNewline (13 :: p) = p := by
            unfold Ed.skipNewline
            split
            · rename_i heq
              obtain ⟨-, rfl⟩ := List.cons.inj heq
              exact absurd ⟨rfl, rfl⟩ hcrlf
            · rename_i heq
              exact absurd (List.cons.inj heq).1 (by decide)
            · rename_i heq
              exact (List.cons.inj heq).2.symm
            · rename_i hne
              exact absurd rfl (hne p)
          show _ = [] :: toLines (Ed.skipNewline (13 :: p))
          rw [hskip]
      · have hin : (!Ed.endsLine b) = true := by
          simp only [Ed.endsLine, Bool.not_eq_true', Bool.or_eq_false_iff, beq_eq_false_iff_ne]
          exact ⟨⟨hb, fun h => hend (.inl h)⟩, fun h => hend (.inr h)⟩
        rw [if_neg hend, List.takeWhile_cons, if_pos hin, List.length_cons, List.drop_succ_cons]
        by_cases hnext : p.head?.getD 0 = 0
        · -- the file ends behind this byte, or there is a NUL
          cases p with
          | nil =>
            rw [show toLines [] = [] from toLines_nil rfl]
            show [[b]] = [b] :: toLines []
            rw [toLines_nil rfl]
          | cons x q =>
            obtain rfl : x = 0 := hnext
            rw [show toLines (0 :: q) = [] from toLines_nil rfl]
            show [[b]] = [b] :: toLines (0 :: q)
            rw [toLines_nil rfl]
        · rw [ih hnext]

theorem skipNewline_le (p : List UInt8) : (Ed.skipNewline p).length ≤ p.length := by
  unfold Ed.skipNewline
  split
  · exact Nat.le_add_right _ 2
  · exact Nat.le_succ _
  · exact Nat.le_succ _
  · exact Nat.le_refl _

theorem skipNewline_lt {p : List UInt8} (h : p.head?.getD 0 ≠ 0) :
    (Ed.skipNewline (p.drop (p.takeWhile fun b => !Ed.endsLine b).length)).length < p.length := by
  cases p with
  | nil => exact absurd rfl h
  | cons b p =>
    have hb : b ≠ 0 := h
    by_cases hin : (!Ed.endsLine b) = true
    · rw [List.takeWhile_cons, if_pos hin, List.length_cons, List.drop_succ_cons, List.length_cons]
      refine Nat.lt_succ_of_le (Nat.le_trans (skipNewline_le _) ?_)
      rw [List.length_drop]
      exact Nat.sub_le _ _
    · rw [List.takeWhile_cons, if_neg hin]
      have hend : b = 10 ∨ b = 13 := by
        simp only [Ed.endsLine, Bool.not_eq_true', Bool.not_eq_false, Bool.or_eq_true,
          beq_iff_eq] at hin
        exact hin.elim (fun h => h.elim (fun h => absurd h hb) .inl) .inr
      show (Ed.skipNewline (b :: p)).length < p.length + 1
      rcases hend with rfl | rfl
      · exact Nat.lt_succ_self _
      · unfold Ed.skipNewline
        split
        · rename_i heq
          obtain ⟨-, rfl⟩ := List.cons.inj heq
          simp only [List.length_cons]
          omega
        · rename_i heq
          exact absurd (List.cons.inj heq).1 (by decide)
        · rename_i heq
          obtain ⟨-, rfl⟩ := List.cons.inj heq
          exact Nat.lt_succ_self _
        · rename_i hne
          exact absurd rfl (hne p)

theorem loadLoop_frame (n : Nat) (s : Ed) (p : List UInt8) :
    Ed.loadLoop n s p =
      { s with mem := (Ed.loadLoop n s p).mem, numLines := (Ed.loadLoop n s p).numLines } := by
  induction n generalizing s p with
  | zero => rfl
  | succ n ih =>
    rw [Ed.loadLoop]
    split
    · exact ih _ _
    · rfl

theorem storeLine_rows {s : Ed} {row : Nat → List UInt8}
    (h : StrTable s.mem MAX_LINE_LEN MAX_EDITOR_LINES row) {l : List UInt8} (hne : ∀ b ∈ l, b ≠ 0)
    (hlen : l.length < MAX_LINE_LEN) :
    StrTable (s.storeLine l).mem MAX_LINE_LEN MAX_EDITOR_LINES
      (Function.update row s.numLines l) := by
  have hline : MAX_LINE_LEN * s.numLines = Ed.line s.numLines := rfl
  refine h.write (fun x hx => ?_) ⟨fun k hk => ?_, hne, ?_⟩ hlen
  · show (if _ then _ else _) = _
    rw [if_neg (by omega), if_neg (by omega)]
  · show (if _ then _ else _) = _
    rw [if_pos (by omega), hline, Nat.add_sub_cancel_left, List.getD_eq_getElem _ _ hk]
  · show (if _ then _ else _) = _
    rw [if_neg (by omega), if_pos (by omega)]

theorem rows_push (row : Nat → List UInt8) (n : Nat) (l : List UInt8) :
    (List.range (n + 1)).map (Function.update row n l) = (List.range n).map row ++ [l] := by
  rw [rows_update, List.range_succ, List.map_append, List.set_append_right _ _ (by simp)]
  simp

theorem loadLoop_rows (n : Nat) {s : Ed} {p : List UInt8} {row : Nat → List UInt8}
    (h : StrTable s.mem MAX_LINE_LEN MAX_EDITOR_LINES row) (hle : s.numLines ≤ MAX_EDITOR_LINES)
    (hn : p.length ≤ n) :
    ∃ row', StrTable (Ed.loadLoop n s p).mem MAX_LINE_LEN MAX_EDITOR_LINES row' ∧
      (Ed.loadLoop n s p).numLines ≤ MAX_EDITOR_LINES ∧
      (List.range (Ed.loadLoop n s p).numLines).map row' =
        (List.range s.numLines).map row ++
          ((toLines p).take (MAX_EDITOR_LINES - s.numLines)).map (List.take (MAX_LINE_LEN - 1)) := by
  induction n generalizing s p row with
  | zero =>
    obtain rfl : p = [] := List.length_eq_zero_iff.mp (Nat.le_zero.mp hn)
    refine ⟨row, h, hle, ?_⟩
    rw [toLines_nil rfl, List.take_nil, List.map_nil, List.append_nil]
    rfl
  | succ n ih =>
    rw [Ed.loadLoop]
    split
    · rename_i hmore
      obtain ⟨hhead, hroom⟩ := hmore
      have hlt := skipNewline_lt hhead
      have hne : ∀ b ∈ (p.takeWhile fun b => !Ed.endsLine b).take (MAX_LINE_LEN - 1), b ≠ 0 := by
        intro b hb hzero
        have hin := List.mem_takeWhile_imp (List.mem_of_mem_take hb)
        rw [hzero] at hin
        exact absurd hin (by decide)
      have hstore := storeLine_rows h hne (Nat.lt_succ_of_le (List.length_take_le _ _))
      obtain ⟨row', htable, hle', hrows⟩ := ih hstore hroom (p := Ed.skipNewline
        (p.drop (p.takeWhile fun b => !Ed.endsLine b).length)) (by omega)
      refine ⟨row', htable, hle', hrows.trans ?_⟩
      have hleft : MAX_EDITOR_LINES - s.numLines = MAX_EDITOR_LINES - (s.numLines + 1) + 1 := by omega
      rw [toLines_step hhead, hleft, List.take_succ_cons, List.map_cons,
        show (s.storeLine _).numLines = s.numLines + 1 from rfl, rows_push, List.append_assoc]
      rfl
    · rename_i hstop
      refine ⟨row, h, hle, ?_⟩
      by_cases hhead : p.head?.getD 0 = 0
      · rw [toLines_nil hhead, List.take_nil, List.map_nil, List.append_nil]
      · have hfull : MAX_EDITOR_LINES - s.numLines = 0 :=
          Nat.sub_eq_zero_of_le (Nat.le_of_not_lt fun hlt => hstop ⟨hhead, hlt⟩)
        rw [hfull, List.take_zero, List.map_nil, List.append_nil]

theorem loadFile_frame (s : Ed) (file : Option (List UInt8)) :
    s.loadFile file =
      { s with
        mem := (s.loadFile file).mem
        numLines := (s.loadFile file).numLines
        curRow := 0, curCol := 0, topRow := 0, leftCol := 0, modified := false } := by
  unfold Ed.loadFile
  dsimp only
  split
  · unfold Ed.storeLine
    rw [loadLoop_frame]
  · exact loadLoop_frame _ _ _

theorem holds_loadFile {s : Ed} (hmem : s.mem = fun _ => 0) (file : Option (List UInt8)) :
    ∃ row, Holds (s.loadFile file) row (Doc.load (file.getD [])) := by
  have hzero : StrTable s.mem MAX_LINE_LEN MAX_EDITOR_LINES fun _ => [] :=
    ⟨fun i _ => .nil (by rw [hmem]), fun _ _ => by decide⟩
  have hframe := loadFile_frame s file
  have hcurRow : (s.loadFile file).curRow = 0 := by rw [hframe]
  have hcurCol : (s.loadFile file).curCol = 0 := by rw [hframe]
  obtain ⟨row, htable, hle, hrows⟩ := loadLoop_rows (file.getD []).length
    (s := { s with
      numLines := 0, curRow := 0, curCol := 0, topRow := 0, leftCol := 0, modified := false })
    (p := file.getD []) hzero (Nat.zero_le _) (Nat.le_refl _)
  rw [List.range_zero, List.map_nil, List.nil_append, Nat.sub_zero] at hrows
  unfold Ed.loadFile at hcurRow hcurCol ⊢
  dsimp only at hcurRow hcurCol ⊢
  split
  · rename_i hnone
    rw [if_pos hnone] at hcurRow hcurCol
    rw [hnone, List.range_zero, List.map_nil] at hrows
    refine ⟨_, storeLine_rows htable (l := []) (by simp) (by decide), ?_, hcurRow, hcurCol,
      Nat.succ_pos _, ?_⟩
    · rw [Doc.load, ← hrows, if_pos rfl, Ed.storeLine, hnone]
      rfl
    · show (Ed.loadLoop _ _ _).numLines + 1 ≤ MAX_EDITOR_LINES
      rw [hnone]
      decide
  · rename_i hsome
    rw [if_neg hsome] at hcurRow hcurCol
    refine ⟨row, htable, ?_, hcurRow, hcurCol, Nat.pos_of_ne_zero hsome, hle⟩
    rw [Doc.load, ← hrows, if_neg]
    intro hnil
    rw [List.map_eq_nil_iff, List.range_eq_nil] at hnil
    exact hsome hnil

/-! ### Runs -/

namespace Ed

def atKey (s : Ed) : Ed := if s.running && !s.deciding then s.adjustView else s

/-- The keys that are handled as commands: those at the question before the exit are answers. -/
def commands : Ed → List Key → List Nat
  | _, [] => []
  | s, key :: keys =>
    (if s.running && !s.deciding then [key.code] else []) ++ commands (s.turn key) keys

/-- The cursor is on one of the lines, and every line ends within its 512 bytes. -/
structure Within (s : Ed) : Prop where
  pos : 1 ≤ s.numLines
  le : s.numLines ≤ MAX_EDITOR_LINES
  rowNonneg : 0 ≤ s.curRow
  rowLt : s.curRow < s.numLines
  colNonneg : 0 ≤ s.curCol
  colLe : s.curCol ≤ strlen s.mem s.cur
  short : ∀ i < s.numLines, ∃ k < MAX_LINE_LEN, s.mem (line i + k) = 0

end Ed

theorem Holds.doc {s : Ed} {row : Nat → List UInt8} {d : Doc} (h : Holds s row d) : s.doc = d := by
  have hlines : (List.range s.numLines).map s.lineBytes = d.lines := by
    rw [h.lines]
    refine List.map_congr_left fun i hi => ?_
    have hlt : i < s.numLines := List.mem_range.mp hi
    have hstr := h.table.str i (h.inTable hlt)
    refine List.ext_getElem ?_ fun k hk hk' => ?_
    · rw [Ed.lineBytes, List.length_map, List.length_range]
      exact h.strlen hlt
    · simp only [Ed.lineBytes, List.getElem_map, List.getElem_range]
      exact hstr.bytes k hk'
  unfold Ed.doc
  rw [hlines, h.curRow, h.curCol]
  rfl

theorem Holds.within {s : Ed} {row : Nat → List UInt8} {d : Doc} (h : Holds s row d)
    (ht : OnText d) : s.Within where
  pos := h.pos
  le := h.le
  rowNonneg := by rw [h.curRow]; exact Int.natCast_nonneg _
  rowLt := by rw [h.curRow]; exact_mod_cast h.row_lt ht
  colNonneg := by rw [h.curCol]; exact Int.natCast_nonneg _
  colLe := by rw [h.curCol, h.strlen_cur ht]; exact_mod_cast ht.col
  short := fun i hi =>
    ⟨_, h.table.short i (h.inTable hi), (h.table.str i (h.inTable hi)).nul⟩

/-! ### What a key leaves alone -/

/-- A command that only edits: it changes the text and says so, or does neither. -/
structure Edited (s s' : Ed) : Prop where
  running : s'.running = s.running
  deciding : s'.deciding = s.deciding
  devName : s'.devName = s.devName
  filename : s'.filename = s.filename
  change : s'.modified = s.modified ∧ s'.saved = s.saved ∨ s'.modified = true ∧ s'.saved = none

namespace Edited

theorem refl (s : Ed) : Edited s s := ⟨rfl, rfl, rfl, rfl, .inl ⟨rfl, rfl⟩⟩

theorem trans {s s' s'' : Ed} (h : Edited s s') (h' : Edited s' s'') : Edited s s'' where
  running := h'.running.trans h.running
  deciding := h'.deciding.trans h.deciding
  devName := h'.devName.trans h.devName
  filename := h'.filename.trans h.filename
  change := by
    rcases h'.change with ⟨hmod, hsaved⟩ | hchange
    · rw [hmod, hsaved]
      exact h.change
    · exact .inr hchange

theorem insertChar (s : Ed) (c : UInt8) : Edited s (s.insertChar c) := by
  unfold Ed.insertChar
  dsimp only
  split
  · exact .refl s
  · exact ⟨rfl, rfl, rfl, rfl, .inr ⟨rfl, rfl⟩⟩

theorem insertNewline (s : Ed) : Edited s s.insertNewline := by
  unfold Ed.insertNewline
  split
  · exact .refl s
  · exact ⟨rfl, rfl, rfl, rfl, .inr ⟨rfl, rfl⟩⟩

theorem backspace (s : Ed) : Edited s s.backspace := by
  unfold Ed.backspace
  dsimp only
  repeat' split
  all_goals first | exact .refl s | exact ⟨rfl, rfl, rfl, rfl, .inr ⟨rfl, rfl⟩⟩

theorem delete (s : Ed) : Edited s s.delete := by
  unfold Ed.delete
  dsimp only
  repeat' split
  all_goals first | exact .refl s | exact ⟨rfl, rfl, rfl, rfl, .inr ⟨rfl, rfl⟩⟩

theorem deleteLine (s : Ed) : Edited s s.deleteLine := by
  unfold Ed.deleteLine
  split
  · exact ⟨rfl, rfl, rfl, rfl, .inr ⟨rfl, rfl⟩⟩
  · exact ⟨rfl, rfl, rfl, rfl, .inr ⟨rfl, rfl⟩⟩

theorem adjustView (s : Ed) : Edited s s.adjustView := ⟨rfl, rfl, rfl, rfl, .inl ⟨rfl, rfl⟩⟩

theorem tab (s : Ed) :
    Edited s ((((s.insertChar 32).insertChar 32).insertChar 32).insertChar 32) :=
  (((insertChar s 32).trans (insertChar _ 32)).trans (insertChar _ 32)).trans (insertChar _ 32)

theorem moved (s : Ed) (row col : Int) : Edited s { s with curRow := row, curCol := col } :=
  ⟨rfl, rfl, rfl, rfl, .inl ⟨rfl, rfl⟩⟩

theorem ite {p : Prop} [Decidable p] {s s' s'' : Ed} (h : Edited s s') (h' : Edited s s'') :
    Edited s (if p then s' else s'') := by
  split
  · exact h
  · exact h'

theorem command (s : Ed) {c : Nat} (env : Ed.SaveEnv) (hsave : c ≠ KEY_CTRL_S)
    (hexit : ¬ (c = KEY_CTRL_Q ∨ c = KEY_CTRL_X ∨ c = KEY_ESC)) (hnew : c ≠ KEY_CTRL_N) :
    Edited s (s.command c env) := by
  unfold Ed.command
  rw [if_neg hsave, if_neg hexit, if_neg hnew]
  refine .ite (.deleteLine s) <| .ite (.ite (moved s _ _) (.refl s)) <|
    .ite (.ite (moved s _ _) (.refl s)) <| .ite (moved s _ _) <| .ite (moved s _ _) <|
    .ite (moved s _ _) <| .ite (moved s _ _) <| .ite (moved s _ _) <| .ite (moved s _ _) <|
    .ite (.backspace s) <| .ite (.delete s) <| .ite (.insertNewline s) <| .ite (.tab s) <|
    .ite (.insertChar s _) (.refl s)

end Edited

theorem saveFile_waits (s : Ed) (env : Ed.SaveEnv) :
    (s.saveFile env).1.running = s.running ∧ (s.saveFile env).1.deciding = s.deciding := by
  unfold Ed.saveFile
  repeat' split
  all_goals exact ⟨rfl, rfl⟩

theorem command_waits {s : Ed} {c : Nat} (env : Ed.SaveEnv)
    (hexit : ¬ (c = KEY_CTRL_Q ∨ c = KEY_CTRL_X ∨ c = KEY_ESC)) :
    (s.command c env).running = s.running ∧ (s.command c env).deciding = s.deciding := by
  by_cases hsave : c = KEY_CTRL_S
  · unfold Ed.command
    rw [if_pos hsave]
    exact saveFile_waits s env
  · by_cases hnew : c = KEY_CTRL_N
    · unfold Ed.command
      rw [if_neg hsave, if_neg hexit, if_pos hnew]
      split
      · exact saveFile_waits s env
      · exact ⟨rfl, rfl⟩
    · have hedit := Edited.command s env hsave hexit hnew
      exact ⟨hedit.running, hedit.deciding⟩

/-! ### The loop -/

/-- The state of the loop, and the text with its cursor. -/
structure Sim (s : Ed) (d : Doc) : Prop where
  onText : OnText d
  atKey : ∃ row, Holds s.atKey row d

theorem Sim.doc {s : Ed} {d : Doc} (h : Sim s d) : s.atKey.doc = d := by
  obtain ⟨row, hat⟩ := h.atKey
  exact hat.doc

theorem atKey_waits {s : Ed} (h : s.running = true) (hdeciding : s.deciding = false) :
    s.atKey = s.adjustView := by
  unfold Ed.atKey
  rw [h, hdeciding]
  rfl

theorem atKey_rests {s : Ed} (h : (s.running && !s.deciding) = false) : s.atKey = s := by
  unfold Ed.atKey
  rw [h]
  rfl

theorem Holds.answer {s : Ed} {row : Nat → List UInt8} {d : Doc} (h : Holds s row d) (c : Nat)
    (env : Ed.SaveEnv) : Holds (s.answer c env) row d := by
  unfold Ed.answer
  split
  · exact (h.saveFile env).congr rfl rfl rfl rfl
  · split
    · exact h.congr rfl rfl rfl rfl
    · split
      · exact h.congr rfl rfl rfl rfl
      · exact h

theorem Follows.sim {s : Ed} {d : Doc} (h : Follows s d) (hs : (s.running && !s.deciding) = true) :
    Sim s d.clamp := by
  obtain ⟨row, d', h, hclamp⟩ := h
  refine ⟨?_, row, ?_⟩
  · rw [← hclamp]
    exact onText_clamp (by rw [h.length]; exact h.pos)
  · unfold Ed.atKey
    rw [if_pos hs, ← hclamp]
    exact h.adjustView

theorem Holds.sim {s : Ed} {row : Nat → List UInt8} {d : Doc} (h : Holds s row d) (ht : OnText d) :
    Sim s d := by
  refine ⟨ht, row, ?_⟩
  unfold Ed.atKey
  split
  · have hadjust := h.adjustView
    rwa [ht.clamp] at hadjust
  · exact h

theorem Sim.turn {s : Ed} {d : Doc} (h : Sim s d) (key : Ed.Key) :
    Sim (s.turn key) (if s.running && !s.deciding then d.key key.code else d) := by
  obtain ⟨ht, row, hat⟩ := h
  unfold Ed.turn
  by_cases hrunning : s.running = true
  · by_cases hdeciding : s.deciding = true
    · rw [atKey_rests (by rw [hdeciding, Bool.not_true, Bool.and_false])] at hat
      rw [hrunning, hdeciding]
      exact (hat.answer key.code key.env).sim ht
    · rw [atKey_waits hrunning (Bool.eq_false_iff.mpr hdeciding)] at hat
      rw [Bool.eq_false_iff.mpr hdeciding, hrunning]
      show Sim (s.adjustView.command key.code key.env) (d.command key.code).clamp
      by_cases hexit : key.code = KEY_CTRL_Q ∨ key.code = KEY_CTRL_X ∨ key.code = KEY_ESC
      · rw [Doc.command, if_pos (.inr hexit), ht.clamp]
        exact (hat.command_exit key.env (.inr hexit)).sim ht
      · refine (hat.command ht key.code key.env).sim ?_
        obtain ⟨hrun, hdec⟩ := command_waits key.env hexit (s := s.adjustView)
        rw [hrun, hdec, (Edited.adjustView s).running, (Edited.adjustView s).deciding, hrunning,
          Bool.eq_false_iff.mpr hdeciding]
        rfl
  · rw [atKey_rests (by rw [Bool.eq_false_iff.mpr hrunning, Bool.false_and])] at hat
    rw [Bool.eq_false_iff.mpr hrunning]
    exact hat.sim ht

theorem Sim.run {s : Ed} {d : Doc} (h : Sim s d) (keys : List Ed.Key) :
    Sim (s.run keys) ((s.commands keys).foldl Doc.key d) := by
  induction keys generalizing s d with
  | nil => exact h
  | cons key keys ih =>
    have hnext := ih (h.turn key)
    rw [Ed.commands, List.foldl_append]
    split
    · rename_i hcommand
      rw [if_pos hcommand] at hnext
      exact hnext
    · rename_i hcommand
      rw [if_neg hcommand] at hnext
      exact hnext

theorem holds_openFile (devName filename : List UInt8) (file : Option (List UInt8))
    (cols rows : Nat) :
    ∃ row, Holds (Ed.openFile devName filename file cols rows) row (Doc.load (file.getD [])) := by
  unfold Ed.openFile
  exact holds_loadFile rfl file

theorem sim_openFile (devName filename : List UInt8) (file : Option (List UInt8)) (cols rows : Nat) :
    Sim (Ed.openFile devName filename file cols rows) (Doc.load (file.getD [])) := by
  obtain ⟨row, h⟩ := holds_openFile devName filename file cols rows
  refine h.sim ⟨?_, Nat.zero_le _⟩
  rw [h.length]
  exact h.pos

/-- For every file and every series of keys: when the next key is handled, the cursor is on the
    text and every line within its buffer, and text and cursor are those of the editor on a list
    of lines after the keys before. -/
theorem editor_refines (devName filename : List UInt8) (file : Option (List UInt8))
    (cols rows : Nat) (keys : List Ed.Key) :
    let start := Ed.openFile devName filename file cols rows
    let s := (start.run keys).atKey
    s.Within ∧ s.doc = (start.commands keys).foldl Doc.key (Doc.load (file.getD [])) := by
  have hsim := (sim_openFile devName filename file cols rows).run keys
  obtain ⟨row, h⟩ := hsim.atKey
  exact ⟨h.within hsim.onText, hsim.doc⟩

end Gemios.Editor
