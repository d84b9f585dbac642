import Gemios.EditorSave
import Gemios.Lines

/-!
# Opening and saving a file

The loader of the editor takes newlines as the ends of lines, and the saver writes them between
lines.  What the loader reads is limited, and it cuts lines and texts.
-/

namespace Gemios.Editor

open Lines

namespace Ed

def FILE_BUF_SIZE : Nat := 65536

/-- What `editor_load_file` meets outside: the device, its file system, the memory for the buffer,
    and the number of bytes before the first cluster that cannot be read. -/
structure LoadEnv where
  device : Bool
  mount : Bool
  memory : Bool
  readable : Nat

/-- What it reads of a file; `fat_read_file` stops without an error where it cannot go on. -/
def LoadEnv.read (env : LoadEnv) (file : List UInt8) : Option (List UInt8) :=
  if !env.device then none
  else if !env.mount then none
  else if !env.memory then none
  else some (file.take (min (FILE_BUF_SIZE - 1) env.readable))

/-- The number of bytes that are read of a file that has as many. -/
def LoadEnv.limit (env : LoadEnv) : Nat :=
  if env.device = true ∧ env.mount = true ∧ env.memory = true then
    min (FILE_BUF_SIZE - 1) env.readable
  else 0

theorem LoadEnv.read_getD (env : LoadEnv) (file : List UInt8) :
    (env.read file).getD [] = file.take env.limit := by
  unfold LoadEnv.read LoadEnv.limit
  cases env.device <;> cases env.mount <;> cases env.memory <;> rfl

/-- A save that gets through writes these bytes. -/
def Saves (s : Ed) (file : List UInt8) : Prop :=
  ∀ env : SaveEnv, env.Ok → (s.saveFile env).1.saved.map Written.text = some file

end Ed

/-! ### Lines of a file -/

def Inner (l : List UInt8) : Prop := ∀ b ∈ l, Ed.endsLine b = false

theorem Inner.head {l : List UInt8} (h : Inner l) (hne : l ≠ []) : l.head?.getD 0 ≠ 0 := by
  cases l with
  | nil => contradiction
  | cons b l =>
    intro hzero
    have hb := h b List.mem_cons_self
    rw [show b = 0 from hzero] at hb
    contradiction

theorem Inner.takeWhile {l : List UInt8} (h : Inner l) (p : List UInt8) (hp : p.head?.all Ed.endsLine) :
    (l ++ p).takeWhile (fun b => !Ed.endsLine b) = l := by
  rw [List.takeWhile_append_of_pos fun b hb => by rw [h b hb]; rfl]
  cases p with
  | nil => simp
  | cons b p =>
    have hb : Ed.endsLine b = true := by simpa using hp
    rw [List.takeWhile_cons_of_neg (by simp [hb]), List.append_nil]

theorem toLines_inner {l : List UInt8} (h : Inner l) : toLines l = if l = [] then [] else [l] := by
  split
  · rename_i hnil
    rw [hnil, toLines]
  · rename_i hne
    have hwhole := h.takeWhile [] rfl
    rw [List.append_nil] at hwhole
    rw [toLines_step (h.head hne), hwhole, List.drop_length]
    exact congrArg (l :: ·) (toLines_nil rfl)

theorem toLines_line {l : List UInt8} (h : Inner l) (p : List UInt8) :
    toLines (l ++ 10 :: p) = l :: toLines p := by
  have hhead : (l ++ 10 :: p).head?.getD 0 ≠ 0 := by
    cases l with
    | nil => exact (by decide : (10 : UInt8) ≠ 0)
    | cons b l => exact h.head (List.cons_ne_nil b l)
  rw [toLines_step hhead, h.takeWhile (10 :: p) rfl, List.drop_left]
  rfl

theorem toLines_terminate {ls : List (List UInt8)} (hls : ∀ l ∈ ls, Inner l) (p : List UInt8) :
    toLines (terminate 10 ls ++ p) = ls ++ toLines p := by
  induction ls with
  | nil => rfl
  | cons l ls ih =>
    have hrest := ih fun l' hl' => hls l' (List.mem_cons_of_mem _ hl')
    rw [terminate_cons, List.append_assoc, List.cons_append, toLines_line (hls l List.mem_cons_self),
      hrest, List.cons_append]

theorem exists_lines {file : List UInt8} (hfile : ∀ b ∈ file, b ≠ 0 ∧ b ≠ 13) :
    ∃ ls l, file = terminate 10 ls ++ l ∧ (∀ l' ∈ ls, Inner l') ∧ Inner l := by
  obtain ⟨ls, l, hsplit, hls, hl⟩ := exists_terminate 10 file
  have hinner : ∀ l' : List UInt8, (∀ b ∈ l', b ∈ file) → 10 ∉ l' → Inner l' := by
    intro l' hsub hnot b hb
    have hne : b ≠ 10 := fun heq => hnot (heq ▸ hb)
    simp [Ed.endsLine, hfile b (hsub b hb), hne]
  refine ⟨ls, l, hsplit, fun l' hl' => hinner l' (fun b hb => ?_) (hls l' hl'),
    hinner l (fun b hb => ?_) hl⟩
  · rw [hsplit, List.mem_append, terminate, List.mem_flatMap]
    exact .inl ⟨l', hl', List.mem_append_left _ hb⟩
  · rw [hsplit]
    exact List.mem_append_right _ hb

theorem length_terminate_toLines {file : List UInt8} (hfile : ∀ b ∈ file, b ≠ 0 ∧ b ≠ 13) :
    (terminate 10 (toLines file)).length =
      if file = [] ∨ file.getLast? = some 10 then file.length else file.length + 1 := by
  obtain ⟨ls, l, rfl, hls, hl⟩ := exists_lines hfile
  rw [toLines_terminate hls, toLines_inner hl]
  by_cases hnil : l = []
  · subst hnil
    rw [if_pos rfl, List.append_nil, List.append_nil, if_pos]
    rcases List.eq_nil_or_concat' ls with rfl | ⟨front, l, rfl⟩
    · exact .inl rfl
    · right
      simp [terminate]
  · have hlast : l.getLast? ≠ some 10 := by
      intro habs
      have hb := hl 10 (List.mem_of_getLast? habs)
      contradiction
    rw [if_neg hnil, if_neg]
    · simp [terminate]
      omega
    · rw [List.getLast?_append_of_ne_nil _ hnil]
      simp [hnil, hlast]

theorem join_toLines {file : List UInt8} (hfile : ∀ b ∈ file, b ≠ 0 ∧ b ≠ 13) (hne : file ≠ [])
    (hlast : file.getLast? ≠ some 10) : join 10 (toLines file) = file := by
  obtain ⟨ls, l, rfl, hls, hl⟩ := exists_lines hfile
  rw [toLines_terminate hls, toLines_inner hl]
  by_cases hnil : l = []
  · subst hnil
    rcases List.eq_nil_or_concat' ls with rfl | ⟨front, l, rfl⟩
    · exact absurd rfl hne
    · exact absurd (by simp [terminate]) hlast
  · rw [if_neg hnil, join_concat]

/-! ### Opening and saving -/

/-- The file is read to its end, which is no newline, and the editor has room for its lines. -/
structure RoundTrips (limit : Nat) (file : List UInt8) : Prop where
  read : file.length ≤ limit
  ends : file.getLast? ≠ some 10
  lines : (toLines file).length ≤ MAX_EDITOR_LINES
  short : ∀ l ∈ toLines file, l.length ≤ MAX_LINE_LEN - 1

theorem load_lines (file : List UInt8) : (Doc.load file).lines =
    if toLines file = [] then [[]] else cut MAX_EDITOR_LINES (MAX_LINE_LEN - 1) (toLines file) := by
  have hcut : cut MAX_EDITOR_LINES (MAX_LINE_LEN - 1) (toLines file) = [] ↔ toLines file = [] := by
    constructor
    · intro h
      by_contra hne
      exact cut_ne_nil (by decide) hne h
    · intro h
      rw [h]
      rfl
  show (if cut MAX_EDITOR_LINES (MAX_LINE_LEN - 1) (toLines file) = [] then _ else _) = _
  simp only [hcut]
  rfl

/-- What is written after the start of a file was read is the file exactly if it round-trips. -/
theorem join_load_iff {file : List UInt8} (hfile : ∀ b ∈ file, b ≠ 0 ∧ b ≠ 13) (limit : Nat) :
    join 10 (Doc.load (file.take limit)).lines = file ↔ RoundTrips limit file := by
  have hread : ∀ b ∈ file.take limit, b ≠ 0 ∧ b ≠ 13 := fun b hb => hfile b (List.mem_of_mem_take hb)
  have hsize := length_terminate_toLines hread
  have htake : (file.take limit).length ≤ file.length := List.length_take_le' _ _
  rw [load_lines]
  constructor
  · intro h
    split at h
    · obtain rfl : file = [] := h.symm
      exact ⟨Nat.zero_le _, by simp, by simp [toLines], by simp [toLines]⟩
    · rename_i hsome
      have hcut : cut MAX_EDITOR_LINES (MAX_LINE_LEN - 1) (toLines (file.take limit)) ≠ [] :=
        cut_ne_nil (by decide) hsome
      have hjoin := length_join 10 hcut
      obtain ⟨hle, heq⟩ := length_terminate_cut 10 MAX_EDITOR_LINES (MAX_LINE_LEN - 1)
        (toLines (file.take limit))
      rw [h] at hjoin
      -- nothing was cut off, as that would make the text shorter
      split at hsize
      · omega
      · rename_i hends
        have hall : (file.take limit).length = file.length := by omega
        have hfull : file.take limit = file := List.take_of_length_le (by
          rw [List.length_take] at hall
          omega)
        obtain ⟨hlines, hshort⟩ := heq (by omega)
        rw [hfull] at hlines hshort hends
        rw [List.length_take] at hall
        exact ⟨by omega, fun habs => hends (.inr habs), hlines, hshort⟩
  · intro h
    rw [List.take_of_length_le h.read]
    split
    · rename_i hnone
      have hsize' := length_terminate_toLines hfile
      rw [hnone] at hsize'
      split at hsize'
      · exact (List.length_eq_zero_iff.mp hsize'.symm).symm
      · exact absurd hsize'.symm (Nat.succ_ne_zero _)
    · rename_i hsome
      have hne : file ≠ [] := by
        rintro rfl
        exact hsome (toLines_nil rfl)
      rw [cut_eq_self h.lines h.short]
      exact join_toLines hfile hne h.ends

/-! ### Texts of the editor -/

def Doc.InnerLines (d : Doc) : Prop := ∀ l ∈ d.lines, Inner l

theorem Inner.take {l : List UInt8} (h : Inner l) (k : Nat) : Inner (l.take k) :=
  fun b hb => h b (List.mem_of_mem_take hb)

theorem Inner.drop {l : List UInt8} (h : Inner l) (k : Nat) : Inner (l.drop k) :=
  fun b hb => h b (List.mem_of_mem_drop hb)

theorem Inner.append {l l' : List UInt8} (h : Inner l) (h' : Inner l') : Inner (l ++ l') :=
  fun b hb => (List.mem_append.mp hb).elim (h b) (h' b)

theorem Inner.cons {b : UInt8} {l : List UInt8} (hb : Ed.endsLine b = false) (h : Inner l) :
    Inner (b :: l) := List.forall_mem_cons.mpr ⟨hb, h⟩

namespace Doc.InnerLines

variable {d : Doc} (h : d.InnerLines)
include h

theorem line (i : Nat) : Inner (d.line i) := by
  unfold Doc.line
  rcases Nat.lt_or_ge i d.lines.length with hi | hi
  · rw [List.getD_eq_getElem _ _ hi]
    exact h _ (List.getElem_mem hi)
  · rw [List.getD_eq_default _ _ hi]
    simp [Inner]

theorem setCur {l : List UInt8} (hl : Inner l) (k : Nat) : (d.setCur l k).InnerLines := by
  intro l' hl'
  rcases List.mem_or_eq_of_mem_set hl' with hold | rfl
  · exact h l' hold
  · exact hl

theorem insert {c : UInt8} (hc : Ed.endsLine c = false) : (d.insert c).InnerLines :=
  ite_of (fun _ => h) fun _ =>
    h.setCur (((h.line d.row).take d.col).append (.cons hc ((h.line d.row).drop d.col))) _

theorem split : d.split.InnerLines := by
  refine ite_of (fun _ => h) fun _ l hl => ?_
  simp only [List.mem_append, List.mem_cons] at hl
  rcases hl with hl | rfl | rfl | hl
  · exact h l (List.mem_of_mem_take hl)
  · exact (h.line d.row).take d.col
  · exact (h.line d.row).drop d.col
  · exact h l (List.mem_of_mem_drop hl)

theorem join (i row col : Nat) : (⟨d.join i, row, col⟩ : Doc).InnerLines := by
  intro l hl
  simp only [Doc.join, List.mem_append, List.mem_cons] at hl
  rcases hl with hl | rfl | hl
  · exact h l (List.mem_of_mem_take hl)
  · exact (h.line i).append (h.line (i + 1))
  · exact h l (List.mem_of_mem_drop hl)

theorem backspace : d.backspace.InnerLines :=
  ite_of (fun _ => h.setCur (((h.line d.row).take _).append ((h.line d.row).drop _)) _) fun _ =>
    ite_of (fun _ => ite_of (fun _ => h.join _ _ _) fun _ => h) fun _ => h

theorem delete : d.delete.InnerLines :=
  ite_of (fun _ => h.setCur (((h.line d.row).take _).append ((h.line d.row).drop _)) _) fun _ =>
    ite_of (fun _ => ite_of (fun _ => h.join _ _ _) fun _ => h) fun _ => h

theorem deleteLine : d.deleteLine.InnerLines :=
  ite_of (fun _ => by simp [InnerLines, Inner]) fun _ l hl => h l (List.mem_of_mem_eraseIdx hl)

theorem key (c : Nat) : (d.key c).InnerLines := by
  show (d.command c).InnerLines
  have hspace : Ed.endsLine 32 = false := rfl
  unfold Doc.command
  refine ite_of (fun _ => h) fun _ => ite_of (fun _ => by simp [InnerLines, Inner]) fun _ =>
    ite_of (fun _ => h.deleteLine) fun _ => ite_of (fun _ => h) fun _ => ite_of (fun _ => h) fun _ =>
    ite_of (fun _ => h) fun _ => ite_of (fun _ => h) fun _ => ite_of (fun _ => h) fun _ =>
    ite_of (fun _ => h) fun _ => ite_of (fun _ => h) fun _ => ite_of (fun _ => h) fun _ =>
    ite_of (fun _ => h.backspace) fun _ => ite_of (fun _ => h.delete) fun _ =>
    ite_of (fun _ => h.split) fun _ =>
    ite_of (fun _ => (((h.insert hspace).insert hspace).insert hspace).insert hspace) fun _ =>
    ite_of (fun hc => h.insert ?_) fun _ => h
  have hbyte : ∀ n < 256, 32 ≤ n → Ed.endsLine (UInt8.ofNat n) = false := by decide +kernel
  exact hbyte c (Nat.lt_succ_of_le hc.2) hc.1

theorem foldl (keys : List Nat) : (keys.foldl Doc.key d).InnerLines := by
  induction keys generalizing d with
  | nil => exact h
  | cons c keys ih => exact ih (h.key c)

end Doc.InnerLines

theorem inner_of_mem_toLines (file : List UInt8) : ∀ l ∈ toLines file, Inner l := by
  fun_induction toLines file with
  | case1 => simp
  | case2 => simp
  | case3 b p hnul hcrlf ih => exact List.forall_mem_cons.mpr ⟨by simp [Inner], ih⟩
  | case4 b p hnul hcrlf hend ih => exact List.forall_mem_cons.mpr ⟨by simp [Inner], ih⟩
  | case5 b p hnul hcrlf hend hnone ih =>
    have hb : Ed.endsLine b = false := by simp_all [Ed.endsLine]
    exact List.forall_mem_cons.mpr ⟨.cons hb (by simp [Inner]), by simp⟩
  | case6 b p hnul hcrlf hend l ls hsome ih =>
    have hb : Ed.endsLine b = false := by simp_all [Ed.endsLine]
    rw [hsome] at ih
    exact List.forall_mem_cons.mpr ⟨.cons hb (ih l List.mem_cons_self), fun l' hl' =>
      ih l' (List.mem_cons_of_mem _ hl')⟩

theorem innerLines_load (file : List UInt8) : (Doc.load file).InnerLines := by
  intro l hl
  rw [load_lines] at hl
  split at hl
  · rw [List.mem_singleton.mp hl]
    simp [Inner]
  · obtain ⟨l', hl', rfl⟩ := List.mem_map.mp hl
    exact (inner_of_mem_toLines file l' (List.mem_of_mem_take hl')).take _

theorem text_eq_join (s : Ed) : s.text = join 10 s.doc.lines := by
  show (List.range s.numLines).flatMap _ = join 10 ((List.range s.numLines).map s.lineBytes)
  cases hn : s.numLines with
  | zero => simp [join]
  | succ n =>
    have hfront : ∀ i ∈ List.range n, (s.lineBytes i ++ if i < n + 1 - 1 then [10] else []) =
        s.lineBytes i ++ [10] := by
      intro i hi
      rw [Nat.add_sub_cancel, if_pos (List.mem_range.mp hi)]
    rw [List.range_succ, List.map_append, List.map_singleton, join_concat, List.flatMap_append,
      List.flatMap_congr hfront, terminate, List.flatMap_map]
    simp

theorem saves_iff {s : Ed} {file : List UInt8} : s.Saves file ↔ join 10 s.doc.lines = file := by
  have hsaved : ∀ env : Ed.SaveEnv, env.Ok →
      (s.saveFile env).1.saved.map Written.text = some (join 10 s.doc.lines) := by
    intro env henv
    rw [saveFile_ok henv, ← text_eq_join]
    rfl
  constructor
  · intro h
    have henv : Ed.SaveEnv.Ok ⟨true, true, true, true⟩ := by decide
    have heq := h _ henv
    rwa [hsaved _ henv, Option.some.injEq] at heq
  · rintro rfl
    exact hsaved

theorem Doc.InnerLines.join_file {d : Doc} (h : d.InnerLines) (hne : d.lines ≠ []) :
    ∀ b ∈ Lines.join 10 d.lines, b ≠ 0 ∧ b ≠ 13 := by
  have hinner : ∀ l ∈ d.lines, ∀ b ∈ l, b ≠ 0 ∧ b ≠ 13 := by
    intro l hl b hb
    have hends := h l hl b hb
    constructor
    · rintro rfl
      contradiction
    · rintro rfl
      contradiction
  obtain ⟨ls, l, hlines⟩ := List.eq_nil_or_concat' d.lines |>.resolve_left hne
  intro b hb
  rw [hlines, join_concat, List.mem_append, terminate, List.mem_flatMap] at hb
  rcases hb with ⟨l', hl', hb⟩ | hb
  · rcases List.mem_append.mp hb with hb | hb
    · exact hinner l' (by simp [hlines, hl']) b hb
    · rw [List.mem_singleton.mp hb]
      decide
  · exact hinner l (by simp [hlines]) b hb

/-- A text of the editor: it has room for its lines, and no newline and no NUL is in one. -/
structure Doc.Fitting (d : Doc) : Prop where
  inner : d.InnerLines
  some : d.lines ≠ []
  lines : d.lines.length ≤ MAX_EDITOR_LINES
  short : ∀ l ∈ d.lines, l.length ≤ MAX_LINE_LEN - 1

/-- The text is read to its end, and the last line is not empty unless there are no others. -/
structure Reloads (limit : Nat) (lines : List (List UInt8)) : Prop where
  read : (join 10 lines).length ≤ limit
  ends : lines.length = 1 ∨ lines.getLast? ≠ some []

theorem load_join_iff {d : Doc} (h : d.Fitting) (limit : Nat) :
    (Doc.load ((join 10 d.lines).take limit)).lines = d.lines ↔ Reloads limit d.lines := by
  obtain ⟨ls, l, hlines⟩ := List.eq_nil_or_concat' d.lines |>.resolve_left h.some
  have hls : ∀ l' ∈ ls, Inner l' := fun l' hl' => h.inner l' (by simp [hlines, hl'])
  have hl : Inner l := h.inner l (by simp [hlines])
  have hjoin : join 10 d.lines = terminate 10 ls ++ l := by rw [hlines, join_concat]
  constructor
  · intro heq
    have hround := (join_load_iff (h.inner.join_file h.some) limit).mp (congrArg (Lines.join 10) heq)
    refine ⟨hround.read, ?_⟩
    have hends := hround.ends
    by_contra hlast
    obtain ⟨hmany, hnil⟩ := not_or.mp hlast
    rw [hlines, List.getLast?_concat, not_not, Option.some.injEq] at hnil
    subst hnil
    rw [hjoin, List.append_nil] at hends
    rcases List.eq_nil_or_concat' ls with rfl | ⟨front, l', rfl⟩
    · exact hmany (by simp [hlines])
    · exact hends (by simp [terminate])
  · intro hreload
    rw [List.take_of_length_le hreload.read, load_lines, hjoin, toLines_terminate hls, toLines_inner hl]
    by_cases hnil : l = []
    · subst hnil
      have hone : ls = [] := by
        rcases hreload.ends with hone | hlast
        · simpa [hlines] using hone
        · exact absurd (by simp [hlines]) hlast
      rw [hlines, hone]
      rfl
    · rw [if_neg hnil, ← hlines, if_neg h.some, cut_eq_self h.lines h.short]

theorem Sim.fitting {s : Ed} {d : Doc} (h : Sim s d) (hinner : d.InnerLines) : d.Fitting := by
  obtain ⟨row, hat⟩ := h.atKey
  have hpos := hat.pos
  refine ⟨hinner, ?_, ?_, fun l hl => ?_⟩
  · rw [hat.lines]
    simp
    omega
  · rw [hat.length]
    exact hat.le
  · rw [hat.lines, List.mem_map] at hl
    obtain ⟨i, hi, rfl⟩ := hl
    exact Nat.le_pred_of_lt (hat.table.short i (hat.inTable (List.mem_range.mp hi)))

theorem openFile_lines (devName filename : List UInt8) (file : Option (List UInt8))
    (cols rows : Nat) :
    (Ed.openFile devName filename file cols rows).doc.lines = (Doc.load (file.getD [])).lines := by
  obtain ⟨row, h⟩ := holds_openFile devName filename file cols rows
  rw [h.doc]

/-- **Open and save.**  A file without NUL and CR that is opened and saved is the same file exactly
    if it round-trips; and a text of the editor that is saved and loaded again has the same lines
    exactly if it reloads. -/
theorem open_save_iff (devName filename : List UInt8) (env : Ed.LoadEnv) (cols rows : Nat) :
    (∀ file : List UInt8, (∀ b ∈ file, b ≠ 0 ∧ b ≠ 13) →
        ((Ed.openFile devName filename (env.read file) cols rows).Saves file ↔
          RoundTrips env.limit file)) ∧
      ∀ (start : Option (List UInt8)) (keys : List Ed.Key) (file : List UInt8),
        let s := ((Ed.openFile devName filename start cols rows).run keys).atKey
        s.Saves file →
          ((Ed.openFile devName filename (env.read file) cols rows).doc.lines = s.doc.lines ↔
            Reloads env.limit s.doc.lines) := by
  constructor
  · intro file hfile
    rw [saves_iff, openFile_lines, env.read_getD]
    exact join_load_iff hfile env.limit
  · intro start keys file s hsaves
    have hsim := (sim_openFile devName filename start cols rows).run keys
    have hfit := hsim.fitting ((innerLines_load (start.getD [])).foldl _)
    rw [← hsim.doc] at hfit
    obtain rfl := saves_iff.mp hsaves
    rw [openFile_lines, env.read_getD]
    exact load_join_iff hfit env.limit

/-- Everything is there, and the file can be read. -/
def goodLoad : Ed.LoadEnv := ⟨true, true, true, 4096⟩

/-- `c` and a newline typed in front of the text of a file. -/
theorem open_save_iff_three_bytes :
    ((Ed.openFile [] [] (goodLoad.read [0x61, 10, 0x62]) 80 25).Saves [0x61, 10, 0x62] ↔
        RoundTrips goodLoad.limit [0x61, 10, 0x62]) ∧
      let s := ((Ed.openFile [] [] (goodLoad.read [0x61, 10, 0x62]) 80 25).run
        ([0x63, 10].map fun c => ⟨c, ⟨true, true, true, true⟩⟩)).atKey
      ((Ed.openFile [] [] (goodLoad.read [0x63, 10, 0x61, 10, 0x62]) 80 25).doc.lines =
          s.doc.lines ↔ Reloads goodLoad.limit s.doc.lines) := by
  obtain ⟨hopen, hreload⟩ := open_save_iff [] [] goodLoad 80 25
  refine ⟨hopen [0x61, 10, 0x62] (by simp), hreload _ _ _ (saves_iff.mpr ?_)⟩
  rw [((sim_openFile [] [] (goodLoad.read [0x61, 10, 0x62]) 80 25).run _).doc]
  decide +kernel

/-- A file of one line that ends with a newline: the newline is gone. -/
theorem newline_dropped : ¬(Ed.openFile [] [] (goodLoad.read [0x61, 10]) 80 25).Saves [0x61, 10] := by
  intro h
  rw [saves_iff, openFile_lines, goodLoad.read_getD] at h
  have hround := (join_load_iff (by simp) goodLoad.limit).mp h
  exact hround.ends rfl

end Gemios.Editor
