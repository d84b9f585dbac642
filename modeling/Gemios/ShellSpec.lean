import Gemios.ShellEdit

/-!
# The line editor as it is meant

A line with a cursor, the last 32 commands, and a draft to return to.  What the shell keeps in its
buffer and its ring of commands is this editor, key for key.
-/

namespace Gemios.Shell

open Gemios.Vga

/-- The line, the commands that can be recalled with the last one first, how many there have been,
    which of them is shown, and the line that was typed before. -/
structure Spec where
  text : List UInt8
  pos : Nat
  recent : List (List UInt8)
  total : Nat
  browse : Option Nat
  draft : List UInt8

namespace Spec

def get (a : Spec) (index : Nat) : Option (List UInt8) :=
  if index < a.total then a.recent[a.total - 1 - index]? else none

/-- A command is remembered unless it is the last one again. -/
def remember (a : Spec) (cmd : List UInt8) : Spec :=
  if cmd = [] ∨ a.recent.head? = some cmd then a
  else { a with recent := (cmd :: a.recent).take HISTORY_SIZE, total := a.total + 1 }

def setText (a : Spec) (text : List UInt8) : Spec := { a with text := text, pos := text.length }

/-- The command before the one that is shown, or the last one. -/
def older (a : Spec) : Nat :=
  match a.browse with
  | none => 0
  | some k => if k + 1 < a.recent.length then k + 1 else k

def key (a : Spec) : Key → Spec
  | .up =>
    if a.recent = [] then a
    else
      { a.setText (a.recent.getD a.older []) with
        browse := some a.older
        draft := if a.browse = none then a.text else a.draft }
  | .down =>
    match a.browse with
    | none => a
    | some 0 => { a.setText a.draft with browse := none }
    | some (k + 1) => { a.setText (a.recent.getD k []) with browse := some k }
  | .left => { a with pos := a.pos - 1 }
  | .right => { a with pos := min (a.pos + 1) a.text.length }
  | .home => { a with pos := 0 }
  | .stop => { a with pos := a.text.length }
  | .clear => { a with text := [], pos := 0 }
  | .kill => { a with text := a.text.take a.pos }
  | .backspace => { a with text := a.text.take (a.pos - 1) ++ a.text.drop a.pos, pos := a.pos - 1 }
  | .delete => { a with text := a.text.take a.pos ++ a.text.drop (a.pos + 1) }
  | .char c =>
    if a.text.length < CMD_BUFFER_SIZE - 1 then
      { a with text := a.text.take a.pos ++ c :: a.text.drop a.pos, pos := a.pos + 1 }
    else a
  | .enter =>
    { a.remember (if a.text = [] then [] else expand a.total a.get a.text) with
      text := [], pos := 0, browse := none, draft := [] }
  | .other => a

def start : Spec := ⟨[], 0, [], 0, none, []⟩

/-- What a key has to print so that the row shows the new line. -/
def echo (a : Spec) : Key → List UInt8
  | .up =>
    if a.recent = [] then [] else a.text.drop a.pos ++ rubout a.text.length ++ (a.key .up).text
  | .down =>
    if a.browse = none then [] else a.text.drop a.pos ++ rubout a.text.length ++ (a.key .down).text
  | .left => if a.pos > 0 then [0x08] else []
  | .right => (a.text.drop a.pos).take 1
  | .home => List.replicate a.pos 0x08
  | .stop => a.text.drop a.pos
  | .clear => a.text.drop a.pos ++ rubout a.text.length
  | .kill => List.replicate (a.text.length - a.pos) 0x20 ++ List.replicate (a.text.length - a.pos) 0x08
  | .backspace =>
    if a.pos > 0 then
      [0x08] ++ a.text.drop a.pos ++ [0x20] ++ List.replicate (a.text.length - a.pos + 1) 0x08
    else []
  | .delete =>
    if a.pos < a.text.length then
      a.text.drop (a.pos + 1) ++ [0x20] ++ List.replicate (a.text.length - a.pos) 0x08
    else []
  | .char c =>
    if a.text.length < CMD_BUFFER_SIZE - 1 then
      c :: a.text.drop a.pos ++ List.replicate (a.text.length - a.pos) 0x08
    else []
  | .enter => []
  | .other => []

end Spec

/-! ### What the shell keeps -/

/-- A text of the editor fits into its buffer, and can be shown. -/
structure GoodText (text : List UInt8) : Prop where
  short : text.length < CMD_BUFFER_SIZE
  printable : ∀ c ∈ text, Printable c

/-- The buffer, the ring and the indices hold this editor. -/
structure Refines (e : LineEdit) (a : Spec) : Prop where
  line : IsStr e.cmdBuffer 0 a.text
  len : e.cmdLen = a.text.length
  pos : e.cmdPos = a.pos
  pos_le : a.pos ≤ a.text.length
  good : GoodText a.text
  count : e.historyCount = a.total
  recent_length : a.recent.length = min a.total HISTORY_SIZE
  recent : ∀ j (h : j < a.recent.length), e.history ((a.total - 1 - j) % HISTORY_SIZE) = a.recent[j]
  recent_good : ∀ s ∈ a.recent, GoodText s
  draft : e.currentDraft = a.draft
  draft_good : GoodText a.draft
  browse : match a.browse with
    | none => e.historyBrowseIdx = -1
    | some k => k < a.recent.length ∧ a.total < 2147483648 ∧ e.historyBrowseIdx = (a.total : Int) - 1 - k
  few : a.total < 4294967296
  -- the NUL behind the longest line is not written again when such a line is recalled
  end_zero : (a.draft.length = 255 ∨ ∃ s ∈ a.recent, s.length = 255) → e.cmdBuffer 255 = 0

/-! ### Texts in the buffer -/

theorem GoodText.nil : GoodText [] := ⟨by decide, fun _ h => absurd h List.not_mem_nil⟩

theorem GoodText.of_subset {s s' : List UInt8} (h : GoodText s) (hlen : s'.length ≤ s.length)
    (hsub : ∀ c ∈ s', c ∈ s) : GoodText s' :=
  ⟨Nat.lt_of_le_of_lt hlen h.short, fun c hc => h.printable c (hsub c hc)⟩

theorem GoodText.nonzero {s : List UInt8} (h : GoodText s) : ∀ c ∈ s, c ≠ 0 := by
  rintro c hc rfl
  exact absurd (h.printable 0 hc).1 (by decide)

theorem tail_eq {b : Buf} {text : List UInt8} (h : IsStr b 0 text) (i : Nat) :
    (List.range' i (text.length - i)).map b = text.drop i := by
  refine List.ext_getElem (by simp) fun k hk hk' => ?_
  rw [List.length_map, List.length_range'] at hk
  have hbyte := h.bytes (i + k) (by omega)
  rw [Nat.zero_add] at hbyte
  rw [List.getElem_map, List.getElem_range', List.getElem_drop, Nat.one_mul, hbyte]

theorem strOf_eq {b : Buf} {text : List UInt8} (h : IsStr b 0 text) {n : Nat} (hn : text.length ≤ n) :
    strOf b n = text := by
  obtain ⟨k, rfl⟩ := Nat.exists_eq_add_of_le hn
  have hall : (List.range text.length).map b = text := by
    rw [List.range_eq_range']
    exact tail_eq h 0
  rw [strOf, cstr, List.range_add, List.map_append, hall, List.takeWhile_append_of_pos]
  · cases k with
    | zero => exact List.append_nil _
    | succ k =>
      have hnul := h.nul
      rw [Nat.zero_add] at hnul
      rw [List.range_succ_eq_map, List.map_cons, List.map_cons, List.takeWhile_cons_of_neg, List.append_nil]
      rw [Nat.add_zero, hnul]
      decide
  · intro c hc
    exact bne_iff_ne.mpr (h.nonzero c hc)

theorem isStr_copyToBuffer {b : Buf} {s : List UInt8} (hs : GoodText s) (hend : s.length = 255 → b 255 = 0) :
    IsStr (copyToBuffer b s) 0 s := by
  have hshort : s.length < 256 := hs.short
  refine ⟨fun k hk => ?_, hs.nonzero, ?_⟩
  · have hlt : 0 + k < CMD_BUFFER_SIZE - 1 := show 0 + k < 255 by omega
    rw [copyToBuffer, if_pos hlt, Nat.zero_add, List.getD_eq_getElem s 0 hk]
  · unfold copyToBuffer
    rw [Nat.zero_add]
    split
    · exact List.getD_eq_default s 0 (Nat.le_refl _)
    · rename_i hfull
      have hlen : s.length = 255 := by
        simp only [CMD_BUFFER_SIZE] at hfull
        omega
      rw [hlen]
      exact hend hlen

namespace Refines

variable {e : LineEdit} {a : Spec}

theorem edit (h : Refines e a) {b : Buf} {text : List UInt8} {pos cpos len : Nat} (hline : IsStr b 0 text)
    (hgood : GoodText text) (hlen : len = text.length) (hcpos : cpos = pos) (hpos : pos ≤ text.length)
    (hend : e.cmdBuffer 255 = 0 → b 255 = 0) :
    Refines { e with cmdBuffer := b, cmdLen := len, cmdPos := cpos } { a with text := text, pos := pos } where
  line := hline
  len := hlen
  pos := hcpos
  pos_le := hpos
  good := hgood
  count := h.count
  recent_length := h.recent_length
  recent := h.recent
  recent_good := h.recent_good
  draft := h.draft
  draft_good := h.draft_good
  browse := h.browse
  few := h.few
  end_zero := fun hlong => hend (h.end_zero hlong)

theorem move (h : Refines e a) {pos cpos : Nat} (hcpos : cpos = pos) (hpos : pos ≤ a.text.length) :
    Refines { e with cmdPos := cpos } { a with pos := pos } :=
  h.edit h.line h.good h.len hcpos hpos id

theorem reindex (h : Refines e a) (browse : Option Nat) (idx : Int)
    (hbrowse : match browse with
      | none => idx = -1
      | some k => k < a.recent.length ∧ a.total < 2147483648 ∧ idx = (a.total : Int) - 1 - k) :
    Refines { e with historyBrowseIdx := idx } { a with browse := browse } where
  line := h.line
  len := h.len
  pos := h.pos
  pos_le := h.pos_le
  good := h.good
  count := h.count
  recent_length := h.recent_length
  recent := h.recent
  recent_good := h.recent_good
  draft := h.draft
  draft_good := h.draft_good
  browse := hbrowse
  few := h.few
  end_zero := h.end_zero

theorem setLine (h : Refines e a) {s : List UInt8} (hgood : GoodText s)
    (hend : s.length = 255 → e.cmdBuffer 255 = 0) :
    Refines (e.setLine (some s)).1 (a.setText s) ∧ (e.setLine (some s)).2 = s := by
  have hstr := isStr_copyToBuffer hgood hend
  have hlen : strlenIn (copyToBuffer e.cmdBuffer s) 0 CMD_BUFFER_SIZE = s.length := hstr.strlenIn hgood.short
  have hb : copyToBuffer e.cmdBuffer s 255 = e.cmdBuffer 255 := if_neg (by decide)
  exact ⟨h.edit hstr hgood hlen hlen (Nat.le_refl _) fun hzero => hb.trans hzero,
    strOf_eq hstr (Nat.le_of_lt hgood.short)⟩

theorem eraseEcho (h : Refines e a) : e.eraseEcho = a.text.drop a.pos ++ rubout a.text.length := by
  rw [LineEdit.eraseEcho, LineEdit.tail, h.len, h.pos, tail_eq h.line]

/-! ### The history -/

theorem oldest (h : Refines e a) : e.oldest = a.total - a.recent.length := by
  rw [LineEdit.oldest, h.count, h.recent_length]
  unfold HISTORY_SIZE
  split <;> omega

theorem historyGet (h : Refines e a) (index : Nat) : e.historyGet index = a.get index := by
  have hle : a.recent.length ≤ a.total := by
    rw [h.recent_length]
    exact Nat.min_le_left _ _
  rw [LineEdit.historyGet, Spec.get, h.oldest, h.count]
  by_cases hlt : index < a.total
  · rw [if_neg (Nat.not_le.mpr hlt), if_pos hlt]
    by_cases hold : index < a.total - a.recent.length
    · rw [if_pos hold, List.getElem?_eq_none (by omega)]
    · have hj : a.total - 1 - index < a.recent.length := by omega
      rw [if_neg hold, List.getElem?_eq_getElem hj, ← h.recent _ hj]
      congr 3
      omega
  · rw [if_pos (Nat.not_lt.mp hlt), if_neg hlt]

theorem entryAt (h : Refines e a) {k : Nat} (hk : a.browse = some k) :
    ∃ s ∈ a.recent, a.recent.getD k [] = s ∧ e.entryAt = some s := by
  have hbrowse := h.browse
  rw [hk] at hbrowse
  obtain ⟨hlt, hfew, hidx⟩ := hbrowse
  have hle : a.recent.length ≤ a.total := by
    rw [h.recent_length]
    exact Nat.min_le_left _ _
  have hindex : (e.historyBrowseIdx % 4294967296).toNat = a.total - 1 - k := by
    rw [hidx]
    omega
  refine ⟨a.recent[k], List.getElem_mem hlt, List.getD_eq_getElem _ _ hlt, ?_⟩
  have hback : a.total - 1 - (a.total - 1 - k) = k := by omega
  rw [LineEdit.entryAt, hindex, h.historyGet, Spec.get, if_pos (by omega), hback,
    List.getElem?_eq_getElem hlt]

theorem historyAdd (h : Refines e a) {cmd : List UInt8} (hcmd : GoodText cmd)
    (hend : cmd.length = 255 → e.cmdBuffer 255 = 0) (hfew : a.total + 1 < 4294967296) :
    Refines { e.historyAdd cmd with historyBrowseIdx := -1 } { a.remember cmd with browse := none } := by
  have hlen := h.recent_length
  have hsame := h.reindex none (-1) rfl
  unfold LineEdit.historyAdd Spec.remember
  by_cases hnil : cmd = []
  · rw [if_pos hnil, if_pos (.inl hnil)]
    exact hsame
  have hlast : (e.historyCount > 0 ∧ e.history ((e.historyCount - 1) % HISTORY_SIZE) = cmd) ↔
      a.recent.head? = some cmd := by
    rw [h.count]
    cases hrecent : a.recent with
    | nil =>
      rw [hrecent] at hlen
      have hzero : a.total = 0 := by
        simp only [List.length_nil, HISTORY_SIZE] at hlen
        omega
      simp [hzero]
    | cons s recent =>
      have hfirst := h.recent 0 (by rw [hrecent]; exact Nat.succ_pos _)
      simp only [hrecent, List.getElem_cons_zero, Nat.sub_zero] at hfirst
      have hpos : a.total > 0 := by
        rw [hrecent, List.length_cons] at hlen
        omega
      rw [hfirst, List.head?_cons, Option.some.injEq]
      exact and_iff_right hpos
  rw [if_neg hnil]
  by_cases hagain : a.recent.head? = some cmd
  · rw [if_pos (hlast.mpr hagain), if_pos (.inr hagain)]
    exact hsame
  · rw [if_neg (mt hlast.mp hagain), if_neg (not_or.mpr ⟨hnil, hagain⟩)]
    have htake : cmd.take (CMD_BUFFER_SIZE - 1) = cmd := List.take_of_length_le (Nat.le_of_lt_succ hcmd.short)
    have hcount : u32 (e.historyCount + 1) = a.total + 1 := by
      rw [h.count, u32_of_lt (by omega)]
    have hmem : ∀ s ∈ (cmd :: a.recent).take HISTORY_SIZE, s = cmd ∨ s ∈ a.recent :=
      fun s hs => List.mem_cons.mp (List.mem_of_mem_take hs)
    refine
      { line := h.line
        len := h.len
        pos := h.pos
        pos_le := h.pos_le
        good := h.good
        count := hcount
        recent_length := ?_
        recent := ?_
        recent_good := fun s hs => (hmem s hs).elim (fun heq => heq ▸ hcmd) (h.recent_good s)
        draft := h.draft
        draft_good := h.draft_good
        browse := rfl
        few := hfew
        end_zero := ?_ }
    · simp only [List.length_take, List.length_cons, hlen, HISTORY_SIZE]
      omega
    · intro j hj
      simp only [List.length_take, List.length_cons, HISTORY_SIZE] at hj
      simp only [List.getElem_take, htake, h.count, Function.update_apply, HISTORY_SIZE]
      cases j with
      | zero =>
        rw [if_pos (by omega)]
        rfl
      | succ j =>
        rw [if_neg (by omega), List.getElem_cons_succ, ← h.recent j (by omega)]
        simp only [HISTORY_SIZE]
        congr 2
        omega
    · rintro (hdraft | ⟨s, hs, hfull⟩)
      · exact h.end_zero (.inl hdraft)
      · rcases hmem s hs with rfl | hold
        · exact hend hfull
        · exact h.end_zero (.inr ⟨s, hold, hfull⟩)

end Refines

end Gemios.Shell
