import Gemios.EditorRefine
import Gemios.Utf8Text

/-!
# UTF-8 in the editor

Columns are byte offsets.  The keys that move within a line, and those that edit, keep every line
UTF-8 and the cursor between two characters.  Those that change the line keep the offset, which may
be within a character there.
-/

namespace Gemios.Editor

/-! ### Characters -/

theorem isCont_iff (b : UInt8) : isCont b = true ↔ IsContinuation b := by
  rw [isCont, IsContinuation, beq_iff_eq]

theorem utf8CharLength_of_leads {b : UInt8} {n : Nat} (h : LeadsChar b n) : utf8CharLength b = n := by
  have hbyte : ∀ b : UInt8, (b &&& 0x80 = 0 → utf8CharLength b = 1) ∧
      (b &&& 0xE0 = 0xC0 → utf8CharLength b = 2) ∧ (b &&& 0xF0 = 0xE0 → utf8CharLength b = 3) ∧
        (b &&& 0xF8 = 0xF0 → utf8CharLength b = 4) := forall_byte (by decide +kernel)
  obtain ⟨hone, htwo, hthree, hfour⟩ := hbyte b
  rcases h with ⟨rfl, h⟩ | ⟨rfl, h⟩ | ⟨rfl, h⟩ | ⟨rfl, h⟩
  · exact hone h
  · exact htwo h
  · exact hthree h
  · exact hfour h

namespace Doc

theorem boundary_min_iff {l : List UInt8} (h : ValidUtf8 l) (k : Nat) :
    CharBoundary l (min k l.length) ↔ ¬IsContinuation (l.getD k 0) := by
  rcases Nat.lt_or_ge k l.length with hk | hk
  · rw [Nat.min_eq_left (Nat.le_of_lt hk), List.getD_eq_getElem _ _ hk]
    exact CharBoundary.iff_not_continuation h hk
  · rw [Nat.min_eq_right hk, List.getD_eq_default _ _ hk]
    exact iff_of_true (.last h) (by decide)

theorem back_boundary {l : List UInt8} (h : ValidUtf8 l) {k : Nat} (hk : k ≤ l.length) :
    CharBoundary l (back l k) := by
  induction k with
  | zero => exact .zero h
  | succ k ih =>
    rw [back]
    split
    · exact ih (Nat.le_of_succ_le hk)
    · rename_i hfirst
      rw [isCont_iff] at hfirst
      have hplace := (boundary_min_iff h (k + 1)).mpr hfirst
      rwa [Nat.min_eq_left hk] at hplace

theorem prevChar_boundary {l : List UInt8} (h : ValidUtf8 l) {k : Nat} (hk : k ≤ l.length) :
    CharBoundary l (prevChar l k) := back_boundary h (Nat.le_trans (Nat.sub_le k 1) hk)

theorem nextChar_boundary {l : List UInt8} {k : Nat} (h : CharBoundary l k) :
    CharBoundary l (nextChar l k) := by
  unfold nextChar
  rcases Nat.lt_or_ge k l.length with hk | hk
  · obtain ⟨n, hlead, hplace⟩ := h.next hk
    rw [List.getD_eq_getElem _ _ hk, utf8CharLength_of_leads hlead, Nat.min_eq_left hplace.le]
    exact hplace
  · rw [Nat.min_eq_right (Nat.le_trans hk (Nat.le_add_right _ _))]
    exact .last h.valid

/-! ### Texts -/

/-- Every line is UTF-8, and the cursor is between two characters. -/
structure Intact (d : Doc) : Prop where
  row : d.row < d.lines.length
  lines : ∀ l ∈ d.lines, ValidUtf8 l
  cursor : CharBoundary d.cur d.col

/-- Not a byte from outside of ASCII, which the editor would take as it is. -/
def Plain (c : Nat) : Prop := c < 128 ∨ 256 ≤ c

/-- The line that a key goes to, if it changes the line and nothing else. -/
def landing (d : Doc) (c : Nat) : Option Nat :=
  if c = KEY_UP then some (d.row - 1)
  else if c = KEY_DOWN then some (min (d.row + 1) (d.lines.length - 1))
  else if c = KEY_PGUP then some (d.row - 20)
  else if c = KEY_PGDN then some (min (d.row + 20) (d.lines.length - 1))
  else none

/-- A key that changes the line finds no continuation byte at the offset of the cursor there. -/
def Clears (d : Doc) (c : Nat) : Prop :=
  ∀ r ∈ d.landing c, ¬IsContinuation ((d.line r).getD d.col 0)

namespace Intact

variable {d : Doc} (h : d.Intact)
include h

theorem onText : OnText d := ⟨h.row, h.cursor.le⟩

theorem line (i : Nat) : ValidUtf8 (d.line i) := by
  unfold Doc.line
  rcases Nat.lt_or_ge i d.lines.length with hi | hi
  · rw [List.getD_eq_getElem _ _ hi]
    exact h.lines _ (List.getElem_mem hi)
  · rw [List.getD_eq_default _ _ hi]
    exact .nil

theorem setCur {l : List UInt8} {k : Nat} (hk : CharBoundary l k) : (d.setCur l k).Intact := by
  have hcur : (d.setCur l k).cur = l := by
    simp [Doc.setCur, Doc.cur, Doc.line, h.row]
  refine ⟨?_, fun l' hl' => ?_, by rwa [hcur]⟩
  · rw [Doc.setCur, List.length_set]
    exact h.row
  · rcases List.mem_or_eq_of_mem_set hl' with hold | rfl
    · exact h.lines l' hold
    · exact hk.valid

theorem moveCol {k : Nat} (hk : CharBoundary d.cur k) : ({ d with col := k } : Doc).Intact :=
  ⟨h.row, h.lines, hk⟩

theorem moveRow_iff (r : Nat) : ({ d with row := r } : Doc).clamp.Intact ↔
    ¬IsContinuation ((d.line (min r (d.lines.length - 1))).getD d.col 0) := by
  rw [← boundary_min_iff (h.line _)]
  have hrow : min r (d.lines.length - 1) < d.lines.length := by
    have := h.row
    omega
  constructor
  · intro hmoved
    exact hmoved.cursor
  · intro hplace
    exact ⟨hrow, h.lines, hplace⟩

theorem insert {n : Nat} (hn : n < 128) : (d.insert (UInt8.ofNat n)).Intact := by
  unfold Doc.insert
  split
  · exact h
  · refine h.setCur ?_
    have hplace := CharBoundary.append (h.cursor.before.append (.ascii hn)) h.cursor.behind
    rwa [List.length_append, List.length_take_of_le h.cursor.le, List.append_assoc] at hplace

theorem split : d.split.Intact := by
  unfold Doc.split
  split
  · exact h
  · have hlen : (d.lines.take d.row).length = d.row := List.length_take_of_le (Nat.le_of_lt h.row)
    refine ⟨?_, fun l hl => ?_, ?_⟩
    · simp only [List.length_append, List.length_cons, hlen]
      omega
    · simp only [List.mem_append, List.mem_cons] at hl
      rcases hl with hl | rfl | rfl | hl
      · exact h.lines l (List.mem_of_mem_take hl)
      · exact h.cursor.before
      · exact h.cursor.behind
      · exact h.lines l (List.mem_of_mem_drop hl)
    · have hcur : ∀ a b, (⟨d.lines.take d.row ++ a :: d.cur.drop d.col :: b, d.row + 1, 0⟩ : Doc).cur =
          d.cur.drop d.col := by
        intro a b
        simp [Doc.cur, Doc.line, hlen]
      rw [hcur]
      exact .zero h.cursor.behind

theorem join {i k : Nat} (hi : i + 1 < d.lines.length)
    (hk : CharBoundary (d.line i ++ d.line (i + 1)) k) : (⟨d.join i, i, k⟩ : Doc).Intact := by
  have hlen : (d.lines.take i).length = i := List.length_take_of_le (by omega)
  refine ⟨?_, fun l hl => ?_, ?_⟩
  · simp only [Doc.join, List.length_append, List.length_cons, hlen]
    omega
  · simp only [Doc.join, List.mem_append, List.mem_cons] at hl
    rcases hl with hl | rfl | hl
    · exact h.lines l (List.mem_of_mem_take hl)
    · exact hk.valid
    · exact h.lines l (List.mem_of_mem_drop hl)
  · have hcur : (⟨d.join i, i, k⟩ : Doc).cur = d.line i ++ d.line (i + 1) := by
      simp [Doc.join, Doc.cur, Doc.line, hlen]
    rwa [hcur]

theorem backspace : d.backspace.Intact := by
  unfold Doc.backspace
  dsimp only
  split
  · have hprev := prevChar_boundary h.cursor.valid h.cursor.le
    refine h.setCur ?_
    have hplace := CharBoundary.append hprev.before h.cursor.behind
    rwa [List.length_take_of_le hprev.le] at hplace
  · split
    · rename_i hrow
      split
      · refine h.join ?_ (.append (h.line _) (h.line _))
        have := h.row
        omega
      · exact h
    · exact h

theorem delete : d.delete.Intact := by
  unfold Doc.delete
  split
  · have hnext := nextChar_boundary h.cursor
    refine h.setCur ?_
    have hplace := CharBoundary.append h.cursor.before hnext.behind
    rwa [List.length_take_of_le h.cursor.le] at hplace
  · rename_i hend
    split
    · rename_i hrow
      split
      · have hcol : d.col = (d.line d.row).length := Nat.le_antisymm h.cursor.le (Nat.not_lt.mp hend)
        refine h.join hrow ?_
        rw [hcol]
        exact .append (h.line _) (h.line _)
      · exact h
    · exact h

end Intact

theorem emptied_intact : (⟨[[]], 0, 0⟩ : Doc).Intact :=
  ⟨Nat.one_pos, by simp [ValidUtf8.nil], .zero .nil⟩

theorem Intact.deleteLine {d : Doc} (h : d.Intact) : d.deleteLine.Intact := by
  unfold Doc.deleteLine
  split
  · exact emptied_intact
  · have hrow := h.row
    have hlines : ∀ l ∈ d.lines.eraseIdx d.row, ValidUtf8 l := fun l hl =>
      h.lines l (List.mem_of_mem_eraseIdx hl)
    have hlt : min d.row (d.lines.length - 2) < (d.lines.eraseIdx d.row).length := by
      rw [List.length_eraseIdx_of_lt hrow]
      omega
    refine ⟨hlt, hlines, .zero ?_⟩
    unfold Doc.cur Doc.line
    dsimp only
    rw [List.getD_eq_getElem _ _ hlt]
    exact hlines _ (List.getElem_mem hlt)

/-! ### Keys -/

theorem Intact.tab {d : Doc} (h : d.Intact) :
    ((((d.insert 32).insert 32).insert 32).insert 32).Intact := by
  have hspace : 32 < 128 := by decide
  exact (((h.insert hspace).insert hspace).insert hspace).insert hspace

theorem Intact.command {d : Doc} (h : d.Intact) {c : Nat} (hc : Plain c) (hland : d.landing c = none) :
    (d.command c).Intact := by
  unfold landing at hland
  have hup : c ≠ KEY_UP := fun habs => by simp [habs] at hland
  have hdown : c ≠ KEY_DOWN := fun habs => by simp [habs, KEY_UP, KEY_DOWN] at hland
  have hpgup : c ≠ KEY_PGUP := fun habs => by simp [habs, KEY_UP, KEY_DOWN, KEY_PGUP] at hland
  have hpgdn : c ≠ KEY_PGDN := fun habs => by
    simp [habs, KEY_UP, KEY_DOWN, KEY_PGUP, KEY_PGDN] at hland
  unfold Doc.command
  rw [if_neg hup, if_neg hdown, if_neg hpgup, if_neg hpgdn]
  refine ite_of (fun _ => h) fun _ => ite_of (fun _ => emptied_intact) fun _ =>
    ite_of (fun _ => h.deleteLine) fun _ =>
    ite_of (fun _ => h.moveCol (prevChar_boundary h.cursor.valid h.cursor.le)) fun _ =>
    ite_of (fun _ => h.moveCol (nextChar_boundary h.cursor)) fun _ =>
    ite_of (fun _ => h.moveCol (.zero h.cursor.valid)) fun _ =>
    ite_of (fun _ => h.moveCol (.last h.cursor.valid)) fun _ =>
    ite_of (fun _ => h.backspace) fun _ => ite_of (fun _ => h.delete) fun _ =>
    ite_of (fun _ => h.split) fun _ => ite_of (fun _ => h.tab) fun _ => ite_of (fun hbyte => ?_) fun _ => h
  refine h.insert ?_
  rcases hc with hc | hc
  · exact hc
  · omega

theorem command_landing {d : Doc} (hrow : d.row < d.lines.length) {c r : Nat}
    (h : d.landing c = some r) :
    ∃ r', d.command c = { d with row := r' } ∧ min r' (d.lines.length - 1) = r := by
  unfold landing at h
  split at h
  · rename_i hc
    subst hc
    cases h
    exact ⟨d.row - 1, rfl, by omega⟩
  · split at h
    · rename_i hc
      subst hc
      cases h
      exact ⟨d.row + 1, rfl, rfl⟩
    · split at h
      · rename_i hc
        subst hc
        cases h
        exact ⟨d.row - 20, rfl, by omega⟩
      · split at h
        · rename_i hc
          subst hc
          cases h
          exact ⟨d.row + 20, rfl, rfl⟩
        · contradiction

theorem Intact.key_iff {d : Doc} (h : d.Intact) {c : Nat} (hc : Plain c) :
    (d.key c).Intact ↔ d.Clears c := by
  unfold Doc.Clears Doc.key
  cases hland : d.landing c with
  | none =>
    have hkept := h.command hc hland
    rw [hkept.onText.clamp]
    exact iff_of_true hkept (by simp)
  | some r =>
    obtain ⟨r', hcommand, hr⟩ := command_landing h.row hland
    rw [hcommand, h.moveRow_iff, hr]
    simp

end Doc

/-! ### Runs -/

/-- The condition for a key that is handled as a command. -/
def Ed.Clears (s : Ed) (c : Nat) : Prop :=
  s.running = true → s.deciding = false → s.atKey.doc.Clears c

theorem Sim.turn_intact_iff {s : Ed} {d : Doc} (h : Sim s d) (hd : d.Intact) {key : Ed.Key}
    (hc : Doc.Plain key.code) : (s.turn key).atKey.doc.Intact ↔ s.Clears key.code := by
  rw [(h.turn key).doc, Ed.Clears, h.doc]
  by_cases hcommand : (s.running && !s.deciding) = true
  · rw [if_pos hcommand, hd.key_iff hc]
    simp only [Bool.and_eq_true, Bool.not_eq_true'] at hcommand
    simp [hcommand]
  · rw [if_neg hcommand]
    simp only [Bool.and_eq_true, Bool.not_eq_true', not_and] at hcommand
    exact iff_of_true hd fun hrunning hdeciding => absurd hdeciding (hcommand hrunning)

theorem Sim.run_intact_iff {s : Ed} {d : Doc} (h : Sim s d) (hd : d.Intact) {keys : List Ed.Key}
    (hplain : ∀ key ∈ keys, Doc.Plain key.code) :
    (∀ done rest, keys = done ++ rest → (s.run done).atKey.doc.Intact) ↔
      ∀ done key rest, keys = done ++ key :: rest → (s.run done).Clears key.code := by
  induction keys generalizing s d with
  | nil =>
    refine iff_of_true (fun done rest heq => ?_) fun done key rest heq => ?_
    · obtain ⟨rfl, -⟩ := List.append_eq_nil_iff.mp heq.symm
      rw [Ed.run, List.foldl_nil, h.doc]
      exact hd
    · exact absurd heq (by simp)
  | cons key keys ih =>
    have hstep := h.turn_intact_iff hd (hplain key List.mem_cons_self)
    have hplain' : ∀ key ∈ keys, Doc.Plain key.code := fun k hk => hplain k (List.mem_cons_of_mem _ hk)
    constructor
    · intro hall done key' rest heq
      have hfirst : (s.turn key).atKey.doc.Intact := hall [key] keys rfl
      have hrest := (ih (h.turn key) (by rwa [(h.turn key).doc] at hfirst) hplain').mp
        fun done' rest' heq' => hall (key :: done') rest' (by rw [heq', List.cons_append])
      cases done with
      | nil =>
        obtain ⟨rfl, -⟩ := List.cons.inj heq
        exact hstep.mp hfirst
      | cons k done =>
        obtain ⟨rfl, heq'⟩ := List.cons.inj heq
        exact hrest done key' rest heq'
    · intro hall done rest heq
      have hfirst := hstep.mpr (hall [] key keys rfl)
      have hrest := (ih (h.turn key) (by rwa [(h.turn key).doc] at hfirst) hplain').mpr
        fun done' key' rest' heq' => hall (key :: done') key' rest' (by rw [heq', List.cons_append])
      cases done with
      | nil =>
        rw [Ed.run, List.foldl_nil, h.doc]
        exact hd
      | cons k done =>
        obtain ⟨rfl, heq'⟩ := List.cons.inj heq
        exact hrest done rest heq'

/-- **UTF-8 in the editor.**  From every state that the editor reaches with UTF-8 in every line and
    the cursor between two characters: a run of keys that are no bytes from outside of ASCII keeps
    this at every key exactly if each key that changes the line finds no continuation byte at the
    offset of the cursor there. -/
theorem utf8_kept_iff (devName filename : List UInt8) (file : Option (List UInt8))
    (cols rows : Nat) (before : List Ed.Key) {keys : List Ed.Key}
    (hplain : ∀ key ∈ keys, Doc.Plain key.code)
    (hstart : ((Ed.openFile devName filename file cols rows).run before).atKey.doc.Intact) :
    let s := (Ed.openFile devName filename file cols rows).run before
    (∀ done rest, keys = done ++ rest → (s.run done).atKey.doc.Intact) ↔
      ∀ done key rest, keys = done ++ key :: rest → (s.run done).Clears key.code := by
  have hsim := (sim_openFile devName filename file cols rows).run before
  rw [hsim.doc] at hstart
  exact hsim.run_intact_iff hstart hplain

/-- The editor on a file of two lines, an e with an accent and two letters. -/
def twoLines : Ed := Ed.openFile [] [] (some [0xC3, 0xA9, 10, 0x61, 0x62]) 80 25

def press (codes : List Nat) : List Ed.Key := codes.map fun c => ⟨c, ⟨true, true, true, true⟩⟩

theorem sim_twoLines : Sim twoLines ⟨[[0xC3, 0xA9], [0x61, 0x62]], 0, 0⟩ := by
  have hsim := sim_openFile [] [] (some [0xC3, 0xA9, 10, 0x61, 0x62]) 80 25
  have hload : Doc.load [0xC3, 0xA9, 10, 0x61, 0x62] = ⟨[[0xC3, 0xA9], [0x61, 0x62]], 0, 0⟩ := by
    simp [Doc.load, toLines, MAX_EDITOR_LINES, MAX_LINE_LEN]
  rwa [Option.getD_some, hload] at hsim

theorem twoLines_intact : (⟨[[0xC3, 0xA9], [0x61, 0x62]], 0, 0⟩ : Doc).Intact := by
  have haccent : ValidUtf8 [0xC3, 0xA9] := ⟨[Char.ofNat 0xE9], by decide +kernel⟩
  have hletters : ValidUtf8 [0x61, 0x62] := ⟨['a', 'b'], by decide +kernel⟩
  exact ⟨by decide, by simp [haccent, hletters], .zero haccent⟩

theorem twoLines_commands : twoLines.commands (press [KEY_DOWN, KEY_RIGHT, KEY_UP, 0x78]) =
    [KEY_DOWN, KEY_RIGHT, KEY_UP, 0x78] := by
  decide +kernel

theorem utf8_kept_iff_two_lines :
    (∀ done rest, press [KEY_DOWN, KEY_RIGHT, KEY_UP] = done ++ rest →
        ((twoLines.run []).run done).atKey.doc.Intact) ↔
      ∀ done key rest, press [KEY_DOWN, KEY_RIGHT, KEY_UP] = done ++ key :: rest →
        ((twoLines.run []).run done).Clears key.code :=
  utf8_kept_iff [] [] (some [0xC3, 0xA9, 10, 0x61, 0x62]) 80 25 []
    (by simp [press, Doc.Plain, KEY_DOWN, KEY_RIGHT, KEY_UP])
    (by
      have hdoc : ((Ed.openFile [] [] (some [0xC3, 0xA9, 10, 0x61, 0x62]) 80 25).run []).atKey.doc = _ :=
        sim_twoLines.doc
      rw [hdoc]
      exact twoLines_intact)

/-- Down, right, up and a letter: it is put between the two bytes of the accented one. -/
theorem up_splits_character :
    twoLines.atKey.doc.Intact ∧
      ¬∀ l ∈ (twoLines.run (press [KEY_DOWN, KEY_RIGHT, KEY_UP, 0x78])).atKey.doc.lines,
        ValidUtf8 l := by
  refine ⟨by rw [sim_twoLines.doc]; exact twoLines_intact, fun hvalid => ?_⟩
  have hrun := (sim_twoLines.run (press [KEY_DOWN, KEY_RIGHT, KEY_UP, 0x78])).doc
  rw [twoLines_commands] at hrun
  rw [hrun] at hvalid
  have hline : ValidUtf8 [0xC3, 0x78, 0xA9] := hvalid _ (by decide +kernel)
  obtain ⟨rest, l', hrest, hlead, hcont, -, -⟩ := hline.cons
  have hlen : 2 = rest.length + 1 := utf8CharLength_of_leads hlead
  cases rest with
  | nil => exact absurd hlen (by decide)
  | cons x rest =>
    obtain ⟨rfl, -⟩ := List.cons.inj hrest
    exact absurd (hcont _ List.mem_cons_self) (by decide)

end Gemios.Editor
