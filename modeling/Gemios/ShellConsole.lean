import Gemios.ShellSpec
import Gemios.ShellHistory

/-!
# Sessions of the shell

The characters and backspaces that a key prints turn a row that shows the line into one that shows the
new line, with the cursor where it belongs; as long as both fit between the prompt and the last column.

The shell, key after key, beside the editor that it is meant to be.  While the line fits into the row of
its prompt the two agree, and the row shows the line.  A line that reaches the last column goes on in the
next row, where a backspace does not find back.
-/

namespace Gemios.Shell

open Gemios.Vga

/-- From the prompt on the row shows the text, and behind it nothing, or what stood there before. -/
structure RowShows (base : Screen) (f : Nat → UInt8) (text : List UInt8) : Prop where
  shown : ∀ i (h : i < text.length), f i = text[i]
  blank : ∀ i, text.length ≤ i → f i = 0x20 ∨ f i = base.cells base.y (base.x + i)

/-- Since the prompt was printed only its row has changed; it shows the text, with the cursor at a
    position of it. -/
def Shows (base scr : Screen) (text : List UInt8) (pos : Nat) : Prop :=
  ∃ f, RowShows base f text ∧ scr = base.draw f pos

variable {t : Terminal} {base scr : Screen} {f : Nat → UInt8} {text : List UInt8} {pos : Nat}

theorem Shows.empty (base : Screen) : Shows base base [] 0 :=
  ⟨_, ⟨fun _ h => absurd h (Nat.not_lt_zero _), fun _ _ => .inr rfl⟩, base.draw_self.symm⟩

theorem splice_same (h : ∀ i (hi : i < text.length), f i = text[i]) (p n : Nat) :
    splice f p ((text.drop p).take n) = f := by
  funext i
  unfold splice
  split
  · rename_i hin
    rw [List.length_take, List.length_drop] at hin
    have hback : p + (i - p) = i := by omega
    have hlt : i - p < ((text.drop p).take n).length := by
      rw [List.length_take, List.length_drop]
      omega
    rw [h i (by omega), List.getD_eq_getElem _ _ hlt, List.getElem_take, List.getElem_drop]
    simp only [hback]
  · rfl

theorem RowShows.splice (h : RowShows base f text) {p n : Nat} {s : List UInt8} (hp : p ≤ text.length)
    (hcover : text.length ≤ p + s.length + n) :
    RowShows base (splice f p (s ++ List.replicate n 0x20)) (text.take p ++ s) := by
  have hfront : (text.take p).length = p := List.length_take_of_le hp
  have hlen : (s ++ List.replicate n (0x20 : UInt8)).length = s.length + n := by
    rw [List.length_append, List.length_replicate]
  constructor
  · intro i hi
    rw [List.length_append, hfront] at hi
    unfold Vga.splice
    rw [hlen]
    by_cases hip : i < p
    · rw [if_neg (by omega), List.getElem_append_left (hfront.symm ▸ hip), List.getElem_take, h.shown]
    · have his : i - p < s.length := by omega
      rw [if_pos (by omega), List.getElem_append_right (by omega), List.getD_append _ _ _ _ his,
        List.getD_eq_getElem _ _ his]
      congr 1
      rw [hfront]
  · intro i hi
    rw [List.length_append, hfront] at hi
    unfold Vga.splice
    rw [hlen]
    by_cases hin : p ≤ i ∧ i < p + (s.length + n)
    · rw [if_pos hin, List.getD_append_right _ _ _ _ (by omega), List.getD_replicate _ (by omega)]
      exact .inl rfl
    · rw [if_neg hin]
      exact h.blank i (by omega)

namespace Shows

variable (hy : base.y ≤ t.bottom)
include hy

theorem retype (h : Shows base scr text pos) (s : List UInt8) (n back : Nat) {p : Nat}
    (hpos : pos ≤ text.length) (hs : ∀ c ∈ s, Printable c) (hcover : text.length ≤ pos + s.length + n)
    (hback : p + back = pos + s.length + n) (hfits : base.x + (pos + s.length + n) < t.cols) :
    Shows base (scr.puts t (s ++ List.replicate n 0x20 ++ List.replicate back 0x08)) (text.take pos ++ s) p := by
  obtain ⟨f, hrow, rfl⟩ := h
  have hlen : (s ++ List.replicate n (0x20 : UInt8)).length = s.length + n := by
    rw [List.length_append, List.length_replicate]
  have hprint : ∀ c ∈ s ++ List.replicate n 0x20, Printable c := by
    intro c hc
    rcases List.mem_append.mp hc with hc | hc
    · exact hs c hc
    · rw [List.eq_of_mem_replicate hc]
      unfold Printable
      decide
  refine ⟨_, hrow.splice hpos hcover, ?_⟩
  rw [Screen.puts_append, Screen.puts_printable hy hprint (by omega), hlen, ← Nat.add_assoc,
    Screen.puts_backspaces hy (by omega) (by omega), ← hback, Nat.add_sub_cancel]

theorem erase (h : Shows base scr text pos) (hpos : pos ≤ text.length) (htext : ∀ c ∈ text, Printable c)
    (hfits : base.x + text.length < t.cols) :
    Shows base (scr.puts t (text.drop pos ++ rubout text.length)) [] 0 := by
  obtain ⟨f, hrow, rfl⟩ := h
  have hsame : splice f pos (text.drop pos) = f := by
    have htake := splice_same hrow.shown pos (text.drop pos).length
    rwa [List.take_length] at htake
  have hlen : pos + (text.drop pos).length = text.length := by
    rw [List.length_drop]
    omega
  have hblank := hrow.splice (Nat.zero_le _) (p := 0) (s := []) (n := text.length) (by simp)
  refine ⟨_, hblank, ?_⟩
  rw [Screen.puts_append, Screen.puts_printable hy (fun c hc => htext c (List.mem_of_mem_drop hc)) (by omega),
    hsame, hlen, Screen.puts_rubout hy (Nat.le_refl _) hfits, Nat.sub_self, List.nil_append]

theorem replace (h : Shows base scr text pos) (hpos : pos ≤ text.length) (htext : ∀ c ∈ text, Printable c)
    (hfits : base.x + text.length < t.cols) {s : List UInt8} (hs : ∀ c ∈ s, Printable c)
    (hfits' : base.x + s.length < t.cols) :
    Shows base (scr.puts t (text.drop pos ++ rubout text.length ++ s)) s s.length := by
  have hline := (h.erase hy hpos htext hfits).retype hy s 0 0 (p := s.length) (Nat.le_refl _) hs
    (Nat.zero_le _) (by simp) (by simpa using hfits')
  rw [Screen.puts_append]
  simpa using hline

theorem back (h : Shows base scr text pos) {n : Nat} (hn : n ≤ pos) (hfits : base.x + pos < t.cols) :
    Shows base (scr.puts t (List.replicate n 0x08)) text (pos - n) := by
  obtain ⟨f, hrow, rfl⟩ := h
  exact ⟨f, hrow, Screen.puts_backspaces hy hn hfits⟩

theorem forward (h : Shows base scr text pos) (htext : ∀ c ∈ text, Printable c)
    (hfits : base.x + text.length < t.cols) (hpos : pos ≤ text.length) :
    Shows base (scr.puts t ((text.drop pos).take 1)) text (min (pos + 1) text.length) := by
  obtain ⟨f, hrow, rfl⟩ := h
  have hlen : pos + ((text.drop pos).take 1).length = min (pos + 1) text.length := by
    rw [List.length_take, List.length_drop]
    omega
  refine ⟨f, hrow, ?_⟩
  rw [Screen.puts_printable hy (fun c hc => htext c (List.mem_of_mem_drop (List.mem_of_mem_take hc)))
    (by omega), splice_same hrow.shown, hlen]

variable {a : Spec} {k : Key}

theorem key (h : Shows base scr a.text a.pos) (hpos : a.pos ≤ a.text.length) (hgood : GoodText a.text)
    (hnew : GoodText (a.key k).text) (hfits : base.x + a.text.length < t.cols)
    (hfits' : base.x + (a.key k).text.length < t.cols) (hk : k ≠ .enter) :
    Shows base (scr.puts t (a.echo k)) (a.key k).text (a.key k).pos := by
  have hdrop : ∀ n, ∀ c ∈ a.text.drop n, Printable c :=
    fun n c hc => hgood.printable c (List.mem_of_mem_drop hc)
  cases k with
  | enter => exact absurd rfl hk
  | other => exact h
  | up =>
    by_cases hnil : a.recent = []
    · rw [Spec.echo, Spec.key, if_pos hnil, if_pos hnil]
      exact h
    · have hend : (a.key .up).pos = (a.key .up).text.length := by
        unfold Spec.key
        rw [if_neg hnil]
        rfl
      rw [Spec.echo, if_neg hnil, hend]
      exact h.replace hy hpos hgood.printable hfits hnew.printable hfits'
  | down =>
    by_cases hnone : a.browse = none
    · rw [Spec.echo, Spec.key, if_pos hnone, hnone]
      exact h
    · have hend : (a.key .down).pos = (a.key .down).text.length := by
        unfold Spec.key
        rcases hb : a.browse with _ | _ | k
        · exact absurd hb hnone
        · rfl
        · rfl
      rw [Spec.echo, if_neg hnone, hend]
      exact h.replace hy hpos hgood.printable hfits hnew.printable hfits'
  | left =>
    rw [Spec.echo, Spec.key]
    split
    · exact h.back hy (n := 1) (by omega) (by omega)
    · have hzero : a.pos - 1 = a.pos := by omega
      rw [hzero]
      exact h
  | right => exact h.forward hy hgood.printable hfits hpos
  | home =>
    have hback := h.back hy (Nat.le_refl a.pos) (by omega)
    rw [Nat.sub_self] at hback
    exact hback
  | stop =>
    have hlen : a.pos + (a.text.drop a.pos).length = a.text.length := by
      rw [List.length_drop]
      omega
    have hline := h.retype hy (a.text.drop a.pos) 0 0 (p := a.text.length) hpos (hdrop _) (by omega) (by omega)
      (by omega)
    rw [List.take_append_drop] at hline
    rw [Spec.echo, Spec.key]
    simpa using hline
  | clear => exact h.erase hy hpos hgood.printable hfits
  | kill =>
    have hline := h.retype hy [] (a.text.length - a.pos) (a.text.length - a.pos) (p := a.pos) hpos
      (fun c hc => absurd hc List.not_mem_nil) (by simp; omega) (by simp) (by simp; omega)
    rw [Spec.echo, Spec.key]
    simpa using hline
  | backspace =>
    rw [Spec.echo]
    by_cases hzero : a.pos > 0
    · have hlen : (a.text.drop a.pos).length = a.text.length - a.pos := List.length_drop
      have hback := h.back hy (n := 1) hzero (by omega)
      have hline := hback.retype hy (a.text.drop a.pos) 1 (a.text.length - a.pos + 1) (p := a.pos - 1)
        (by omega) (hdrop _) (by omega) (by omega) (by omega)
      rw [← Screen.puts_append] at hline
      rw [if_pos hzero, Spec.key]
      simpa using hline
    · have hstart : a.pos = 0 := by omega
      rw [if_neg hzero, Spec.key, hstart]
      rw [hstart] at h
      exact h
  | delete =>
    rw [Spec.echo]
    by_cases hlt : a.pos < a.text.length
    · have hlen : (a.text.drop (a.pos + 1)).length = a.text.length - (a.pos + 1) := List.length_drop
      have hline := h.retype hy (a.text.drop (a.pos + 1)) 1 (a.text.length - a.pos) (p := a.pos) hpos
        (hdrop _) (by omega) (by omega) (by omega)
      rw [if_pos hlt]
      exact hline
    · rw [if_neg hlt, Spec.key, List.take_of_length_le (by omega), List.drop_eq_nil_of_le (by omega),
        List.append_nil]
      exact h
  | char c =>
    rw [Spec.echo]
    by_cases hroom : a.text.length < CMD_BUFFER_SIZE - 1
    · rw [Spec.key, if_pos hroom] at hnew hfits' ⊢
      have hlen : (c :: a.text.drop a.pos).length = a.text.length - a.pos + 1 := by
        rw [List.length_cons, List.length_drop]
      have hprint : ∀ d ∈ c :: a.text.drop a.pos, Printable d :=
        fun d hd => hnew.printable d (List.mem_append_right _ hd)
      have hnewlen : (a.text.take a.pos ++ c :: a.text.drop a.pos).length = a.text.length + 1 := by
        rw [List.length_append, List.length_take_of_le hpos, hlen]
        omega
      rw [hnewlen] at hfits'
      have hline := h.retype hy (c :: a.text.drop a.pos) 0 (a.text.length - a.pos) (p := a.pos + 1) hpos hprint
        (by omega) (by omega) (by omega)
      rw [List.replicate_zero, List.append_nil] at hline
      rw [if_pos hroom]
      exact hline
    · rw [if_neg hroom, Spec.key, if_neg hroom]
      exact h

end Shows

/-- `cmd_buffer[0..cmd_len)`. -/
def LineEdit.line (e : LineEdit) : List UInt8 := (List.range e.cmdLen).map e.cmdBuffer

/-- The shell with its screen, the editor that it is meant to be, and the screen as it was when the last
    prompt had been printed. -/
structure Console where
  edit : LineEdit
  screen : Screen
  spec : Spec
  base : Screen

namespace Console

variable (t : Terminal)

def start (b : Buf) (screen : Screen) : Console where
  edit := shellStart b
  screen := screen.puts t prompt
  spec := Spec.start
  base := screen.puts t prompt

def turn (s : Console) (ev : Event) : Console where
  edit := (shellTurn t s.edit s.screen ev).1
  screen := (shellTurn t s.edit s.screen ev).2
  spec := s.spec.key (keyOf ev.code)
  base :=
    match keyOf ev.code with
    | .enter => (shellTurn t s.edit s.screen ev).2
    | _ => s.base

def run (s : Console) (evs : List Event) : Console := evs.foldl (turn t) s

/-- The line with the cursor behind it stays in the row of the prompt, and the commands can be counted:
    in a `size_t` when there is another one, in an `int` when the last one is recalled. -/
def Fits (s : Console) (ev : Event) : Prop :=
  match keyOf ev.code with
  | .enter => s.spec.total + 1 < 4294967296
  | k => s.base.x + (s.spec.key k).text.length < t.cols ∧ (k = .up → s.spec.total < 2147483648)

def FitsAll (s : Console) : List Event → Prop
  | [] => True
  | ev :: evs => s.Fits t ev ∧ FitsAll (s.turn t ev) evs

/-- The shell holds the line of the editor with its cursor, and the row of the prompt shows them. -/
structure Agrees (s : Console) : Prop where
  pos_le : s.edit.cmdPos ≤ s.edit.cmdLen
  len_le : s.edit.cmdLen ≤ 255
  line : s.edit.line = s.spec.text
  pos : s.edit.cmdPos = s.spec.pos
  shows : Shows s.base s.screen s.edit.line s.edit.cmdPos

/-! ### Every turn -/

structure Inv (s : Console) : Prop where
  refines : Refines s.edit s.spec
  shows : Shows s.base s.screen s.spec.text s.spec.pos
  inside : s.base.y ≤ t.bottom
  room : s.base.x + s.spec.text.length < t.cols

variable {t}

theorem Inv.agrees {s : Console} (h : s.Inv t) : s.Agrees := by
  obtain ⟨hrefines, hshows, -, -⟩ := h
  have hline : s.edit.line = s.spec.text := by
    rw [LineEdit.line, hrefines.len, List.range_eq_range']
    exact tail_eq hrefines.line 0
  constructor
  · rw [hrefines.pos, hrefines.len]
    exact hrefines.pos_le
  · rw [hrefines.len]
    exact Nat.le_of_lt_succ hrefines.good.short
  · exact hline
  · exact hrefines.pos
  · rw [hline, hrefines.pos]
    exact hshows

theorem refines_start (b : Buf) : Refines (shellStart b) Spec.start where
  line := .nil (show Function.update b 0 0 0 = 0 from Function.update_self _ _ _)
  len := rfl
  pos := rfl
  pos_le := Nat.le_refl _
  good := .nil
  count := rfl
  recent_length := rfl
  recent := fun _ h => absurd h (Nat.not_lt_zero _)
  recent_good := fun _ h => absurd h List.not_mem_nil
  draft := rfl
  draft_good := .nil
  browse := rfl
  few := by decide
  end_zero := by
    rintro (hdraft | ⟨s, hs, _⟩)
    · exact absurd (show 0 = 255 from hdraft) (by decide)
    · exact absurd hs List.not_mem_nil

theorem inv_start (b : Buf) (screen : Screen) : (start t b screen).Inv t := by
  obtain ⟨hx, hy⟩ : (screen.puts t prompt).x < t.cols ∧ (screen.puts t prompt).y ≤ t.bottom :=
    screen.puts_inside (by decide)
  exact ⟨refines_start b, .empty _, hy, hx⟩

theorem shellTurn_key {e : LineEdit} {scr : Screen} {ev : Event} (h : keyOf ev.code ≠ .enter) :
    shellTurn t e scr ev = ((e.key (keyOf ev.code)).1, scr.puts t (e.key (keyOf ev.code)).2) := by
  unfold shellTurn
  split
  · rename_i hkey
    exact absurd hkey h
  · rfl

theorem inv_turn {s : Console} (h : s.Inv t) {ev : Event} (hfits : s.Fits t ev) : (s.turn t ev).Inv t := by
  obtain ⟨hrefines, hshows, hy, hx⟩ := h
  unfold Fits at hfits
  by_cases henter : keyOf ev.code = .enter
  · simp only [henter] at hfits
    have hturn : s.turn t ev =
        ⟨s.edit.enter, (shellTurn t s.edit s.screen ev).2, s.spec.key .enter, (shellTurn t s.edit s.screen ev).2⟩ := by
      unfold turn shellTurn
      simp only [henter]
    obtain ⟨hx', hy'⟩ : (shellTurn t s.edit s.screen ev).2.x < t.cols ∧
        (shellTurn t s.edit s.screen ev).2.y ≤ t.bottom := by
      unfold shellTurn
      simp only [henter]
      exact Screen.puts_inside _ (by decide)
    rw [hturn]
    exact ⟨hrefines.enter hfits, .empty _, hy', hx'⟩
  · have hturn : s.turn t ev =
        ⟨(s.edit.key (keyOf ev.code)).1, s.screen.puts t (s.edit.key (keyOf ev.code)).2,
          s.spec.key (keyOf ev.code), s.base⟩ := by
      unfold turn
      rw [shellTurn_key henter]
      congr 1
      split
      · rename_i hkey
        exact absurd hkey henter
      · rfl
    obtain ⟨hx', hfew⟩ : s.base.x + (s.spec.key (keyOf ev.code)).text.length < t.cols ∧
        (keyOf ev.code = .up → s.spec.total < 2147483648) := by
      revert hfits
      split
      · rename_i hkey
        exact absurd hkey henter
      · exact id
    obtain ⟨hnew, hecho⟩ := hrefines.key henter hfew
    rw [hturn, hecho]
    exact ⟨hnew, hshows.key hy hrefines.pos_le hrefines.good hnew.good hx hx' henter, hy, hx'⟩

theorem inv_run {s : Console} (h : s.Inv t) {evs : List Event} (hfits : s.FitsAll t evs) : (s.run t evs).Inv t := by
  induction evs generalizing s with
  | nil => exact h
  | cons ev evs ih => exact ih (inv_turn h hfits.1) hfits.2

/-- In every run whose keys fit the shell is the editor, and its row shows the line. -/
theorem agrees_of_fits (b : Buf) (screen : Screen) {evs : List Event} (hfits : (start t b screen).FitsAll t evs) :
    ((start t b screen).run t evs).Agrees :=
  (inv_run (inv_start b screen) hfits).agrees

/-! ### The last column -/

def textMode : Terminal := ⟨80, 25, 1, 23, by decide, by decide⟩

def blank : Screen := ⟨fun _ _ => 0x20, 0, 1⟩

def press (c : Nat) : Event := ⟨c, id⟩

theorem agrees_recall :
    ((start textMode (fun _ => 0) blank).run textMode
      [press 0x61, press 0x62, press KEY_LEFT, press 0x63, press 0x0A, press KEY_UP]).Agrees := by
  refine agrees_of_fits _ _ ?_
  have hcount : 0 + 1 < 4294967296 := by decide
  have hindex : 1 < 2147483648 := by decide
  exact And.intro ⟨by decide, nofun⟩ (And.intro ⟨by decide, nofun⟩ (And.intro ⟨by decide, nofun⟩
    (And.intro ⟨by decide, nofun⟩ (And.intro hcount (And.intro ⟨by decide +kernel, fun _ => hindex⟩ trivial)))))

/-- The 72nd character fills the row, and the cursor is in the next one; a backspace takes the character
    from the line and leaves it on the screen. -/
theorem backspace_wrapped :
    let s := (start textMode (fun _ => 0) blank).run textMode (List.replicate 72 (press 0x61) ++ [press 0x08])
    s.edit.line = List.replicate 71 0x61 ∧ s.screen.cells 1 79 = 0x61 ∧ ¬s.Agrees := by
  refine ⟨by decide +kernel, by decide +kernel, fun h => ?_⟩
  have hrow : ∀ {s : Console}, s.Agrees → s.screen.y = s.base.y := by
    intro s h
    obtain ⟨f, -, hscreen⟩ := h.shows
    rw [hscreen]
    rfl
  exact absurd (hrow h) (by decide +kernel)

end Console

end Gemios.Shell
