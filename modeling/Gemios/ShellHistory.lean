import Gemios.ShellKeys

/-!
# The keys that go through the history

Up and Down put a command that is remembered, or the draft, into the line; Enter remembers one.  With
these every key does what it means.
-/

namespace Gemios.Shell

open Gemios.Vga
open Function

namespace Refines

variable {e : LineEdit} {a : Spec}

/-! ### Browsing -/

theorem recent_le (h : Refines e a) : a.recent.length ≤ a.total := by
  rw [h.recent_length]
  exact Nat.min_le_left _ _

theorem count_pos_iff (h : Refines e a) : e.historyCount > 0 ↔ a.recent ≠ [] := by
  have hlen := h.recent_length
  unfold HISTORY_SIZE at hlen
  rw [h.count, ← List.length_pos_iff]
  omega

theorem last_index (h : Refines e a) (hfew : a.total < 2147483648) :
    toInt (toInt e.historyCount - 1) = (a.total : Int) - 1 := by
  have htotal : toInt a.total = a.total := toInt_of_lt (by omega) (by omega)
  rw [h.count, htotal, toInt_of_lt (by omega) (by omega)]

theorem terminate (h : Refines e a) :
    Refines { e with cmdBuffer := update e.cmdBuffer e.cmdLen 0 } a ∧
      (a.text.length = 255 → update e.cmdBuffer e.cmdLen 0 255 = 0) := by
  have hline := h.line.cut (Nat.le_refl _)
  rw [Nat.zero_add, List.take_length, ← h.len] at hline
  refine ⟨h.edit hline h.good h.len h.pos h.pos_le update_end, fun hfull => ?_⟩
  rw [h.len, hfull, update_self]

theorem keepDraft (h : Refines e a) :
    Refines
      { e with
        cmdBuffer := update e.cmdBuffer e.cmdLen 0
        currentDraft := strOf (update e.cmdBuffer e.cmdLen 0) (CMD_BUFFER_SIZE - 1) }
      { a with draft := a.text } := by
  obtain ⟨hnul, hfull⟩ := h.terminate
  exact
    { hnul with
      draft := strOf_eq hnul.line (Nat.le_of_lt_succ h.good.short)
      draft_good := h.good
      end_zero := fun hlong => hlong.elim hfull fun hrecent => hnul.end_zero (.inr hrecent) }

theorem recalled (h : Refines e a) {k : Nat} (hk : a.browse = some k) :
    Refines (e.setLine e.entryAt).1 (a.setText (a.recent.getD k [])) ∧
      (e.setLine e.entryAt).2 = a.recent.getD k [] := by
  obtain ⟨s, hs, hget, hentry⟩ := h.entryAt hk
  rw [hentry, hget]
  exact h.setLine (h.recent_good s hs) fun hfull => h.end_zero (.inr ⟨s, hs, hfull⟩)

theorem up (h : Refines e a) (hfew : a.total < 2147483648) : Follows e a .up := by
  by_cases hnil : a.recent = []
  · have hcount : ¬e.historyCount > 0 := fun hpos => h.count_pos_iff.mp hpos hnil
    unfold Follows LineEdit.key LineEdit.up Spec.key Spec.echo
    dsimp only
    rw [if_neg hcount, if_pos hnil, if_pos hnil]
    exact ⟨h, rfl⟩
  · have hcount : e.historyCount > 0 := h.count_pos_iff.mpr hnil
    have hlen : 0 < a.recent.length := List.length_pos_iff.mpr hnil
    have hle := h.recent_le
    have hbrowse := h.browse
    unfold Follows Spec.echo Spec.key LineEdit.key LineEdit.up
    dsimp only
    rw [if_pos hcount, if_neg hnil, if_neg hnil]
    cases hb : a.browse with
    | none =>
      rw [hb] at hbrowse
      have hlast := h.last_index hfew
      have holder : a.older = 0 := by rw [Spec.older, hb]
      have hnext := h.keepDraft.reindex (some 0) (toInt (toInt e.historyCount - 1))
        ⟨hlen, hfew, by rw [hlast]; exact (Int.sub_zero _).symm⟩
      obtain ⟨hline, hecho⟩ := hnext.recalled rfl
      rw [if_pos hbrowse, holder, if_pos rfl, hecho, hnext.eraseEcho]
      exact ⟨hline, rfl⟩
    | some k =>
      rw [hb] at hbrowse
      obtain ⟨hk, _, hidx⟩ := hbrowse
      have hne : e.historyBrowseIdx ≠ -1 := by omega
      have holdest : toInt e.oldest = (a.total : Int) - a.recent.length := by
        rw [h.oldest, toInt_of_lt (by omega) (by omega)]
        omega
      rw [if_neg hne, if_neg (Option.some_ne_none k)]
      by_cases hlast : k + 1 < a.recent.length
      · have holder : a.older = k + 1 := by
          rw [Spec.older, hb]
          exact if_pos hlast
        have hnext := h.reindex (some (k + 1)) (e.historyBrowseIdx - 1) ⟨hlast, hfew, by omega⟩
        obtain ⟨hline, hecho⟩ := hnext.recalled rfl
        rw [if_pos (by omega), holder, hecho, hnext.eraseEcho]
        exact ⟨hline, rfl⟩
      · have holder : a.older = k := by
          rw [Spec.older, hb]
          exact if_neg hlast
        obtain ⟨hline, hecho⟩ := h.recalled hb
        rw [if_neg (by omega), holder, hecho, h.eraseEcho, ← hb]
        exact ⟨hline, rfl⟩

theorem down (h : Refines e a) : Follows e a .down := by
  obtain ⟨b, cpos, clen, hist, count, idx, draft⟩ := e
  obtain rfl : draft = a.draft := h.draft
  have hbrowse := h.browse
  have hle := h.recent_le
  unfold Follows Spec.echo Spec.key LineEdit.key LineEdit.down
  cases hb : a.browse with
  | none =>
    rw [hb] at hbrowse
    dsimp only
    rw [if_neg (not_not.mpr hbrowse), if_pos rfl]
    exact ⟨h, rfl⟩
  | some k =>
    rw [hb] at hbrowse
    obtain ⟨hk, hfew, hidx⟩ := hbrowse
    have hlast := h.last_index hfew
    dsimp only at hidx hlast ⊢
    have hne : idx ≠ -1 := by omega
    rw [if_pos hne, if_neg (Option.some_ne_none k), hlast, h.eraseEcho]
    cases k with
    | zero =>
      have hnext := h.reindex none (-1) rfl
      obtain ⟨hline, hecho⟩ := hnext.setLine h.draft_good fun hfull => h.end_zero (.inl hfull)
      rw [if_neg (by omega), hecho]
      exact ⟨hline, rfl⟩
    | succ k =>
      have hnext := h.reindex (some k) (idx + 1) ⟨by omega, hfew, by omega⟩
      obtain ⟨hline, hecho⟩ := hnext.recalled rfl
      rw [if_pos (by omega), hecho]
      exact ⟨hline, rfl⟩

theorem key (h : Refines e a) {c : Nat} (hc : keyOf c ≠ .enter)
    (hfew : keyOf c = .up → a.total < 2147483648) : Follows e a (keyOf c) := by
  cases hkey : keyOf c with
  | enter => exact absurd hkey hc
  | up => exact h.up (hfew hkey)
  | down => exact h.down
  | left => exact h.left
  | right => exact h.right
  | home => exact h.home
  | stop => exact h.stop
  | clear => exact h.clear
  | kill => exact h.kill
  | backspace => exact h.backspace
  | delete => exact h.delete
  | char d => exact h.char (printable_of_keyOf hkey)
  | other => exact ⟨h, rfl⟩

/-! ### Enter -/

theorem expand_cases (count : Nat) (get : Nat → Option (List UInt8)) (cmd : List UInt8) :
    ∃ s, expand count get cmd = s.take (CMD_BUFFER_SIZE - 1) ∧ (s = [] ∨ s = cmd ∨ ∃ i, get i = some s) := by
  have hget : ∀ i, (get i).getD [] = [] ∨ ∃ j, get j = some ((get i).getD []) := by
    intro i
    cases hi : get i with
    | none => exact .inl rfl
    | some s => exact .inr ⟨i, hi⟩
  refine ⟨_, rfl, ?_⟩
  dsimp only
  split
  · split
    · exact (hget _).imp_right .inr
    · split
      · exact (hget _).imp_right .inr
      · exact .inl rfl
  · exact .inr (.inl rfl)

theorem mem_of_get {i : Nat} {s : List UInt8} (hs : a.get i = some s) : s ∈ a.recent := by
  unfold Spec.get at hs
  split at hs
  · exact List.mem_of_getElem? hs
  · cases hs

theorem expand_good (h : Refines e a) : GoodText (expand a.total a.get a.text) ∧
    ((expand a.total a.get a.text).length = 255 → a.text.length = 255 ∨ ∃ s ∈ a.recent, s.length = 255) := by
  obtain ⟨s, hexpand, hs⟩ := expand_cases a.total a.get a.text
  have hgood : GoodText s := by
    rcases hs with rfl | rfl | ⟨i, hi⟩
    · exact .nil
    · exact h.good
    · exact h.recent_good s (mem_of_get hi)
  have hall : s.take (CMD_BUFFER_SIZE - 1) = s := List.take_of_length_le (Nat.le_of_lt_succ hgood.short)
  rw [hexpand, hall]
  refine ⟨hgood, fun hfull => ?_⟩
  rcases hs with rfl | rfl | ⟨i, hi⟩
  · exact absurd hfull (by decide)
  · exact .inl hfull
  · exact .inr ⟨s, mem_of_get hi, hfull⟩

theorem historyAdd_cmdBuffer (e : LineEdit) (cmd : List UInt8) : (e.historyAdd cmd).cmdBuffer = e.cmdBuffer := by
  unfold LineEdit.historyAdd
  split
  · rfl
  · split
    · rfl
    · rfl

theorem settle (h : Refines e a) :
    Refines { e with historyBrowseIdx := -1, currentDraft := [] } { a with browse := none, draft := [] } :=
  { h.reindex none (-1) rfl with
    draft := rfl
    draft_good := .nil
    end_zero := fun hlong => hlong.elim (fun hdraft => absurd (show 0 = 255 from hdraft) (by decide))
      fun hrecent => h.end_zero (.inr hrecent) }

theorem enter (h : Refines e a) (hfew : a.total + 1 < 4294967296) : Refines e.enter (a.key .enter) := by
  obtain ⟨hnul, hend⟩ := h.terminate
  obtain ⟨text, pos, recent, total, browse, draft⟩ := a
  unfold LineEdit.enter Spec.key
  dsimp only
  by_cases hnil : text = []
  · obtain rfl : text = [] := hnil
    obtain rfl : pos = 0 := Nat.le_zero.mp h.pos_le
    have hlen : e.cmdLen = 0 := h.len
    rw [if_neg (by omega), if_pos rfl]
    unfold Spec.remember
    rw [if_pos (.inl rfl)]
    exact hnul.settle
  · have hlen : e.cmdLen > 0 := by
      rw [h.len]
      exact List.length_pos_iff.mpr hnil
    obtain ⟨hgood, hlong⟩ := h.expand_good
    have hexpand : expand e.historyCount
        (LineEdit.historyGet { e with cmdBuffer := update e.cmdBuffer e.cmdLen 0 })
        (strOf (update e.cmdBuffer e.cmdLen 0) CMD_BUFFER_SIZE) =
          expand total (Spec.get ⟨text, pos, recent, total, browse, draft⟩) text := by
      rw [funext hnul.historyGet, strOf_eq hnul.line (Nat.le_of_lt h.good.short), h.count]
    rw [if_pos hlen, if_neg hnil, hexpand]
    have hadd := hnul.historyAdd hgood (fun hfull => (hlong hfull).elim hend fun hrecent =>
      hnul.end_zero (.inr hrecent)) hfew
    have hempty := hadd.edit (.nil (update_self 0 0 _)) .nil rfl rfl (Nat.le_refl _) update_end
    rw [historyAdd_cmdBuffer] at hempty
    exact hempty.settle

end Refines

end Gemios.Shell
