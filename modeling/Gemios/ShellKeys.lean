import Gemios.ShellSpec

/-!
# The keys that edit the line

What each branch of `shell_task` does to the buffer is what the key means, and what it prints is what
the row needs.
-/

namespace Gemios.Shell

open Gemios.Vga
open Function

/-- The key does to the buffer what it means, and prints what the row needs. -/
def Follows (e : LineEdit) (a : Spec) (k : Key) : Prop :=
  Refines (e.key k).1 (a.key k) ∧ (e.key k).2 = a.echo k

theorem of_ite_ne {p : Prop} [Decidable p] {x y k : Key} (h : (if p then x else y) = k) (hx : x ≠ k) :
    y = k :=
  (ite_eq_iff.mp h).elim (fun hthen => absurd hthen.2 hx) And.right

theorem printable_of_keyOf {c : Nat} {d : UInt8} (h : keyOf c = .char d) : Printable d := by
  unfold keyOf at h
  iterate 11 replace h := of_ite_ne h Key.noConfusion
  rcases ite_eq_iff.mp h with ⟨hrange, hchar⟩ | ⟨_, hother⟩
  · obtain rfl : UInt8.ofNat c = d := Key.char.inj hchar
    unfold Printable
    rw [UInt8.toNat_ofNat']
    exact hrange
  · exact Key.noConfusion hother

namespace Refines

variable {e : LineEdit} {a : Spec}

theorem left (h : Refines e a) : Follows e a .left := by
  obtain ⟨b, cpos, clen, hist, count, idx, draft⟩ := e
  obtain rfl : cpos = a.pos := h.pos
  obtain rfl : clen = a.text.length := h.len
  have hle := h.pos_le
  unfold Follows LineEdit.key LineEdit.left Spec.key Spec.echo
  dsimp only
  by_cases hpos : a.pos > 0
  · rw [if_pos hpos, if_pos hpos]
    exact ⟨h.move rfl (by omega), rfl⟩
  · have hzero : a.pos - 1 = a.pos := by omega
    rw [if_neg hpos, if_neg hpos, hzero]
    exact ⟨h, rfl⟩

theorem right (h : Refines e a) : Follows e a .right := by
  obtain ⟨b, cpos, clen, hist, count, idx, draft⟩ := e
  obtain rfl : cpos = a.pos := h.pos
  obtain rfl : clen = a.text.length := h.len
  have hle := h.pos_le
  unfold Follows LineEdit.key LineEdit.right Spec.key Spec.echo
  dsimp only
  by_cases hlt : a.pos < a.text.length
  · have hmin : min (a.pos + 1) a.text.length = a.pos + 1 := by omega
    have hbyte := h.line.bytes a.pos hlt
    rw [Nat.zero_add] at hbyte
    rw [if_pos hlt, hmin, List.take_one, List.head?_drop, List.getElem?_eq_getElem hlt]
    exact ⟨h.move rfl hlt, congrArg (· :: []) hbyte⟩
  · have hmin : min (a.pos + 1) a.text.length = a.pos := by omega
    rw [if_neg hlt, hmin, List.drop_eq_nil_of_le (by omega)]
    exact ⟨h, rfl⟩

theorem home (h : Refines e a) : Follows e a .home :=
  ⟨h.move rfl (Nat.zero_le _), congrArg (List.replicate · 0x08) h.pos⟩

theorem stop (h : Refines e a) : Follows e a .stop := by
  have hle := h.pos_le
  refine ⟨h.move ?_ (Nat.le_refl _), ?_⟩
  · rw [h.pos, h.len]
    exact Nat.max_eq_right hle
  · show e.tail e.cmdPos = _
    rw [LineEdit.tail, h.len, h.pos, tail_eq h.line]
    rfl

theorem update_end {b : Buf} {i : Nat} (hzero : b 255 = 0) : update b i 0 255 = 0 := by
  rw [update_apply]
  split
  · rfl
  · exact hzero

theorem clear (h : Refines e a) : Follows e a .clear :=
  ⟨h.edit (.nil (update_self 0 0 _)) .nil rfl rfl (Nat.le_refl _) update_end, h.eraseEcho⟩

theorem kill (h : Refines e a) : Follows e a .kill := by
  obtain ⟨b, cpos, clen, hist, count, idx, draft⟩ := e
  obtain rfl : cpos = a.pos := h.pos
  obtain rfl : clen = a.text.length := h.len
  have hcut := h.line.cut h.pos_le
  rw [Nat.zero_add] at hcut
  have hlen : (a.text.take a.pos).length = a.pos := List.length_take_of_le h.pos_le
  have hgood : GoodText (a.text.take a.pos) :=
    h.good.of_subset (List.length_take_le' _ _) fun c hc => List.mem_of_mem_take hc
  exact ⟨h.edit hcut hgood hlen.symm rfl (Nat.le_of_eq hlen.symm) update_end, rfl⟩

theorem isStr_close {b : Buf} {text : List UInt8} (h : IsStr b 0 text) {p : Nat} (hp : p < text.length) :
    IsStr (update (copyUp b p (p + 1) (text.length - 1 - p)) (text.length - 1) 0) 0
      (text.take p ++ text.drop (p + 1)) := by
  have hnul := h.nul
  rw [Nat.zero_add] at hnul
  refine (h.erase (Nat.le_succ p) hp).congr fun i _ _ => ?_
  rw [memmove_apply, update_apply]
  by_cases hlast : i = text.length - 1
  · rw [if_pos hlast, if_pos (by omega), ← hnul]
    congr 1
    omega
  · rw [if_neg hlast, copyUp_apply (Nat.lt_succ_self p)]
    by_cases hin : p ≤ i ∧ i < p + (text.length - 1 - p)
    · rw [if_pos hin, if_pos (by omega)]
      congr 1
      omega
    · rw [if_neg hin, if_neg (by omega)]

theorem goodText_close (h : Refines e a) (p : Nat) : GoodText (a.text.take p ++ a.text.drop (p + 1)) := by
  refine h.good.of_subset ?_ fun c hc => ?_
  · rw [List.length_append, List.length_take, List.length_drop]
    omega
  · exact (List.mem_append.mp hc).elim List.mem_of_mem_take List.mem_of_mem_drop

theorem close_end (h : Refines e a) {p : Nat} (hp : p < a.text.length) (hzero : e.cmdBuffer 255 = 0) :
    update (copyUp e.cmdBuffer p (p + 1) (a.text.length - 1 - p)) (a.text.length - 1) 0 255 = 0 := by
  have hshort : a.text.length < 256 := h.good.short
  rw [update_apply]
  split
  · rfl
  · rw [copyUp_apply (Nat.lt_succ_self p), if_neg (by omega)]
    exact hzero

theorem tail_close {b : Buf} {text : List UInt8} (h : IsStr b 0 text) {p : Nat} (hp : p < text.length) :
    (List.range' p (text.length - 1 - p)).map
      (update (copyUp b p (p + 1) (text.length - 1 - p)) (text.length - 1) 0) =
        text.drop (p + 1) := by
  have hfront : (text.take p).length = p := List.length_take_of_le (Nat.le_of_lt hp)
  have hlen : (text.take p ++ text.drop (p + 1)).length = text.length - 1 := by
    rw [List.length_append, hfront, List.length_drop]
    omega
  have htail := tail_eq (isStr_close h hp) p
  rw [hlen] at htail
  rw [htail, List.drop_append_of_le_length (Nat.le_of_eq hfront.symm), List.drop_eq_nil_of_le (Nat.le_of_eq hfront),
    List.nil_append]

theorem delete (h : Refines e a) : Follows e a .delete := by
  obtain ⟨b, cpos, clen, hist, count, idx, draft⟩ := e
  obtain rfl : cpos = a.pos := h.pos
  obtain rfl : clen = a.text.length := h.len
  have hle := h.pos_le
  unfold Follows LineEdit.key LineEdit.delete LineEdit.tail Spec.key Spec.echo
  dsimp only
  by_cases hlt : a.pos < a.text.length
  · have hlen : (a.text.take a.pos ++ a.text.drop (a.pos + 1)).length = a.text.length - 1 := by
      rw [List.length_append, List.length_take_of_le hle, List.length_drop]
      omega
    have hback : a.text.length - 1 + 1 - a.pos = a.text.length - a.pos := by omega
    rw [if_pos hlt, if_pos hlt, tail_close h.line hlt, hback]
    exact ⟨h.edit (isStr_close h.line hlt) (h.goodText_close a.pos) hlen.symm rfl (by omega)
      (h.close_end hlt), rfl⟩
  · have hsame : a.text.take a.pos ++ a.text.drop (a.pos + 1) = a.text := by
      rw [List.take_of_length_le (by omega), List.drop_eq_nil_of_le (by omega), List.append_nil]
    rw [if_neg hlt, if_neg hlt, hsame]
    exact ⟨h, rfl⟩

theorem backspace (h : Refines e a) : Follows e a .backspace := by
  obtain ⟨b, cpos, clen, hist, count, idx, draft⟩ := e
  obtain rfl : cpos = a.pos := h.pos
  obtain rfl : clen = a.text.length := h.len
  have hle := h.pos_le
  unfold Follows LineEdit.key LineEdit.backspace LineEdit.tail Spec.key Spec.echo
  dsimp only
  cases hpos : a.pos with
  | zero =>
    rw [if_neg (Nat.lt_irrefl 0), if_neg (Nat.lt_irrefl 0)]
    refine ⟨?_, rfl⟩
    have hmove := h.move hpos (Nat.zero_le _)
    rw [hpos] at hmove
    exact hmove
  | succ p =>
    have hplt : p < a.text.length := by omega
    have hlen : (a.text.take p ++ a.text.drop (p + 1)).length = a.text.length - 1 := by
      rw [List.length_append, List.length_take_of_le (by omega), List.length_drop]
      omega
    have hedit := h.edit (isStr_close h.line hplt) (h.goodText_close p) hlen.symm (Eq.refl p) (by omega)
      (h.close_end hplt)
    rw [if_pos (Nat.succ_pos p), if_pos (Nat.succ_pos p), Nat.add_sub_cancel]
    by_cases hend : p + 1 = a.text.length
    · -- Nothing is behind the cursor, and nothing is moved.
      have hturns : a.text.length - 1 - p = 0 := by omega
      rw [hturns] at hedit
      rw [if_pos hend, List.drop_eq_nil_of_le (Nat.le_of_eq hend.symm), hend, Nat.sub_self]
      rw [List.drop_eq_nil_of_le (Nat.le_of_eq hend.symm)] at hedit
      exact ⟨hedit, rfl⟩
    · have hturns : a.text.length - (p + 1) = a.text.length - 1 - p := by omega
      have hback : a.text.length - 1 + 1 - p = a.text.length - 1 - p + 1 := by omega
      rw [if_neg hend, hturns, tail_close h.line hplt, hback]
      exact ⟨hedit, rfl⟩

theorem isStr_open {b : Buf} {text : List UInt8} (h : IsStr b 0 text) {p : Nat} (hp : p ≤ text.length)
    {c : UInt8} (hc : c ≠ 0) :
    IsStr (update (update (copyDown b (p + 1) p (text.length - p)) p c) (text.length + 1) 0) 0
      (text.take p ++ c :: text.drop p) := by
  have hnul := h.nul
  rw [Nat.zero_add] at hnul
  have hinsert := h.insert hp hc
  rw [Nat.zero_add] at hinsert
  refine hinsert.congr fun i _ _ => ?_
  rw [update_apply, update_apply, update_apply, memmove_apply,
    copyDown_apply (Nat.le_succ p)]
  by_cases hlast : i = text.length + 1
  · have hback : p + (i - (p + 1)) = text.length := by omega
    rw [if_pos hlast, if_neg (by omega), if_pos (by omega), hback, hnul]
  · have hin : (p + 1 ≤ i ∧ i < p + 1 + (text.length - p)) ↔
        (p + 1 ≤ i ∧ i < p + 1 + (text.length - p + 1)) := by omega
    simp only [if_neg hlast, hin]

theorem goodText_open (h : Refines e a) (p : Nat) {c : UInt8} (hc : Printable c)
    (hroom : a.text.length < CMD_BUFFER_SIZE - 1) : GoodText (a.text.take p ++ c :: a.text.drop p) := by
  constructor
  · rw [List.length_append, List.length_cons, List.length_take, List.length_drop]
    unfold CMD_BUFFER_SIZE at hroom ⊢
    omega
  · intro d hd
    rcases List.mem_append.mp hd with hd | hd
    · exact h.good.printable d (List.mem_of_mem_take hd)
    · rcases List.mem_cons.mp hd with rfl | hd
      · exact hc
      · exact h.good.printable d (List.mem_of_mem_drop hd)

theorem open_end {b : Buf} {len p : Nat} (hp : p ≤ len) (hroom : len < CMD_BUFFER_SIZE - 1) {c : UInt8}
    (hzero : b 255 = 0) :
    update (update (copyDown b (p + 1) p (len - p)) p c) (len + 1) 0 255 = 0 := by
  have hlen : len < 255 := hroom
  refine update_end ?_
  rw [update_of_ne (by omega), copyDown_apply (Nat.le_succ p), if_neg (by omega)]
  exact hzero

theorem char (h : Refines e a) {c : UInt8} (hc : Printable c) : Follows e a (.char c) := by
  obtain ⟨b, cpos, clen, hist, count, idx, draft⟩ := e
  obtain rfl : cpos = a.pos := h.pos
  obtain rfl : clen = a.text.length := h.len
  have hle := h.pos_le
  have hne : c ≠ 0 := by
    rintro rfl
    exact absurd hc.1 (by decide)
  unfold Follows LineEdit.key LineEdit.char LineEdit.tail Spec.key Spec.echo
  dsimp only
  by_cases hroom : a.text.length < CMD_BUFFER_SIZE - 1
  · have hlen : (a.text.take a.pos ++ c :: a.text.drop a.pos).length = a.text.length + 1 := by
      rw [List.length_append, List.length_take_of_le hle, List.length_cons, List.length_drop]
      omega
    have hopen := isStr_open h.line hle hne
    have hedit := h.edit hopen (h.goodText_open a.pos hc hroom) hlen.symm (Eq.refl (a.pos + 1)) (by omega)
      (open_end hle hroom)
    rw [if_pos hroom, if_pos hroom, if_pos hroom]
    by_cases hend : a.pos = a.text.length
    · -- Nothing is behind the cursor, and nothing is moved.
      have hturns : a.text.length - a.pos = 0 := by omega
      have hdrop : a.text.drop a.pos = [] := List.drop_eq_nil_of_le (Nat.le_of_eq hend.symm)
      rw [hturns] at hedit
      rw [if_pos hend, hturns, hdrop, ← hend]
      rw [hdrop, ← hend] at hedit
      exact ⟨hedit, rfl⟩
    · have hfront : (a.text.take a.pos).length = a.pos := List.length_take_of_le hle
      have htail := tail_eq hopen a.pos
      rw [hlen, List.drop_append_of_le_length (Nat.le_of_eq hfront.symm),
        List.drop_eq_nil_of_le (Nat.le_of_eq hfront), List.nil_append] at htail
      have hback : a.text.length + 1 - (a.pos + 1) = a.text.length - a.pos := by omega
      rw [if_neg hend, htail, hback]
      exact ⟨hedit, rfl⟩
  · rw [if_neg hroom, if_neg hroom, if_neg hroom]
    exact ⟨h, rfl⟩

end Refines

end Gemios.Shell
