import Mathlib.Data.List.Basic
import Mathlib.Data.List.Induction

/-!
# Lines and separators

A text is lines that each end with a separator, and a last one that does not.  Lines are written
with separators between them; when there are too many or too long ones, they are cut.
-/

namespace Gemios.Lines

variable {α : Type} {sep : α}

def terminate (sep : α) (ls : List (List α)) : List α := ls.flatMap fun l => l ++ [sep]

def join (sep : α) : List (List α) → List α
  | [] => []
  | [l] => l
  | l :: ls => l ++ sep :: join sep ls

/-- At most `n` lines, with at most `m` items each. -/
def cut (n m : Nat) (ls : List (List α)) : List (List α) := (ls.take n).map (List.take m)

theorem terminate_cons (l : List α) (ls : List (List α)) :
    terminate sep (l :: ls) = l ++ sep :: terminate sep ls := by
  simp [terminate]

theorem join_concat (ls : List (List α)) (l : List α) :
    join sep (ls ++ [l]) = terminate sep ls ++ l := by
  induction ls with
  | nil => rfl
  | cons l' ls ih =>
    obtain ⟨x, xs, hxs⟩ : ∃ x xs, ls ++ [l] = x :: xs := by
      cases ls with
      | nil => exact ⟨l, [], rfl⟩
      | cons y ys => exact ⟨y, ys ++ [l], rfl⟩
    rw [List.cons_append, hxs, join, ← hxs, ih, terminate_cons, List.append_assoc, List.cons_append]
    simp

theorem exists_terminate [DecidableEq α] (sep : α) (xs : List α) :
    ∃ ls l, xs = terminate sep ls ++ l ∧ (∀ l' ∈ ls, sep ∉ l') ∧ sep ∉ l := by
  induction xs with
  | nil => exact ⟨[], [], rfl, by simp, by simp⟩
  | cons x xs ih =>
    obtain ⟨ls, l, rfl, hls, hl⟩ := ih
    by_cases hx : x = sep
    · refine ⟨[] :: ls, l, ?_, by simpa using hls, hl⟩
      rw [hx, terminate_cons]
      rfl
    · cases ls with
      | nil => exact ⟨[], x :: l, rfl, by simp, by simp [Ne.symm hx, hl]⟩
      | cons l' ls =>
        refine ⟨(x :: l') :: ls, l, ?_, ?_, hl⟩
        · rw [terminate_cons, terminate_cons]
          rfl
        · intro l'' hl''
          rcases List.mem_cons.mp hl'' with rfl | hmem
          · simp [Ne.symm hx, hls l' List.mem_cons_self]
          · exact hls l'' (List.mem_cons_of_mem _ hmem)

/-! ### Lengths -/

theorem length_terminate_cons (l : List α) (ls : List (List α)) :
    (terminate sep (l :: ls)).length = l.length + 1 + (terminate sep ls).length := by
  rw [terminate_cons, List.length_append, List.length_cons]
  omega

theorem length_join (sep : α) {ls : List (List α)} (h : ls ≠ []) :
    (join sep ls).length + 1 = (terminate sep ls).length := by
  obtain ⟨front, l, rfl⟩ := List.eq_nil_or_concat' ls |>.resolve_left h
  rw [join_concat]
  simp [terminate]
  omega

theorem cut_cons (n m : Nat) (l : List α) (ls : List (List α)) :
    cut (n + 1) m (l :: ls) = l.take m :: cut n m ls := rfl

theorem cut_ne_nil {n m : Nat} {ls : List (List α)} (hn : n ≠ 0) (h : ls ≠ []) : cut n m ls ≠ [] := by
  simp [cut, hn, h]

theorem cut_eq_self {n m : Nat} {ls : List (List α)} (hn : ls.length ≤ n)
    (hm : ∀ l ∈ ls, l.length ≤ m) : cut n m ls = ls := by
  rw [cut, List.take_of_length_le hn]
  exact (List.map_congr_left fun l hl => List.take_of_length_le (hm l hl)).trans (List.map_id' ls)

theorem length_terminate_cut (sep : α) (n m : Nat) (ls : List (List α)) :
    (terminate sep (cut n m ls)).length ≤ (terminate sep ls).length ∧
      ((terminate sep (cut n m ls)).length = (terminate sep ls).length →
        ls.length ≤ n ∧ ∀ l ∈ ls, l.length ≤ m) := by
  induction ls generalizing n with
  | nil => simp [cut]
  | cons l ls ih =>
    cases n with
    | zero =>
      have hnil : terminate sep (cut 0 m (l :: ls)) = [] := rfl
      rw [hnil, length_terminate_cons, List.length_nil]
      omega
    | succ n =>
      obtain ⟨hle, heq⟩ := ih n
      have htake : (l.take m).length = min m l.length := List.length_take
      rw [cut_cons, length_terminate_cons, length_terminate_cons, htake]
      refine ⟨by omega, fun h => ?_⟩
      obtain ⟨hlen, hshort⟩ := heq (by omega)
      refine ⟨Nat.succ_le_succ hlen, fun l' hl' => ?_⟩
      rcases List.mem_cons.mp hl' with rfl | hmem
      · omega
      · exact hshort l' hmem

end Gemios.Lines
