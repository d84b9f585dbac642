import Gemios.Bytes

/-!
# Reading a text file by lines

`fgets` hands out a file line by line; a line that is too long for the buffer comes in pieces.
-/

namespace Gemios

/-- `fgets` with room for `n` characters: what it reads, and the rest of the file. -/
def fgets : Nat → List UInt8 → List UInt8 × List UInt8
  | 0, p => ([], p)
  | _, [] => ([], [])
  | n + 1, c :: p => if c = 0x0A then ([c], p) else (c :: (fgets n p).1, (fgets n p).2)

/-- The contents of a buffer of `size` characters, one after the other, in at most so many
    calls. -/
def bufLines (size : Nat) : Nat → List UInt8 → List (List UInt8)
  | _, [] => []
  | 0, _ => []
  | n + 1, text => (fgets (size - 1) text).1 :: bufLines size n (fgets (size - 1) text).2

theorem fgets_line {n : Nat} {l : List UInt8} (hl : (0x0A : UInt8) ∉ l) (hn : l.length < n)
    (rest : List UInt8) : fgets n (l ++ 0x0A :: rest) = (l ++ [0x0A], rest) := by
  induction l generalizing n with
  | nil =>
    cases n with
    | zero => cases hn
    | succ n => rfl
  | cons c l ih =>
    cases n with
    | zero => cases hn
    | succ n =>
      rw [List.mem_cons, not_or] at hl
      rw [List.cons_append, fgets, if_neg (Ne.symm hl.1), ih hl.2 (Nat.lt_of_succ_lt_succ hn)]
      rfl

theorem fgets_length {n : Nat} (hn : n ≠ 0) {p : List UInt8} (hp : p ≠ []) :
    (fgets n p).2.length < p.length := by
  induction n generalizing p with
  | zero => exact absurd rfl hn
  | succ n ih =>
    cases p with
    | nil => exact absurd rfl hp
    | cons c p =>
      rw [fgets]
      split
      · exact Nat.lt_succ_self _
      · by_cases h : n = 0 ∨ p = []
        · rcases h with rfl | rfl
          · rw [fgets]
            exact Nat.lt_succ_self _
          · cases n <;> exact Nat.lt_succ_self _
        · rw [not_or] at h
          exact Nat.lt_succ_of_lt (ih h.1 h.2)

theorem bufLines_succ (size n : Nat) (c : UInt8) (text : List UInt8) :
    bufLines size (n + 1) (c :: text) =
      (fgets (size - 1) (c :: text)).1 :: bufLines size n (fgets (size - 1) (c :: text)).2 :=
  rfl

theorem bufLines_enough {size n m : Nat} (hsize : 2 ≤ size) {text : List UInt8}
    (hn : text.length ≤ n) (hm : text.length ≤ m) :
    bufLines size n text = bufLines size m text := by
  induction n generalizing m text with
  | zero =>
    rw [List.eq_nil_of_length_eq_zero (Nat.le_zero.mp hn)]
    cases m <;> rfl
  | succ n ih =>
    cases text with
    | nil => cases m <;> rfl
    | cons c text =>
      cases m with
      | zero => cases hm
      | succ m =>
        have hlt : (fgets (size - 1) (c :: text)).2.length < (c :: text).length :=
          fgets_length (by omega) (List.cons_ne_nil c text)
        rw [bufLines_succ, bufLines_succ, ih (m := m) (by omega) (by omega)]

theorem bufLines_step {size : Nat} (hsize : 2 ≤ size) {text : List UInt8} (h : text ≠ []) :
    bufLines size text.length text =
      (fgets (size - 1) text).1 ::
        bufLines size (fgets (size - 1) text).2.length (fgets (size - 1) text).2 := by
  obtain ⟨c, text, rfl⟩ := List.exists_cons_of_ne_nil h
  have hlt : (fgets (size - 1) (c :: text)).2.length < (c :: text).length :=
    fgets_length (by omega) h
  rw [List.length_cons, bufLines_succ]
  exact congrArg _ (bufLines_enough hsize (Nat.le_of_lt_succ hlt) (Nat.le_refl _))

theorem fgets_full {l : List UInt8} (hl : (0x0A : UInt8) ∉ l) (rest : List UInt8) :
    fgets l.length (l ++ rest) = (l, rest) := by
  induction l with
  | nil => cases rest <;> rfl
  | cons c l ih =>
    rw [List.mem_cons, not_or] at hl
    rw [List.length_cons, List.cons_append, fgets, if_neg (Ne.symm hl.1), ih hl.2]

theorem bufLines_line {size : Nat} {l : List UInt8} (hsize : 2 ≤ size) (hl : (0x0A : UInt8) ∉ l)
    (hlen : l.length < size) (rest : List UInt8) :
    ∃ first, (first = [l ++ [0x0A]] ∨ first = [l, [0x0A]]) ∧
      bufLines size (l ++ 0x0A :: rest).length (l ++ 0x0A :: rest) =
        first ++ bufLines size rest.length rest := by
  have hne : l ++ 0x0A :: rest ≠ [] := by simp
  rw [bufLines_step hsize hne]
  by_cases hfit : l.length < size - 1
  · refine ⟨[l ++ [0x0A]], Or.inl rfl, ?_⟩
    rw [fgets_line hl hfit]
    rfl
  · refine ⟨[l, [0x0A]], Or.inr rfl, ?_⟩
    have hfull : size - 1 = l.length := by omega
    have hnewline : fgets l.length (0x0A :: rest) = ([0x0A], rest) :=
      fgets_line (l := []) (by simp) (by rw [List.length_nil]; omega) rest
    rw [hfull, fgets_full hl, bufLines_step hsize (List.cons_ne_nil _ _), hfull, hnewline]
    rfl

end Gemios
