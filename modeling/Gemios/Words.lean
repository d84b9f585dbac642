import Mathlib.Algebra.GroupWithZero.Nat
import Mathlib.Algebra.Order.BigOperators.Group.List
import Mathlib.Algebra.Order.Group.Nat
import Mathlib.Data.List.Basic

/-!
# Words

The words of a text are its pieces between separators that are not empty.  Pieces that are
joined with separators have the words of the pieces.  `joinLoose` leaves out the separator
after an empty beginning, so that it joins like `List.intercalate` only when the first of
several pieces is not empty.
-/

namespace Gemios

variable {α β : Type} {sep : α → Bool} {s : α}

def words (sep : α → Bool) (p : List α) : List (List α) :=
  (p.splitOnP sep).filter fun w => !w.isEmpty

/-- A word has a character, and none of them is a separator. -/
structure IsWord (sep : α → Bool) (w : List α) : Prop where
  ne_nil : w ≠ []
  free : ∀ c ∈ w, sep c = false

theorem words_nil : words sep [] = [] := by
  rw [words, List.splitOnP_nil]
  rfl

theorem words_append_sep (hs : sep s = true) (p q : List α) :
    words sep (p ++ s :: q) = words sep p ++ words sep q := by
  unfold words
  rw [List.splitOnP_append_cons p q hs, List.filter_append]

theorem words_cons_sep (hs : sep s = true) (q : List α) : words sep (s :: q) = words sep q := by
  have h := words_append_sep hs [] q
  rw [words_nil] at h
  exact h

theorem IsWord.words_eq {w : List α} (hw : IsWord sep w) : words sep w = [w] := by
  cases w with
  | nil => exact absurd rfl hw.ne_nil
  | cons c w =>
    rw [words, List.splitOnP_eq_singleton hw.free]
    rfl

theorem words_dropWhile (p : List α) : words sep (p.dropWhile sep) = words sep p := by
  induction p with
  | nil => rfl
  | cons c p ih =>
    cases hc : sep c with
    | true => rw [List.dropWhile_cons_of_pos hc, ih, words_cons_sep hc]
    | false => rw [List.dropWhile_cons_of_neg (by simp [hc])]

theorem words_first {c : α} (hc : sep c = false) (p : List α) :
    IsWord sep ((c :: p).takeWhile fun c => !sep c) ∧
      words sep (c :: p) = (c :: p).takeWhile (fun c => !sep c) ::
        words sep ((c :: p).dropWhile fun c => !sep c) := by
  have hword : IsWord sep ((c :: p).takeWhile fun c => !sep c) := by
    refine ⟨?_, fun d hd => ?_⟩
    · rw [List.takeWhile_cons_of_pos (by simp [hc])]
      simp
    · have hd' : (!sep d) = true := List.all_eq_true.mp List.all_takeWhile d hd
      simpa using hd'
  refine ⟨hword, ?_⟩
  have hsplit := (List.takeWhile_append_dropWhile (p := fun c => !sep c) (l := c :: p)).symm
  cases hrest : (c :: p).dropWhile fun c => !sep c with
  | nil =>
    rw [hrest, List.append_nil] at hsplit
    rw [words_nil, ← hword.words_eq, ← hsplit]
  | cons d q =>
    have hd : sep d = true := by
      have hhead := List.head?_dropWhile_not (fun c => !sep c) (c :: p)
      rw [hrest] at hhead
      simpa using hhead
    rw [hrest] at hsplit
    rw [words_cons_sep hd]
    conv_lhs => rw [hsplit]
    rw [words_append_sep hd, hword.words_eq]
    rfl

/-! ### Pieces that are joined -/

theorem intercalate_eq (s : α) (x : List α) (xs : List (List α)) :
    List.intercalate [s] (x :: xs) = x ++ xs.flatMap (s :: ·) := by
  induction xs generalizing x with
  | nil => simp [List.intercalate]
  | cons y ys ih =>
    have hcons : List.intercalate [s] (x :: y :: ys) = x ++ s :: List.intercalate [s] (y :: ys) := by
      simp [List.intercalate]
    rw [hcons, ih, List.flatMap_cons, List.cons_append]

/-- The pieces with a separator before each that does not come to an empty beginning. -/
def joinLoose (s : α) (acc : List α) (xs : List (List α)) : List α :=
  xs.foldl (fun acc x => (if acc.length > 0 then acc ++ [s] else acc) ++ x) acc

theorem joinLoose_of_ne_nil (s : α) {acc : List α} (h : acc ≠ []) (xs : List (List α)) :
    joinLoose s acc xs = acc ++ xs.flatMap (s :: ·) := by
  induction xs generalizing acc with
  | nil => simp [joinLoose]
  | cons x xs ih =>
    have hpos : acc.length > 0 := List.length_pos_iff.mpr h
    have hne : acc ++ [s] ++ x ≠ [] := by simp
    have hnext := ih hne
    dsimp only [joinLoose, List.foldl_cons] at hnext ⊢
    rw [if_pos hpos, hnext]
    simp

theorem joinLoose_nil_cons (s : α) (x : List α) (xs : List (List α)) :
    joinLoose s [] (x :: xs) = joinLoose s x xs := rfl

theorem joinLoose_eq_intercalate (s : α) {x : List α} (h : x ≠ []) (xs : List (List α)) :
    joinLoose s [] (x :: xs) = List.intercalate [s] (x :: xs) := by
  rw [joinLoose_nil_cons, joinLoose_of_ne_nil s h, intercalate_eq]

theorem length_joinLoose_le (s : α) (xs : List (List α)) :
    (joinLoose s [] xs).length ≤ (List.intercalate [s] xs).length := by
  induction xs with
  | nil => simp [joinLoose]
  | cons x xs ih =>
    cases x with
    | cons c x => rw [joinLoose_eq_intercalate s (by simp)]
    | nil =>
      rw [joinLoose_nil_cons]
      cases xs with
      | nil => simp [joinLoose]
      | cons y ys =>
        rw [intercalate_eq, List.flatMap_cons]
        rw [intercalate_eq] at ih
        simp only [List.nil_append, List.cons_append, List.length_cons]
        omega

theorem joinLoose_eq_iff (s : α) (xs : List (List α)) :
    joinLoose s [] xs = List.intercalate [s] xs ↔ xs.length ≤ 1 ∨ xs.head? ≠ some [] := by
  cases xs with
  | nil => simp [joinLoose]
  | cons x xs =>
    cases x with
    | cons c x => simp [joinLoose_eq_intercalate]
    | nil =>
      cases xs with
      | nil => simp [joinLoose]
      | cons y ys =>
        have hle := length_joinLoose_le s (y :: ys)
        have hlong : (List.intercalate [s] ([] :: y :: ys)).length =
            (List.intercalate [s] (y :: ys)).length + 1 := by
          rw [intercalate_eq, intercalate_eq]
          simp
        refine ⟨fun h => ?_, fun h => ?_⟩
        · rw [joinLoose_nil_cons] at h
          have hlen := congrArg List.length h
          omega
        · simp at h

theorem words_flatMap (hs : sep s = true) (xs : List (List α)) :
    words sep (xs.flatMap (s :: ·)) = xs.flatMap (words sep) := by
  induction xs with
  | nil => exact words_nil
  | cons x xs ih =>
    cases xs with
    | nil =>
      simp only [List.flatMap_cons, List.flatMap_nil, List.append_nil]
      exact words_cons_sep hs x
    | cons y ys =>
      simp only [List.flatMap_cons, List.cons_append] at ih ⊢
      rw [words_cons_sep hs, words_append_sep hs]
      rw [words_cons_sep hs] at ih
      rw [ih]

theorem words_intercalate (hs : sep s = true) (xs : List (List α)) :
    words sep (List.intercalate [s] xs) = xs.flatMap (words sep) := by
  cases xs with
  | nil => exact words_nil
  | cons x xs =>
    have hcons := words_flatMap hs (x :: xs)
    rw [List.flatMap_cons, List.cons_append, words_cons_sep hs] at hcons
    rw [intercalate_eq, hcons]

theorem words_joinLoose (hs : sep s = true) (xs : List (List α)) :
    words sep (joinLoose s [] xs) = xs.flatMap (words sep) := by
  induction xs with
  | nil => exact words_nil
  | cons x xs ih =>
    cases x with
    | cons c x => rw [joinLoose_eq_intercalate s (by simp), words_intercalate hs]
    | nil => rw [joinLoose_nil_cons, ih, List.flatMap_cons, words_nil, List.nil_append]

theorem flatten_words (p : List α) : (words sep p).flatten = p.filter fun c => !sep c := by
  have hsplit : ∀ p : List α, (p.splitOnP sep).flatten = p.filter fun c => !sep c := by
    intro p
    induction p with
    | nil => simp
    | cons c p ih =>
      rw [List.splitOnP_cons_eq_if_modifyHead]
      cases hc : sep c with
      | true => simp [hc, ih]
      | false =>
        obtain ⟨w, ws, hw⟩ := List.exists_cons_of_ne_nil (List.splitOnP_ne_nil sep p)
        rw [hw] at ih ⊢
        simp only [List.flatten_cons] at ih
        simp [hc, ih]
  have hfilter : ∀ ws : List (List α), (ws.filter fun w => !w.isEmpty).flatten = ws.flatten := by
    intro ws
    induction ws with
    | nil => rfl
    | cons w ws ih =>
      cases w with
      | nil => simp [ih]
      | cons c w => simp [ih]
  rw [words, hfilter, hsplit]

theorem length_intercalate (s : α) (xs : List (List α)) :
    (List.intercalate [s] xs).length = (xs.map List.length).sum + (xs.length - 1) := by
  cases xs with
  | nil => rfl
  | cons x xs =>
    have hflat : (xs.flatMap (s :: ·)).length = (xs.map List.length).sum + xs.length := by
      induction xs with
      | nil => rfl
      | cons y ys ih =>
        rw [List.flatMap_cons, List.length_append, ih]
        simp only [List.length_cons, List.map_cons, List.sum_cons]
        omega
    rw [intercalate_eq, List.length_append, hflat]
    simp only [List.map_cons, List.sum_cons, List.length_cons]
    omega

theorem length_lt_of_words_eq {r t : List α} (h : words sep r = [t]) (hne : t ≠ r) :
    t.length < r.length := by
  have hflat : (words sep r).flatten = r.filter fun c => !sep c := flatten_words r
  rw [h, List.flatten_cons, List.flatten_nil, List.append_nil] at hflat
  have hle : t.length ≤ r.length := by
    rw [hflat]
    exact List.length_filter_le _ r
  refine Nat.lt_of_le_of_ne hle fun heq => hne ?_
  rw [hflat] at heq ⊢
  exact List.filter_eq_self.mpr (List.length_filter_eq_length_iff.mp heq)

/-- Some words of a text are replaced by `r`: those with `P` in a loose join, those with `Q`,
    which are no fewer, in the other.  When the joins agree, the other words with `Q` are
    `r`. -/
theorem replaced_of_join_eq (hs : sep s = true) (r : List α) {ws : List (List α)}
    (hws : ∀ w ∈ ws, IsWord sep w) (P Q : List α → Prop) [DecidablePred P] [DecidablePred Q]
    (hPQ : ∀ w, P w → Q w)
    (h : joinLoose s [] (ws.map fun w => if P w then r else w) =
      List.intercalate [s] (ws.map fun w => if Q w then r else w)) :
    ∀ w ∈ ws, Q w → P w ∨ w = r := by
  intro w hw hq
  by_contra hno
  obtain ⟨hp, hwr⟩ := not_or.mp hno
  have hwords := congrArg (words sep) h
  rw [words_joinLoose hs, words_intercalate hs] at hwords
  -- the words of a text whose words with `R` are replaced
  have hcount : ∀ (R : List α → Prop) [DecidablePred R],
      ((ws.map fun w => if R w then r else w).flatMap (words sep)).length =
        (ws.map fun w => if R w then (words sep r).length else 1).sum := by
    intro R _
    rw [List.length_flatMap, List.map_map]
    refine congrArg List.sum (List.map_congr_left fun v hv => ?_)
    dsimp only [Function.comp_apply]
    split
    · rfl
    · rw [(hws v hv).words_eq]
      rfl
  by_cases hk : (words sep r).length = 1
  · -- one word `t`: then `w` is `t`, and `r` is longer
    obtain ⟨t, ht⟩ := List.length_eq_one_iff.mp hk
    have hmap : ∀ (R : List α → Prop) [DecidablePred R],
        (ws.map fun w => if R w then r else w).flatMap (words sep) =
          ws.map fun w => if R w then t else w := by
      intro R _
      rw [List.flatMap_map, ← List.flatMap_singleton' (ws.map _), List.flatMap_map]
      refine List.flatMap_congr fun v hv => ?_
      split
      · exact ht
      · exact (hws v hv).words_eq
    rw [hmap P, hmap Q] at hwords
    have hpoint := List.map_inj_left.mp hwords
    have hwt : w = t := by
      have := hpoint w hw
      rwa [if_neg hp, if_pos hq] at this
    have hshort : t.length < r.length := length_lt_of_words_eq ht fun htr => hwr (hwt.trans htr)
    have hsum : ((ws.map fun w => if P w then r else w).map List.length).sum <
        ((ws.map fun w => if Q w then r else w).map List.length).sum := by
      rw [List.map_map, List.map_map]
      refine List.sum_lt_sum _ _ (fun v hv => ?_) ⟨w, hw, ?_⟩
      · dsimp only [Function.comp_apply]
        have hv' := hpoint v hv
        by_cases hpv : P v
        · rw [if_pos hpv, if_pos (hPQ v hpv)]
        · rw [if_neg hpv] at hv' ⊢
          by_cases hqv : Q v
          · rw [if_pos hqv] at hv' ⊢
            rw [hv']
            exact Nat.le_of_lt hshort
          · rw [if_neg hqv]
      · dsimp only [Function.comp_apply]
        rw [if_neg hp, if_pos hq, hwt]
        exact hshort
    have hle := length_joinLoose_le s (ws.map fun w => if P w then r else w)
    rw [h, length_intercalate, length_intercalate, List.length_map, List.length_map] at hle
    omega
  · -- otherwise the numbers of words differ
    have hlen := congrArg List.length hwords
    rw [hcount P, hcount Q] at hlen
    rcases Nat.lt_or_gt_of_ne hk with hk | hk
    · refine Nat.ne_of_gt (List.sum_lt_sum _ _ (fun v hv => ?_) ⟨w, hw, ?_⟩) hlen
      · by_cases hpv : P v
        · rw [if_pos hpv, if_pos (hPQ v hpv)]
        · rw [if_neg hpv]
          split <;> omega
      · rw [if_neg hp, if_pos hq]
        exact hk
    · refine Nat.ne_of_lt (List.sum_lt_sum _ _ (fun v hv => ?_) ⟨w, hw, ?_⟩) hlen
      · by_cases hpv : P v
        · rw [if_pos hpv, if_pos (hPQ v hpv)]
        · rw [if_neg hpv]
          split <;> omega
      · rw [if_neg hp, if_pos hq]
        exact hk

end Gemios
