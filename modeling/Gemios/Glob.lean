import Mathlib.Computability.Language
import Mathlib.Data.List.DropRight

/-!
# Wildcard patterns

A pattern is a list of pieces: a star, which stands for any word, or one letter out of a
set.  `Glob.lang` is the language of a pattern.  `Glob.eager` is the language of a matcher
that, after a star which is not the last piece, tries the non-empty rests of the word only.
The two differ exactly when a star is left to match up to the very end of the word in front
of further stars.
-/

namespace Gemios

namespace Glob

variable {α : Type}

inductive Tok (α : Type) where
  | star
  | one (s : Set α)

def Tok.lang : Tok α → Language α
  | .star => ⊤
  | .one s => {w | ∃ a ∈ s, w = [a]}

def lang (p : List (Tok α)) : Language α := (p.map Tok.lang).prod

def Tok.isStar : Tok α → Bool
  | .star => true
  | .one _ => false

/-- The pattern without the stars at its end. -/
def trunk (p : List (Tok α)) : List (Tok α) := p.rdropWhile Tok.isStar

def TwoStars (p : List (Tok α)) : Prop := [Tok.star, Tok.star] <:+ p

/-! ### The language of a pattern -/

theorem mem_lang_nil {w : List α} : w ∈ lang ([] : List (Tok α)) ↔ w = [] := Iff.rfl

theorem lang_cons (t : Tok α) (p : List (Tok α)) : lang (t :: p) = t.lang * lang p := List.prod_cons

theorem lang_append (p q : List (Tok α)) : lang (p ++ q) = lang p * lang q := by
  rw [lang, List.map_append, List.prod_append]
  rfl

theorem nil_notMem_one (s : Set α) (p : List (Tok α)) : [] ∉ lang (.one s :: p) := by
  rw [lang_cons, Language.mem_mul]
  rintro ⟨u, ⟨a, _, rfl⟩, v, _, h⟩
  cases h

theorem cons_mem_one {s : Set α} {p : List (Tok α)} {a : α} {w : List α} :
    a :: w ∈ lang (.one s :: p) ↔ a ∈ s ∧ w ∈ lang p := by
  rw [lang_cons, Language.mem_mul]
  constructor
  · rintro ⟨u, ⟨b, hb, rfl⟩, v, hv, h⟩
    cases h
    exact ⟨hb, hv⟩
  · intro h
    exact ⟨[a], ⟨a, h.1, rfl⟩, w, h.2, rfl⟩

theorem mem_star {p : List (Tok α)} {w : List α} :
    w ∈ lang (.star :: p) ↔ ∃ v, v <:+ w ∧ v ∈ lang p := by
  rw [lang_cons, Language.mem_mul]
  constructor
  · rintro ⟨u, _, v, hv, rfl⟩
    exact ⟨v, List.suffix_append u v, hv⟩
  · rintro ⟨v, ⟨u, rfl⟩, hv⟩
    exact ⟨u, trivial, v, hv, rfl⟩

theorem mem_star_self (w : List α) : w ∈ lang [(.star : Tok α)] :=
  mem_star.mpr ⟨[], List.nil_suffix, mem_lang_nil.mpr rfl⟩

theorem nil_mem_lang {p : List (Tok α)} : [] ∈ lang p ↔ trunk p = [] := by
  rw [trunk, List.rdropWhile_eq_nil_iff]
  induction p with
  | nil => exact ⟨fun _ _ h => absurd h List.not_mem_nil, fun _ => mem_lang_nil.mpr rfl⟩
  | cons t p ih =>
    cases t with
    | star =>
      rw [mem_star, List.forall_mem_cons, ← ih]
      constructor
      · rintro ⟨v, hv, hmem⟩
        rw [List.suffix_nil] at hv
        exact ⟨rfl, hv ▸ hmem⟩
      · intro h
        exact ⟨[], List.nil_suffix, h.2⟩
    | one s =>
      rw [List.forall_mem_cons]
      exact ⟨fun h => absurd h (nil_notMem_one s p), fun h => absurd h.1 Bool.false_ne_true⟩

/-! ### Stars at the end -/

theorem trunk_one (s : Set α) (p : List (Tok α)) : trunk (.one s :: p) = .one s :: trunk p := by
  rw [trunk, trunk, List.rdropWhile, List.rdropWhile, List.reverse_cons, List.dropWhile_append]
  split
  · next h =>
    rw [List.isEmpty_iff] at h
    rw [h]
    rfl
  · rw [List.reverse_append]
    rfl

theorem trunk_star (p : List (Tok α)) :
    trunk (.star :: p) = if trunk p = [] then [] else .star :: trunk p := by
  rw [trunk, trunk, List.rdropWhile, List.rdropWhile, List.reverse_cons, List.dropWhile_append]
  by_cases h : p.reverse.dropWhile Tok.isStar = []
  · rw [h]
    rfl
  · rw [if_neg (by rwa [List.isEmpty_iff]), if_neg (by rwa [List.reverse_eq_nil_iff]),
      List.reverse_append]
    rfl

theorem twoStars_one {s : Set α} {p : List (Tok α)} : TwoStars (.one s :: p) ↔ TwoStars p := by
  unfold TwoStars
  rw [List.suffix_cons_iff]
  constructor
  · rintro (h | h)
    · cases h
    · exact h
  · exact Or.inr

theorem twoStars_star {p : List (Tok α)} : TwoStars (.star :: p) ↔ p = [.star] ∨ TwoStars p := by
  unfold TwoStars
  rw [List.suffix_cons_iff, List.cons.injEq]
  constructor
  · rintro (h | h)
    · exact Or.inl h.2.symm
    · exact Or.inr h
  · rintro (h | h)
    · exact Or.inl ⟨rfl, h.symm⟩
    · exact Or.inr h

theorem twoStars_of_trunk {p : List (Tok α)} (hne : p ≠ []) (h : trunk p = []) :
    TwoStars (.star :: p) := by
  induction p with
  | nil => exact absurd rfl hne
  | cons t p ih =>
    cases t with
    | star =>
      rw [trunk_star] at h
      split at h
      · next hp =>
        by_cases hnil : p = []
        · rw [hnil]
          exact List.suffix_refl _
        · exact twoStars_star.mpr (Or.inr (ih hnil hp))
      · cases h
    | one s =>
      rw [trunk_one] at h
      cases h

theorem mem_lang_of_twoStars {p : List (Tok α)} (h : TwoStars p) {w : List α} :
    w ∈ lang p ↔ ∃ u, u <+: w ∧ u ∈ lang (trunk p) := by
  have htail : ∀ q : List (Tok α), (∀ t ∈ q, t.isStar = true) → q ≠ [] → lang q = ⊤ := by
    intro q hq hne
    obtain ⟨t, r, rfl⟩ := List.exists_cons_of_ne_nil hne
    have ht : t = .star := by
      cases t with
      | star => rfl
      | one s => exact absurd (hq _ List.mem_cons_self) Bool.false_ne_true
    have hr : [] ∈ lang r := nil_mem_lang.mpr
      (List.rdropWhile_eq_nil_iff.mpr fun x hx => hq x (List.mem_cons_of_mem _ hx))
    ext v
    exact ⟨fun _ => trivial, fun _ => ht ▸ mem_star.mpr ⟨[], List.nil_suffix, hr⟩⟩
  have hsplit : lang p = lang (trunk p) * lang (p.rtakeWhile Tok.isStar) := by
    rw [← lang_append, trunk, List.rdropWhile_append_rtakeWhile]
  have hstars : p.rtakeWhile Tok.isStar ≠ [] := by
    obtain ⟨q, rfl⟩ := h
    rw [show q ++ [Tok.star, Tok.star] = (q ++ [.star]) ++ [.star] by simp, Ne,
      List.rtakeWhile_eq_nil_iff]
    simp [Tok.isStar]
  rw [hsplit, htail _ (fun t ht => List.mem_rtakeWhile_imp ht) hstars, Language.mem_mul]
  constructor
  · rintro ⟨u, hu, v, _, rfl⟩
    exact ⟨u, List.prefix_append u v, hu⟩
  · rintro ⟨u, ⟨v, rfl⟩, hu⟩
    exact ⟨u, hu, v, trivial, rfl⟩

/-! ### The matcher that leaves out the empty rest -/

/-- The words a matcher accepts that tries only non-empty rests behind a star, but takes a
    star at the end for anything. -/
def eager : List (Tok α) → Language α
  | [] => 1
  | [.star] => ⊤
  | .star :: p => {w | ∃ v, v <:+ w ∧ v ≠ [] ∧ v ∈ eager p}
  | .one s :: p => {w | ∃ a v, w = a :: v ∧ a ∈ s ∧ v ∈ eager p}

theorem eager_star {p : List (Tok α)} (hp : p ≠ []) {w : List α} :
    w ∈ eager (.star :: p) ↔ ∃ v, v <:+ w ∧ v ≠ [] ∧ v ∈ eager p := by
  cases p with
  | nil => exact absurd rfl hp
  | cons t p => exact Iff.rfl

theorem eager_one {s : Set α} {p : List (Tok α)} {a : α} {w : List α} :
    a :: w ∈ eager (.one s :: p) ↔ a ∈ s ∧ w ∈ eager p := by
  constructor
  · rintro ⟨b, v, h, hb, hv⟩
    cases h
    exact ⟨hb, hv⟩
  · intro h
    exact ⟨a, w, rfl, h.1, h.2⟩

theorem nil_notMem_eager_one (s : Set α) (p : List (Tok α)) : [] ∉ eager (.one s :: p) := by
  rintro ⟨a, v, h, _⟩
  cases h

theorem eager_eq_lang {p : List (Tok α)} (h : ¬ TwoStars p) : eager p = lang p := by
  induction p with
  | nil => rfl
  | cons t p ih =>
    cases t with
    | star =>
      rw [twoStars_star, not_or] at h
      by_cases hp : p = []
      · subst hp
        ext w
        exact ⟨fun _ => mem_star_self w, fun _ => trivial⟩
      · ext w
        rw [eager_star hp, mem_star, ih h.2]
        constructor
        · rintro ⟨v, hv, _, hmem⟩
          exact ⟨v, hv, hmem⟩
        · rintro ⟨v, hv, hmem⟩
          refine ⟨v, hv, ?_, hmem⟩
          -- an empty rest would leave stars only
          rintro rfl
          exact (not_or.mpr h) (twoStars_star.mp (twoStars_of_trunk hp (nil_mem_lang.mp hmem)))
    | one s =>
      ext w
      cases w with
      | nil => exact ⟨fun h => absurd h (nil_notMem_eager_one s p), fun h => absurd h (nil_notMem_one s p)⟩
      | cons a w => rw [eager_one, cons_mem_one, ih fun h' => h (twoStars_one.mpr h')]

theorem mem_eager_of_twoStars {p : List (Tok α)} (h : TwoStars p) {w : List α} :
    w ∈ eager p ↔ ∃ u, u <+: w ∧ u ≠ w ∧ u ∈ lang (trunk p) := by
  induction p generalizing w with
  | nil => exact absurd (List.eq_nil_of_suffix_nil h) (List.cons_ne_nil _ _)
  | cons t p ih =>
    cases t with
    | star =>
      have hp : p ≠ [] := by
        rintro rfl
        rcases twoStars_star.mp h with h | h
        · cases h
        · exact absurd (List.eq_nil_of_suffix_nil h) (List.cons_ne_nil _ _)
      have hrest : ∀ v : List α, v ≠ [] →
          (v ∈ eager p ↔ ∃ u, u <+: v ∧ u ≠ v ∧ u ∈ lang (trunk p)) := by
        intro v hv
        rcases twoStars_star.mp h with rfl | h
        · exact ⟨fun _ => ⟨[], List.nil_prefix, hv.symm, mem_lang_nil.mpr rfl⟩, fun _ => trivial⟩
        · exact ih h
      rw [eager_star hp, trunk_star]
      constructor
      · rintro ⟨v, ⟨x, rfl⟩, hv, hmem⟩
        obtain ⟨u, ⟨y, rfl⟩, hne, hu⟩ := (hrest v hv).mp hmem
        by_cases htr : trunk p = []
        · rw [if_pos htr]
          exact ⟨[], List.nil_prefix, fun h => hv (List.append_eq_nil_iff.mp h.symm).2,
            mem_lang_nil.mpr rfl⟩
        · rw [if_neg htr]
          refine ⟨x ++ u, ⟨y, List.append_assoc x u y⟩, fun h => hne ?_,
            mem_star.mpr ⟨u, List.suffix_append x u, hu⟩⟩
          exact List.append_cancel_left h
      · rintro ⟨u, ⟨y, rfl⟩, hne, hu⟩
        have hy : y ≠ [] := by
          rintro rfl
          exact hne (List.append_nil u).symm
        by_cases htr : trunk p = []
        · refine ⟨y, List.suffix_append u y, hy, (hrest y hy).mpr ⟨[], List.nil_prefix, hy.symm, ?_⟩⟩
          rw [htr]
          exact mem_lang_nil.mpr rfl
        · rw [if_neg htr] at hu
          obtain ⟨v, ⟨x, rfl⟩, hv⟩ := mem_star.mp hu
          have hvy : v ++ y ≠ [] := fun h => hy (List.append_eq_nil_iff.mp h).2
          refine ⟨v ++ y, ⟨x, (List.append_assoc x v y).symm⟩, hvy, (hrest _ hvy).mpr
            ⟨v, List.prefix_append v y, fun h => hy ?_, hv⟩⟩
          exact List.append_right_eq_self.mp h.symm
    | one s =>
      rw [trunk_one]
      cases w with
      | nil =>
        constructor
        · intro hmem
          exact absurd hmem (nil_notMem_eager_one s p)
        · rintro ⟨u, hu, hne, _⟩
          exact absurd (List.prefix_nil.mp hu) hne
      | cons a w =>
        rw [eager_one, ih (twoStars_one.mp h)]
        constructor
        · rintro ⟨ha, u, hu, hne, hmem⟩
          exact ⟨a :: u, List.cons_prefix_cons.mpr ⟨rfl, hu⟩, fun h => hne (List.cons.inj h).2,
            cons_mem_one.mpr ⟨ha, hmem⟩⟩
        · rintro ⟨u, hu, hne, hmem⟩
          cases u with
          | nil => exact absurd hmem (nil_notMem_one s _)
          | cons b u =>
            obtain ⟨rfl, hpre⟩ := List.cons_prefix_cons.mp hu
            obtain ⟨ha, hmem⟩ := cons_mem_one.mp hmem
            exact ⟨ha, u, hpre, fun h => hne (h ▸ rfl), hmem⟩

/-- **Where the matcher is right.**  It decides the pattern unless two stars end it and they
    have to match the empty word: the part before them matches the word, but no shorter
    beginning of it. -/
theorem mem_eager_iff (p : List (Tok α)) (w : List α) :
    (w ∈ eager p ↔ w ∈ lang p) ↔
      ¬ (TwoStars p ∧ w ∈ lang (trunk p) ∧ ∀ u, u <+: w → u ∈ lang (trunk p) → u = w) := by
  by_cases h : TwoStars p
  · rw [mem_eager_of_twoStars h, mem_lang_of_twoStars h]
    constructor
    · rintro hiff ⟨_, hw, hmin⟩
      obtain ⟨u, hu, hne, hmem⟩ := hiff.mpr ⟨w, List.prefix_refl w, hw⟩
      exact hne (hmin u hu hmem)
    · intro hnot
      constructor
      · rintro ⟨u, hu, _, hmem⟩
        exact ⟨u, hu, hmem⟩
      · rintro ⟨u, hu, hmem⟩
        by_contra hnone
        have hmin : ∀ v, v <+: w → v ∈ lang (trunk p) → v = w := by
          intro v hv hvmem
          by_contra hne
          exact hnone ⟨v, hv, hne, hvmem⟩
        exact hnot ⟨h, hmin u hu hmem ▸ hmem, hmin⟩
  · rw [eager_eq_lang h]
    exact ⟨fun _ hn => h hn.1, fun _ => Iff.rfl⟩

end Glob

end Gemios
