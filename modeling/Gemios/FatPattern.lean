import Gemios.FatRemove
import Gemios.Glob

/-!
# What `fat_pattern_match` matches

The bytes of a pattern as pieces: `*` for any bytes, `?` for one byte, any other byte for
itself in either case.  `fat_pattern_match` tries the rests of the string behind a star in a
loop that ends at the terminator, so the empty rest is tried for a star at the end only.
-/

namespace Gemios

/-- The piece a byte of a pattern stands for. -/
def globTok (c : UInt8) : Glob.Tok UInt8 :=
  if c = 0x2A then .star
  else if c = 0x3F then .one Set.univ
  else .one {b | toUpperChar b = toUpperChar c}

def globOf (pattern : List UInt8) : List (Glob.Tok UInt8) := pattern.map globTok

theorem anyRest_iff (f : List UInt8 → Bool) (s : List UInt8) :
    anyRest f s = true ↔ ∃ v, v <:+ s ∧ v ≠ [] ∧ f v = true := by
  induction s with
  | nil =>
    constructor
    · intro h
      cases h
    · rintro ⟨v, hv, hne, _⟩
      exact absurd (List.eq_nil_of_suffix_nil hv) hne
  | cons c s ih =>
    rw [anyRest, Bool.or_eq_true, ih]
    constructor
    · rintro (h | ⟨v, hv, hne, hf⟩)
      · exact ⟨c :: s, List.suffix_refl _, List.cons_ne_nil _ _, h⟩
      · exact ⟨v, hv.trans (List.suffix_cons c s), hne, hf⟩
    · rintro ⟨v, hv, hne, hf⟩
      rcases List.suffix_cons_iff.mp hv with rfl | hv
      · exact Or.inl hf
      · exact Or.inr ⟨v, hv, hne, hf⟩

theorem fatPatternMatch_eager (pattern : List UInt8) : ∀ s : List UInt8,
    fatPatternMatch pattern s = true ↔ s ∈ Glob.eager (globOf pattern) := by
  induction pattern with
  | nil =>
    intro s
    exact List.isEmpty_iff
  | cons p ps ih =>
    intro s
    rw [fatPatternMatch.eq_def, globOf, List.map_cons, ← globOf]
    dsimp only
    by_cases hstar : p = 0x2A
    · rw [if_pos hstar, globTok, if_pos hstar]
      by_cases hps : ps = []
      · subst hps
        exact ⟨fun _ => trivial, fun _ => rfl⟩
      · have hne : globOf ps ≠ [] := fun h => hps (List.map_eq_nil_iff.mp h)
        rw [if_neg hps, anyRest_iff, Glob.eager_star hne]
        constructor
        · rintro ⟨v, hv, hvne, hmatch⟩
          exact ⟨v, hv, hvne, (ih v).mp hmatch⟩
        · rintro ⟨v, hv, hvne, hmem⟩
          exact ⟨v, hv, hvne, (ih v).mpr hmem⟩
    · rw [if_neg hstar, globTok, if_neg hstar]
      cases s with
      | nil =>
        constructor
        · intro h
          cases h
        · intro h
          split at h <;> exact absurd h (Glob.nil_notMem_eager_one _ _)
      | cons c cs =>
        dsimp only
        by_cases hany : p = 0x3F
        · rw [if_pos hany, if_pos hany, Glob.eager_one, ih cs]
          exact ⟨fun h => ⟨trivial, h⟩, fun h => h.2⟩
        · rw [if_neg hany, if_neg hany, Glob.eager_one, ← ih cs]
          by_cases heq : toUpperChar p = toUpperChar c
          · rw [heq, bne_self_eq_false, if_neg Bool.false_ne_true]
            exact ⟨fun h => ⟨rfl, h⟩, fun h => h.2⟩
          · rw [if_pos (bne_iff_ne.mpr heq)]
            constructor
            · intro h
              cases h
            · intro h
              exact absurd h.1.symm heq

/-- **Wildcard matching.**  `fat_pattern_match` decides whether the string matches the
    pattern unless the pattern ends in two stars and the part before the stars at its end
    matches the string but no shorter beginning of it. -/
theorem fat_pattern_match_iff (pattern str : List UInt8) :
    (fatPatternMatch pattern str = true ↔ str ∈ Glob.lang (globOf pattern)) ↔
      ¬ (Glob.TwoStars (globOf pattern) ∧ str ∈ Glob.lang (Glob.trunk (globOf pattern)) ∧
        ∀ u, u <+: str → u ∈ Glob.lang (Glob.trunk (globOf pattern)) → u = str) := by
  rw [fatPatternMatch_eager]
  exact Glob.mem_eager_iff _ _

/-- `A**` does not match `A`. -/
theorem fat_pattern_match_two_stars :
    ¬ (fatPatternMatch [0x41, 0x2A, 0x2A] [0x41] = true ↔
      [0x41] ∈ Glob.lang (globOf [0x41, 0x2A, 0x2A])) := by
  intro h
  have hmem : [0x41] ∈ Glob.lang (globOf [0x41, 0x2A, 0x2A]) :=
    Glob.cons_mem_one.mpr ⟨rfl, Glob.mem_star.mpr ⟨[], List.nil_suffix,
      Glob.mem_star.mpr ⟨[], List.nil_suffix, Glob.mem_lang_nil.mpr rfl⟩⟩⟩
  exact absurd (h.mpr hmem) (by decide)

end Gemios
