import Mathlib.Logic.Basic

/-!
# Loops of stores

A counting loop that writes at places of its own, and what is then read at every place.  The loops
may be nested and may write a place more than once, as long as they always write the same there.
-/

namespace Gemios

variable {σ κ α : Type}

theorem fold_reaches {n : Nat} {body : (i : Nat) → i < n → σ → σ} {R : Nat → σ → Prop} {s : σ}
    (hzero : R 0 s) (hstep : ∀ i (hi : i < n) t, R i t → R (i + 1) (body i hi t)) :
    R n (Nat.fold n body s) := by
  induction n with
  | zero => exact hzero
  | succ n ih =>
    rw [Nat.fold_succ]
    apply hstep
    exact ih fun i hi t ht => hstep i (Nat.lt_succ_of_lt hi) t ht

theorem fold_keeps {n : Nat} {body : (i : Nat) → i < n → σ → σ} {R : σ → Prop} {s : σ} (hs : R s)
    (hstep : ∀ i (hi : i < n) t, R t → R (body i hi t)) : R (Nat.fold n body s) := by
  have hall : (fun _ : Nat => R) n (Nat.fold n body s) := fold_reaches hs hstep
  exact hall

/-- The step from `s` to `s'` writes `val` at the places of `P` and nothing else. -/
structure Paints (read : σ → κ → α) (P : κ → Prop) (val : κ → α) (s s' : σ) : Prop where
  inside : ∀ k, P k → read s' k = val k
  outside : ∀ k, ¬ P k → read s' k = read s k

variable {read : σ → κ → α} {P Q : κ → Prop} {val val' : κ → α} {s s' t : σ}

theorem Paints.nothing (hP : ∀ k, ¬ P k) : Paints read P val s s := by
  constructor
  · intro k hk
    exact absurd hk (hP k)
  · intro k hk
    rfl

theorem Paints.congr (h : Paints read P val s s') (hP : ∀ k, P k ↔ Q k) (hval : ∀ k, Q k → val k = val' k) :
    Paints read Q val' s s' := by
  constructor
  · intro k hk
    rw [h.inside k ((hP k).mpr hk), hval k hk]
  · intro k hk
    exact h.outside k fun hPk => hk ((hP k).mp hPk)

theorem Paints.pair {β : Type} {read' : σ → κ → β} {val' : κ → β} (h : Paints read P val s s')
    (h' : Paints read' P val' s s') :
    Paints (fun s k => (read s k, read' s k)) P (fun k => (val k, val' k)) s s' := by
  constructor
  · intro k hk
    rw [h.inside k hk, h'.inside k hk]
  · intro k hk
    rw [h.outside k hk, h'.outside k hk]

theorem Paints.on {τ : Type} {part : τ → σ} {t t' : τ} (h : Paints read P val (part t) (part t')) :
    Paints (fun t k => read (part t) k) P val t t' := ⟨h.inside, h.outside⟩

theorem Paints.seq (h : Paints read P val s s') (h' : Paints read Q val s' t) :
    Paints read (fun k => P k ∨ Q k) val s t := by
  constructor
  · intro k hk
    by_cases hQ : Q k
    · exact h'.inside k hQ
    · rw [h'.outside k hQ]
      exact h.inside k (hk.resolve_right hQ)
  · intro k hk
    rw [h'.outside k fun hQ => hk (.inr hQ), h.outside k fun hP => hk (.inl hP)]

theorem Paints.fold_of (val : σ → κ → α) {n : Nat} {body : (i : Nat) → i < n → σ → σ} {P : Nat → κ → Prop}
    (h : ∀ i (hi : i < n) t, Paints read (P i) (val t) t (body i hi t))
    (hval : ∀ i < n, ∀ t, Paints read (fun k => ∃ j < i, P j k) (val s) s t → ∀ k, P i k → val t k = val s k) :
    Paints read (fun k => ∃ i < n, P i k) (val s) s (Nat.fold n body s) := by
  apply fold_reaches (R := fun j t => Paints read (fun k => ∃ i < j, P i k) (val s) s t)
  · apply Paints.nothing
    rintro k ⟨i, hi, -⟩
    exact Nat.not_lt_zero i hi
  · intro i hi t ht
    refine (ht.seq ((h i hi t).congr (fun _ => Iff.rfl) (hval i hi t ht))).congr ?_ fun _ _ => rfl
    intro k
    constructor
    · rintro (⟨j, hj, hk⟩ | hk)
      · exact ⟨j, Nat.lt_succ_of_lt hj, hk⟩
      · exact ⟨i, Nat.lt_succ_self i, hk⟩
    · rintro ⟨j, hj, hk⟩
      rcases Nat.lt_succ_iff_lt_or_eq.mp hj with hlt | rfl
      · exact .inl ⟨j, hlt, hk⟩
      · exact .inr hk

theorem Paints.fold {n : Nat} {body : (i : Nat) → i < n → σ → σ} {P : Nat → κ → Prop}
    (h : ∀ i (hi : i < n) t, Paints read (P i) val t (body i hi t)) (s : σ) :
    Paints read (fun k => ∃ i < n, P i k) val s (Nat.fold n body s) := by
  apply Paints.fold_of (fun _ => val) h
  intro i hi t ht k hk
  rfl

end Gemios
