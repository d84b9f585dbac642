/-!
# Loops with early exit

The loops of a C function, as a fold over the list of values its counter takes.
The body says after each turn how the loop goes on: fall through (or
`continue`), `break`, or `return` from the enclosing function.
-/

namespace Gemios

inductive Ctl (σ ρ : Type) where
  | next (s : σ)
  | stop (s : σ)
  | ret (r : ρ)

/-- `break` leaves the innermost loop only: the enclosing loop goes on. -/
def Ctl.resume {σ ρ : Type} : Ctl σ ρ → Ctl σ ρ
  | .stop s => .next s
  | c => c

/-- What a search loop returns; falling off its end is a failure. -/
def Ctl.found {σ ρ : Type} : Ctl σ (Option ρ) → Option ρ
  | .ret r => r
  | _ => none

/-- Run the body over the values of the loop counter. -/
def scan {α σ ρ : Type} (f : α → σ → Ctl σ ρ) : List α → σ → Ctl σ ρ
  | [], s => .next s
  | a :: as, s =>
    match f a s with
    | .next s' => scan f as s'
    | .stop s' => .stop s'
    | .ret r => .ret r

section

variable {α β σ ρ : Type}

@[simp] theorem scan_nil (f : α → σ → Ctl σ ρ) (s : σ) : scan f [] s = .next s := rfl

theorem scan_cons (f : α → σ → Ctl σ ρ) (a : α) (as : List α) (s : σ) :
    scan f (a :: as) s =
      match f a s with
      | .next s' => scan f as s'
      | .stop s' => .stop s'
      | .ret r => .ret r := rfl

theorem scan_cons_next {f : α → σ → Ctl σ ρ} {a : α} {s s' : σ} (h : f a s = .next s')
    (as : List α) : scan f (a :: as) s = scan f as s' := by
  rw [scan_cons, h]

theorem scan_cons_ret {f : α → σ → Ctl σ ρ} {a : α} {s : σ} {r : ρ} (h : f a s = .ret r)
    (as : List α) : scan f (a :: as) s = .ret r := by
  rw [scan_cons, h]

theorem scan_append (f : α → σ → Ctl σ ρ) (as bs : List α) (s : σ) :
    scan f (as ++ bs) s =
      match scan f as s with
      | .next s' => scan f bs s'
      | .stop s' => .stop s'
      | .ret r => .ret r := by
  induction as generalizing s with
  | nil => rfl
  | cons a as ih =>
    rw [List.cons_append, scan_cons, scan_cons]
    cases f a s with
    | next s' => exact ih s'
    | stop s' => rfl
    | ret r => rfl

theorem scan_map (f : β → σ → Ctl σ ρ) (g : α → β) (as : List α) (s : σ) :
    scan f (as.map g) s = scan (fun a => f (g a)) as s := by
  induction as generalizing s with
  | nil => rfl
  | cons a as ih =>
    rw [List.map_cons, scan_cons, scan_cons]
    cases f (g a) s with
    | next s' => exact ih s'
    | stop s' => rfl
    | ret r => rfl

theorem scan_flatMap (f : β → σ → Ctl σ ρ) (g : α → List β) (as : List α) (s : σ) :
    scan f (as.flatMap g) s = scan (fun a => scan f (g a)) as s := by
  induction as generalizing s with
  | nil => rfl
  | cons a as ih =>
    rw [List.flatMap_cons, scan_append, scan_cons]
    cases scan f (g a) s with
    | next s' => exact ih s'
    | stop s' => rfl
    | ret r => rfl

theorem scan_congr {f g : α → σ → Ctl σ ρ} {as : List α}
    (h : ∀ a ∈ as, ∀ s, f a s = g a s) (s : σ) : scan f as s = scan g as s := by
  induction as generalizing s with
  | nil => rfl
  | cons a as ih =>
    rw [scan_cons, scan_cons, h a (by simp) s]
    cases g a s with
    | next s' => exact ih (fun b hb => h b (by simp [hb])) s'
    | stop s' => rfl
    | ret r => rfl

theorem scan_eq_ret {f : α → σ → Ctl σ ρ} {as : List α} {s : σ} {r : ρ} (h : scan f as s = .ret r) :
    ∃ pre a post s', as = pre ++ a :: post ∧ scan f pre s = .next s' ∧ f a s' = .ret r := by
  induction as generalizing s with
  | nil => cases h
  | cons a as ih =>
    rw [scan_cons] at h
    cases hfa : f a s with
    | next s₁ =>
      rw [hfa] at h
      obtain ⟨pre, b, post, s', rfl, hpre, hb⟩ := ih h
      exact ⟨a :: pre, b, post, s', rfl, by rw [scan_cons_next hfa, hpre], hb⟩
    | stop s₁ => rw [hfa] at h; cases h
    | ret r' =>
      rw [hfa] at h
      exact ⟨[], a, as, s, rfl, rfl, hfa.trans h⟩

theorem scan_eq_next {f : α → σ → Ctl σ ρ} {as : List α} {s s' : σ} (h : scan f as s = .next s') :
    ∀ a ∈ as, ∃ s₁ s₂, f a s₁ = .next s₂ := by
  induction as generalizing s with
  | nil => intro a ha; cases ha
  | cons b as ih =>
    rw [scan_cons] at h
    intro a ha
    cases hfb : f b s with
    | next s₁ =>
      rw [hfb] at h
      rcases List.mem_cons.mp ha with rfl | ha
      · exact ⟨s, s₁, hfb⟩
      · exact ih h a ha
    | stop s₁ => rw [hfb] at h; cases h
    | ret r => rw [hfb] at h; cases h

/-- A way to end, seen through a map of states and results. -/
def Ctl.map {σ' ρ' : Type} (f : σ → σ') (g : ρ → ρ') : Ctl σ ρ → Ctl σ' ρ'
  | .next s => .next (f s)
  | .stop s => .stop (f s)
  | .ret r => .ret (g r)

theorem Ctl.resume_map {σ' ρ' : Type} (f : σ → σ') (g : ρ → ρ') (c : Ctl σ ρ) :
    (c.map f g).resume = c.resume.map f g := by
  cases c <;> rfl

theorem scan_map_state {σ' ρ' : Type} {f : σ → σ'} {g : ρ → ρ'} {b : α → σ → Ctl σ ρ}
    {b' : α → σ' → Ctl σ' ρ'} (h : ∀ a s, b' a (f s) = (b a s).map f g) (as : List α) (s : σ) :
    scan b' as (f s) = (scan b as s).map f g := by
  induction as generalizing s with
  | nil => rfl
  | cons a as ih =>
    rw [scan_cons, scan_cons, h]
    cases b a s with
    | next s' => exact ih s'
    | stop s' => rfl
    | ret r => rfl

/-- How a turn or a loop may end: with a state that satisfies `I`, or with a result
    that satisfies `R`. -/
def Ctl.Sat (I : σ → Prop) (R : ρ → Prop) : Ctl σ ρ → Prop
  | .next s => I s
  | .stop s => I s
  | .ret r => R r

theorem Ctl.Sat.resume {I : σ → Prop} {R : ρ → Prop} {c : Ctl σ ρ} (h : c.Sat I R) :
    c.resume.Sat I R := by
  cases c with
  | next s => exact h
  | stop s => exact h
  | ret r => exact h

/-- How a turn or a loop may end, falling through and left early told apart. -/
def Ctl.Falls (N S : σ → Prop) (R : ρ → Prop) : Ctl σ ρ → Prop
  | .next s => N s
  | .stop s => S s
  | .ret r => R r

theorem Ctl.Falls.sat {N S I : σ → Prop} {R : ρ → Prop} {c : Ctl σ ρ} (h : c.Falls N S R)
    (hN : ∀ s, N s → I s) (hS : ∀ s, S s → I s) : c.Sat I R := by
  cases c with
  | next s => exact hN s h
  | stop s => exact hS s h
  | ret r => exact h

theorem Ctl.Falls.imp {N N' S S' : σ → Prop} {R : ρ → Prop} {c : Ctl σ ρ} (h : c.Falls N S R)
    (hN : ∀ s, N s → N' s) (hS : ∀ s, S s → S' s) : c.Falls N' S' R := by
  cases c with
  | next s => exact hN s h
  | stop s => exact hS s h
  | ret r => exact h

theorem scan_falls {f : Nat → σ → Ctl σ ρ} {N : Nat → σ → Prop} {S : σ → Prop} {R : ρ → Prop} :
    ∀ (n a : Nat) (_ : ∀ i s, a ≤ i → i < a + n → N i s → (f i s).Falls (N (i + 1)) S R) {s : σ}
      (_ : N a s), (scan f (List.range' a n) s).Falls (N (a + n)) S R := by
  intro n
  induction n with
  | zero =>
    intro a _ s hs
    exact hs
  | succ n ih =>
    intro a hstep s hs
    have ha := hstep a s (Nat.le_refl a) (by omega) hs
    rw [List.range'_succ, scan_cons]
    cases hfa : f a s with
    | next s' =>
      rw [hfa] at ha
      have hrest := ih (a + 1) (fun i t h1 h2 => hstep i t (by omega) (by omega)) ha
      rwa [Nat.add_right_comm] at hrest
    | stop s' => rwa [hfa] at ha
    | ret r => rwa [hfa] at ha

/-- **Loop rule.**  What every turn keeps, the loop keeps. -/
theorem scan_sat {f : α → σ → Ctl σ ρ} {I : σ → Prop} {R : ρ → Prop} {as : List α}
    (hstep : ∀ a ∈ as, ∀ s, I s → (f a s).Sat I R) {s : σ} (hs : I s) : (scan f as s).Sat I R := by
  induction as generalizing s with
  | nil => exact hs
  | cons a as ih =>
    have ha := hstep a (by simp) s hs
    rw [scan_cons]
    cases hfa : f a s with
    | next s' =>
      rw [hfa] at ha
      exact ih (fun b hb => hstep b (by simp [hb])) ha
    | stop s' => rwa [hfa] at ha
    | ret r => rwa [hfa] at ha

end

end Gemios
