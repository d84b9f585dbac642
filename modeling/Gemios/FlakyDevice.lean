import Gemios.DyingDevice
import Mathlib.Logic.Function.Basic

/-!
# Programs over a device whose looks fail one by one

The same programs as on a device that can die.  Here every single look at the device can
fail, whether the looks before it did or not; changes go through.

A program that is `Served` meets no failing look, and then behaves as on a sound device.
Of several devices a program may use one: `lift` says which.
-/

namespace Gemios

open Function

/-- The device, whether the looks still to come fail, and the answers to the next requests
    for memory. -/
structure Flaky (δ : Type) where
  dev : δ
  fails : Nat → Bool
  grants : Nat → Bool

namespace Flaky

variable {δ ι : Type}

def looked (w : Flaky δ) : Flaky δ := { w with fails := fun n => w.fails (n + 1) }

def asked (w : Flaky δ) : Flaky δ := { w with grants := fun n => w.grants (n + 1) }

def changed (w : Flaky δ) (g : δ → δ) : Flaky δ := { w with dev := g w.dev }

def Granted (w : Flaky δ) : Prop := ∀ n, w.grants n = true

@[simp] theorem looked_dev (w : Flaky δ) : w.looked.dev = w.dev := rfl

@[simp] theorem asked_dev (w : Flaky δ) : w.asked.dev = w.dev := rfl

@[simp] theorem changed_dev (w : Flaky δ) (g : δ → δ) : (w.changed g).dev = g w.dev := rfl

theorem Granted.looked {w : Flaky δ} (h : w.Granted) : w.looked.Granted := h

theorem Granted.asked {w : Flaky δ} (h : w.Granted) : w.asked.Granted := fun n => h (n + 1)

theorem Granted.changed {w : Flaky δ} (h : w.Granted) (g : δ → δ) : (w.changed g).Granted := h

def one (w : Flaky (ι → δ)) (i : ι) : Flaky δ := { w with dev := w.dev i }

@[simp] theorem one_dev (w : Flaky (ι → δ)) (i : ι) : (w.one i).dev = w.dev i := rfl

def back [DecidableEq ι] (w : Flaky (ι → δ)) (i : ι) (u : Flaky δ) : Flaky (ι → δ) :=
  { u with dev := update w.dev i u.dev }

section

variable [DecidableEq ι] (w : Flaky (ι → δ)) (i : ι)

theorem back_one : w.back i (w.one i) = w := by
  rw [back, one, update_eq_self]

@[simp] theorem back_dev (u : Flaky δ) :
    (w.back i u).dev = update w.dev i u.dev := rfl

theorem one_back (u : Flaky δ) : (w.back i u).one i = u := by
  have hself : (w.back i u).dev i = u.dev := by
    rw [back_dev, update_self]
  rw [one, hself]
  rfl

def changedAt (g : δ → δ) : Flaky (ι → δ) :=
  w.changed fun ds => update ds i (g (ds i))

theorem one_changedAt (g : δ → δ) : (w.changedAt i g).one i = (w.one i).changed g := by
  have hself : (w.changedAt i g).dev i = g (w.dev i) := by
    rw [changedAt, changed_dev, update_self]
  rw [one, hself]
  rfl

theorem back_changedAt (g : δ → δ) (u : Flaky δ) : (w.changedAt i g).back i u = w.back i u := by
  rw [back, back, changedAt, changed_dev, update_idem]

end

end Flaky

namespace Prog

variable {δ β α γ ι : Type}

/-! ### Runs -/

/-- The result and the device after the program. -/
def flaky : Prog δ β α → Flaky δ → α × Flaky δ
  | ret a, w => (a, w)
  | look f k, w =>
    if w.fails 0 then (k none).flaky w.looked else (k (some (f w.dev))).flaky w.looked
  | change g k, w => (k true).flaky (w.changed g)
  | ask k, w => (k (w.grants 0)).flaky w.asked

@[simp] theorem flaky_pure (a : α) (w : Flaky δ) : (pure a : Prog δ β α).flaky w = (a, w) := rfl

theorem flaky_bind (p : Prog δ β α) (h : α → Prog δ β γ) (w : Flaky δ) :
    (p >>= h).flaky w = (h (p.flaky w).1).flaky (p.flaky w).2 := by
  induction p generalizing w with
  | ret a => rfl
  | look f k ih =>
    show (look f fun b => k b >>= h).flaky w = _
    rw [flaky, flaky]
    split
    · exact ih none w.looked
    · exact ih (some (f w.dev)) w.looked
  | change g k ih => exact ih true (w.changed g)
  | ask k ih => exact ih (w.grants 0) w.asked

theorem flaky_map (h : α → γ) (p : Prog δ β α) (w : Flaky δ) :
    (h <$> p).flaky w = (h (p.flaky w).1, (p.flaky w).2) := flaky_bind p _ w

theorem flaky_read (f : δ → β) (w : Flaky δ) :
    (read f).flaky w = (if w.fails 0 then none else some (f w.dev), w.looked) := by
  rw [read, flaky]
  split <;> rfl

@[simp] theorem flaky_alloc (w : Flaky δ) :
    (alloc : Prog δ β Bool).flaky w = (w.grants 0, w.asked) := rfl

theorem ReadOnly.flaky_dev {p : Prog δ β α} (hp : p.ReadOnly) (w : Flaky δ) :
    (p.flaky w).2.dev = w.dev := by
  induction p generalizing w with
  | ret a => rfl
  | look f k ih =>
    rw [flaky]
    split
    · exact ih none (hp none) w.looked
    · exact ih _ (hp _) w.looked
  | change g k ih => exact hp.elim
  | ask k ih => exact ih _ (hp _) w.asked

theorem flaky_granted (p : Prog δ β α) {w : Flaky δ} (hw : w.Granted) :
    (p.flaky w).2.Granted := by
  induction p generalizing w with
  | ret a => exact hw
  | look f k ih =>
    rw [flaky]
    split
    · exact ih none hw.looked
    · exact ih _ hw.looked
  | change g k ih => exact ih true (hw.changed g)
  | ask k ih => exact ih _ hw.asked

theorem flaky_never (p : Prog δ β α) {w : Flaky δ} (hw : ∀ n, w.fails n = false) :
    ∀ n, (p.flaky w).2.fails n = false := by
  induction p generalizing w with
  | ret a => exact hw
  | look f k ih =>
    rw [flaky]
    split
    · exact ih none (w := w.looked) fun n => hw (n + 1)
    · exact ih _ (w := w.looked) fun n => hw (n + 1)
  | change g k ih => exact ih true (w := w.changed g) hw
  | ask k ih => exact ih _ (w := w.asked) hw

/-! ### What every run returns -/

/-- Whatever the answers are, the result satisfies `Q`. -/
def Returns (Q : α → Prop) : Prog δ β α → Prop
  | ret a => Q a
  | look _ k => ∀ b, (k b).Returns Q
  | change _ k => ∀ b, (k b).Returns Q
  | ask k => ∀ b, (k b).Returns Q

theorem returns_bind {Q : γ → Prop} (p : Prog δ β α) {h : α → Prog δ β γ}
    (hh : ∀ a, (h a).Returns Q) : (p >>= h).Returns Q := by
  induction p with
  | ret a => exact hh a
  | look f k ih => exact ih
  | change g k ih => exact ih
  | ask k ih => exact ih

theorem Returns.ite {Q : α → Prop} {c : Prop} [Decidable c] {p q : Prog δ β α}
    (hp : p.Returns Q) (hq : q.Returns Q) : (if c then p else q).Returns Q := by
  split
  · exact hp
  · exact hq

theorem Returns.flaky {Q : α → Prop} {p : Prog δ β α} (h : p.Returns Q) (w : Flaky δ) :
    Q (p.flaky w).1 := by
  induction p generalizing w with
  | ret a => exact h
  | look f k ih =>
    rw [Prog.flaky]
    split
    · exact ih _ (h _) w.looked
    · exact ih _ (h _) w.looked
  | change g k ih => exact ih _ (h _) (w.changed g)
  | ask k ih => exact ih _ (h _) w.asked

/-! ### Runs without a failing look -/

def Served : Prog δ β α → Flaky δ → Prop
  | ret _, _ => True
  | look f k, w => w.fails 0 = false ∧ (k (some (f w.dev))).Served w.looked
  | change g k, w => (k true).Served (w.changed g)
  | ask k, w => (k (w.grants 0)).Served w.asked

theorem served_of_never (p : Prog δ β α) {w : Flaky δ} (h : ∀ n, w.fails n = false) :
    p.Served w := by
  induction p generalizing w with
  | ret a => trivial
  | look f k ih => exact ⟨h 0, ih _ fun n => h (n + 1)⟩
  | change g k ih => exact ih true (w := w.changed g) h
  | ask k ih => exact ih _ (w := w.asked) h

theorem flaky_of_served (p : Prog δ β α) {w : Flaky δ} (h : p.Served w) :
    (p.flaky w).1 = (p.run (World.sound w.dev w.grants)).1 ∧
      (p.flaky w).2.dev = (p.run (World.sound w.dev w.grants)).2.dev := by
  induction p generalizing w with
  | ret a => exact ⟨rfl, rfl⟩
  | look f k ih =>
    obtain ⟨hfirst, hrest⟩ := h
    rw [flaky, hfirst, if_neg Bool.false_ne_true, run, if_neg (World.not_dead_sound _ _)]
    exact ih _ hrest
  | change g k ih =>
    rw [flaky, run, if_neg (World.not_dead_sound _ _)]
    exact ih _ h
  | ask k ih => exact ih _ h

/-! ### Loops -/

theorem flaky_loop {σ ρ κ : Type} {f : κ → σ → Prog δ β (Ctl σ ρ)} {g : δ → κ → σ → Ctl σ ρ}
    (hro : ∀ i s, (f i s).ReadOnly)
    (hf : ∀ i s w, ((f i s).flaky w).1 = g w.dev i s ∨ ∃ s', ((f i s).flaky w).1 = .stop s')
    (is : List κ) (s : σ) (w : Flaky δ) :
    ((loop f is s).flaky w).1 = scan (g w.dev) is s ∨ ∃ s', ((loop f is s).flaky w).1 = .stop s' := by
  induction is generalizing s w with
  | nil => exact Or.inl rfl
  | cons i is ih =>
    rw [loop, flaky_bind, scan_cons]
    rcases hf i s w with hturn | ⟨s', hturn⟩
    · rw [hturn]
      cases g w.dev i s with
      | next s' =>
        have hrest := ih s' ((f i s).flaky w).2
        rw [(hro i s).flaky_dev w] at hrest
        exact hrest
      | stop s' => exact Or.inl rfl
      | ret r => exact Or.inl rfl
    · rw [hturn]
      exact Or.inr ⟨s', rfl⟩

/-! ### One device of several -/

section Lift

variable [DecidableEq ι]

def lift (i : ι) : Prog δ β α → Prog (ι → δ) β α
  | ret a => ret a
  | look f k => look (fun ds => f (ds i)) fun b => (k b).lift i
  | change g k => change (fun ds => update ds i (g (ds i))) fun b => (k b).lift i
  | ask k => ask fun b => (k b).lift i

theorem flaky_lift (i : ι) (p : Prog δ β α) (w : Flaky (ι → δ)) :
    (p.lift i).flaky w = ((p.flaky (w.one i)).1, w.back i (p.flaky (w.one i)).2) := by
  induction p generalizing w with
  | ret a => exact Prod.ext rfl (w.back_one i).symm
  | look f k ih =>
    rw [lift, flaky, flaky]
    by_cases hfail : w.fails 0 = true
    · rw [if_pos hfail, if_pos (show (w.one i).fails 0 = true from hfail)]
      exact ih none w.looked
    · rw [if_neg hfail, if_neg (show ¬ (w.one i).fails 0 = true from hfail)]
      exact ih _ w.looked
  | change g k ih =>
    have hrest := ih true (w.changedAt i g)
    rw [w.one_changedAt, w.back_changedAt] at hrest
    exact hrest
  | ask k ih => exact ih (w.grants 0) w.asked

theorem ReadOnly.lift {p : Prog δ β α} (hp : p.ReadOnly) (i : ι) :
    (p.lift i).ReadOnly := by
  induction p with
  | ret a => trivial
  | look f k ih => exact fun b => ih b (hp b)
  | change g k ih => exact hp.elim
  | ask k ih => exact fun b => ih b (hp b)

end Lift

end Prog

end Gemios
