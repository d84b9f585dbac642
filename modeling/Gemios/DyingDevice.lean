import Gemios.Loop

/-!
# Programs over a device that can die

A program looks at a device, changes it and asks for memory, one operation after the
other.  The device serves some number of operations and then fails every further one;
the requests for memory are granted or denied one by one.

A program that looks before it changes anything has a part up to its first change, which
is a program of its own and tells from the state before the call whether that change goes
through: `Quiet` says what holds when it does not, `Leaves` what holds when it does.
-/

namespace Gemios

/-- A program over a device that holds a `δ`: it returns, looks at the device (`none`
    is an error), changes it (`false` is an error), or asks for memory. -/
inductive Prog (δ β α : Type) : Type where
  | ret (a : α)
  | look (f : δ → β) (k : Option β → Prog δ β α)
  | change (g : δ → δ) (k : Bool → Prog δ β α)
  | ask (k : Bool → Prog δ β α)

/-- The device, the number of operations it still serves (`none`: it never dies), and
    the answers to the next requests for memory. -/
structure World (δ : Type) where
  dev : δ
  left : Option Nat
  grants : Nat → Bool

namespace World

variable {δ : Type}

def Dead (w : World δ) : Prop := w.left = some 0

instance (w : World δ) : Decidable w.Dead := inferInstanceAs (Decidable (_ = _))

def spend (w : World δ) : World δ := { w with left := w.left.map (· - 1) }

def asked (w : World δ) : World δ := { w with grants := fun n => w.grants (n + 1) }

def immortal (w : World δ) : World δ := { w with left := none }

def sound (d : δ) (grants : Nat → Bool) : World δ := ⟨d, none, grants⟩

@[simp] theorem spend_dev (w : World δ) : w.spend.dev = w.dev := rfl

@[simp] theorem asked_dev (w : World δ) : w.asked.dev = w.dev := rfl

@[simp] theorem sound_dev (d : δ) (g : Nat → Bool) : (sound d g).dev = d := rfl

@[simp] theorem sound_grants (d : δ) (g : Nat → Bool) : (sound d g).grants = g := rfl

@[simp] theorem not_dead_sound (d : δ) (g : Nat → Bool) : ¬ (sound d g).Dead := by
  intro h
  cases h

@[simp] theorem sound_spend (d : δ) (g : Nat → Bool) : (sound d g).spend = sound d g := rfl

@[simp] theorem sound_asked (d : δ) (g : Nat → Bool) :
    (sound d g).asked = sound d fun n => g (n + 1) := rfl

theorem immortal_eq (w : World δ) : w.immortal = sound w.dev w.grants := rfl

theorem not_dead_immortal (w : World δ) : ¬ w.immortal.Dead := not_dead_sound _ _

end World

namespace Prog

variable {δ β α γ : Type}

/-! ### Sequencing -/

def bind : Prog δ β α → (α → Prog δ β γ) → Prog δ β γ
  | ret a, h => h a
  | look f k, h => look f fun b => (k b).bind h
  | change g k, h => change g fun b => (k b).bind h
  | ask k, h => ask fun b => (k b).bind h

instance : Monad (Prog δ β) where
  pure := ret
  bind := bind

@[simp] theorem pure_bind (a : α) (h : α → Prog δ β γ) : (pure a : Prog δ β α) >>= h = h a := rfl

theorem bind_assoc {ε : Type} (p : Prog δ β α) (h : α → Prog δ β γ) (h' : γ → Prog δ β ε) :
    p >>= h >>= h' = p >>= fun a => h a >>= h' := by
  induction p with
  | ret a => rfl
  | look f k ih => exact congrArg (look f) (funext ih)
  | change g k ih => exact congrArg (change g) (funext ih)
  | ask k ih => exact congrArg ask (funext ih)

def read (f : δ → β) : Prog δ β (Option β) := look f ret

def write (g : δ → δ) : Prog δ β Bool := change g ret

def alloc : Prog δ β Bool := ask ret

/-! ### Runs -/

/-- The result and the world after the program. -/
def run : Prog δ β α → World δ → α × World δ
  | ret a, w => (a, w)
  | look f k, w =>
    if w.Dead then (k none).run w else (k (some (f w.dev))).run w.spend
  | change g k, w =>
    if w.Dead then (k false).run w else (k true).run { w.spend with dev := g w.dev }
  | ask k, w => (k (w.grants 0)).run w.asked

@[simp] theorem run_pure (a : α) (w : World δ) : (pure a : Prog δ β α).run w = (a, w) := rfl

theorem run_bind (p : Prog δ β α) (h : α → Prog δ β γ) (w : World δ) :
    (p >>= h).run w = (h (p.run w).1).run (p.run w).2 := by
  induction p generalizing w with
  | ret a => rfl
  | look f k ih =>
    show (look f fun b => k b >>= h).run w = _
    rw [run, run]
    split
    · exact ih none w
    · exact ih (some (f w.dev)) w.spend
  | change g k ih =>
    show (change g fun b => k b >>= h).run w = _
    rw [run, run]
    split
    · exact ih false w
    · exact ih true { w.spend with dev := g w.dev }
  | ask k ih => exact ih (w.grants 0) w.asked

theorem run_map (h : α → γ) (p : Prog δ β α) (w : World δ) :
    (h <$> p).run w = (h (p.run w).1, (p.run w).2) := run_bind p _ w

theorem run_read_dead (f : δ → β) {w : World δ} (hw : w.Dead) :
    (read f).run w = (none, w) := if_pos hw

theorem run_read (f : δ → β) {w : World δ} (hw : ¬ w.Dead) :
    (read f).run w = (some (f w.dev), w.spend) := if_neg hw

theorem run_write_dead (g : δ → δ) {w : World δ} (hw : w.Dead) :
    (write g : Prog δ β Bool).run w = (false, w) := if_pos hw

theorem run_write (g : δ → δ) {w : World δ} (hw : ¬ w.Dead) :
    (write g : Prog δ β Bool).run w = (true, { w.spend with dev := g w.dev }) := if_neg hw

@[simp] theorem run_alloc (w : World δ) :
    (alloc : Prog δ β Bool).run w = (w.grants 0, w.asked) := rfl

theorem run_dead (p : Prog δ β α) {w : World δ} (hw : w.Dead) :
    (p.run w).2.dev = w.dev ∧ (p.run w).2.Dead := by
  induction p generalizing w with
  | ret a => exact ⟨rfl, hw⟩
  | look f k ih =>
    rw [run, if_pos hw]
    exact ih none hw
  | change g k ih =>
    rw [run, if_pos hw]
    exact ih false hw
  | ask k ih => exact ih (w.grants 0) (w := w.asked) hw

theorem run_immortal (p : Prog δ β α) (w : World δ) (hw : ¬ (p.run w).2.Dead) :
    (p.run w).1 = (p.run w.immortal).1 ∧ (p.run w).2.immortal = (p.run w.immortal).2 := by
  induction p generalizing w with
  | ret a => exact ⟨rfl, rfl⟩
  | look f k ih =>
    by_cases hd : w.Dead
    · exact absurd (run_dead _ hd).2 hw
    · rw [run, if_neg hd] at hw ⊢
      rw [run, if_neg w.not_dead_immortal]
      exact ih _ _ hw
  | change g k ih =>
    by_cases hd : w.Dead
    · exact absurd (run_dead _ hd).2 hw
    · rw [run, if_neg hd] at hw ⊢
      rw [run, if_neg w.not_dead_immortal]
      exact ih _ _ hw
  | ask k ih => exact ih _ w.asked hw

/-! ### Programs that change nothing -/

/-- No change occurs, whatever the answers are. -/
def ReadOnly : Prog δ β α → Prop
  | ret _ => True
  | look _ k => ∀ b, (k b).ReadOnly
  | change _ _ => False
  | ask k => ∀ b, (k b).ReadOnly

theorem readOnly_pure (a : α) : (pure a : Prog δ β α).ReadOnly := trivial

theorem readOnly_read (f : δ → β) : (read f).ReadOnly := fun _ => trivial

theorem readOnly_alloc : (alloc : Prog δ β Bool).ReadOnly := fun _ => trivial

theorem ReadOnly.bind {p : Prog δ β α} {h : α → Prog δ β γ} (hp : p.ReadOnly)
    (hh : ∀ a, (h a).ReadOnly) : (p >>= h).ReadOnly := by
  induction p with
  | ret a => exact hh a
  | look f k ih => exact fun b => ih b (hp b)
  | change g k ih => exact hp.elim
  | ask k ih => exact fun b => ih b (hp b)

theorem ReadOnly.map {p : Prog δ β α} (hp : p.ReadOnly) (h : α → γ) : (h <$> p).ReadOnly :=
  hp.bind fun _ => readOnly_pure _

theorem ReadOnly.ite {c : Prop} [Decidable c] {p q : Prog δ β α} (hp : p.ReadOnly)
    (hq : q.ReadOnly) : (if c then p else q).ReadOnly := by
  split
  · exact hp
  · exact hq

theorem ReadOnly.run_dev {p : Prog δ β α} (hp : p.ReadOnly) (w : World δ) :
    (p.run w).2.dev = w.dev := by
  induction p generalizing w with
  | ret a => rfl
  | look f k ih =>
    rw [run]
    split
    · exact ih none (hp none) w
    · exact ih _ (hp _) w.spend
  | change g k ih => exact hp.elim
  | ask k ih => exact ih _ (hp _) w.asked

theorem ReadOnly.run_sound {p : Prog δ β α} (hp : p.ReadOnly) (d : δ) (g : Nat → Bool) :
    ∃ g', (p.run (World.sound d g)).2 = World.sound d g' := by
  induction p generalizing g with
  | ret a => exact ⟨g, rfl⟩
  | look f k ih => exact ih _ (hp _) g
  | change h k ih => exact hp.elim
  | ask k ih => exact ih _ (hp _) fun n => g (n + 1)

/-! ### What a program keeps -/

/-- From a device that satisfies `I` the program ends with one that does, and with a
    result that satisfies `Q`. -/
def Keeps (I : δ → Prop) (p : Prog δ β α) (Q : α → Prop) : Prop :=
  ∀ w, I w.dev → I (p.run w).2.dev ∧ Q (p.run w).1

section Keeps

variable {I : δ → Prop}

theorem keeps_pure {a : α} {Q : α → Prop} (h : Q a) : (pure a : Prog δ β α).Keeps I Q :=
  fun _ hw => ⟨hw, h⟩

theorem Keeps.bind {p : Prog δ β α} {h : α → Prog δ β γ} {Q : α → Prop} {R : γ → Prop}
    (hp : p.Keeps I Q) (hh : ∀ a, Q a → (h a).Keeps I R) : (p >>= h).Keeps I R := by
  intro w hw
  obtain ⟨h1, h2⟩ := hp w hw
  rw [run_bind]
  exact hh _ h2 _ h1

theorem Keeps.mono {p : Prog δ β α} {Q Q' : α → Prop} (hp : p.Keeps I Q) (h : ∀ a, Q a → Q' a) :
    p.Keeps I Q' := fun w hw => ⟨(hp w hw).1, h _ (hp w hw).2⟩

theorem ReadOnly.keeps {p : Prog δ β α} (hp : p.ReadOnly) (I : δ → Prop) :
    p.Keeps I fun _ => True := by
  intro w hw
  rw [hp.run_dev]
  exact ⟨hw, trivial⟩

theorem keeps_write {g : δ → δ} (h : ∀ d, I d → I (g d)) :
    (write g : Prog δ β Bool).Keeps I fun _ => True := by
  intro w hw
  by_cases hd : w.Dead
  · rw [run_write_dead g hd]
    exact ⟨hw, trivial⟩
  · rw [run_write g hd]
    exact ⟨h _ hw, trivial⟩

end Keeps

/-! ### Loops -/

section Loop

variable {ι σ ρ : Type}

def loop (f : ι → σ → Prog δ β (Ctl σ ρ)) : List ι → σ → Prog δ β (Ctl σ ρ)
  | [], s => pure (.next s)
  | i :: is, s => do
    match ← f i s with
    | .next s' => loop f is s'
    | .stop s' => pure (.stop s')
    | .ret r => pure (.ret r)

theorem readOnly_loop {f : ι → σ → Prog δ β (Ctl σ ρ)} (hf : ∀ i s, (f i s).ReadOnly) :
    ∀ (is : List ι) (s : σ), (loop f is s).ReadOnly := by
  intro is
  induction is with
  | nil =>
    intro s
    exact readOnly_pure _
  | cons i is ih =>
    intro s
    refine (hf i s).bind fun c => ?_
    cases c with
    | next s' => exact ih s'
    | stop s' => exact readOnly_pure _
    | ret r => exact readOnly_pure _

/-- **Loop rule.**  What every turn keeps, the loop keeps. -/
theorem keeps_loop {I : δ → Prop} {J : σ → Prop} {R : ρ → Prop}
    {f : ι → σ → Prog δ β (Ctl σ ρ)} {is : List ι}
    (hstep : ∀ i ∈ is, ∀ s, J s → (f i s).Keeps I (Ctl.Sat J R)) {s : σ} (hs : J s) :
    (loop f is s).Keeps I (Ctl.Sat J R) := by
  induction is generalizing s with
  | nil => exact keeps_pure hs
  | cons i is ih =>
    refine (hstep i (by simp) s hs).bind fun c hc => ?_
    cases c with
    | next s' => exact ih (fun j hj => hstep j (by simp [hj])) hc
    | stop s' => exact keeps_pure hc
    | ret r => exact keeps_pure hc

theorem run_loop {f : ι → σ → Prog δ β (Ctl σ ρ)} {g : ι → σ → Ctl σ ρ} {w : World δ}
    (hf : ∀ i s, (f i s).run w = (g i s, w)) (is : List ι) (s : σ) :
    (loop f is s).run w = (scan g is s, w) := by
  induction is generalizing s with
  | nil => rfl
  | cons i is ih =>
    rw [loop, run_bind, hf, scan_cons]
    cases g i s with
    | next s' => exact ih s'
    | stop s' => rfl
    | ret r => rfl

end Loop

/-! ### The first change of a program -/

section FirstChange

variable {κ : Type} {d : δ}

/-- The change the program `front` comes to on a device that still serves it. -/
def reached (front : Prog δ β (Option κ)) (w : World δ) : Option κ :=
  if (front.run w).2.Dead then none else (front.run w).1

theorem reached_dead (front : Prog δ β (Option κ)) {w : World δ} (hw : w.Dead) :
    reached front w = none := if_pos (run_dead front hw).2

theorem reached_bind (q : Prog δ β γ) (f : γ → Prog δ β (Option κ)) (w : World δ) :
    reached (q >>= f) w = reached (f (q.run w).1) (q.run w).2 := by
  rw [reached, reached, run_bind]

theorem reached_some (k : κ) {w : World δ} (hw : ¬ w.Dead) :
    reached (pure (some k) : Prog δ β (Option κ)) w = some k := if_neg hw

theorem reached_none (w : World δ) : reached (pure none : Prog δ β (Option κ)) w = none := by
  unfold reached
  split <;> rfl

/-- When `front` comes to no change on a device that holds `d`, then `p` changes
    nothing. -/
def Quiet (d : δ) (front : Prog δ β (Option κ)) (p : Prog δ β α) : Prop :=
  ∀ w, w.dev = d → reached front w = none → (p.run w).2.dev = d

/-- When `front` comes to a change of kind `k`, then `p` leaves a device with `K k` and
    a result with `R`. -/
def Leaves (d : δ) (K : κ → δ → Prop) (R : α → Prop) (front : Prog δ β (Option κ))
    (p : Prog δ β α) : Prop :=
  ∀ w, w.dev = d → ∀ k, reached front w = some k → K k (p.run w).2.dev ∧ R (p.run w).1

theorem quiet_none {p : Prog δ β α} (hp : p.ReadOnly) :
    Quiet d (pure none : Prog δ β (Option κ)) p := fun w hw _ => (hp.run_dev w).trans hw

theorem quiet_some (k : κ) (p : Prog δ β α) : Quiet d (pure (some k)) p := by
  intro w hw hnone
  by_cases hd : w.Dead
  · exact (run_dead p hd).1.trans hw
  · rw [reached_some k hd] at hnone
    cases hnone

theorem Quiet.bind {q : Prog δ β γ} {f : γ → Prog δ β (Option κ)} {h : γ → Prog δ β α}
    {Q : γ → Prop} (hq : q.ReadOnly) (hQ : ∀ w, w.dev = d → Q (q.run w).1)
    (hh : ∀ a, Q a → Quiet d (f a) (h a)) : Quiet d (q >>= f) (q >>= h) := by
  intro w hw hnone
  rw [reached_bind] at hnone
  rw [run_bind]
  exact hh _ (hQ w hw) _ ((hq.run_dev w).trans hw) hnone

section Leaves

variable {K : κ → δ → Prop} {R : α → Prop}

theorem leaves_none (p : Prog δ β α) : Leaves d K R (pure none) p := by
  intro w _ k hk
  rw [reached_none] at hk
  cases hk

theorem leaves_some {k : κ} {p : Prog δ β α}
    (hp : ∀ w, w.dev = d → ¬ w.Dead → K k (p.run w).2.dev ∧ R (p.run w).1) :
    Leaves d K R (pure (some k)) p := by
  intro w hw k' hk
  by_cases hd : w.Dead
  · rw [reached_dead _ hd] at hk
    cases hk
  · rw [reached_some k hd] at hk
    obtain rfl := Option.some.inj hk
    exact hp w hw hd

theorem Leaves.bind {q : Prog δ β γ} {f : γ → Prog δ β (Option κ)} {h : γ → Prog δ β α}
    {Q : γ → Prop} (hq : q.ReadOnly) (hQ : ∀ g, Q (q.run (World.sound d g)).1)
    (hh : ∀ a, Q a → Leaves d K R (f a) (h a)) : Leaves d K R (q >>= f) (q >>= h) := by
  intro w hw k hk
  rw [reached_bind] at hk
  rw [run_bind]
  by_cases hd : (q.run w).2.Dead
  · rw [reached_dead _ hd] at hk
    cases hk
  · have hfind : Q (q.run w).1 := by
      rw [(run_immortal q w hd).1, World.immortal_eq, hw]
      exact hQ w.grants
    exact hh _ hfind _ ((hq.run_dev w).trans hw) k hk

theorem Leaves.after {front : Prog δ β (Option κ)} {p : Prog δ β α} {h : α → Prog δ β γ}
    {R' : γ → Prop} (hp : Leaves d K R front p) (hR : ∀ k a, R a → (h a).Keeps (K k) R') :
    Leaves d K R' front (p >>= h) := by
  intro w hw k hk
  obtain ⟨hK, ha⟩ := hp w hw k hk
  rw [run_bind]
  exact hR k _ ha _ hK

end Leaves

end FirstChange

end Prog

end Gemios
