import Mathlib.Data.List.Basic

/-!
# Walks over records that carry their length

A buffer of `n` bytes holds records one after the other, and each says how long it is.  A walk
goes from record to record as long as it is inside of the buffer, and stops at one of length 0
and at one that is cut off.  It looks at the head of each record, the one where it stops included, and does something
with each whole record.  Both give the accesses that they make.
-/

namespace Gemios

variable {σ τ δ ι : Type}

section

variable (len : Nat → Nat) (n : Nat)

def WholeAt (p : Nat) : Prop := len p ≠ 0 ∧ p + len p ≤ n

instance (p : Nat) : Decidable (WholeAt len n p) := inferInstanceAs (Decidable (_ ∧ _))

/-- The walk from `p` on, with this many turns at most: what it leaves, and its accesses. -/
def recordWalk (head : Nat → List ι) (body : Nat → σ → σ × List ι) : Nat → Nat → σ → σ × List ι
  | 0, _, s => (s, [])
  | turns + 1, p, s =>
    if p < n then
      if WholeAt len n p then
        let r := recordWalk head body turns (p + len p) (body p s).1
        (r.1, head p ++ (body p s).2 ++ r.2)
      else (s, head p)
    else (s, [])

/-- Where the walk looks at a head, with the state it is in there. -/
def recordVisits (step : Nat → σ → σ) : Nat → Nat → σ → List (Nat × σ)
  | 0, _, _ => []
  | turns + 1, p, s =>
    if p < n then
      (p, s) :: if WholeAt len n p then recordVisits step turns (p + len p) (step p s) else []
    else []

def recordPositions (turns p : Nat) : List Nat :=
  (recordVisits len n (fun _ _ => ()) turns p ()).map Prod.fst

end

variable {len : Nat → Nat} {n : Nat} {head : Nat → List ι} {body : Nat → σ → σ × List ι}

theorem recordWalk_more {turns p : Nat} (s : σ) (h : n ≤ p + turns) (more : Nat) :
    recordWalk len n head body (turns + more) p s = recordWalk len n head body turns p s := by
  induction turns generalizing p s with
  | zero =>
    cases more with
    | zero => rfl
    | succ more =>
      rw [Nat.zero_add, recordWalk, recordWalk, if_neg (by omega)]
  | succ turns ih =>
    rw [Nat.succ_add, recordWalk, recordWalk]
    by_cases hp : p < n
    · rw [if_pos hp, if_pos hp]
      by_cases hwhole : WholeAt len n p
      · have hlen := Nat.pos_of_ne_zero hwhole.1
        rw [if_pos hwhole, if_pos hwhole, ih _ (by omega)]
      · rw [if_neg hwhole, if_neg hwhole]
    · rw [if_neg hp, if_neg hp]

theorem recordWalk_forall {Safe : ι → Prop} {turns p : Nat} {s : σ} :
    (∀ a ∈ (recordWalk len n head body turns p s).2, Safe a) ↔
      ∀ v ∈ recordVisits len n (fun p s => (body p s).1) turns p s,
        (∀ a ∈ head v.1, Safe a) ∧ (WholeAt len n v.1 → ∀ a ∈ (body v.1 v.2).2, Safe a) := by
  induction turns generalizing p s with
  | zero => simp [recordWalk, recordVisits]
  | succ turns ih =>
    rw [recordWalk, recordVisits]
    by_cases hp : p < n
    · rw [if_pos hp, if_pos hp]
      by_cases hwhole : WholeAt len n p
      · rw [if_pos hwhole, if_pos hwhole]
        have hparts : (∀ a ∈ head p ++ (body p s).2 ++
              (recordWalk len n head body turns (p + len p) (body p s).1).2, Safe a) ↔
            ((∀ a ∈ head p, Safe a) ∧ ∀ a ∈ (body p s).2, Safe a) ∧
              ∀ a ∈ (recordWalk len n head body turns (p + len p) (body p s).1).2, Safe a := by
          simp only [List.mem_append, or_imp, forall_and]
        rw [hparts, ih, List.forall_mem_cons]
        simp only [hwhole, forall_const]
      · rw [if_neg hwhole, if_neg hwhole]
        simp [hwhole]
    · rw [if_neg hp, if_neg hp]
      simp

theorem recordVisits_map {step : Nat → σ → σ} {step' : Nat → τ → τ} {f : σ → τ} {I : σ → Prop}
    (hI : ∀ p s, I s → I (step p s)) (h : ∀ p s, I s → f (step p s) = step' p (f s))
    (turns p : Nat) {s : σ} (hs : I s) :
    recordVisits len n step' turns p (f s) =
      (recordVisits len n step turns p s).map fun v => (v.1, f v.2) := by
  induction turns generalizing p s with
  | zero => rfl
  | succ turns ih =>
    rw [recordVisits, recordVisits]
    by_cases hp : p < n
    · rw [if_pos hp, if_pos hp]
      by_cases hwhole : WholeAt len n p
      · rw [if_pos hwhole, if_pos hwhole, ← h p s hs, ih _ (hI p s hs)]
        rfl
      · rw [if_neg hwhole, if_neg hwhole]
        rfl
    · rw [if_neg hp, if_neg hp]
      rfl

theorem recordVisits_inv {step : Nat → σ → σ} {I : σ → Prop} (h : ∀ p s, I s → I (step p s))
    {turns p : Nat} {s : σ} (hs : I s) : ∀ v ∈ recordVisits len n step turns p s, I v.2 := by
  induction turns generalizing p s with
  | zero => simp [recordVisits]
  | succ turns ih =>
    intro v hv
    rw [recordVisits] at hv
    by_cases hp : p < n
    · rw [if_pos hp] at hv
      rcases List.mem_cons.mp hv with rfl | hv
      · exact hs
      · by_cases hwhole : WholeAt len n p
        · rw [if_pos hwhole] at hv
          exact ih (h p s hs) v hv
        · rw [if_neg hwhole] at hv
          contradiction
    · rw [if_neg hp] at hv
      contradiction

theorem recordVisits_positions (step : Nat → σ → σ) (turns p : Nat) (s : σ) :
    (recordVisits len n step turns p s).map Prod.fst = recordPositions len n turns p := by
  have h : recordVisits len n (fun _ _ => ()) turns p () =
      (recordVisits len n step turns p s).map fun v => (v.1, ()) :=
    recordVisits_map (f := fun _ => ()) (I := fun _ => True) (fun _ _ _ => trivial)
      (fun _ _ _ => rfl) turns p trivial
  rw [recordPositions, h, List.map_map]
  rfl

theorem recordWalk_fst (turns p : Nat) (s : σ) :
    (recordWalk len n head body turns p s).1 =
      ((recordPositions len n turns p).filter (WholeAt len n)).foldl (fun s p => (body p s).1) s := by
  induction turns generalizing p s with
  | zero => rfl
  | succ turns ih =>
    rw [recordWalk, recordPositions, recordVisits]
    by_cases hp : p < n
    · rw [if_pos hp, if_pos hp]
      by_cases hwhole : WholeAt len n p
      · rw [if_pos hwhole, if_pos hwhole, List.map_cons, List.filter_cons_of_pos (by simpa),
          List.foldl_cons]
        exact ih _ _
      · rw [if_neg hwhole, if_neg hwhole, List.map_cons, List.filter_cons_of_neg (by simpa)]
        rfl
    · rw [if_neg hp, if_neg hp]
      rfl

theorem recordVisits_next {step : Nat → σ → σ} {turns p : Nat} {s : σ} (hturns : n ≤ p + turns)
    {v : Nat × σ} (hv : v ∈ recordVisits len n step turns p s) (hwhole : WholeAt len n v.1)
    (hmore : v.1 + len v.1 < n) : ∃ s', (v.1 + len v.1, s') ∈ recordVisits len n step turns p s := by
  induction turns generalizing p s with
  | zero => simp [recordVisits] at hv
  | succ turns ih =>
    rw [recordVisits] at hv ⊢
    by_cases hp : p < n
    · rw [if_pos hp] at hv ⊢
      rcases List.mem_cons.mp hv with rfl | hv
      · have hlen := Nat.pos_of_ne_zero hwhole.1
        simp only at hwhole hmore hlen ⊢
        rw [if_pos hwhole]
        obtain ⟨turns, rfl⟩ : ∃ t, turns = t + 1 := ⟨turns - 1, by omega⟩
        rw [recordVisits, if_pos hmore]
        exact ⟨_, List.mem_cons_of_mem _ List.mem_cons_self⟩
      · by_cases hwhole' : WholeAt len n p
        · have hlen := Nat.pos_of_ne_zero hwhole'.1
          rw [if_pos hwhole'] at hv ⊢
          obtain ⟨s', hs'⟩ := ih (by omega) hv
          exact ⟨s', List.mem_cons_of_mem _ hs'⟩
        · rw [if_neg hwhole'] at hv
          contradiction
    · rw [if_neg hp] at hv
      contradiction

/-! ### Buffers that are nothing but whole records -/

/-- From `p` to `e` there are these records. -/
inductive LaidOut (len : Nat → Nat) (IsAt : Nat → δ → Prop) : Nat → List δ → Nat → Prop where
  | nil (p : Nat) : LaidOut len IsAt p [] p
  | cons {p e : Nat} {d : δ} {ds : List δ} (here : IsAt p d) (pos : len p ≠ 0)
      (there : LaidOut len IsAt (p + len p) ds e) : LaidOut len IsAt p (d :: ds) e

theorem LaidOut.le {IsAt : Nat → δ → Prop} {p e : Nat} {ds : List δ} (h : LaidOut len IsAt p ds e) :
    p ≤ e := by
  induction h with
  | nil => exact Nat.le_refl _
  | cons _ _ _ ih => omega

theorem recordWalk_laidOut {IsAt : Nat → δ → Prop} {f : σ → τ} {step : τ → δ → τ} {I : σ → Prop}
    (hI : ∀ p s, I s → I (body p s).1)
    (h : ∀ p d s, I s → IsAt p d → f (body p s).1 = step (f s) d) {ds : List δ} {p : Nat}
    (hlaid : LaidOut len IsAt p ds n) {turns : Nat} (hturns : n ≤ p + turns) {s : σ} (hs : I s) :
    f (recordWalk len n head body turns p s).1 = ds.foldl step (f s) ∧
      I (recordWalk len n head body turns p s).1 := by
  induction ds generalizing p turns s with
  | nil =>
    cases hlaid
    cases turns with
    | zero => exact ⟨rfl, hs⟩
    | succ turns =>
      rw [recordWalk, if_neg (Nat.lt_irrefl _)]
      exact ⟨rfl, hs⟩
  | cons d ds ih =>
    cases hlaid with
    | cons here pos there =>
      have hle := there.le
      have hlen := Nat.pos_of_ne_zero pos
      obtain ⟨turns, rfl⟩ : ∃ t, turns = t + 1 := ⟨turns - 1, by omega⟩
      rw [recordWalk, if_pos (by omega), if_pos ⟨pos, hle⟩, List.foldl_cons, ← h p d s hs here]
      exact ih there (by omega) (hI p s hs)

end Gemios
