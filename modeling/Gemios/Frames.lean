import Mathlib.Data.List.Basic
import Mathlib.Algebra.Ring.Nat

/-!
# Streams in frames

A stream that comes in pieces is sent in frames of one size.  Every piece is put into frames of
its own, and its last frame is filled up: what is then between the pieces, and when this is the
stream itself.
-/

namespace Gemios.Frames

variable {α : Type} (z : α) (b : Nat)

def pad (l : List α) : List α := l ++ List.replicate ((b - l.length % b) % b) z

def framed (P : List (List α)) : List α := (P.map (pad z b)).flatten

/-- Pieces of length n; only the last one may be shorter. -/
structure Cut (n : Nat) (P : List (List α)) : Prop where
  full : ∀ p ∈ P.dropLast, p.length = n
  le : ∀ p ∈ P, p.length ≤ n

@[simp] theorem framed_nil : framed z b ([] : List (List α)) = [] := rfl

@[simp] theorem framed_cons (p : List α) (P : List (List α)) :
    framed z b (p :: P) = pad z b p ++ framed z b P := rfl

theorem framed_append (P Q : List (List α)) :
    framed z b (P ++ Q) = framed z b P ++ framed z b Q := by
  unfold framed
  rw [List.map_append, List.flatten_append]

variable {z b}

/-! ### Whole frames -/

theorem pad_of_dvd {l : List α} (h : b ∣ l.length) : pad z b l = l := by
  unfold pad
  rw [Nat.mod_eq_zero_of_dvd h, Nat.sub_zero, Nat.mod_self, List.replicate_zero, List.append_nil]

theorem framed_of_dvd {P : List (List α)} (h : ∀ p ∈ P.dropLast, b ∣ p.length) :
    ∃ k, framed z b P = P.flatten ++ List.replicate k z := by
  induction P with
  | nil => exact ⟨0, rfl⟩
  | cons p P ih =>
    cases P with
    | nil =>
      refine ⟨(b - p.length % b) % b, ?_⟩
      rw [framed_cons, framed_nil, List.append_nil, List.flatten_cons, List.flatten_nil,
        List.append_nil]
      rfl
    | cons q P =>
      obtain ⟨k, hk⟩ := ih fun x hx => h x (List.mem_cons_of_mem p hx)
      refine ⟨k, ?_⟩
      rw [framed_cons, hk, pad_of_dvd (h p List.mem_cons_self), ← List.append_assoc,
        ← List.flatten_cons]

/-! ### Filled frames -/

theorem length_flatten_le (P : List (List α)) : P.flatten.length ≤ (framed z b P).length := by
  induction P with
  | nil => exact Nat.le_refl 0
  | cons p P ih =>
    rw [framed_cons, pad, List.flatten_cons, List.length_append, List.length_append,
      List.length_append]
    omega

theorem framed_filling {P : List (List α)} (h : ∀ x ∈ P.flatten, x = z) :
    ∀ x ∈ framed z b P, x = z := by
  induction P with
  | nil => exact fun x hx => absurd hx List.not_mem_nil
  | cons p P ih =>
    rw [List.flatten_cons] at h
    intro x hx
    rw [framed_cons, pad, List.append_assoc] at hx
    rcases List.mem_append.mp hx with hp | hx
    · exact h x (List.mem_append_left _ hp)
    · rcases List.mem_append.mp hx with hz | hP
      · exact List.eq_of_mem_replicate hz
      · exact ih (fun y hy => h y (List.mem_append_right _ hy)) x hP

theorem framed_delay {P : List (List α)} {j : Nat} {x : α} (h : (framed z b P)[j]? = some x) :
    x = z ∨ ∃ i ≤ j, P.flatten[i]? = some x := by
  induction P generalizing j with
  | nil => exact absurd h (by simp)
  | cons p P ih =>
    rw [framed_cons, pad, List.append_assoc] at h
    rw [List.flatten_cons]
    by_cases hp : j < p.length
    · rw [List.getElem?_append_left hp] at h
      exact .inr ⟨j, Nat.le_refl j, by rw [List.getElem?_append_left hp, h]⟩
    · rw [List.getElem?_append_right (Nat.le_of_not_lt hp)] at h
      by_cases hfill : j - p.length < (List.replicate ((b - p.length % b) % b) z).length
      · rw [List.getElem?_append_left hfill] at h
        exact .inl (List.eq_of_mem_replicate (List.mem_of_getElem? h))
      · rw [List.getElem?_append_right (Nat.le_of_not_lt hfill)] at h
        refine (ih h).imp_right fun ⟨i, hi, hx⟩ => ⟨p.length + i, by omega, ?_⟩
        rw [List.getElem?_append_right (Nat.le_add_right _ _), Nat.add_sub_cancel_left, hx]

/-! ### The stream itself -/

theorem filling_of_delayed {P : List (List α)} {d m k : Nat} (hd : 0 < d)
    (h : List.replicate d z ++ (framed z b P ++ List.replicate m z) =
      P.flatten ++ List.replicate k z) : ∀ x ∈ P.flatten, x = z := by
  have hall : ∀ (j : Nat) (x : α), P.flatten[j]? = some x → x = z := by
    intro j
    induction j using Nat.strong_induction_on with
    | _ j ih =>
      intro x hx
      have hlt : j < P.flatten.length := (List.getElem?_eq_some_iff.mp hx).1
      have hsent : (List.replicate d z ++ (framed z b P ++ List.replicate m z))[j]? = some x := by
        rw [h, List.getElem?_append_left hlt, hx]
      by_cases hj : j < (List.replicate d z).length
      · rw [List.getElem?_append_left hj] at hsent
        exact List.eq_of_mem_replicate (List.mem_of_getElem? hsent)
      · rw [List.getElem?_append_right (Nat.le_of_not_lt hj), List.length_replicate] at hsent
        rw [List.length_replicate] at hj
        by_cases hframe : j - d < (framed z b P).length
        · rw [List.getElem?_append_left hframe] at hsent
          rcases framed_delay hsent with hz | ⟨i, hi, hbefore⟩
          · exact hz
          · exact ih i (by omega) x hbefore
        · rw [List.getElem?_append_right (Nat.le_of_not_lt hframe)] at hsent
          exact List.eq_of_mem_replicate (List.mem_of_getElem? hsent)
  intro x hx
  obtain ⟨j, hj⟩ := List.mem_iff_getElem?.mp hx
  exact hall j x hj

/-- The frames, with some filling behind, are the stream with some filling behind, exactly if a
    piece is a number of whole frames or the stream is nothing but filling from the second piece
    on. -/
theorem framed_eq_iff {n : Nat} (hb : 0 < b) {P : List (List α)} (h : Cut n P) (m : Nat) :
    (∃ k, framed z b P ++ List.replicate m z = P.flatten ++ List.replicate k z) ↔
      b ∣ n ∨ ∀ x ∈ P.flatten.drop n, x = z := by
  cases P with
  | nil => exact ⟨fun _ => .inr (by simp), fun _ => ⟨m, rfl⟩⟩
  | cons p P =>
    -- from the second piece on
    have hrest : ∀ x, x ∈ (p :: P).flatten.drop n ↔ x ∈ P.flatten := by
      intro x
      rw [List.flatten_cons]
      cases P with
      | nil =>
        have hle := h.le p List.mem_cons_self
        rw [List.flatten_nil, List.append_nil, List.drop_eq_nil_of_le hle]
      | cons q P =>
        rw [← h.full p List.mem_cons_self, List.drop_left]
    simp only [hrest]
    constructor
    · rintro ⟨k, hk⟩
      by_cases hdvd : b ∣ n
      · exact .inl hdvd
      · right
        cases P with
        | nil => exact fun x hx => absurd hx (by simp)
        | cons q P =>
          rw [framed_cons, pad, List.flatten_cons, List.append_assoc, List.append_assoc,
            List.append_assoc, List.append_right_inj, h.full p List.mem_cons_self] at hk
          refine filling_of_delayed ?_ hk
          have hmod : n % b ≠ 0 := fun hzero => hdvd (Nat.dvd_of_mod_eq_zero hzero)
          have hlt := Nat.mod_lt n hb
          rw [Nat.mod_eq_of_lt (by omega)]
          omega
    · rintro (hdvd | hfill)
      · obtain ⟨k, hk⟩ := framed_of_dvd (z := z) (b := b) (P := p :: P) fun q hq => by
          rw [h.full q hq]
          exact hdvd
        exact ⟨k + m, by rw [hk, List.append_assoc, ← List.replicate_add]⟩
      · have hframed := List.eq_replicate_of_mem (framed_filling (b := b) hfill)
        have hflat := List.eq_replicate_of_mem hfill
        have hle := length_flatten_le (z := z) (b := b) P
        refine ⟨(b - p.length % b) % b + (framed z b P).length + m - P.flatten.length, ?_⟩
        rw [framed_cons, pad, List.flatten_cons, hframed]
        rw [List.append_assoc p P.flatten, hflat]
        simp only [List.append_assoc, ← List.replicate_add, List.append_right_inj,
          List.length_replicate]
        congr 1
        omega

end Gemios.Frames
