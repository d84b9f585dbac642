/-!
# Copying in pieces

A block of cells that is copied at once, and the same block copied piece by piece, upwards or
downwards.  The pieces may have any size: what counts is that no piece writes where a later one
reads.
-/

namespace Gemios

variable {α : Type}

/-- The memory after the `n` cells from `src` on were copied to `dst` at once. -/
def copied (mem : Nat → α) (dst src n : Nat) : Nat → α := fun a =>
  if dst ≤ a ∧ a < dst + n then mem (src + (a - dst)) else mem a

/-- Upward copying does not write what it has still to read. -/
def Upward (dst src n : Nat) : Prop := dst ≤ src ∨ src + n ≤ dst

variable {mem : Nat → α} {dst src n w a : Nat}

theorem copied_inside (h : a < n) : copied mem dst src n (dst + a) = mem (src + a) := by
  rw [copied, if_pos ⟨Nat.le_add_right _ _, Nat.add_lt_add_left h _⟩, Nat.add_sub_cancel_left]

theorem copied_outside (h : a < dst ∨ dst + n ≤ a) : copied mem dst src n a = mem a := by
  rw [copied, if_neg (by omega)]

@[simp] theorem copied_zero : copied mem dst src 0 = mem := by
  funext a
  exact copied_outside (by omega)

theorem Upward.rest (h : Upward dst src (w + n)) : Upward (dst + w) (src + w) n := by
  unfold Upward at *
  omega

theorem copied_upward (h : Upward dst src (w + n)) :
    copied (copied mem dst src w) (dst + w) (src + w) n = copied mem dst src (w + n) := by
  unfold Upward at h
  funext a
  by_cases hfirst : dst ≤ a ∧ a < dst + w
  · obtain ⟨i, rfl⟩ := Nat.exists_eq_add_of_le hfirst.1
    rw [copied_outside (by omega), copied_inside (by omega), copied_inside (by omega)]
  · by_cases hrest : dst + w ≤ a ∧ a < dst + w + n
    · obtain ⟨i, rfl⟩ := Nat.exists_eq_add_of_le hrest.1
      have hread : copied mem dst src w (src + w + i) = mem (src + w + i) :=
        copied_outside (by omega)
      rw [copied_inside (by omega), hread, Nat.add_assoc, Nat.add_assoc,
        copied_inside (by omega)]
    · rw [copied_outside (by omega), copied_outside (by omega), copied_outside (by omega)]

theorem copied_downward (h : src ≤ dst) :
    copied (copied mem (dst + n) (src + n) w) dst src n = copied mem dst src (n + w) := by
  funext a
  by_cases hlast : dst + n ≤ a ∧ a < dst + n + w
  · obtain ⟨i, rfl⟩ := Nat.exists_eq_add_of_le hlast.1
    rw [copied_outside (by omega), copied_inside (by omega), Nat.add_assoc, Nat.add_assoc,
      copied_inside (by omega)]
  · by_cases hrest : dst ≤ a ∧ a < dst + n
    · obtain ⟨i, rfl⟩ := Nat.exists_eq_add_of_le hrest.1
      have hread : copied mem (dst + n) (src + n) w (src + i) = mem (src + i) :=
        copied_outside (by omega)
      rw [copied_inside (by omega), hread, copied_inside (by omega)]
    · rw [copied_outside (by omega), copied_outside (by omega), copied_outside (by omega)]

end Gemios
