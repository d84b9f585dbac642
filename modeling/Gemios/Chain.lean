import Mathlib.Data.List.Basic
import Mathlib.Data.List.Nodup

/-!
# Chains of links

A list of nodes that follow each other through a successor function, up to a node
whose successor is an end mark.  Nothing here depends on what the nodes are.
-/

namespace Gemios

variable {α : Type}

/-- The nodes of the list are linked in order and the last one is an end. -/
def Linked (next : α → α) (stop : α → Prop) : List α → Prop
  | [] => True
  | [c] => stop (next c)
  | c :: c' :: L => next c = c' ∧ Linked next stop (c' :: L)

section

variable {next next' : α → α} {stop : α → Prop}

theorem Linked.tail {c : α} {L : List α} (h : Linked next stop (c :: L)) : Linked next stop L := by
  cases L with
  | nil => trivial
  | cons c' L => exact h.2

theorem linked_singleton {c : α} : Linked next stop [c] ↔ stop (next c) := Iff.rfl

theorem Linked.congr {L : List α} (h : Linked next stop L) (heq : ∀ c ∈ L, next' c = next c) :
    Linked next' stop L := by
  induction L with
  | nil => trivial
  | cons c L ih =>
    cases L with
    | nil =>
      rw [linked_singleton, heq c (by simp)]
      exact h
    | cons c' L =>
      refine ⟨(heq c (by simp)).trans h.1, ih h.2 fun x hx => heq x (by simp [hx])⟩

theorem Linked.cons {c c' : α} {L : List α} (hc : next c = c')
    (h : Linked next stop (c' :: L)) : Linked next stop (c :: c' :: L) := ⟨hc, h⟩

end

end Gemios
