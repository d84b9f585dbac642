import Mathlib.Logic.Function.Basic
import Mathlib.Data.List.Basic

/-!
# LinkedFrom queues

A queue kept as a pointer to its first element, a pointer to its last one and one link
in each element.  The links of other elements are free, so several queues can share one
link field.
-/

namespace Gemios

open Function

section

variable {α : Type} {next : α → Option α} {head tail : Option α} {q : List α} {a : α}

/-- From `head` along the links one meets the elements of `q`, and then the end. -/
def LinkedFrom (next : α → Option α) : Option α → List α → Prop
  | head, [] => head = none
  | head, a :: q => head = some a ∧ LinkedFrom next (next a) q

theorem LinkedFrom.congr {next' : α → Option α} (h : LinkedFrom next head q)
    (heq : ∀ a ∈ q, next' a = next a) : LinkedFrom next' head q := by
  induction q generalizing head with
  | nil => exact h
  | cons a q ih =>
    refine ⟨h.1, ?_⟩
    rw [heq a List.mem_cons_self]
    exact ih h.2 fun b hb => heq b (List.mem_cons_of_mem a hb)

/-- The elements that one meets from `head` along the links. -/
inductive LinkReach (next : α → Option α) (head : Option α) : α → Prop
  | head {a : α} (h : head = some a) : LinkReach next head a
  | next {a b : α} (h : LinkReach next head a) (hn : next a = some b) : LinkReach next head b

theorem LinkReach.cons {b : α} (h : LinkReach next (next a) b) (ha : head = some a) :
    LinkReach next head b := by
  induction h with
  | head hb => exact .next (.head ha) hb
  | next _ hn ih => exact .next ih hn

theorem LinkedFrom.next_mem {b : α} (h : LinkedFrom next head q) (ha : a ∈ q)
    (hb : next a = some b) : b ∈ q := by
  induction q generalizing head with
  | nil => cases ha
  | cons c q ih =>
    rcases List.mem_cons.mp ha with rfl | ha
    · cases q with
      | nil => cases h.2.symm.trans hb
      | cons d q =>
        cases h.2.1.symm.trans hb
        exact List.mem_cons_of_mem a List.mem_cons_self
    · exact List.mem_cons_of_mem c (ih h.2 ha)

theorem LinkedFrom.mem_iff (h : LinkedFrom next head q) : a ∈ q ↔ LinkReach next head a := by
  constructor
  · intro ha
    induction q generalizing head with
    | nil => cases ha
    | cons b q ih =>
      rcases List.mem_cons.mp ha with rfl | ha
      · exact .head h.1
      · exact (ih h.2 ha).cons h.1
  · intro hr
    induction hr with
    | head ha =>
      cases q with
      | nil => cases h.symm.trans ha
      | cons b q =>
        cases h.1.symm.trans ha
        exact List.mem_cons_self
    | next _ hn ih => exact h.next_mem ih hn

/-- The queue `q` behind the pointers `head` and `tail`. -/
structure LinkedQueue (next : α → Option α) (head tail : Option α) (q : List α) : Prop where
  linked : LinkedFrom next head q
  tail_eq : tail = q.getLast?

namespace LinkedQueue

theorem empty (next : α → Option α) : LinkedQueue next none none [] := ⟨rfl, rfl⟩

theorem head_eq (h : LinkedQueue next head tail q) : head = q.head? := by
  cases q with
  | nil => exact h.linked
  | cons a q => exact h.linked.1

theorem congr {next' : α → Option α} (h : LinkedQueue next head tail q)
    (heq : ∀ a ∈ q, next' a = next a) : LinkedQueue next' head tail q :=
  ⟨h.linked.congr heq, h.tail_eq⟩

theorem tail_of_cons (h : LinkedQueue next head tail (a :: q)) :
    LinkedQueue next (next a) (if next a = none then none else tail) q := by
  refine ⟨h.linked.2, ?_⟩
  cases q with
  | nil =>
    have hnone : next a = none := h.linked.2
    rw [if_pos hnone]
    rfl
  | cons b q =>
    have hsome : next a = some b := h.linked.2.1
    rw [if_neg (by rw [hsome]; exact Option.some_ne_none b), h.tail_eq, List.getLast?_cons_cons]

variable [DecidableEq α]

theorem linked_snoc {l : α} (h : LinkedFrom next head (q ++ [l])) (hnd : (q ++ [l]).Nodup)
    (ha : a ∉ q ++ [l]) :
    LinkedFrom (update (update next a none) l (some a)) head (q ++ [l] ++ [a]) := by
  have hla : a ≠ l := fun heq => ha (by rw [heq]; exact List.mem_append_right q List.mem_cons_self)
  induction q generalizing head with
  | nil =>
    refine ⟨h.1, ?_, ?_⟩
    · rw [update_self]
    · rw [update_of_ne hla, update_self]
      rfl
  | cons b q ih =>
    rw [List.cons_append, List.nodup_cons] at hnd
    rw [List.cons_append, List.mem_cons, not_or] at ha
    have hbl : b ≠ l := fun heq =>
      hnd.1 (by rw [heq]; exact List.mem_append_right q List.mem_cons_self)
    refine ⟨h.1, ?_⟩
    rw [update_of_ne hbl, update_of_ne (Ne.symm ha.1)]
    exact ih h.2 hnd.2 ha.2

theorem snoc {l : α} (h : LinkedQueue next head (some l) q) (hnd : q.Nodup) (ha : a ∉ q) :
    LinkedQueue (update (update next a none) l (some a)) head (some a)
      (q ++ [a]) := by
  obtain ⟨q', rfl⟩ : ∃ q', q = q' ++ [l] := by
    have hlast := h.tail_eq.symm
    obtain ⟨q', hq⟩ := List.getLast?_eq_some_iff.mp hlast
    exact ⟨q', hq⟩
  refine ⟨linked_snoc h.linked hnd ha, ?_⟩
  rw [List.getLast?_append]
  rfl

theorem single (next : α → Option α) (a : α) :
    LinkedQueue (update next a none) (some a) (some a) [a] := by
  refine ⟨⟨rfl, ?_⟩, rfl⟩
  rw [update_self]
  rfl

end LinkedQueue

end

end Gemios
