import Mathlib.Data.Finset.Card
import Mathlib.Data.Finset.Filter
import Mathlib.Logic.Relation

/-!
# Ranks of a finite relation

Where a relation has no cycle, each step loses a descendant: the number of descendants
within a finite set is a rank that every step lowers.
-/

namespace Gemios

variable {α : Type}

open Classical in
/-- What `r` leads to from `a`, within `s`. -/
noncomputable def descendants (r : α → α → Prop) (s : Finset α) (a : α) : Finset α :=
  s.filter fun b => Relation.TransGen r a b

section

variable {r : α → α → Prop} {s : Finset α} {a b : α}

theorem mem_descendants : b ∈ descendants r s a ↔ b ∈ s ∧ Relation.TransGen r a b := by
  classical
  exact Finset.mem_filter

theorem descendants_ssubset (hb : b ∈ s) (hacyclic : ¬ Relation.TransGen r b b) (h : r a b) :
    descendants r s b ⊂ descendants r s a := by
  rw [Finset.ssubset_iff_of_subset]
  · refine ⟨b, mem_descendants.mpr ⟨hb, Relation.TransGen.single h⟩, ?_⟩
    intro hself
    exact hacyclic (mem_descendants.mp hself).2
  · intro x hx
    obtain ⟨hxs, hbx⟩ := mem_descendants.mp hx
    exact mem_descendants.mpr ⟨hxs, Relation.TransGen.head h hbx⟩

theorem card_descendants_lt_of_rel (hb : b ∈ s) (hacyclic : ¬ Relation.TransGen r b b)
    (h : r a b) : (descendants r s b).card < (descendants r s a).card :=
  Finset.card_lt_card (descendants_ssubset hb hacyclic h)

theorem card_descendants_lt (ha : a ∈ s) (hacyclic : ¬ Relation.TransGen r a a) :
    (descendants r s a).card < s.card := by
  apply Finset.card_lt_card
  rw [Finset.ssubset_iff_of_subset fun x hx => (mem_descendants.mp hx).1]
  exact ⟨a, ha, fun hself => hacyclic (mem_descendants.mp hself).2⟩

end

end Gemios
