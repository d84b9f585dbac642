import Gemios.CycleRing

/-!
# Rings with cycle bits and no link

Both sides of the ring go back to its start after the last slot and flip their bits there.  What
is put in has positions 0, 1, 2, … without end: position `n` is slot `n % slots` of lap
`n / slots`, and its bit is the one of the lap.
-/

namespace Gemios

open Function

def lapPlace (slots n : Nat) : Reader := ⟨n % slots, lapBit (n / slots)⟩

def Reader.advance (slots : Nat) (c : Reader) : Reader :=
  if c.idx + 1 ≥ slots then ⟨0, !c.cycle⟩ else ⟨c.idx + 1, c.cycle⟩

theorem advance_lapPlace {slots : Nat} (hpos : 0 < slots) (n : Nat) :
    (lapPlace slots n).advance slots = lapPlace slots (n + 1) := by
  have hn : slots * (n / slots) + n % slots = n := Nat.div_add_mod n slots
  have hlt : n % slots < slots := Nat.mod_lt n hpos
  rw [Reader.advance]
  by_cases hlast : (lapPlace slots n).idx + 1 ≥ slots
  · have hnext : n + 1 = slots * (n / slots + 1) := by
      have : n % slots + 1 ≥ slots := hlast
      rw [Nat.mul_add, Nat.mul_one]
      omega
    rw [if_pos hlast]
    simp only [lapPlace]
    rw [hnext, Nat.mul_mod_right, Nat.mul_div_cancel_left _ hpos, lapBit_succ]
  · have hroom : n % slots + 1 < slots := Nat.lt_of_not_ge hlast
    have hnext : n + 1 = n % slots + 1 + slots * (n / slots) := by omega
    rw [if_neg hlast]
    simp only [lapPlace]
    rw [hnext, Nat.add_mul_mod_self_left, Nat.mod_eq_of_lt hroom,
      Nat.add_mul_div_left _ _ hpos, Nat.div_eq_of_lt hroom, Nat.zero_add]

theorem lapPlace_add_slots {slots : Nat} (hpos : 0 < slots) (n : Nat) :
    lapPlace slots (n + slots) = ⟨(lapPlace slots n).idx, !(lapPlace slots n).cycle⟩ := by
  simp only [lapPlace, Nat.add_mod_right, Nat.add_div_right n hpos, lapBit_succ]

section

variable {α : Type} (bit : α → Bool)

/-- The memory of a ring after `sent` was put into it: the last lap of it, over slots with a clear
    bit. -/
structure LapWritten (slots : Nat) (mem : Nat → α) (sent : List α) : Prop where
  bits : ∀ (k : Nat) (a : α), sent[k]? = some a → bit a = lapBit (k / slots)
  last : ∀ (k : Nat) (a : α), sent[k]? = some a → sent.length ≤ k + slots → mem (k % slots) = a
  clear : ∀ i < slots, sent.length ≤ i → bit (mem i) = false

namespace LapWritten

variable {bit} {slots : Nat} {mem : Nat → α} {sent : List α}

theorem nil (hclear : ∀ i < slots, bit (mem i) = false) : LapWritten bit slots mem [] :=
  ⟨by simp, by simp, fun i hi _ => hclear i hi⟩

theorem put (h : LapWritten bit slots mem sent) {a : α}
    (hbit : bit a = (lapPlace slots sent.length).cycle) :
    LapWritten bit slots (update mem (lapPlace slots sent.length).idx a) (sent ++ [a]) := by
  -- an element of the list is an old one, or the new one
  have hcases : ∀ (k : Nat) (b : α), (sent ++ [a])[k]? = some b →
      (sent[k]? = some b ∧ k < sent.length) ∨ (k = sent.length ∧ b = a) := by
    intro k b hk
    rw [List.getElem?_append] at hk
    split at hk
    · rename_i hlt
      exact .inl ⟨hk, hlt⟩
    · rename_i hge
      have hk' := List.getElem?_eq_some_iff.mp hk
      obtain ⟨hlt, hb⟩ := hk'
      simp only [List.length_singleton, Nat.lt_one_iff] at hlt
      simp only [hlt, List.getElem_cons_zero] at hb
      exact .inr ⟨by omega, hb.symm⟩
  refine ⟨fun k b hk => ?_, fun k b hk hlen => ?_, fun i hi hlen => ?_⟩
  · rcases hcases k b hk with ⟨hold, -⟩ | ⟨rfl, rfl⟩
    · exact h.bits k b hold
    · exact hbit
  · rw [List.length_append, List.length_singleton] at hlen
    rcases hcases k b hk with ⟨hold, hlt⟩ | ⟨rfl, rfl⟩
    · -- less than a lap before the new one
      have hne : k % slots ≠ (lapPlace slots sent.length).idx := by
        intro heq
        have h1 := Nat.div_add_mod k slots
        have h2 := Nat.div_add_mod sent.length slots
        have heq' : k % slots = sent.length % slots := heq
        have hlap : k / slots < sent.length / slots := by
          by_contra hge
          have := Nat.mul_le_mul_left slots (Nat.le_of_not_lt hge)
          omega
        have := Nat.mul_le_mul_left slots (Nat.succ_le_of_lt hlap)
        rw [Nat.mul_succ] at this
        omega
      rw [update_of_ne hne]
      exact h.last k b hold (by omega)
    · exact update_self ..
  · rw [List.length_append, List.length_singleton] at hlen
    have hne : i ≠ (lapPlace slots sent.length).idx := by
      have hidx : (lapPlace slots sent.length).idx = sent.length := Nat.mod_eq_of_lt (by omega)
      omega
    rw [update_of_ne hne]
    exact h.clear i hi (by omega)

theorem read (h : LapWritten bit slots mem sent) {n : Nat} {a : α} (hn : sent[n]? = some a)
    (hlap : sent.length ≤ n + slots) :
    mem (lapPlace slots n).idx = a ∧ bit a = (lapPlace slots n).cycle :=
  ⟨h.last n a hn hlap, h.bits n a hn⟩

theorem stale (h : LapWritten bit slots mem sent) (hpos : 0 < slots) :
    bit (mem (lapPlace slots sent.length).idx) ≠ (lapPlace slots sent.length).cycle := by
  by_cases hfirst : sent.length < slots
  · -- it was never written
    have hidx : (lapPlace slots sent.length).idx = sent.length := Nat.mod_eq_of_lt hfirst
    have hcycle : (lapPlace slots sent.length).cycle = true := by
      simp only [lapPlace, Nat.div_eq_of_lt hfirst]
      rfl
    rw [hidx, hcycle, h.clear sent.length hfirst (Nat.le_refl _)]
    exact Bool.false_ne_true
  · -- it holds the element of the lap before
    obtain ⟨k, hk⟩ : ∃ k, sent.length = k + slots := ⟨sent.length - slots, by omega⟩
    have hlt : k < sent.length := by omega
    obtain ⟨hmem, hbit⟩ := h.read (List.getElem?_eq_getElem hlt) (Nat.le_of_eq hk)
    rw [hk, lapPlace_add_slots hpos]
    simp only [hmem, hbit]
    cases (lapPlace slots k).cycle <;> decide

theorem ready_iff (h : LapWritten bit slots mem sent) (hpos : 0 < slots) {n : Nat}
    (hle : n ≤ sent.length) (hlap : sent.length ≤ n + slots) :
    bit (mem (lapPlace slots n).idx) = (lapPlace slots n).cycle ↔ n < sent.length := by
  constructor
  · intro hbit
    apply Nat.lt_of_le_of_ne hle
    rintro rfl
    exact h.stale hpos hbit
  · intro hlt
    obtain ⟨hmem, hbit⟩ := h.read (List.getElem?_eq_getElem hlt) hlap
    rw [hmem, hbit]

end LapWritten

end

end Gemios
