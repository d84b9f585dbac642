import Mathlib.Data.List.Basic
import Mathlib.Logic.Function.Basic

/-!
# Rings with cycle bits

A producer and a consumer share a ring of slots that ends in a link back to its start.  Each
slot has a cycle bit.  Both sides flip a bit of their own when they pass the link, and the
consumer takes a slot only when the two bits agree.  The ring is a queue as long as the
producer stays less than one lap ahead, and a consumer that is put at the producer's own
position, and nowhere else, starts with an empty queue.
-/

namespace Gemios

open Function

variable {α : Type}

@[ext]
structure CycleRing (α : Type) where
  slots : Nat
  mem : Nat → α × Bool
  link : Bool
  enq : Nat
  cycle : Bool

/-- The position and bit of the consumer. -/
structure Reader where
  idx : Nat
  cycle : Bool

namespace CycleRing

/-- The producer passes the link when it stands in front of it. -/
def wrap (r : CycleRing α) : CycleRing α :=
  if r.enq = r.slots then { r with link := r.cycle, enq := 0, cycle := !r.cycle } else r

def put (r : CycleRing α) (a : α) : CycleRing α :=
  { r with mem := update r.mem r.enq (a, r.cycle), enq := r.enq + 1 }

/-- One look of the consumer: what it takes, and where it stands then. -/
def look (r : CycleRing α) (c : Reader) : Option α × Reader :=
  if c.idx = r.slots then
    if r.link = c.cycle then (none, ⟨0, !c.cycle⟩) else (none, c)
  else if (r.mem c.idx).2 = c.cycle then (some (r.mem c.idx).1, ⟨c.idx + 1, c.cycle⟩)
  else (none, c)

/-- What the consumer takes next: one look may be for the link. -/
def next (r : CycleRing α) (c : Reader) : Option α :=
  (r.look c).1.or (r.look (r.look c).2).1

@[simp] theorem wrap_slots (r : CycleRing α) : r.wrap.slots = r.slots := by
  unfold wrap
  split <;> rfl

@[simp] theorem wrap_mem (r : CycleRing α) : r.wrap.mem = r.mem := by
  unfold wrap
  split <;> rfl

@[simp] theorem put_slots (r : CycleRing α) (a : α) : (r.put a).slots = r.slots := rfl

@[simp] theorem put_enq (r : CycleRing α) (a : α) : (r.put a).enq = r.enq + 1 := rfl

@[simp] theorem put_link (r : CycleRing α) (a : α) : (r.put a).link = r.link := rfl

@[simp] theorem put_mem (r : CycleRing α) (a : α) :
    (r.put a).mem = update r.mem r.enq (a, r.cycle) := rfl

/-! What one look does, by place and bit. -/

section

variable {r : CycleRing α} {c : Reader}

theorem look_pass (hidx : c.idx = r.slots) (hbit : r.link = c.cycle) :
    r.look c = (none, ⟨0, !c.cycle⟩) := by
  rw [look, if_pos hidx, if_pos hbit]

theorem look_link_wait (hidx : c.idx = r.slots) (hbit : r.link ≠ c.cycle) :
    r.look c = (none, c) := by
  rw [look, if_pos hidx, if_neg hbit]

theorem look_take (hidx : c.idx ≠ r.slots) (hbit : (r.mem c.idx).2 = c.cycle) :
    r.look c = (some (r.mem c.idx).1, ⟨c.idx + 1, c.cycle⟩) := by
  rw [look, if_neg hidx, if_pos hbit]

theorem look_wait (hidx : c.idx ≠ r.slots) (hbit : (r.mem c.idx).2 ≠ c.cycle) :
    r.look c = (none, c) := by
  rw [look, if_neg hidx, if_neg hbit]

theorem next_of_wait (h : r.look c = (none, c)) : r.next c = none := by
  rw [next, h, Option.none_or]
  exact congrArg Prod.fst h

theorem next_of_take {a : α} (h : (r.look c).1 = some a) : r.next c = some a := by
  rw [next, h]
  rfl

theorem next_of_pass (hidx : c.idx = r.slots) (hbit : r.link = c.cycle) :
    r.next c = (r.look ⟨0, !c.cycle⟩).1 := by
  rw [next, look_pass hidx hbit, Option.none_or]

end

end CycleRing

/-! ### Laps -/

def lapBit (l : Nat) : Bool := l % 2 == 0

theorem lapBit_succ (l : Nat) : lapBit (l + 1) = !lapBit l := by
  unfold lapBit
  rcases Nat.mod_two_eq_zero_or_one l with h | h
  · rw [h, show (l + 1) % 2 = 1 by omega]
    rfl
  · rw [h, show (l + 1) % 2 = 0 by omega]
    rfl

theorem lap_cases {s l l' i i' : Nat} (hi : i < s) (hi' : i' ≤ s) (h : s * l + i = s * l' + i') :
    l = l' ∧ i = i' ∨ l = l' + 1 ∧ i = 0 ∧ i' = s := by
  rcases Nat.lt_trichotomy l l' with hlt | rfl | hgt
  · have := Nat.mul_le_mul_left s (show l + 1 ≤ l' from hlt)
    rw [Nat.mul_add, Nat.mul_one] at this
    omega
  · exact .inl ⟨rfl, by omega⟩
  · have := Nat.mul_le_mul_left s (show l' + 1 ≤ l from hgt)
    rw [Nat.mul_add, Nat.mul_one] at this
    refine .inr ⟨?_, by omega, by omega⟩
    -- two laps ahead is too far
    by_contra hne
    have := Nat.mul_le_mul_left s (show l' + 1 + 1 ≤ l by omega)
    rw [Nat.mul_add, Nat.mul_add, Nat.mul_one] at this
    omega

/-! ### The producer -/

/-- The producer is in lap `l`: the slots before it have the bit of this lap, those after it the
    bit of the lap before, and so has the link, which starts with the bit of lap 0. -/
structure CycleRing.InLap (r : CycleRing α) (l : Nat) : Prop where
  pos : 0 < r.slots
  le : r.enq ≤ r.slots
  cycle : r.cycle = lapBit l
  bits : ∀ i < r.slots, (r.mem i).2 = if i < r.enq then lapBit l else !lapBit l
  link : r.link = if l = 0 then true else !lapBit l

namespace CycleRing.InLap

variable {r : CycleRing α} {l : Nat}

theorem wrap (h : r.InLap l) : ∃ l', r.wrap.InLap l' ∧ r.wrap.enq < r.slots ∧
    r.slots * l' + r.wrap.enq = r.slots * l + r.enq := by
  unfold CycleRing.wrap
  split
  · rename_i hfull
    refine ⟨l + 1, ⟨h.pos, Nat.zero_le _, ?_, fun i hi => ?_, ?_⟩, h.pos, ?_⟩
    · simp only [h.cycle, lapBit_succ]
    · simp only [Nat.not_lt_zero, if_false, lapBit_succ, Bool.not_not]
      rw [h.bits i hi, if_pos (by rwa [hfull])]
    · simp only [Nat.add_eq_zero_iff, Nat.one_ne_zero, and_false, if_false, lapBit_succ,
        Bool.not_not, h.cycle]
    · simp only [Nat.mul_add, Nat.mul_one, Nat.add_zero, hfull]
  · rename_i hroom
    exact ⟨l, h, Nat.lt_of_le_of_ne h.le hroom, rfl⟩

theorem put (h : r.InLap l) (hroom : r.enq < r.slots) (a : α) : (r.put a).InLap l := by
  refine ⟨h.pos, hroom, h.cycle, fun i hi => ?_, h.link⟩
  rw [put_slots] at hi
  simp only [put_mem, put_enq]
  by_cases hi' : i = r.enq
  · subst hi'
    simp [h.cycle]
  · rw [update_of_ne hi', h.bits i hi]
    congr 1
    simp only [eq_iff_iff]
    omega

end CycleRing.InLap

/-! ### The queue between the two -/

/-- The consumer is behind the producer by the elements `q`. -/
structure CycleRing.Holds (r : CycleRing α) (c : Reader) (q : List α) : Prop where
  producer : ∃ l, r.InLap l ∧ ∃ lc, c.idx ≤ r.slots ∧ c.cycle = lapBit lc ∧
    r.slots * lc + c.idx + q.length = r.slots * l + r.enq ∧
    ∀ k a, q[k]? = some a → ∃ lap i, i < r.slots ∧ r.slots * lap + i = r.slots * lc + c.idx + k ∧
      r.mem i = (a, lapBit lap)
  room : q.length < r.slots

namespace CycleRing.Holds

variable {r : CycleRing α} {c : Reader} {q : List α}

theorem wrap (h : r.Holds c q) : r.wrap.Holds c q := by
  obtain ⟨⟨l, hl, lc, hle, hcycle, hlen, hmem⟩, hroom⟩ := h
  obtain ⟨l', hl', -, heq⟩ := hl.wrap
  refine ⟨⟨l', hl', lc, ?_, hcycle, ?_, ?_⟩, ?_⟩
  · rwa [wrap_slots]
  · rw [wrap_slots, hlen, heq]
  · rwa [wrap_slots, wrap_mem]
  · rwa [wrap_slots]

theorem put (h : r.Holds c q) (henq : r.enq < r.slots) (hroom : q.length + 1 < r.slots) (a : α) :
    (r.put a).Holds c (q ++ [a]) := by
  obtain ⟨⟨l, hl, lc, hle, hcycle, hlen, hmem⟩, -⟩ := h
  refine ⟨⟨l, hl.put henq a, lc, hle, hcycle, ?_, fun k b hk => ?_⟩, ?_⟩
  · simp only [put_slots, put_enq, List.length_append, List.length_singleton]
    omega
  · simp only [put_slots, put_mem]
    rw [List.getElem?_append] at hk
    split at hk
    · rename_i hlt
      obtain ⟨lap, i, hi, hpos, hval⟩ := hmem k b hk
      refine ⟨lap, i, hi, hpos, ?_⟩
      have hne : i ≠ r.enq := by
        rintro rfl
        -- the same place is a whole lap away
        have hlap : lap < l := by
          by_contra hge
          have := Nat.mul_le_mul_left r.slots (Nat.le_of_not_lt hge)
          omega
        have := Nat.mul_le_mul_left r.slots (show lap + 1 ≤ l from hlap)
        rw [Nat.mul_add, Nat.mul_one] at this
        omega
      rw [update_of_ne hne, hval]
    · rename_i hge
      have hk0 : k = q.length := by
        by_contra hne
        rw [List.getElem?_eq_none (by simp; omega)] at hk
        contradiction
      subst hk0
      simp only [Nat.sub_self, List.getElem?_cons_zero, Option.some.injEq] at hk
      subst hk
      exact ⟨l, r.enq, henq, hlen.symm, by rw [update_self, hl.cycle]⟩
  · simpa using hroom

theorem look_link (h : r.Holds c q) (hidx : c.idx = r.slots) :
    (r.look c).1 = none ∧ r.Holds (r.look c).2 q := by
  by_cases hbit : r.link = c.cycle
  · rw [look_pass hidx hbit]
    obtain ⟨⟨l, hl, lc, hle, hcycle, hlen, hmem⟩, hroom⟩ := h
    refine ⟨rfl, ⟨l, hl, lc + 1, Nat.zero_le _, ?_, ?_, ?_⟩, hroom⟩
    · simp only [hcycle, lapBit_succ]
    · simp only [Nat.mul_add, Nat.mul_one, Nat.add_zero]
      rw [← hidx]
      rw [hidx] at hlen ⊢
      exact hlen
    · intro k a hk
      obtain ⟨lap, i, hi, hpos, hval⟩ := hmem k a hk
      refine ⟨lap, i, hi, ?_, hval⟩
      simp only [Nat.mul_add, Nat.mul_one, Nat.add_zero]
      rw [hpos, hidx]
  · rw [look_link_wait hidx hbit]
    exact ⟨rfl, h⟩

theorem look_slot (h : r.Holds c q) (hidx : c.idx ≠ r.slots) :
    (r.look c).1 = q.head? ∧ r.Holds (r.look c).2 q.tail := by
  have hh := h
  obtain ⟨⟨l, hl, lc, hle, hcycle, hlen, hmem⟩, hroom⟩ := h
  have hlt : c.idx < r.slots := Nat.lt_of_le_of_ne hle hidx
  cases q with
  | nil =>
    -- the slot still has the bit of the lap before
    have hstale : (r.mem c.idx).2 ≠ c.cycle := by
      rw [hl.bits c.idx hlt, hcycle]
      rcases lap_cases hlt hl.le hlen with ⟨rfl, heq⟩ | ⟨rfl, hzero, hfull⟩
      · rw [if_neg (by omega)]
        simp
      · rw [if_pos (by omega), lapBit_succ]
        simp
    rw [look_wait hidx hstale]
    exact ⟨rfl, hh⟩
  | cons a q =>
    obtain ⟨lap, i, hi, hpos, hval⟩ := hmem 0 a rfl
    rcases lap_cases hi hle hpos with ⟨rfl, rfl⟩ | ⟨-, -, habs⟩
    swap
    · exact absurd habs hidx
    rw [look_take hidx (by rw [hval, hcycle]), hval]
    refine ⟨rfl, ⟨l, hl, lap, hlt, hcycle, ?_, fun k b hk => ?_⟩, ?_⟩
    · simp only [List.length_cons] at hlen
      simp only [List.tail_cons]
      omega
    · obtain ⟨lap', i', hi', hpos', hval'⟩ := hmem (k + 1) b (by simpa using hk)
      exact ⟨lap', i', hi', by simp only; omega, hval'⟩
    · simp only [List.length_cons] at hroom
      simp only [List.tail_cons]
      omega

theorem look (h : r.Holds c q) :
    ∃ q', (r.look c).1.toList ++ q' = q ∧ r.Holds (r.look c).2 q' := by
  by_cases hidx : c.idx = r.slots
  · obtain ⟨hnone, hh⟩ := h.look_link hidx
    exact ⟨q, by rw [hnone]; rfl, hh⟩
  · obtain ⟨hhead, hh⟩ := h.look_slot hidx
    refine ⟨q.tail, ?_, hh⟩
    rw [hhead]
    cases q <;> rfl

theorem next (h : r.Holds c q) : r.next c = q.head? := by
  by_cases hidx : c.idx = r.slots
  · obtain ⟨-, hh⟩ := h.look_link hidx
    by_cases hpass : r.link = c.cycle
    · rw [next_of_pass hidx hpass]
      rw [look_pass hidx hpass] at hh
      refine (hh.look_slot ?_).1
      obtain ⟨⟨l, hl, -⟩, -⟩ := h
      exact Nat.ne_of_lt hl.pos
    · rw [next_of_wait (look_link_wait hidx hpass)]
      -- the producer has not passed this link, so there is nothing behind it
      obtain ⟨⟨l, hl, lc, -, hcycle, hlen, -⟩, hroom⟩ := h
      cases q with
      | nil => rfl
      | cons a q =>
        rw [hidx] at hlen
        have hle : r.slots * (lc + 1) + (q.length + 1) = r.slots * l + r.enq := by
          rw [Nat.mul_add, Nat.mul_one]
          exact hlen
        rcases lap_cases hroom hl.le hle with ⟨rfl, -⟩ | ⟨-, habs, -⟩
        · refine absurd ?_ hpass
          rw [hl.link, if_neg (Nat.succ_ne_zero lc), lapBit_succ, Bool.not_not, hcycle]
        · exact absurd habs (Nat.succ_ne_zero _)
  · obtain ⟨hhead, -⟩ := h.look_slot hidx
    cases q with
    | nil =>
      refine next_of_wait (look_wait hidx fun hbit => ?_)
      rw [look_take hidx hbit] at hhead
      contradiction
    | cons a q => exact next_of_take hhead

theorem of_inLap {l : Nat} (h : r.InLap l) : r.Holds ⟨r.enq, r.cycle⟩ [] :=
  ⟨⟨l, h, l, h.le, h.cycle, rfl, by simp⟩, h.pos⟩

end CycleRing.Holds

/-! ### Runs -/

inductive RingEvent (α : Type) where
  | wrap
  | put (a : α)
  | look

/-- A ring and its consumer, with everything that was put in and taken out. -/
structure Channel (α : Type) where
  ring : CycleRing α
  reader : Reader
  sent : List α
  got : List α

namespace Channel

def step (s : Channel α) : RingEvent α → Channel α
  | .wrap => { s with ring := s.ring.wrap }
  | .put a => { s with ring := s.ring.wrap.put a, sent := s.sent ++ [a] }
  | .look =>
    { s with
      reader := (s.ring.look s.reader).2
      got := s.got ++ (s.ring.look s.reader).1.toList }

def run (s : Channel α) (evs : List (RingEvent α)) : Channel α := evs.foldl step s

/-- The number of elements that are outstanding stays below the number of slots. -/
def Bounded : Channel α → List (RingEvent α) → Prop
  | _, [] => True
  | s, ev :: evs =>
    (s.step ev).sent.length < (s.step ev).got.length + s.ring.slots ∧ Bounded (s.step ev) evs

/-- The consumer takes what was put in, in order and without a gap, and nothing else. -/
structure InOrder (s : Channel α) : Prop where
  taken : s.got <+: s.sent
  next : s.ring.next s.reader = s.sent[s.got.length]?

/-- Whatever happens from here on, as long as the number of elements is bounded. -/
def Faithful (s : Channel α) : Prop := ∀ evs, s.Bounded evs → (s.run evs).InOrder

/-- The elements between the two sides are the queue. -/
def Ok (s : Channel α) : Prop := ∃ q, s.sent = s.got ++ q ∧ s.ring.Holds s.reader q

variable {s : Channel α}

theorem Ok.inOrder (h : s.Ok) : s.InOrder := by
  obtain ⟨q, hq, hh⟩ := h
  refine ⟨⟨q, hq.symm⟩, ?_⟩
  rw [hh.next, hq, List.getElem?_append_right (Nat.le_refl _), Nat.sub_self, List.head?_eq_getElem?]

theorem Ok.step (h : s.Ok) {ev : RingEvent α}
    (hb : (s.step ev).sent.length < (s.step ev).got.length + s.ring.slots) :
    (s.step ev).Ok := by
  obtain ⟨q, hq, hh⟩ := h
  cases ev with
  | wrap => exact ⟨q, hq, hh.wrap⟩
  | put a =>
    refine ⟨q ++ [a], by simp only [Channel.step, hq, List.append_assoc], hh.wrap.put ?_ ?_ a⟩
    · obtain ⟨⟨l, hl, -⟩, -⟩ := hh
      obtain ⟨-, -, henq, -⟩ := hl.wrap
      rwa [CycleRing.wrap_slots]
    · rw [CycleRing.wrap_slots]
      simp only [Channel.step, hq, List.length_append, List.length_singleton] at hb
      omega
  | look =>
    obtain ⟨q', hq', hh'⟩ := hh.look
    exact ⟨q', by simp only [Channel.step, hq, List.append_assoc, hq'], hh'⟩

theorem Ok.run {evs : List (RingEvent α)} (h : s.Ok) (hb : s.Bounded evs) : (s.run evs).Ok := by
  induction evs generalizing s with
  | nil => exact h
  | cons ev evs ih => exact ih (h.step hb.1) hb.2

theorem Ok.faithful (h : s.Ok) : s.Faithful := fun _ hb => (h.run hb).inOrder

end Channel

/-- With the producer's bit, a consumer that sees nothing now and the next element then stands at
    the producer's place. -/
theorem CycleRing.InLap.eq_enq {r : CycleRing α} {l i : Nat} {a : α} (h : r.InLap l)
    (hi : i ≤ r.slots) (hnow : r.next ⟨i, r.cycle⟩ = none)
    (hthen : (r.wrap.put a).next ⟨i, r.cycle⟩ = some a) : i = r.enq := by
  by_contra hne
  rcases Nat.lt_or_gt_of_ne hne with hlt | hgt
  · -- a slot of this lap, which is taken again
    have hslot : i < r.slots := Nat.lt_of_lt_of_le hlt h.le
    have hbit : (r.mem i).2 = r.cycle := by rw [h.bits i hslot, if_pos hlt, h.cycle]
    rw [next_of_take (congrArg Prod.fst (look_take (c := ⟨i, r.cycle⟩) (Nat.ne_of_lt hslot) hbit))]
      at hnow
    contradiction
  have hroom : r.enq < r.slots := Nat.lt_of_lt_of_le hgt hi
  have hwrap : r.wrap = r := by rw [CycleRing.wrap, if_neg (Nat.ne_of_lt hroom)]
  rw [hwrap] at hthen
  by_cases hlink : i = r.slots
  · by_cases hbit : r.link = r.cycle
    · -- the link of lap 0
      have hl0 : l = 0 := by
        by_contra hl0
        rw [h.link, if_neg hl0, h.cycle] at hbit
        simp at hbit
      have hzero := h.bits 0 h.pos
      by_cases henq : r.enq = 0
      · -- behind it is a slot that was never written
        rw [if_neg (by omega), ← h.cycle] at hzero
        rw [next_of_pass hlink hbit, look_take (Nat.ne_of_lt h.pos) hzero] at hnow
        contradiction
      · -- behind it the consumer waits for the next lap
        rw [if_pos (by omega), ← h.cycle] at hzero
        have hold : ((r.put a).mem 0).2 ≠ !r.cycle := by
          rw [put_mem, update_of_ne (Ne.symm henq), hzero]
          simp
        rw [next_of_pass hlink hbit, look_wait (Nat.ne_of_lt h.pos) hold] at hthen
        contradiction
    · rw [next_of_wait (look_link_wait hlink hbit)] at hthen
      contradiction
  · -- a slot of the lap before, where the consumer waits
    have hold : ((r.put a).mem i).2 ≠ r.cycle := by
      rw [put_mem, update_of_ne (Nat.ne_of_gt hgt),
        h.bits i (Nat.lt_of_le_of_ne hi hlink), if_neg (by omega), h.cycle]
      simp
    rw [next_of_wait (look_wait hlink hold)] at hthen
    contradiction

end Gemios
