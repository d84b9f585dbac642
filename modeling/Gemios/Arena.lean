import Mathlib.Algebra.Ring.Nat
import Mathlib.Data.List.Chain

/-!
# Blocks that tile an interval

An arena is an interval of addresses cut into blocks.  Each block has a header of `H`
bytes and a payload; the next block starts where the payload ends.  Blocks are split in
two and neighbours are joined, and no two free neighbours are left.
-/

namespace Gemios

/-- A block: where its header starts, the size of its payload, and whether it is free. -/
structure Block where
  addr : Nat
  size : Nat
  free : Bool
deriving DecidableEq

/-- The blocks `bs` fill the addresses from `a` to `e` without gaps. -/
def Tiles (H : Nat) : Nat → List Block → Nat → Prop
  | a, [], e => a = e
  | a, b :: bs, e => b.addr = a ∧ Tiles H (a + H + b.size) bs e

def Coalesced (bs : List Block) : Prop := bs.IsChain fun b c => ¬ (b.free = true ∧ c.free = true)

section

variable {H a e : Nat} {l r bs : List Block} {b c : Block}

theorem tiles_append : Tiles H a (l ++ r) e ↔ ∃ x, Tiles H a l x ∧ Tiles H x r e := by
  induction l generalizing a with
  | nil =>
    constructor
    · intro h
      exact ⟨a, rfl, h⟩
    · rintro ⟨x, rfl, h⟩
      exact h
  | cons b l ih =>
    constructor
    · rintro ⟨hb, h⟩
      obtain ⟨x, hl, hr⟩ := ih.mp h
      exact ⟨x, ⟨hb, hl⟩, hr⟩
    · rintro ⟨x, ⟨hb, hl⟩, hr⟩
      exact ⟨hb, ih.mpr ⟨x, hl, hr⟩⟩

theorem Tiles.le (h : Tiles H a bs e) : a ≤ e := by
  induction bs generalizing a with
  | nil => exact Nat.le_of_eq h
  | cons b bs ih =>
    have hle := ih h.2
    omega

theorem Tiles.bounds (h : Tiles H a bs e) (hb : b ∈ bs) :
    a ≤ b.addr ∧ b.addr + H + b.size ≤ e := by
  induction bs generalizing a with
  | nil => cases hb
  | cons c bs ih =>
    rcases List.mem_cons.mp hb with rfl | hb
    · have hle := h.2.le
      have haddr := h.1
      omega
    · have hrec := ih h.2 hb
      omega

theorem Tiles.apart (h : Tiles H a bs e) (hb : b ∈ bs) (hc : c ∈ bs) :
    b = c ∨ b.addr + H + b.size ≤ c.addr ∨ c.addr + H + c.size ≤ b.addr := by
  induction bs generalizing a with
  | nil => cases hb
  | cons d bs ih =>
    have haddr := h.1
    rcases List.mem_cons.mp hb with rfl | hb'
    · rcases List.mem_cons.mp hc with rfl | hc'
      · exact Or.inl rfl
      · have hle := (h.2.bounds hc').1
        exact Or.inr (Or.inl (by omega))
    · rcases List.mem_cons.mp hc with rfl | hc'
      · have hle := (h.2.bounds hb').1
        exact Or.inr (Or.inr (by omega))
      · exact ih h.2 hb' hc'

theorem Tiles.middle (h : Tiles H a (l ++ b :: r) e) :
    Tiles H a l b.addr ∧ Tiles H (b.addr + H + b.size) r e := by
  obtain ⟨x, hl, hb, hr⟩ := tiles_append.mp h
  subst hb
  exact ⟨hl, hr⟩

theorem tiles_middle (hl : Tiles H a l b.addr) (hr : Tiles H (b.addr + H + b.size) r e) :
    Tiles H a (l ++ b :: r) e :=
  tiles_append.mpr ⟨b.addr, hl, rfl, hr⟩

theorem Tiles.length (h : Tiles H a bs e) : a + bs.length * H ≤ e := by
  induction bs generalizing a with
  | nil =>
    have hae : a = e := h
    simp [hae]
  | cons b bs ih =>
    have hle := ih h.2
    rw [List.length_cons, Nat.succ_mul]
    omega

theorem Tiles.sum (h : Tiles H a bs e) : a + (bs.map fun b => H + b.size).sum = e := by
  induction bs generalizing a with
  | nil => exact h
  | cons b bs ih =>
    have hrec := ih h.2
    rw [List.map_cons, List.sum_cons]
    omega

theorem Tiles.replace {r' : List Block} (h : Tiles H a (l ++ b :: r) e) (haddr : c.addr = b.addr)
    (hr : Tiles H (b.addr + H + b.size) r e → Tiles H (c.addr + H + c.size) r' e) :
    Tiles H a (l ++ c :: r') e := by
  obtain ⟨hl, hr₀⟩ := h.middle
  rw [← haddr] at hl
  exact tiles_middle hl (hr hr₀)

theorem Tiles.split (h : Tiles H a (l ++ b :: r) e) {n : Nat} (hn : n + H ≤ b.size) (f g : Bool) :
    Tiles H a (l ++ ⟨b.addr, n, f⟩ :: ⟨b.addr + H + n, b.size - n - H, g⟩ :: r) e := by
  refine h.replace rfl fun hr => ⟨rfl, ?_⟩
  dsimp only
  have hend : b.addr + H + n + H + (b.size - n - H) = b.addr + H + b.size := by omega
  rw [hend]
  exact hr

theorem Tiles.join (h : Tiles H a (l ++ b :: c :: r) e) (f : Bool) :
    Tiles H a (l ++ ⟨b.addr, b.size + H + c.size, f⟩ :: r) e := by
  refine h.replace rfl fun hr => ?_
  have hend : b.addr + H + (b.size + H + c.size) = b.addr + H + b.size + H + c.size := by omega
  dsimp only
  rw [hend]
  exact hr.2

/-! ### Free neighbours -/

theorem Coalesced.middle (h : Coalesced (l ++ b :: r)) :
    Coalesced l ∧ Coalesced r ∧ (∀ x ∈ l.getLast?, ¬ (x.free = true ∧ b.free = true)) ∧
      ∀ y ∈ r.head?, ¬ (b.free = true ∧ y.free = true) := by
  obtain ⟨hl, hbr, hlast⟩ := List.isChain_append.mp h
  obtain ⟨hhead, hr⟩ := List.isChain_cons.mp hbr
  exact ⟨hl, hr, fun x hx => hlast x hx b rfl, hhead⟩

theorem coalesced_middle (hl : Coalesced l) (hr : Coalesced r)
    (hlast : ∀ x ∈ l.getLast?, ¬ (x.free = true ∧ b.free = true))
    (hhead : ∀ y ∈ r.head?, ¬ (b.free = true ∧ y.free = true)) : Coalesced (l ++ b :: r) := by
  refine List.isChain_append.mpr ⟨hl, List.isChain_cons.mpr ⟨hhead, hr⟩, fun x hx y hy => ?_⟩
  cases hy
  exact hlast x hx

theorem coalesced_used (hl : Coalesced l) (hr : Coalesced r) (hb : b.free = false) :
    Coalesced (l ++ b :: r) := by
  refine coalesced_middle hl hr (fun x _ => ?_) (fun y _ => ?_)
  · simp [hb]
  · simp [hb]

theorem Coalesced.free_run {m : List Block} (h : Coalesced (l ++ m ++ r))
    (hm : ∀ x ∈ m, x.free = true) : m.length ≤ 1 := by
  have hchain : Coalesced m := (List.isChain_append.mp (List.isChain_append.mp h).1).2.1
  cases m with
  | nil => exact Nat.zero_le 1
  | cons x m =>
    cases m with
    | nil => exact Nat.le_refl 1
    | cons y m =>
      have hxy := (List.isChain_cons.mp hchain).1 y rfl
      exact absurd ⟨hm x (by simp), hm y (by simp)⟩ hxy

end

end Gemios
