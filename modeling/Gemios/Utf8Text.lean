import Gemios.Bytes
import Mathlib.Data.List.Basic

/-!
# UTF-8 texts

Byte strings that are the encoding of characters, and the places between two characters.
-/

namespace Gemios

def utf8Bytes (cs : List Char) : List UInt8 := cs.flatMap String.utf8EncodeChar

def ValidUtf8 (l : List UInt8) : Prop := ∃ cs, l = utf8Bytes cs

def IsContinuation (b : UInt8) : Prop := b &&& 0xC0 = 0x80

instance (b : UInt8) : Decidable (IsContinuation b) := inferInstanceAs (Decidable (_ = _))

/-- The place is on the string, and no character is split there. -/
structure CharBoundary (l : List UInt8) (k : Nat) : Prop where
  le : k ≤ l.length
  before : ValidUtf8 (l.take k)
  behind : ValidUtf8 (l.drop k)

/-! ### One character -/

/-- The first byte of a character of this many bytes. -/
def LeadsChar (b : UInt8) (n : Nat) : Prop :=
  n = 1 ∧ b &&& 0x80 = 0 ∨ n = 2 ∧ b &&& 0xE0 = 0xC0 ∨ n = 3 ∧ b &&& 0xF0 = 0xE0 ∨
    n = 4 ∧ b &&& 0xF8 = 0xF0

theorem LeadsChar.not_continuation {b : UInt8} {n : Nat} (h : LeadsChar b n) : ¬IsContinuation b := by
  have hbyte : ∀ b : UInt8, b &&& 0x80 = 0 ∨ b &&& 0xE0 = 0xC0 ∨ b &&& 0xF0 = 0xE0 ∨
      b &&& 0xF8 = 0xF0 → ¬IsContinuation b := forall_byte (by decide +kernel)
  refine hbyte b ?_
  rcases h with h | h | h | h
  · exact .inl h.2
  · exact .inr (.inl h.2)
  · exact .inr (.inr (.inl h.2))
  · exact .inr (.inr (.inr h.2))

theorem utf8EncodeChar_shape (c : Char) : ∃ b rest, String.utf8EncodeChar c = b :: rest ∧
    LeadsChar b (rest.length + 1) ∧ ∀ x ∈ rest, IsContinuation x := by
  have hone : ∀ n < 128, UInt8.ofNat n &&& 0x80 = 0 := by decide +kernel
  have htwo : ∀ n < 32, UInt8.ofNat (n + 0xC0) &&& 0xE0 = 0xC0 := by decide +kernel
  have hthree : ∀ n < 16, UInt8.ofNat (n + 0xE0) &&& 0xF0 = 0xE0 := by decide +kernel
  have hfour : ∀ n < 8, UInt8.ofNat (n + 0xF0) &&& 0xF8 = 0xF0 := by decide +kernel
  have hrest : ∀ n < 64, IsContinuation (UInt8.ofNat (n + 0x80)) := by decide +kernel
  have hcont (n : Nat) : IsContinuation (UInt8.ofNat (n % 64 + 0x80)) :=
    hrest _ (Nat.mod_lt n (by decide))
  have hnone : ∀ x ∈ ([] : List UInt8), IsContinuation x := by simp
  unfold String.utf8EncodeChar
  dsimp only
  split
  · rename_i hle
    exact ⟨_, _, rfl, .inl ⟨rfl, hone _ (Nat.lt_succ_of_le hle)⟩, hnone⟩
  · split
    · refine ⟨_, _, rfl, .inr (.inl ⟨rfl, htwo _ (Nat.mod_lt _ (by decide))⟩), ?_⟩
      exact List.forall_mem_cons.mpr ⟨hcont _, hnone⟩
    · split
      · refine ⟨_, _, rfl, .inr (.inr (.inl ⟨rfl, hthree _ (Nat.mod_lt _ (by decide))⟩)), ?_⟩
        simp only [List.forall_mem_cons, hcont, true_and]
        exact hnone
      · refine ⟨_, _, rfl, .inr (.inr (.inr ⟨rfl, hfour _ (Nat.mod_lt _ (by decide))⟩)), ?_⟩
        simp only [List.forall_mem_cons, hcont, true_and]
        exact hnone

/-! ### Texts -/

theorem utf8Bytes_cons (c : Char) (cs : List Char) :
    utf8Bytes (c :: cs) = String.utf8EncodeChar c ++ utf8Bytes cs := List.flatMap_cons

theorem utf8Bytes_append (cs cs' : List Char) :
    utf8Bytes (cs ++ cs') = utf8Bytes cs ++ utf8Bytes cs' := List.flatMap_append

namespace ValidUtf8

theorem nil : ValidUtf8 [] := ⟨[], rfl⟩

theorem append {l l' : List UInt8} (h : ValidUtf8 l) (h' : ValidUtf8 l') : ValidUtf8 (l ++ l') := by
  obtain ⟨cs, rfl⟩ := h
  obtain ⟨cs', rfl⟩ := h'
  exact ⟨cs ++ cs', (utf8Bytes_append cs cs').symm⟩

theorem ascii {n : Nat} (hn : n < 128) : ValidUtf8 [UInt8.ofNat n] := by
  have hall : ∀ n < 128, [UInt8.ofNat n] = utf8Bytes [Char.ofNat n] := by decide +kernel
  exact ⟨[Char.ofNat n], hall n hn⟩

theorem cons {b : UInt8} {l : List UInt8} (h : ValidUtf8 (b :: l)) :
    ∃ rest l', l = rest ++ l' ∧ LeadsChar b (rest.length + 1) ∧ (∀ x ∈ rest, IsContinuation x) ∧
      ValidUtf8 (b :: rest) ∧ ValidUtf8 l' := by
  obtain ⟨cs, hcs⟩ := h
  cases cs with
  | nil => exact absurd hcs (List.cons_ne_nil b l)
  | cons c cs =>
    obtain ⟨b', rest, hshape, hlead, hrest⟩ := utf8EncodeChar_shape c
    rw [utf8Bytes_cons, hshape, List.cons_append] at hcs
    obtain ⟨rfl, rfl⟩ := List.cons.inj hcs
    refine ⟨rest, utf8Bytes cs, rfl, hlead, hrest, ⟨[c], ?_⟩, cs, rfl⟩
    rw [utf8Bytes_cons, hshape]
    exact (List.append_nil _).symm

end ValidUtf8

/-! ### Places between characters -/

namespace CharBoundary

theorem zero {l : List UInt8} (h : ValidUtf8 l) : CharBoundary l 0 :=
  ⟨Nat.zero_le _, .nil, h⟩

theorem last {l : List UInt8} (h : ValidUtf8 l) : CharBoundary l l.length :=
  ⟨Nat.le_refl _, by rwa [List.take_length], by rw [List.drop_length]; exact .nil⟩

theorem valid {l : List UInt8} {k : Nat} (h : CharBoundary l k) : ValidUtf8 l := by
  have hboth := h.before.append h.behind
  rwa [List.take_append_drop] at hboth

theorem append {l l' : List UInt8} (h : ValidUtf8 l) (h' : ValidUtf8 l') :
    CharBoundary (l ++ l') l.length := by
  refine ⟨?_, ?_, ?_⟩
  · rw [List.length_append]
    exact Nat.le_add_right _ _
  · rwa [List.take_left]
  · rwa [List.drop_left]

theorem append_left {l l' : List UInt8} {k : Nat} (h : ValidUtf8 l) (hk : CharBoundary l' k) :
    CharBoundary (l ++ l') (l.length + k) := by
  refine ⟨?_, ?_, ?_⟩
  · rw [List.length_append]
    exact Nat.add_le_add_left hk.le _
  · rw [List.take_length_add_append]
    exact h.append hk.before
  · rw [List.drop_length_add_append]
    exact hk.behind

theorem next {l : List UInt8} {k : Nat} (h : CharBoundary l k) (hk : k < l.length) :
    ∃ n, LeadsChar l[k] n ∧ CharBoundary l (k + n) := by
  have hdrop := h.behind
  rw [List.drop_eq_getElem_cons hk] at hdrop
  obtain ⟨rest, l', hl', hlead, -, hchar, hvalid⟩ := hdrop.cons
  refine ⟨rest.length + 1, hlead, ?_⟩
  have hsplit : l = l.take k ++ ((l[k] :: rest) ++ l') := by
    rw [List.cons_append, ← hl', ← List.drop_eq_getElem_cons hk, List.take_append_drop]
  have hlen : (l.take k).length = k := List.length_take_of_le h.le
  have hplace := append_left h.before (append hchar hvalid)
  rwa [← hsplit, hlen] at hplace

theorem iff_not_continuation {l : List UInt8} (h : ValidUtf8 l) {k : Nat} (hk : k < l.length) :
    CharBoundary l k ↔ ¬IsContinuation l[k] := by
  constructor
  · intro hplace
    obtain ⟨n, hlead, -⟩ := hplace.next hk
    exact hlead.not_continuation
  · intro hfirst
    obtain ⟨cs, rfl⟩ := h
    induction cs generalizing k with
    | nil => exact absurd hk (Nat.not_lt_zero k)
    | cons c cs ih =>
      obtain ⟨b, rest, hshape, -, hrest⟩ := utf8EncodeChar_shape c
      have hchar : ValidUtf8 (b :: rest) := ⟨[c], by simp [utf8Bytes, hshape]⟩
      have hcs : utf8Bytes (c :: cs) = (b :: rest) ++ utf8Bytes cs := by rw [utf8Bytes_cons, hshape]
      simp only [hcs] at hk hfirst ⊢
      rcases Nat.lt_or_ge k (b :: rest).length with hin | hbehind
      · rw [List.getElem_append_left hin] at hfirst
        cases k with
        | zero => exact zero (hchar.append ⟨cs, rfl⟩)
        | succ k => exact absurd (hrest _ (List.getElem_mem _)) hfirst
      · obtain ⟨j, rfl⟩ := Nat.exists_eq_add_of_le hbehind
        rw [List.getElem_append_right hbehind] at hfirst
        simp only [Nat.add_sub_cancel_left] at hfirst
        rw [List.length_append] at hk
        exact append_left hchar (ih (by omega) hfirst)

end CharBoundary

end Gemios
