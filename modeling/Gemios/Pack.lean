import Mathlib.Data.Nat.Prime.Basic
import Mathlib.Data.Nat.Prime.Pow
import Gemios.Align

/-!
# Packing pieces one after another

Pieces of a length and an alignment are placed from an offset on, each at the next multiple of
its alignment: in unbounded arithmetic, and in 32-bit words with wrap-around.
-/

namespace Gemios

/-! ### Rounding up -/

/-- The next multiple of `a` from `x` on. -/
def ceilTo (x a : Nat) : Nat := (x + a - 1) / a * a

theorem dvd_ceilTo (x a : Nat) : a ∣ ceilTo x a := Nat.dvd_mul_left _ _

theorem le_ceilTo {a : Nat} (ha : 0 < a) (x : Nat) : x ≤ ceilTo x a := by
  have hdiv := Nat.div_add_mod (x + a - 1) a
  have hmod := Nat.mod_lt (x + a - 1) ha
  rw [ceilTo, Nat.mul_comm]
  omega

theorem ceilTo_le {x y a : Nat} (ha : 0 < a) (hxy : x ≤ y) (hdvd : a ∣ y) : ceilTo x a ≤ y := by
  obtain ⟨n, rfl⟩ := hdvd
  rw [ceilTo, Nat.mul_comm]
  refine Nat.mul_le_mul_left a (Nat.le_of_lt_succ ?_)
  rw [Nat.div_lt_iff_lt_mul ha, Nat.succ_mul, Nat.mul_comm n a]
  omega

section

variable {a : Nat} (ha : a ∣ 4096)

include ha

theorem pos_of_dvd : 0 < a := Nat.pos_of_dvd_of_pos ha (by decide)

theorem exists_two_pow : ∃ k ≤ 12, a = 2 ^ k := (Nat.dvd_prime_pow Nat.prime_two).mp ha

theorem dvd_word : a ∣ 4294967296 := ha.trans ⟨1048576, rfl⟩

theorem alignUp_eq_ceilTo {x : Nat} (h : x ≤ 4294963200) : alignUp x a = ceilTo x a := by
  obtain ⟨k, hk, rfl⟩ := exists_two_pow ha
  have hle := Nat.le_of_dvd (by decide) ha
  exact alignUp_eq (by omega) (by omega)

theorem dvd_alignUp (x : Nat) : a ∣ alignUp x a := by
  obtain ⟨k, hk, rfl⟩ := exists_two_pow ha
  rw [alignUp, land_two_pow_sub (u32_lt _) (by omega)]
  exact Nat.dvd_mul_left _ _

theorem alignUp_eq_u32 {x : Nat} (hx : x < 4294967296) : alignUp x a = u32 (ceilTo x a) := by
  obtain ⟨k, hk, rfl⟩ := exists_two_pow ha
  have hpos := pos_of_dvd ha
  have hle := Nat.le_of_dvd (by decide) ha
  have hup := ceilTo_le hpos hx.le (dvd_word ha)
  by_cases hsmall : x + 2 ^ k - 1 < 4294967296
  · have heq : alignUp x (2 ^ k) = ceilTo x (2 ^ k) := alignUp_eq (by omega) hsmall
    have hlt : alignUp x (2 ^ k) < 4294967296 :=
      Nat.lt_of_le_of_lt Nat.and_le_left (Nat.mod_lt _ (by decide))
    rw [heq] at hlt
    rw [heq, u32_of_lt hlt]
  · -- both are zero when the sum wraps
    have hlt : u32 (x + 2 ^ k - 1) < 2 ^ k := by
      unfold u32
      omega
    have hzero : alignUp x (2 ^ k) = 0 := by
      rw [alignUp, land_two_pow_sub (u32_lt _) (by omega), Nat.div_eq_of_lt hlt, Nat.zero_mul]
    have hfull : ceilTo x (2 ^ k) = 4294967296 := by
      obtain ⟨m, hm⟩ := dvd_ceilTo x (2 ^ k)
      obtain ⟨n, hn⟩ := dvd_word ha
      have hge := le_ceilTo hpos x
      refine Nat.le_antisymm hup (Nat.le_of_not_lt fun hcon => ?_)
      rw [hm, hn] at hcon
      have hmn : m + 1 ≤ n := Nat.lt_of_mul_lt_mul_left hcon
      have := Nat.mul_le_mul_left (2 ^ k) hmn
      rw [← hn, Nat.mul_succ, ← hm] at this
      omega
    rw [hzero, hfull]
    rfl

theorem dvd_u32 {x : Nat} : a ∣ u32 x ↔ a ∣ x := Nat.dvd_mod_iff (dvd_word ha)

end

/-! ### Packing -/

section

variable {α : Type} (len align : α → Nat)

def pack : Nat → List α → List (α × Nat)
  | _, [] => []
  | s, x :: xs => (x, ceilTo s (align x)) :: pack (ceilTo s (align x) + len x) xs

def packEnd : Nat → List α → Nat
  | s, [] => s
  | s, x :: xs => packEnd (ceilTo s (align x) + len x) xs

def wordPack : Nat → List α → List (α × Nat)
  | _, [] => []
  | s, x :: xs => (x, alignUp s (align x)) :: wordPack (u32 (alignUp s (align x) + len x)) xs

def wordEnd : Nat → List α → Nat
  | s, [] => s
  | s, x :: xs => wordEnd (u32 (alignUp s (align x) + len x)) xs

end

section

variable {α : Type} {len align : α → Nat}

theorem wordEnd_append (s : Nat) (xs ys : List α) :
    wordEnd len align s (xs ++ ys) = wordEnd len align (wordEnd len align s xs) ys := by
  induction xs generalizing s with
  | nil => rfl
  | cons x xs ih => exact ih _

theorem wordPack_append (s : Nat) (xs ys : List α) :
    wordPack len align s (xs ++ ys) =
      wordPack len align s xs ++ wordPack len align (wordEnd len align s xs) ys := by
  induction xs generalizing s with
  | nil => rfl
  | cons x xs ih => simp only [List.cons_append, wordPack, wordEnd, ih]

theorem wordPack_fst (s : Nat) (xs : List α) : (wordPack len align s xs).map Prod.fst = xs := by
  induction xs generalizing s with
  | nil => rfl
  | cons x xs ih => simp only [wordPack, List.map_cons, ih]

theorem mem_of_wordPack {s : Nat} {xs : List α} {p : α × Nat} (hp : p ∈ wordPack len align s xs) :
    p.1 ∈ xs := by
  have hfst := List.mem_map_of_mem (f := Prod.fst) hp
  rwa [wordPack_fst] at hfst

theorem pack_fst (s : Nat) (xs : List α) : (pack len align s xs).map Prod.fst = xs := by
  induction xs generalizing s with
  | nil => rfl
  | cons x xs ih => simp only [pack, List.map_cons, ih]

theorem mem_of_pack {s : Nat} {xs : List α} {p : α × Nat} (hp : p ∈ pack len align s xs) :
    p.1 ∈ xs := by
  have hfst := List.mem_map_of_mem (f := Prod.fst) hp
  rwa [pack_fst] at hfst

theorem wordPack_map {β : Type} (f : β → α) (s : Nat) (ys : List β) :
    wordPack len align s (ys.map f) =
      (wordPack (len ∘ f) (align ∘ f) s ys).map fun p => (f p.1, p.2) := by
  induction ys generalizing s with
  | nil => rfl
  | cons y ys ih => simp only [List.map_cons, wordPack, ih, Function.comp]

theorem wordEnd_map {β : Type} (f : β → α) (s : Nat) (ys : List β) :
    wordEnd len align s (ys.map f) = wordEnd (len ∘ f) (align ∘ f) s ys := by
  induction ys generalizing s with
  | nil => rfl
  | cons y ys ih => exact ih _

theorem packEnd_map {β : Type} (f : β → α) (s : Nat) (ys : List β) :
    packEnd len align s (ys.map f) = packEnd (len ∘ f) (align ∘ f) s ys := by
  induction ys generalizing s with
  | nil => rfl
  | cons y ys ih => exact ih _

variable {xs : List α}

theorem le_packEnd (h : ∀ x ∈ xs, 0 < align x) (s : Nat) : s ≤ packEnd len align s xs := by
  induction xs generalizing s with
  | nil => exact Nat.le_refl s
  | cons x xs ih =>
    rw [List.forall_mem_cons] at h
    calc s ≤ ceilTo s (align x) := le_ceilTo h.1 s
      _ ≤ ceilTo s (align x) + len x := Nat.le_add_right _ _
      _ ≤ packEnd len align (ceilTo s (align x) + len x) xs := ih h.2 _

theorem pack_bounds (h : ∀ x ∈ xs, 0 < align x) {s : Nat} {p : α × Nat}
    (hp : p ∈ pack len align s xs) :
    s ≤ p.2 ∧ p.2 + len p.1 ≤ packEnd len align s xs := by
  induction xs generalizing s with
  | nil => contradiction
  | cons x xs ih =>
    rw [List.forall_mem_cons] at h
    have hle := le_ceilTo h.1 s
    rcases List.mem_cons.mp hp with rfl | hp
    · exact ⟨hle, le_packEnd h.2 _⟩
    · obtain ⟨h1, h2⟩ := ih h.2 hp
      exact ⟨by omega, h2⟩

theorem pack_dvd {s : Nat} {p : α × Nat} (hp : p ∈ pack len align s xs) : align p.1 ∣ p.2 := by
  induction xs generalizing s with
  | nil => contradiction
  | cons x xs ih =>
    rcases List.mem_cons.mp hp with rfl | hp
    · exact dvd_ceilTo _ _
    · exact ih hp

theorem pack_pairwise (h : ∀ x ∈ xs, 0 < align x) (s : Nat) :
    (pack len align s xs).Pairwise fun p q => p.2 + len p.1 ≤ q.2 := by
  induction xs generalizing s with
  | nil => exact .nil
  | cons x xs ih =>
    rw [List.forall_mem_cons] at h
    exact .cons (fun q hq => (pack_bounds h.2 hq).1) (ih h.2 _)

theorem wordPack_dvd (h : ∀ x ∈ xs, align x ∣ 4096) {s : Nat} {p : α × Nat}
    (hp : p ∈ wordPack len align s xs) : align p.1 ∣ p.2 := by
  induction xs generalizing s with
  | nil => contradiction
  | cons x xs ih =>
    rw [List.forall_mem_cons] at h
    rcases List.mem_cons.mp hp with rfl | hp
    · exact dvd_alignUp h.1 s
    · exact ih h.2 hp

variable (len) in
/-- **Words and numbers.**  Up to a limit `M` that is a multiple of all alignments, packing in
    words is packing in numbers; else some piece is the first to pass the limit, and starts
    below it. -/
theorem wordPack_cases {M : Nat} (hM : M ≤ 4294963200) (h : ∀ x ∈ xs, align x ∣ 4096)
    (hdvd : ∀ x ∈ xs, align x ∣ M) {s : Nat} (hs : s ≤ M) :
    (packEnd len align s xs ≤ M ∧ wordPack len align s xs = pack len align s xs ∧
      wordEnd len align s xs = packEnd len align s xs) ∨
    (M < packEnd len align s xs ∧
      ∃ p ∈ wordPack len align s xs, p.2 ≤ M ∧ M < p.2 + len p.1) := by
  induction xs generalizing s with
  | nil => exact .inl ⟨hs, rfl, rfl⟩
  | cons x xs ih =>
    rw [List.forall_mem_cons] at h hdvd
    have hceil : ceilTo s (align x) ≤ M := ceilTo_le (pos_of_dvd h.1) hs hdvd.1
    have hword : alignUp s (align x) = ceilTo s (align x) := alignUp_eq_ceilTo h.1 (hs.trans hM)
    by_cases hfits : ceilTo s (align x) + len x ≤ M
    · have hnext : u32 (alignUp s (align x) + len x) = ceilTo s (align x) + len x := by
        rw [hword, u32_of_lt (by omega)]
      simp only [pack, packEnd, wordPack, wordEnd, hnext]
      rcases ih h.2 hdvd.2 hfits with ⟨hend, hpack, hwend⟩ | ⟨hend, p, hp, hlt⟩
      · exact .inl ⟨hend, by rw [hpack, hword], hwend⟩
      · exact .inr ⟨hend, p, List.mem_cons_of_mem _ hp, hlt⟩
    · rw [Nat.not_le] at hfits
      refine .inr ⟨?_, (x, alignUp s (align x)), List.mem_cons_self .., ?_, ?_⟩
      · exact hfits.trans_le (le_packEnd (fun y hy => pos_of_dvd (h.2 y hy)) _)
      · exact hword ▸ hceil
      · exact hword ▸ hfits

end

/-! ### Groups of pieces -/

section

variable {α γ : Type} {len align : α → Nat} {galign : γ → Nat} {pieces : γ → List α} {gs : List γ}

/-- Packing groups of packed pieces: below the last 4096 bytes of the address space, words are
    numbers on both levels; else some piece is the first to reach into them. -/
theorem wordGroups_cases (hg : ∀ g ∈ gs, galign g ∣ 4096)
    (h : ∀ g ∈ gs, ∀ x ∈ pieces g, align x ∣ 4096) {s : Nat}
    (hdvd : ∀ p ∈ pack (fun g => packEnd len align 0 (pieces g)) galign s gs,
      ∀ x ∈ pieces p.1, align x ∣ p.2) (hs : s ≤ 4294963200) :
    (packEnd (fun g => packEnd len align 0 (pieces g)) galign s gs ≤ 4294963200 ∧
      wordPack (fun g => wordEnd len align 0 (pieces g)) galign s gs =
        pack (fun g => packEnd len align 0 (pieces g)) galign s gs ∧
      wordEnd (fun g => wordEnd len align 0 (pieces g)) galign s gs =
        packEnd (fun g => packEnd len align 0 (pieces g)) galign s gs ∧
      ∀ g ∈ gs, wordPack len align 0 (pieces g) = pack len align 0 (pieces g) ∧
        wordEnd len align 0 (pieces g) = packEnd len align 0 (pieces g)) ∨
    (4294963200 < packEnd (fun g => packEnd len align 0 (pieces g)) galign s gs ∧
      ∃ p ∈ wordPack (fun g => wordEnd len align 0 (pieces g)) galign s gs,
        ∃ q ∈ wordPack len align 0 (pieces p.1),
          p.2 + q.2 ≤ 4294963200 ∧ 4294963200 < p.2 + q.2 + len q.1) := by
  induction gs generalizing s with
  | nil => exact .inl ⟨hs, rfl, rfl, by simp⟩
  | cons g gs ih =>
    rw [List.forall_mem_cons] at hg h
    simp only [pack, List.forall_mem_cons] at hdvd
    have hceil : ceilTo s (galign g) ≤ 4294963200 :=
      ceilTo_le (pos_of_dvd hg.1) hs (hg.1.trans ⟨1048575, rfl⟩)
    have hword : alignUp s (galign g) = ceilTo s (galign g) := alignUp_eq_ceilTo hg.1 hs
    simp only [wordPack, wordEnd, pack, packEnd, hword]
    rcases wordPack_cases len (Nat.sub_le 4294963200 (ceilTo s (galign g))) h.1
      (fun x hx => Nat.dvd_sub ((h.1 x hx).trans ⟨1048575, rfl⟩) (hdvd.1 x hx))
      (Nat.zero_le _) with ⟨hend, hpack, hwend⟩ | ⟨hend, q, hq, hle, hlt⟩
    · have hnext : u32 (ceilTo s (galign g) + packEnd len align 0 (pieces g)) =
          ceilTo s (galign g) + packEnd len align 0 (pieces g) := u32_of_lt (by omega)
      rw [hwend, hnext]
      rcases ih hg.2 h.2 hdvd.2 (by omega) with ⟨hall, hpacks, hends, heach⟩ | ⟨hall, p, hp, q, hq⟩
      · refine .inl ⟨hall, by rw [hpacks], hends, ?_⟩
        rw [List.forall_mem_cons]
        exact ⟨⟨hpack, hwend⟩, heach⟩
      · exact .inr ⟨hall, p, List.mem_cons_of_mem _ hp, q, hq⟩
    · refine .inr ⟨?_, _, List.mem_cons_self .., q, hq, by omega, by omega⟩
      refine Nat.lt_of_lt_of_le (show _ < ceilTo s (galign g) + packEnd len align 0 (pieces g) by
        omega) (le_packEnd (fun x hx => pos_of_dvd (hg.2 x hx)) _)

end

end Gemios
