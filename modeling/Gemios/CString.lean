import Gemios.Bytes
import Mathlib.Data.List.GetD
import Mathlib.Logic.Function.Basic

/-!
# C strings in memory

The string functions of the C library as the loops that they are, over a memory of bytes; what
each of them does to a string that ends within its bounds; and tables of strings, of which every
row has the same number of bytes.
-/

namespace Gemios

open Function

/-! ### Memory -/

def copyUp (mem : Buf) (dst src : Nat) : Nat → Buf
  | 0 => mem
  | n + 1 => copyUp (update mem dst (mem src)) (dst + 1) (src + 1) n

def copyDown (mem : Buf) (dst src : Nat) : Nat → Buf
  | 0 => mem
  | n + 1 => copyDown (update mem (dst + n) (mem (src + n))) dst src n

def memmove (mem : Buf) (dst src n : Nat) : Buf :=
  if dst < src then copyUp mem dst src n else copyDown mem dst src n

def fillZero (mem : Buf) (dst n : Nat) : Buf := fun a => if dst ≤ a ∧ a < dst + n then 0 else mem a

/-! ### Strings -/

/-- The C string with the characters of `s`. -/
def str (s : String) : List UInt8 := s.toList.map fun c => UInt8.ofNat c.toNat

/-- `strlen`, for a string that ends within `n` bytes. -/
def strlenIn (mem : Buf) (a : Nat) : Nat → Nat
  | 0 => 0
  | n + 1 => if mem a = 0 then 0 else strlenIn mem (a + 1) n + 1

/-- `strncpy`: up to n bytes of the string, and zeros behind them. -/
def strncpy (mem : Buf) (dst src : Nat) : Nat → Buf
  | 0 => mem
  | n + 1 =>
    if mem src = 0 then fillZero mem dst (n + 1)
    else strncpy (update mem dst (mem src)) (dst + 1) (src + 1) n

/-- `strcpy`, for a string that ends within `n` bytes. -/
def strcpyIn (mem : Buf) (dst src : Nat) : Nat → Buf
  | 0 => mem
  | n + 1 =>
    let mem' := update mem dst (mem src)
    if mem src = 0 then mem' else strcpyIn mem' (dst + 1) (src + 1) n

structure IsStr (mem : Buf) (a : Nat) (s : List UInt8) : Prop where
  bytes : ∀ k (h : k < s.length), mem (a + k) = s[k]
  nonzero : ∀ b ∈ s, b ≠ 0
  nul : mem (a + s.length) = 0

/-! ### What the loops do -/

theorem copyUp_apply {dst src : Nat} (h : dst < src) (n : Nat) (mem : Buf) (a : Nat) :
    copyUp mem dst src n a = if dst ≤ a ∧ a < dst + n then mem (src + (a - dst)) else mem a := by
  induction n generalizing mem dst src with
  | zero => rw [copyUp, if_neg (by omega)]
  | succ n ih =>
    rw [copyUp, ih (by omega)]
    by_cases ha : a = dst
    · rw [if_neg (by omega), if_pos (by omega), ha, update_self, Nat.sub_self, Nat.add_zero]
    · by_cases hin : dst + 1 ≤ a ∧ a < dst + 1 + n
      · rw [if_pos hin, if_pos (by omega), update_of_ne (by omega)]
        congr 1
        omega
      · rw [if_neg hin, if_neg (by omega), update_of_ne ha]

theorem copyDown_apply {dst src : Nat} (h : src ≤ dst) (n : Nat) (mem : Buf) (a : Nat) :
    copyDown mem dst src n a = if dst ≤ a ∧ a < dst + n then mem (src + (a - dst)) else mem a := by
  induction n generalizing mem with
  | zero => rw [copyDown, if_neg (by omega)]
  | succ n ih =>
    rw [copyDown, ih]
    by_cases ha : a = dst + n
    · rw [if_neg (by omega), if_pos (by omega), ha, update_self, Nat.add_sub_cancel_left]
    · by_cases hin : dst ≤ a ∧ a < dst + n
      · rw [if_pos hin, if_pos (by omega), update_of_ne (by omega)]
      · rw [if_neg hin, if_neg (by omega), update_of_ne ha]

theorem memmove_apply (mem : Buf) (dst src n a : Nat) :
    memmove mem dst src n a = if dst ≤ a ∧ a < dst + n then mem (src + (a - dst)) else mem a := by
  unfold memmove
  split
  · rename_i h
    exact copyUp_apply h n mem a
  · rename_i h
    exact copyDown_apply (Nat.le_of_not_lt h) n mem a

namespace IsStr

variable {mem mem' : Buf} {a dst : Nat} {s t : List UInt8}

theorem congr (h : IsStr mem a s) (heq : ∀ x, a ≤ x → x ≤ a + s.length → mem' x = mem x) :
    IsStr mem' a s := by
  refine ⟨fun k hk => ?_, h.nonzero, ?_⟩
  · rw [heq (a + k) (by omega) (by omega), h.bytes k hk]
  · rw [heq (a + s.length) (by omega) (by omega), h.nul]

theorem nil (h : mem a = 0) : IsStr mem a [] := ⟨fun _ hk => absurd hk (Nat.not_lt_zero _), by simp, h⟩

theorem head_ne (h : IsStr mem a s) (hs : s ≠ []) : mem a ≠ 0 := by
  obtain ⟨b, t, rfl⟩ := List.exists_cons_of_ne_nil hs
  rw [show mem a = b from h.bytes 0 (Nat.succ_pos _)]
  exact h.nonzero b List.mem_cons_self

theorem drop (h : IsStr mem a s) {k : Nat} (hk : k ≤ s.length) : IsStr mem (a + k) (s.drop k) := by
  refine ⟨fun j hj => ?_, fun b hb => h.nonzero b (List.mem_of_mem_drop hb), ?_⟩
  · rw [List.length_drop] at hj
    rw [List.getElem_drop, Nat.add_assoc, h.bytes]
  · rw [List.length_drop, Nat.add_assoc, Nat.add_sub_cancel' hk, h.nul]

theorem tail (h : IsStr mem a s) (hs : s ≠ []) : IsStr mem (a + 1) s.tail := by
  rw [← List.drop_one]
  exact h.drop (List.length_pos_iff.mpr hs)

theorem tail_update {b : UInt8} (h : IsStr mem a (b :: t)) (hsep : dst ≤ a ∨ a + t.length + 1 < dst)
    (v : UInt8) : IsStr (update mem dst v) (a + 1) t :=
  (h.tail (List.cons_ne_nil b t)).congr fun y hy hy' => by
    simp only [List.tail_cons] at hy'
    exact update_of_ne (by omega) _ _

theorem strlenIn (h : IsStr mem a s) {n : Nat} (hn : s.length < n) : strlenIn mem a n = s.length := by
  induction n generalizing a s with
  | zero => omega
  | succ n ih =>
    rw [Gemios.strlenIn]
    cases s with
    | nil =>
      have hnul : mem a = 0 := h.nul
      rw [if_pos hnul, List.length_nil]
    | cons b t =>
      rw [if_neg (h.head_ne (List.cons_ne_nil b t)), ih (h.tail (List.cons_ne_nil b t))
        (Nat.lt_of_succ_lt_succ hn)]
      rfl

theorem strncpy_apply {src n : Nat} (h : IsStr mem src s) (hn : s.length < n)
    (hsep : src + s.length < dst ∨ dst + n ≤ src) (x : Nat) :
    strncpy mem dst src n x =
      if dst ≤ x ∧ x < dst + n then s.getD (x - dst) 0 else mem x := by
  induction n generalizing mem dst src s with
  | zero => omega
  | succ n ih =>
    rw [strncpy]
    cases s with
    | nil =>
      have hnul : mem src = 0 := h.nul
      rw [if_pos hnul, fillZero]
      rfl
    | cons b t =>
      rw [if_neg (h.head_ne (List.cons_ne_nil b t))]
      have hb : mem src = b := h.bytes 0 (Nat.succ_pos _)
      have hlen : (b :: t).length = t.length + 1 := rfl
      have ht : IsStr (update mem dst (mem src)) (src + 1) t :=
        h.tail_update (by omega) (mem src)
      rw [ih ht (Nat.lt_of_succ_lt_succ hn) (by omega)]
      by_cases hx : x = dst
      · rw [if_neg (by omega), if_pos (by omega), hx, update_self, Nat.sub_self, hb]
        rfl
      · by_cases hin : dst + 1 ≤ x ∧ x < dst + 1 + n
        · rw [if_pos hin, if_pos (by omega), show x - dst = x - (dst + 1) + 1 by omega]
          rfl
        · rw [if_neg hin, if_neg (by omega), update_of_ne hx]

theorem strncpy {src n : Nat} (h : IsStr mem src s) (hn : s.length < n)
    (hsep : src + s.length < dst ∨ dst + n ≤ src) : IsStr (strncpy mem dst src n) dst s := by
  refine ⟨fun k hk => ?_, h.nonzero, ?_⟩
  · rw [h.strncpy_apply hn hsep, if_pos (by omega), Nat.add_sub_cancel_left,
      List.getD_eq_getElem s 0 hk]
  · rw [h.strncpy_apply hn hsep, if_pos (by omega), Nat.add_sub_cancel_left,
      List.getD_eq_default s 0 (Nat.le_refl _)]

theorem strcpyIn_apply {src n : Nat} (h : IsStr mem src s) (hn : s.length < n)
    (hsep : src + s.length < dst ∨ dst + s.length < src) (x : Nat) :
    strcpyIn mem dst src n x =
      if dst ≤ x ∧ x ≤ dst + s.length then s.getD (x - dst) 0 else mem x := by
  induction n generalizing mem dst src s with
  | zero => omega
  | succ n ih =>
    rw [strcpyIn]
    cases s with
    | nil =>
      have hnul : mem src = 0 := h.nul
      rw [if_pos hnul, hnul]
      by_cases hx : x = dst
      · rw [hx, update_self, if_pos ⟨Nat.le_refl _, Nat.le_refl _⟩]
        rfl
      · rw [update_of_ne hx, if_neg (by simp only [List.length_nil]; omega)]
    | cons b t =>
      rw [if_neg (h.head_ne (List.cons_ne_nil b t))]
      have hb : mem src = b := h.bytes 0 (Nat.succ_pos _)
      have hlen : (b :: t).length = t.length + 1 := rfl
      have ht : IsStr (update mem dst (mem src)) (src + 1) t :=
        h.tail_update (by omega) (mem src)
      rw [ih ht (Nat.lt_of_succ_lt_succ hn) (by omega)]
      by_cases hx : x = dst
      · rw [if_neg (by omega), if_pos (by omega), hx, update_self, Nat.sub_self, hb]
        rfl
      · by_cases hin : dst + 1 ≤ x ∧ x ≤ dst + 1 + t.length
        · rw [if_pos hin, if_pos (by omega), show x - dst = x - (dst + 1) + 1 by omega]
          rfl
        · rw [if_neg hin, if_neg (by omega), update_of_ne hx]

theorem append (h : IsStr mem a s) {src n : Nat} (ht : IsStr mem src t) (hn : t.length < n)
    (hsep : src + t.length < a + s.length ∨ a + s.length + t.length < src) :
    IsStr (strcpyIn mem (a + s.length) src n) a (s ++ t) := by
  refine ⟨fun k hk => ?_, fun b hb => ?_, ?_⟩
  · rw [ht.strcpyIn_apply hn hsep]
    rw [List.length_append] at hk
    by_cases hks : k < s.length
    · rw [if_neg (by omega), h.bytes k hks, List.getElem_append_left hks]
    · rw [if_pos (by omega), List.getElem_append_right (Nat.le_of_not_lt hks),
        show a + k - (a + s.length) = k - s.length by omega, List.getD_eq_getElem t 0 (by omega)]
  · exact (List.mem_append.mp hb).elim (h.nonzero b) (ht.nonzero b)
  · rw [ht.strcpyIn_apply hn hsep, List.length_append, if_pos (by omega),
      show a + (s.length + t.length) - (a + s.length) = t.length by omega,
      List.getD_eq_default t 0 (Nat.le_refl _)]

theorem cut (h : IsStr mem a s) {k : Nat} (hk : k ≤ s.length) :
    IsStr (update mem (a + k) 0) a (s.take k) := by
  have hlen : (s.take k).length = k := List.length_take_of_le hk
  refine ⟨fun j hj => ?_, fun b hb => h.nonzero b (List.mem_of_mem_take hb), ?_⟩
  · rw [hlen] at hj
    rw [update_of_ne (by omega), List.getElem_take, h.bytes]
  · rw [hlen, update_self]

theorem erase (h : IsStr mem a s) {p q : Nat} (hp : p ≤ q) (hq : q ≤ s.length) :
    IsStr (memmove mem (a + p) (a + q) (s.length - q + 1)) a (s.take p ++ s.drop q) := by
  have hlen : (s.take p ++ s.drop q).length = p + (s.length - q) := by
    rw [List.length_append, List.length_drop, List.length_take_of_le (Nat.le_trans hp hq)]
  refine ⟨fun j hj => ?_, fun b hb => ?_, ?_⟩
  · rw [hlen] at hj
    rw [memmove_apply]
    by_cases hjp : j < p
    · rw [if_neg (by omega), List.getElem_append_left (by simp; omega), List.getElem_take, h.bytes]
    · rw [if_pos (by omega), List.getElem_append_right (by simp; omega), List.getElem_drop,
        show a + q + (a + j - (a + p)) = a + (q + (j - p)) by omega, h.bytes _ (by omega)]
      congr 2
      rw [List.length_take_of_le (Nat.le_trans hp hq)]
  · exact (List.mem_append.mp hb).elim (fun hb => h.nonzero b (List.mem_of_mem_take hb))
      fun hb => h.nonzero b (List.mem_of_mem_drop hb)
  · rw [hlen, memmove_apply, if_pos (by omega),
      show a + q + (a + (p + (s.length - q)) - (a + p)) = a + s.length by omega, h.nul]

theorem insert (h : IsStr mem a s) {k : Nat} (hk : k ≤ s.length) {c : UInt8} (hc : c ≠ 0) :
    IsStr (update (memmove mem (a + k + 1) (a + k) (s.length - k + 1)) (a + k) c) a
      (s.take k ++ c :: s.drop k) := by
  have hlen : (s.take k ++ c :: s.drop k).length = s.length + 1 := by
    rw [List.length_append, List.length_cons, List.length_drop, List.length_take_of_le hk]
    omega
  refine ⟨fun j hj => ?_, fun b hb => ?_, ?_⟩
  · rw [hlen] at hj
    by_cases hjk : j = k
    · subst hjk
      rw [update_self, List.getElem_append_right (List.length_take_le j s)]
      simp [List.length_take_of_le hk]
    · rw [update_of_ne (by omega), memmove_apply]
      by_cases hlt : j < k
      · rw [if_neg (by omega), List.getElem_append_left (by simp; omega), List.getElem_take, h.bytes]
      · obtain ⟨i, rfl⟩ := Nat.exists_eq_add_of_le (show k + 1 ≤ j by omega)
        rw [if_pos (by omega), List.getElem_append_right (by simp; omega),
          show a + k + (a + (k + 1 + i) - (a + k + 1)) = a + (k + i) by omega, h.bytes _ (by omega)]
        simp [List.length_take_of_le hk, show k + 1 + i - k = i + 1 by omega]
  · rcases List.mem_append.mp hb with hb | hb
    · exact h.nonzero b (List.mem_of_mem_take hb)
    · rcases List.mem_cons.mp hb with rfl | hb
      · exact hc
      · exact h.nonzero b (List.mem_of_mem_drop hb)
  · rw [hlen, update_of_ne (by omega), memmove_apply, if_pos (by omega),
      show a + k + (a + (s.length + 1) - (a + k + 1)) = a + s.length by omega, h.nul]

end IsStr

/-! ### Tables of strings -/

/-- A table of n rows of w bytes, each with a string in it. -/
structure StrTable (mem : Buf) (w n : Nat) (row : Nat → List UInt8) : Prop where
  str : ∀ i < n, IsStr mem (w * i) (row i)
  short : ∀ i < n, (row i).length < w

namespace StrTable

variable {mem mem' : Buf} {w n : Nat} {row : Nat → List UInt8} {i j : Nat}

theorem row_sep (hne : i ≠ j) : w * i + w ≤ w * j ∨ w * j + w ≤ w * i := by
  rcases Nat.lt_or_gt_of_ne hne with hlt | hgt
  · exact .inl (by rw [← Nat.mul_succ]; exact Nat.mul_le_mul_left w hlt)
  · exact .inr (by rw [← Nat.mul_succ]; exact Nat.mul_le_mul_left w hgt)

theorem write (h : StrTable mem w n row) {s : List UInt8}
    (hframe : ∀ x, x < w * i ∨ w * i + w ≤ x → mem' x = mem x) (hs : IsStr mem' (w * i) s)
    (hlen : s.length < w) : StrTable mem' w n (update row i s) := by
  refine ⟨fun j hj => ?_, fun j hj => ?_⟩
  · by_cases hji : j = i
    · rw [hji, update_self]
      exact hs
    · rw [update_of_ne hji]
      have hshort := h.short j hj
      refine (h.str j hj).congr fun x hx hx' => hframe x ?_
      have hsep := row_sep (w := w) hji
      omega
  · by_cases hji : j = i
    · rwa [hji, update_self]
    · rw [update_of_ne hji]
      exact h.short j hj

theorem strlen (h : StrTable mem w n row) (hi : i < n) {m : Nat} (hm : w ≤ m) :
    strlenIn mem (w * i) m = (row i).length :=
  (h.str i hi).strlenIn (Nat.lt_of_lt_of_le (h.short i hi) hm)

theorem cut (h : StrTable mem w n row) (hi : i < n) {k : Nat} (hk : k ≤ (row i).length) :
    StrTable (update mem (w * i + k) 0) w n (update row i ((row i).take k)) := by
  have hshort := h.short i hi
  refine h.write (fun x hx => update_of_ne (by omega) _ _) ((h.str i hi).cut hk) ?_
  rw [List.length_take_of_le hk]
  omega

theorem erase (h : StrTable mem w n row) (hi : i < n) {p q : Nat} (hp : p ≤ q)
    (hq : q ≤ (row i).length) :
    StrTable (memmove mem (w * i + p) (w * i + q) ((row i).length - q + 1)) w n
      (update row i ((row i).take p ++ (row i).drop q)) := by
  have hshort := h.short i hi
  refine h.write (fun x hx => ?_) ((h.str i hi).erase hp hq) ?_
  · rw [memmove_apply, if_neg (by omega)]
  · rw [List.length_append, List.length_drop, List.length_take_of_le (Nat.le_trans hp hq)]
    omega

theorem insert (h : StrTable mem w n row) (hi : i < n) {k : Nat} (hk : k ≤ (row i).length)
    {c : UInt8} (hc : c ≠ 0) (hroom : (row i).length + 1 < w) :
    StrTable (update
      (memmove mem (w * i + k + 1) (w * i + k) ((row i).length - k + 1)) (w * i + k) c) w n
      (update row i ((row i).take k ++ c :: (row i).drop k)) := by
  refine h.write (fun x hx => ?_) ((h.str i hi).insert hk hc) ?_
  · rw [update_of_ne (by omega), memmove_apply, if_neg (by omega)]
  · rw [List.length_append, List.length_cons, List.length_drop, List.length_take_of_le hk]
    omega

theorem copy (h : StrTable mem w n row) (hi : i < n) (hne : i ≠ j) {k : Nat}
    (hk : k ≤ (row i).length) :
    StrTable (strncpy mem (w * j) (w * i + k) w) w n (update row j ((row i).drop k)) := by
  have hshort := h.short i hi
  have hsrc := (h.str i hi).drop hk
  have hlen : ((row i).drop k).length < w := by
    rw [List.length_drop]
    omega
  have hsep : w * i + k + ((row i).drop k).length < w * j ∨ w * j + w ≤ w * i + k := by
    rw [List.length_drop]
    have hsep := row_sep (w := w) hne
    omega
  refine h.write (fun x hx => ?_) (hsrc.strncpy hlen hsep) hlen
  rw [hsrc.strncpy_apply hlen hsep, if_neg (by omega)]

theorem join (h : StrTable mem w n row) (hi : i < n) (hj : j < n) (hne : i ≠ j)
    (hroom : (row i).length + (row j).length < w) {m : Nat} (hm : w ≤ m) :
    StrTable (strcpyIn mem (w * i + (row i).length) (w * j) m) w n
      (update row i (row i ++ row j)) := by
  have hends := Nat.lt_of_lt_of_le (h.short j hj) hm
  have hsep : w * j + (row j).length < w * i + (row i).length ∨
      w * i + (row i).length + (row j).length < w * j := by
    have hshort := h.short j hj
    have hsep := row_sep (w := w) hne
    omega
  refine h.write (fun x hx => ?_) ((h.str i hi).append (h.str j hj) hends hsep) ?_
  · rw [(h.str j hj).strcpyIn_apply hends hsep, if_neg (by omega)]
  · rwa [List.length_append]

end StrTable

end Gemios
