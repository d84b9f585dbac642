import Gemios.Bytes
import Mathlib.Logic.Function.Basic

/-!
# Printing into a buffer of a fixed size

Characters are written one by one while there is room for them and a last one behind them.  What is then
in the buffer is what was printed, cut off; whatever the single prints were.
-/

namespace Gemios

/-- A buffer in memory, the place of the next character, and the room that is left. -/
structure Out where
  mem : Buf
  buf : Nat
  rem : Nat

namespace Out

/-- A character is written if another one fits behind it. -/
def put (o : Out) (c : UInt8) : Out :=
  if o.rem > 1 then ⟨Function.update o.mem o.buf c, o.buf + 1, o.rem - 1⟩ else o

def puts (o : Out) (s : List UInt8) : Out := s.foldl put o

@[simp] theorem puts_nil (o : Out) : o.puts [] = o := rfl

@[simp] theorem puts_cons (o : Out) (c : UInt8) (s : List UInt8) : o.puts (c :: s) = (o.put c).puts s := rfl

@[simp] theorem puts_append (o : Out) (s s' : List UInt8) : o.puts (s ++ s') = (o.puts s).puts s' :=
  List.foldl_append

theorem put_full {o : Out} (h : o.rem ≤ 1) (c : UInt8) : o.put c = o := if_neg (Nat.not_lt.mpr h)

theorem puts_full {o : Out} (h : o.rem ≤ 1) (s : List UInt8) : o.puts s = o := by
  induction s with
  | nil => rfl
  | cons c s ih => rw [puts_cons, put_full h, ih]

def taken (o : Out) (s : List UInt8) : Nat := min s.length (o.rem - 1)

theorem puts_spec (o : Out) (s : List UInt8) :
    (o.puts s).buf = o.buf + o.taken s ∧ (o.puts s).rem = o.rem - o.taken s ∧
      ∀ i, (o.puts s).mem i =
        if o.buf ≤ i ∧ i < o.buf + o.taken s then s.getD (i - o.buf) 0 else o.mem i := by
  unfold taken
  induction s generalizing o with
  | nil =>
    refine ⟨rfl, rfl, fun i => ?_⟩
    rw [if_neg (by simp)]
    rfl
  | cons c s ih =>
    rw [puts_cons]
    obtain ⟨hbuf, hrem, hmem⟩ := ih (o.put c)
    by_cases hroom : o.rem > 1
    · have hput : o.put c = ⟨Function.update o.mem o.buf c, o.buf + 1, o.rem - 1⟩ := if_pos hroom
      rw [hput] at hbuf hrem hmem ⊢
      simp only [List.length_cons] at hbuf hrem hmem ⊢
      refine ⟨by omega, by omega, fun i => ?_⟩
      rw [hmem, Function.update_apply]
      by_cases hfirst : i = o.buf
      · rw [if_neg (by omega), if_pos hfirst, if_pos (by omega), hfirst, Nat.sub_self]
        rfl
      · by_cases hin : o.buf + 1 ≤ i ∧ i < o.buf + 1 + min s.length (o.rem - 1 - 1)
        · have hnext : i - o.buf = i - (o.buf + 1) + 1 := by omega
          rw [if_pos hin, if_pos (by omega), hnext]
          rfl
        · rw [if_neg hin, if_neg hfirst, if_neg (by omega)]
    · have hfull : o.rem ≤ 1 := Nat.not_lt.mp hroom
      rw [put_full hfull] at hbuf hrem hmem ⊢
      have hzero : o.rem - 1 = 0 := by omega
      rw [hzero, Nat.min_zero] at hbuf hrem hmem ⊢
      refine ⟨hbuf, hrem, fun i => ?_⟩
      rw [hmem, if_neg (by omega), if_neg (by omega)]

theorem puts_rem (o : Out) (s : List UInt8) : (o.puts s).rem = o.rem - min s.length (o.rem - 1) :=
  (o.puts_spec s).2.1

theorem puts_start (mem : Buf) (size : Nat) (s : List UInt8) :
    ((Out.mk mem 0 size).puts s).buf = min s.length (size - 1) ∧
      (List.range ((Out.mk mem 0 size).puts s).buf).map ((Out.mk mem 0 size).puts s).mem = s.take (size - 1) ∧
      ∀ i, size ≤ i + 1 → ((Out.mk mem 0 size).puts s).mem i = mem i := by
  obtain ⟨hbuf, -, hmem⟩ := puts_spec ⟨mem, 0, size⟩ s
  simp only [taken, Nat.zero_add, Nat.zero_le, true_and, Nat.sub_zero] at hbuf hmem
  refine ⟨hbuf, ?_, fun i hi => ?_⟩
  · rw [hbuf]
    refine List.ext_getElem (by simp [Nat.min_comm]) fun i hi hi' => ?_
    rw [List.length_map, List.length_range] at hi
    rw [List.getElem_map, List.getElem_range, hmem, if_pos hi, List.getElem_take,
      List.getD_eq_getElem?_getD, List.getElem?_eq_getElem (by omega)]
    rfl
  · rw [hmem, if_neg (by omega)]

end Out

end Gemios
