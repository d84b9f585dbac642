import Gemios.BlockCopy
import Gemios.CString
import Mathlib.Algebra.Group.Nat.Defs

/-!
# memcpy and memmove

`memcpy` of `src/src/arch/x86/cpu.s`, instruction by instruction, and `memmove` of
`src/src/lib/string.c`, which calls it to copy upwards.  The stack is kept apart from the memory that
is copied, as the stack frame of a C function is; addresses and registers have 32 bits.
-/

namespace Gemios.Cpu

open Function

/-- The registers that `memcpy` uses, the direction flag, the memory, and the stack from `%esp` on. -/
structure Machine where
  mem : Buf
  stack : List Nat
  eax : Nat
  ecx : Nat
  esi : Nat
  edi : Nat
  df : Bool

namespace Machine

/-! ### Instructions -/

/-- The word at `off(%esp)`. -/
def esp (m : Machine) (off : Nat) : Nat := m.stack.getD (off / 4) 0

def pushl (v : Nat) (m : Machine) : Machine := { m with stack := v :: m.stack }

def poplEdi (m : Machine) : Machine := { m with edi := m.esp 0, stack := m.stack.tail }

def poplEsi (m : Machine) : Machine := { m with esi := m.esp 0, stack := m.stack.tail }

def cld (m : Machine) : Machine := { m with df := false }

def ret (m : Machine) : Machine := { m with stack := m.stack.tail }

/-- A string instruction moves its pointers as the direction flag says. -/
def next (m : Machine) (p w : Nat) : Nat :=
  if m.df then u32 (p + (4294967296 - w)) else u32 (p + w)

def movsl (m : Machine) : Machine :=
  { m with mem := put32 m.mem m.edi (le32 m.mem m.esi), esi := m.next m.esi 4, edi := m.next m.edi 4 }

def movsb (m : Machine) : Machine :=
  { m with
    mem := update m.mem m.edi (m.mem m.esi)
    esi := m.next m.esi 1
    edi := m.next m.edi 1 }

/-- The `rep` prefix, with the count in `%ecx`. -/
def rep (op : Machine → Machine) : Nat → Machine → Machine
  | 0, m => { m with ecx := 0 }
  | k + 1, m => rep op k (op { m with ecx := k })

/-- `ECX / 4` dwords; `EAX` keeps the number of bytes. -/
def dwords (m : Machine) : Machine :=
  let m := { m with eax := m.ecx }
  let m := { m with ecx := m.ecx >>> 2 }
  rep movsl m.ecx m

/-- The `EAX % 4` bytes that remain. -/
def bytes (m : Machine) : Machine :=
  let m := { m with ecx := m.eax }
  let m := { m with ecx := m.ecx &&& 3 }
  rep movsb m.ecx m

/-- The end of `memcpy`, from `.Lmemcpy_done` on. -/
def memcpyDone (m : Machine) : Machine :=
  let m := { m with eax := m.esp 12 }
  m.poplEdi.poplEsi.ret

def memcpy (m : Machine) : Machine :=
  let m := m.pushl m.esi
  let m := m.pushl m.edi
  let m := { m with edi := m.esp 12 }
  let m := { m with esi := m.esp 16 }
  let m := { m with ecx := m.esp 20 }
  let m := m.cld
  if m.ecx = 0 then m.memcpyDone else m.dwords.bytes.memcpyDone

/-- The call of a function with three arguments. -/
def call (m : Machine) (back dest src n : Nat) : Machine :=
  { m with stack := back :: dest :: src :: n :: m.stack }

end Machine

open Machine

/-! ### `memmove` -/

/-- `while (n--) *--d = *--s`. -/
def downLoop (mem : Buf) (d s : Nat) : Nat → Buf
  | 0 => mem
  | n + 1 =>
    let d := u32 (d + 4294967295)
    let s := u32 (s + 4294967295)
    downLoop (update mem d (mem s)) d s n

/-- `memmove`, with the return address of its call of `memcpy`: the memory and the result. -/
def memmove (m : Machine) (back dest src n : Nat) : Buf × Nat :=
  if dest < src then ((m.call back dest src n).memcpy.mem, dest)
  else (downLoop m.mem (u32 (dest + n)) (u32 (src + n)) n, dest)

/-! ### One string instruction -/

theorem put32_byte (mem : Buf) (p v : Nat) {i : Nat} (hi : i < 4) :
    put32 mem p v (p + i) = UInt8.ofNat (v / 256 ^ i) := by
  have hcases : i = 0 ∨ i = 1 ∨ i = 2 ∨ i = 3 := by omega
  rcases hcases with rfl | rfl | rfl | rfl
  · simp [put32, put16, Nat.add_assoc]
  · simp [put32, put16]
  · simp [put32, put16]
  · simp [put32, put16, Nat.div_div_eq_div_mul, Nat.add_assoc]

theorem le32_byte (mem : Buf) (p : Nat) {i : Nat} (hi : i < 4) :
    UInt8.ofNat (le32 mem p / 256 ^ i) = mem (p + i) := by
  have h0 := (mem p).toNat_lt
  have h1 := (mem (p + 1)).toNat_lt
  have h2 := (mem (p + 2)).toNat_lt
  have h3 := (mem (p + 2 + 1)).toNat_lt
  have hcases : i = 0 ∨ i = 1 ∨ i = 2 ∨ i = 3 := by omega
  apply UInt8.toNat_inj.mp
  rw [UInt8.toNat_ofNat', le32, le16, le16]
  rcases hcases with rfl | rfl | rfl | rfl
  · rw [Nat.add_zero p, Nat.pow_zero, Nat.div_one]
    omega
  · omega
  · omega
  · rw [show p + 3 = p + 2 + 1 from rfl]
    omega

theorem put32_le32 (mem : Buf) (dst src : Nat) :
    put32 mem dst (le32 mem src) = copied mem dst src 4 := by
  funext a
  by_cases hin : dst ≤ a ∧ a < dst + 4
  · obtain ⟨i, rfl⟩ := Nat.exists_eq_add_of_le hin.1
    have hi : i < 4 := by omega
    rw [copied_inside hi, put32_byte mem dst _ hi, le32_byte mem src hi]
  · rw [put32_of_ne (by omega), copied_outside (by omega)]

theorem update_eq_copied (mem : Buf) (dst src : Nat) :
    update mem dst (mem src) = copied mem dst src 1 := by
  funext a
  by_cases ha : a = dst
  · rw [ha, update_self]
    exact (copied_inside (Nat.zero_lt_one)).symm
  · rw [update_of_ne ha, copied_outside (by omega)]

/-! ### Repeated string instructions -/

/-- `n` bytes can be copied upwards from where the registers point. -/
structure Ready (m : Machine) (n : Nat) : Prop where
  df : m.df = false
  esi : m.esi < 4294967296
  edi : m.edi < 4294967296
  source : m.esi + n ≤ 4294967296
  target : m.edi + n ≤ 4294967296
  upward : Upward m.edi m.esi n

/-- From one machine to the other, `n` bytes were copied; the registers point behind them. -/
structure Copies (m m' : Machine) (n : Nat) : Prop where
  mem : m'.mem = copied m.mem m.edi m.esi n
  esi : m'.esi = u32 (m.esi + n)
  edi : m'.edi = u32 (m.edi + n)
  df : m'.df = m.df
  eax : m'.eax = m.eax
  stack : m'.stack = m.stack

theorem movsl_copies {m : Machine} (h : m.df = false) : Copies m m.movsl 4 := by
  refine ⟨put32_le32 _ _ _, ?_, ?_, rfl, rfl, rfl⟩
  · simp [movsl, next, h]
  · simp [movsl, next, h]

theorem movsb_copies {m : Machine} (h : m.df = false) : Copies m m.movsb 1 := by
  refine ⟨update_eq_copied _ _ _, ?_, ?_, rfl, rfl, rfl⟩
  · simp [movsb, next, h]
  · simp [movsb, next, h]

theorem Upward.none (dst src : Nat) : Upward dst src 0 := Nat.le_total dst src

namespace Ready

variable {m m' : Machine} {a b : Nat}

theorem counters (h : Ready m a) (eax ecx : Nat) : Ready { m with eax := eax, ecx := ecx } a :=
  ⟨h.df, h.esi, h.edi, h.source, h.target, h.upward⟩

theorem first (h : Ready m (a + b)) : Ready m a := by
  have hup := h.upward
  have hsource := h.source
  have htarget := h.target
  unfold Upward at hup
  refine ⟨h.df, h.esi, h.edi, by omega, by omega, ?_⟩
  unfold Upward
  omega

theorem places (h : Ready m (a + b)) (hc : Copies m m' a) :
    b = 0 ∨ m'.edi = m.edi + a ∧ m'.esi = m.esi + a := by
  have hsource := h.source
  have htarget := h.target
  cases b with
  | zero => exact .inl rfl
  | succ b =>
    refine .inr ⟨?_, ?_⟩
    · rw [hc.edi, u32_of_lt (by omega)]
    · rw [hc.esi, u32_of_lt (by omega)]

theorem rest (h : Ready m (a + b)) (hc : Copies m m' a) : Ready m' b := by
  have hesi : m'.esi < 4294967296 := by
    rw [hc.esi]
    exact u32_lt _
  have hedi : m'.edi < 4294967296 := by
    rw [hc.edi]
    exact u32_lt _
  have hdf : m'.df = false := hc.df.trans h.df
  obtain rfl | ⟨hd, hs⟩ := h.places hc
  · exact ⟨hdf, hesi, hedi, Nat.le_of_lt hesi, Nat.le_of_lt hedi, Upward.none _ _⟩
  · have hsource := h.source
    have htarget := h.target
    refine ⟨hdf, hesi, hedi, by omega, by omega, ?_⟩
    rw [hd, hs]
    exact h.upward.rest

end Ready

namespace Copies

variable {m m' m'' : Machine} {a b : Nat}

theorem refl (h : Ready m 0) : Copies m m 0 :=
  ⟨copied_zero.symm, (u32_of_lt h.esi).symm, (u32_of_lt h.edi).symm, rfl, rfl, rfl⟩

theorem trans (h : Ready m (a + b)) (h1 : Copies m m' a) (h2 : Copies m' m'' b) :
    Copies m m'' (a + b) := by
  refine ⟨?_, ?_, ?_, h2.df.trans h1.df, h2.eax.trans h1.eax, h2.stack.trans h1.stack⟩
  · rw [h2.mem, h1.mem]
    obtain rfl | ⟨hd, hs⟩ := h.places h1
    · exact copied_zero
    · rw [hd, hs, copied_upward h.upward]
  · rw [h2.esi, h1.esi, u32_u32_add, Nat.add_assoc]
  · rw [h2.edi, h1.edi, u32_u32_add, Nat.add_assoc]

theorem of_ecx {c : Nat} (h : Copies { m with ecx := c } m' a) : Copies m m' a :=
  ⟨h.mem, h.esi, h.edi, h.df, h.eax, h.stack⟩

end Copies

theorem rep_copies {op : Machine → Machine} {w : Nat}
    (hop : ∀ m : Machine, m.df = false → Copies m (op m) w) {k : Nat} {m : Machine}
    (h : Ready m (w * k)) : Copies m (rep op k m) (w * k) := by
  induction k generalizing m with
  | zero =>
    have hnone := Copies.refl h
    exact ⟨hnone.mem, hnone.esi, hnone.edi, rfl, rfl, rfl⟩
  | succ k ih =>
    have hsize : w * (k + 1) = w + w * k := by rw [Nat.mul_succ, Nat.add_comm]
    rw [hsize] at h ⊢
    have hone : Copies m (op { m with ecx := k }) w := (hop { m with ecx := k } h.df).of_ecx
    exact Copies.trans h hone (ih (h.rest hone))

/-! ### `memcpy` -/

theorem shiftRight_two (n : Nat) : n >>> 2 = n / 4 := Nat.shiftRight_eq_div_pow n 2

theorem and_three (n : Nat) : n &&& 3 = n % 4 := Nat.and_two_pow_sub_one_eq_mod n 2

theorem dwords_copies {m : Machine} (h : Ready m (4 * (m.ecx / 4))) :
    Copies { m with eax := m.ecx } m.dwords (4 * (m.ecx / 4)) := by
  have hrep := rep_copies (fun _ => movsl_copies) (h.counters m.ecx (m.ecx >>> 2))
  rw [← shiftRight_two] at hrep ⊢
  exact ⟨hrep.mem, hrep.esi, hrep.edi, hrep.df, hrep.eax, hrep.stack⟩

theorem bytes_copies {m : Machine} (h : Ready m (m.eax % 4)) : Copies m m.bytes (m.eax % 4) := by
  have hready : Ready { m with ecx := m.eax &&& 3 } (1 * (m.eax % 4)) := by
    rw [Nat.one_mul]
    exact h.counters m.eax (m.eax &&& 3)
  have hrep := rep_copies (fun _ => movsb_copies) hready
  rw [Nat.one_mul, ← and_three] at hrep
  rw [← and_three]
  exact hrep.of_ecx

theorem copy_copies {m : Machine} (h : Ready m m.ecx) :
    Copies { m with eax := m.ecx } m.dwords.bytes m.ecx := by
  have hsize : 4 * (m.ecx / 4) + m.ecx % 4 = m.ecx := Nat.div_add_mod _ _
  have hready : Ready m (4 * (m.ecx / 4) + m.ecx % 4) := by
    rw [hsize]
    exact h
  have hdwords := dwords_copies hready.first
  have heax : m.dwords.eax = m.ecx := hdwords.eax
  have hrest : Ready m.dwords (m.dwords.eax % 4) := by
    rw [heax]
    exact (hready.counters m.ecx m.ecx).rest hdwords
  have hbytes := bytes_copies hrest
  rw [heax] at hbytes
  have hall := Copies.trans (hready.counters m.ecx m.ecx) hdwords hbytes
  rw [hsize] at hall
  exact hall

/-- What a call of `memcpy` leaves behind: the bytes are copied, `EAX` is the destination, and the
    registers that a function has to keep are kept. -/
structure Returns (m m' : Machine) (dest src n : Nat) : Prop where
  mem : m'.mem = copied m.mem dest src n
  eax : m'.eax = dest
  esi : m'.esi = m.esi
  edi : m'.edi = m.edi
  df : m'.df = false
  stack : m'.stack = dest :: src :: n :: m.stack

section

variable (m : Machine) (back : Nat) {dest src n : Nat} (hd : dest + n ≤ 4294967296)
  (hs : src + n ≤ 4294967296) (hup : Upward dest src n)

/-- The machine when the arguments are loaded. -/
def loaded (dest src n : Nat) : Machine :=
  { m with
    stack := m.edi :: m.esi :: back :: dest :: src :: n :: m.stack
    edi := dest
    esi := src
    ecx := n
    df := false }

include hd hs hup in
theorem loaded_ready (hn : n ≠ 0) : Ready (loaded m back dest src n) n :=
  ⟨rfl, by dsimp only [loaded]; omega, by dsimp only [loaded]; omega, hs, hd, hup⟩

theorem memcpy_call : (m.call back dest src n).memcpy =
    if n = 0 then (loaded m back dest src n).memcpyDone
    else (loaded m back dest src n).dwords.bytes.memcpyDone := rfl

theorem done_returns {b : Machine} (hmem : b.mem = copied m.mem dest src n) (hdf : b.df = false)
    (hstack : b.stack = (loaded m back dest src n).stack) :
    Returns m b.memcpyDone dest src n := by
  refine ⟨hmem, ?_, ?_, ?_, hdf, ?_⟩
  · simp [memcpyDone, esp, poplEdi, poplEsi, ret, hstack, loaded]
  · simp [memcpyDone, esp, poplEdi, poplEsi, ret, hstack, loaded]
  · simp [memcpyDone, esp, poplEdi, poplEsi, ret, hstack, loaded]
  · simp [memcpyDone, poplEdi, poplEsi, ret, hstack, loaded]

include hd hs hup in
theorem memcpy_returns : Returns m (m.call back dest src n).memcpy dest src n := by
  rw [memcpy_call]
  by_cases hn : n = 0
  · rw [if_pos hn]
    refine done_returns m back ?_ rfl rfl
    rw [hn]
    exact copied_zero.symm
  · have hcopy := copy_copies (loaded_ready m back hd hs hup hn)
    rw [if_neg hn]
    exact done_returns m back hcopy.mem hcopy.df hcopy.stack

end

/-! ### `memmove` -/

theorem downLoop_eq {dest src n : Nat} (h : src ≤ dest) (hd : dest + n ≤ 4294967296) (mem : Buf) :
    downLoop mem (u32 (dest + n)) (u32 (src + n)) n = copied mem dest src n := by
  induction n generalizing mem with
  | zero => exact copied_zero.symm
  | succ n ih =>
    have hback : ∀ p, p + (n + 1) ≤ 4294967296 → u32 (u32 (p + (n + 1)) + 4294967295) = p + n := by
      intro p hp
      unfold u32
      omega
    have hih := ih (by omega) (copied mem (dest + n) (src + n) 1)
    rw [u32_of_lt (show dest + n < 4294967296 by omega),
      u32_of_lt (show src + n < 4294967296 by omega)] at hih
    rw [downLoop, hback dest hd, hback src (by omega), update_eq_copied, hih, copied_downward h]

theorem memmove_eq (m : Machine) (back : Nat) {dest src n : Nat} (hd : dest + n ≤ 4294967296)
    (hs : src + n ≤ 4294967296) : memmove m back dest src n = (copied m.mem dest src n, dest) := by
  unfold memmove
  split
  · rename_i hlt
    rw [(memcpy_returns m back hd hs (.inl (Nat.le_of_lt hlt))).mem]
  · rename_i hlt
    rw [downLoop_eq (Nat.le_of_not_lt hlt) hd]

/-- What is claimed of `memmove`: the bytes that were at the source are at the destination, all other
    bytes are unchanged, and the destination is returned. -/
structure Moved (before after : Buf) (result dest src n : Nat) : Prop where
  inside : ∀ i < n, after (dest + i) = before (src + i)
  outside : ∀ a, a < dest ∨ dest + n ≤ a → after a = before a
  result : result = dest

/-- **`memmove` is correct for all overlaps.** -/
theorem memmove_moved (m : Machine) (back : Nat) {dest src n : Nat} (hd : dest + n ≤ 4294967296)
    (hs : src + n ≤ 4294967296) :
    Moved m.mem (memmove m back dest src n).1 (memmove m back dest src n).2 dest src n := by
  rw [memmove_eq m back hd hs]
  exact ⟨fun i hi => copied_inside hi, fun a ha => copied_outside ha, rfl⟩

theorem memmove_moved_close :
    Moved UInt8.ofNat (memmove ⟨UInt8.ofNat, [], 0, 0, 0, 0, true⟩ 0 4294967285 4294967286 10).1
      (memmove ⟨UInt8.ofNat, [], 0, 0, 0, 0, true⟩ 0 4294967285 4294967286 10).2
      4294967285 4294967286 10 :=
  memmove_moved ⟨UInt8.ofNat, [], 0, 0, 0, 0, true⟩ 0 (by decide) (by decide)

end Gemios.Cpu
