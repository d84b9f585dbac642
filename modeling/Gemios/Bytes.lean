/-!
# Bytes and little-endian fields

Byte buffers as functions from index to byte, the unsigned words of C as natural
numbers with explicit wrap-around, and 16- and 32-bit little-endian loads and
stores.
-/

namespace Gemios

/-- `uint32_t` arithmetic. -/
def u32 (n : Nat) : Nat := n % 4294967296

/-- Conversion to `uint16_t`. -/
def u16 (n : Nat) : Nat := n % 65536

/-- Conversion to `int`. -/
def toInt (n : Int) : Int := n.bmod 4294967296

theorem toInt_of_lt {n : Int} (hlo : -2147483648 ≤ n) (hhi : n < 2147483648) : toInt n = n :=
  Int.bmod_eq_of_le (by omega) (by omega)

theorem u32_of_lt {n : Nat} (h : n < 4294967296) : u32 n = n := Nat.mod_eq_of_lt h

theorem u32_lt (n : Nat) : u32 n < 4294967296 := Nat.mod_lt _ (by decide)

theorem u32_u32_add (a b : Nat) : u32 (u32 a + b) = u32 (a + b) := by
  unfold u32
  omega

theorem u16_of_lt {n : Nat} (h : n < 65536) : u16 n = n := Nat.mod_eq_of_lt h

def isSpace (c : UInt8) : Bool := c == 0x20 || (0x09 ≤ c && c ≤ 0x0D)

theorem forall_byte {P : UInt8 → Prop} (h : ∀ n < 256, P (UInt8.ofNat n)) (b : UInt8) : P b := by
  have hb := h b.toNat b.toNat_lt
  rwa [UInt8.ofNat_toNat] at hb

abbrev Buf := Nat → UInt8

/-- A `uint16_t` load, low byte first. -/
def le16 (b : Buf) (i : Nat) : Nat := (b i).toNat + 256 * (b (i + 1)).toNat

/-- A `uint32_t` load, low byte first. -/
def le32 (b : Buf) (i : Nat) : Nat := le16 b i + 65536 * le16 b (i + 2)

/-- A `uint16_t` store at byte `i`. -/
def put16 (b : Buf) (i v : Nat) : Buf := fun j =>
  if j = i then UInt8.ofNat v else if j = i + 1 then UInt8.ofNat (v / 256) else b j

/-- A `uint32_t` store at byte `i`. -/
def put32 (b : Buf) (i v : Nat) : Buf := put16 (put16 b i v) (i + 2) (v / 65536)

/-! ### Loads -/

theorem le16_lt (b : Buf) (i : Nat) : le16 b i < 65536 := by
  have h1 := (b i).toNat_lt
  have h2 := (b (i + 1)).toNat_lt
  unfold le16
  omega

theorem le32_lt (b : Buf) (i : Nat) : le32 b i < 4294967296 := by
  have h1 := le16_lt b i
  have h2 := le16_lt b (i + 2)
  unfold le32
  omega

theorem le16_congr {b b' : Buf} {i j : Nat} (h : ∀ k, k < 2 → b (i + k) = b' (j + k)) :
    le16 b i = le16 b' j := by
  have h0 := h 0 (by omega)
  have h1 := h 1 (by omega)
  simp only [Nat.add_zero] at h0
  rw [le16, le16, h0, h1]

theorem le32_congr {b b' : Buf} {i j : Nat} (h : ∀ k, k < 4 → b (i + k) = b' (j + k)) :
    le32 b i = le32 b' j := by
  have hlo : le16 b i = le16 b' j := le16_congr fun k hk => h k (by omega)
  have hhi : le16 b (i + 2) = le16 b' (j + 2) := le16_congr fun k hk => by
    rw [Nat.add_assoc, Nat.add_assoc]
    exact h (2 + k) (by omega)
  rw [le32, le32, hlo, hhi]

/-! ### Stores -/

theorem put16_of_ne {b : Buf} {i v j : Nat} (h : j < i ∨ i + 2 ≤ j) : put16 b i v j = b j := by
  have h1 : ¬ j = i := by omega
  have h2 : ¬ j = i + 1 := by omega
  rw [put16, if_neg h1, if_neg h2]

theorem put32_of_ne {b : Buf} {i v j : Nat} (h : j < i ∨ i + 4 ≤ j) : put32 b i v j = b j := by
  rw [put32, put16_of_ne (by omega), put16_of_ne (by omega)]

@[simp] theorem le16_put16 (b : Buf) (i v : Nat) : le16 (put16 b i v) i = v % 65536 := by
  have h : ¬ i + 1 = i := by omega
  simp only [le16, put16, if_true, if_neg h, UInt8.toNat_ofNat']
  omega

theorem le16_put16_of_ne {b : Buf} {i v j : Nat} (h : j + 2 ≤ i ∨ i + 2 ≤ j) :
    le16 (put16 b i v) j = le16 b j :=
  le16_congr fun k hk => put16_of_ne (by omega)

@[simp] theorem le32_put32 (b : Buf) (i v : Nat) : le32 (put32 b i v) i = v % 4294967296 := by
  have h1 : le16 (put32 b i v) i = v % 65536 := by
    rw [put32, le16_put16_of_ne (by omega), le16_put16]
  have h2 : le16 (put32 b i v) (i + 2) = v / 65536 % 65536 := by
    rw [put32, le16_put16]
  rw [le32, h1, h2]
  omega

theorem le32_put32_of_ne {b : Buf} {i v j : Nat} (h : j + 4 ≤ i ∨ i + 4 ≤ j) :
    le32 (put32 b i v) j = le32 b j :=
  le32_congr fun k hk => put32_of_ne (by omega)

theorem put16_shift (b : Buf) (base i v k : Nat) :
    put16 (fun j => b (base + j)) i v k = put16 b (base + i) v (base + k) := by
  simp only [put16, Nat.add_assoc, Nat.add_left_cancel_iff]

theorem put32_shift (b : Buf) (base i v k : Nat) :
    put32 (fun j => b (base + j)) i v k = put32 b (base + i) v (base + k) := by
  simp only [put32, put16, Nat.add_assoc, Nat.add_left_cancel_iff]

end Gemios
