import Mathlib.Algebra.Group.Nat.Defs
import Gemios.Bytes
import Gemios.Chain

/-!
# The FAT in `mcopy`

`fat_get_entry`, `fat_set_entry`, `allocate_free_cluster` and `free_cluster_chain` of
`src/tools/mcopy.c`.  The tool holds the whole FAT in one buffer.  An entry of 12 bits
shares its middle byte with the entry of its neighbour, the even cluster with the odd one
behind it.
-/

namespace Gemios

namespace Mcopy

def fatGetEntry (fatBuf : Buf) (fatType cluster : Nat) : Nat :=
  if fatType = 12 then
    let val := le16 fatBuf (u32 (cluster + cluster / 2))
    if cluster % 2 = 1 then val / 16 else val % 4096
  else if fatType = 16 then le16 fatBuf (u32 (cluster * 2))
  else le32 fatBuf (u32 (cluster * 4)) % 0x10000000

def fatSetEntry (fatBuf : Buf) (fatType cluster val : Nat) : Buf :=
  if fatType = 12 then
    let offset := u32 (cluster + cluster / 2)
    let cur := le16 fatBuf offset
    if cluster % 2 = 1 then
      -- (cur & 0x000F) | ((val & 0x0FFF) << 4)
      put16 fatBuf offset (cur % 16 + val % 4096 * 16)
    else
      -- (cur & 0xF000) | (val & 0x0FFF)
      put16 fatBuf offset (cur / 4096 * 4096 + val % 4096)
  else if fatType = 16 then put16 fatBuf (u32 (cluster * 2)) val
  else
    let offset := u32 (cluster * 4)
    let orig := le32 fatBuf offset
    -- (orig & 0xF0000000) | (val & 0x0FFFFFFF)
    put32 fatBuf offset (orig / 0x10000000 * 0x10000000 + val % 0x10000000)

/-! ### The entries as cells -/

/-- A FAT of one of the three types, `size` bytes long; the tool counts them in 32 bits. -/
structure Table where
  fatType : Nat
  size : Nat
  type : fatType = 12 ∨ fatType = 16 ∨ fatType = 32
  size_lt : size < 4294967296

namespace Table

variable (t : Table)

def entryBits : Nat := if t.fatType = 32 then 28 else t.fatType

def offset (c : Nat) : Nat :=
  if t.fatType = 12 then c + c / 2 else if t.fatType = 16 then c * 2 else c * 4

/-- The entry of a cluster lies inside the buffer. -/
def Holds (c : Nat) : Prop := t.offset c + (if t.fatType = 32 then 4 else 2) ≤ t.size

instance (c : Nat) : Decidable (t.Holds c) := inferInstanceAs (Decidable (_ ≤ _))

variable {t}

theorem Holds.u32_offset {c : Nat} (h : t.Holds c) : u32 (t.offset c) = t.offset c := by
  have hsize := t.size_lt
  unfold Holds at h
  apply u32_of_lt
  omega

end Table

/-! ### 12 bits -/

section Twelve

theorem le16_put16_next (b : Buf) (i v : Nat) :
    le16 (put16 b i v) (i + 1) = v / 256 % 256 + 256 * (b (i + 1 + 1)).toNat := by
  have h1 : ¬ i + 1 = i := by omega
  have h2 : ¬ i + 1 + 1 = i := by omega
  have h3 : ¬ i + 1 + 1 = i + 1 := by omega
  simp only [le16, put16, if_neg h1, if_true, if_neg h2, if_neg h3, UInt8.toNat_ofNat']

theorem le16_put16_prev (b : Buf) (i v : Nat) :
    le16 (put16 b (i + 1) v) i = (b i).toNat + 256 * (v % 256) := by
  have h1 : ¬ i = i + 1 := by omega
  have h2 : ¬ i = i + 1 + 1 := by omega
  simp only [le16, put16, if_neg h1, if_true, if_neg h2, UInt8.toNat_ofNat']

theorem put16_self (b : Buf) (i : Nat) : put16 b i (le16 b i) = b := by
  have hlo := (b i).toNat_lt
  funext j
  unfold put16
  split
  · next h =>
    subst h
    apply UInt8.toNat_inj.mp
    rw [UInt8.toNat_ofNat', le16]
    omega
  · split
    · next h =>
      subst h
      apply UInt8.toNat_inj.mp
      have hhi := (b (i + 1)).toNat_lt
      rw [UInt8.toNat_ofNat', le16]
      omega
    · rfl

theorem put32_self (b : Buf) (i : Nat) : put32 b i (le32 b i) = b := by
  have hlo := le16_lt b i
  have h1 : put16 b i (le32 b i) = b := by
    have hmod : put16 b i (le32 b i) = put16 b i (le16 b i) := by
      funext j
      unfold put16
      split
      · apply UInt8.toNat_inj.mp
        rw [UInt8.toNat_ofNat', UInt8.toNat_ofNat', le32]
        omega
      · split
        · apply UInt8.toNat_inj.mp
          rw [UInt8.toNat_ofNat', UInt8.toNat_ofNat', le32]
          omega
        · rfl
    rw [hmod, put16_self]
  have h2 : le32 b i / 65536 = le16 b (i + 2) := by
    rw [le32]
    omega
  rw [put32, h1, h2, put16_self]

variable {t : Table} (h12 : t.fatType = 12) {c : Nat} (hc : t.Holds c)

include h12 hc

theorem get12 (b : Buf) : fatGetEntry b t.fatType c =
    if c % 2 = 1 then le16 b (c + c / 2) / 16 else le16 b (c + c / 2) % 4096 := by
  have hoff := hc.u32_offset
  rw [Table.offset, if_pos h12] at hoff
  rw [fatGetEntry, if_pos h12, hoff]

theorem set12 (b : Buf) (v : Nat) : fatSetEntry b t.fatType c v =
    put16 b (c + c / 2) (if c % 2 = 1 then le16 b (c + c / 2) % 16 + v % 4096 * 16
      else le16 b (c + c / 2) / 4096 * 4096 + v % 4096) := by
  have hoff := hc.u32_offset
  rw [Table.offset, if_pos h12] at hoff
  rw [fatSetEntry, if_pos h12, hoff]
  split
  · rfl
  · rfl

theorem get_set12 (b : Buf) (v : Nat) :
    fatGetEntry (fatSetEntry b t.fatType c v) t.fatType c = v % 4096 := by
  have hcur := le16_lt b (c + c / 2)
  rw [set12 h12 hc, get12 h12 hc, le16_put16]
  split
  · omega
  · omega

theorem set_get12 (b : Buf) :
    fatSetEntry b t.fatType c (fatGetEntry b t.fatType c) = b := by
  have hcur := le16_lt b (c + c / 2)
  have hval : (if c % 2 = 1 then le16 b (c + c / 2) % 16 + fatGetEntry b t.fatType c % 4096 * 16
      else le16 b (c + c / 2) / 4096 * 4096 + fatGetEntry b t.fatType c % 4096) =
        le16 b (c + c / 2) := by
    rw [get12 h12 hc]
    split
    · omega
    · omega
  rw [set12 h12 hc, hval, put16_self]

theorem get_set12_of_ne (b : Buf) (v : Nat) {c' : Nat} (hc' : t.Holds c') (hne : c' ≠ c) :
    fatGetEntry (fatSetEntry b t.fatType c v) t.fatType c' = fatGetEntry b t.fatType c' := by
  rw [set12 h12 hc, get12 h12 hc', get12 h12 hc']
  by_cases hlow : c' + c' / 2 + 2 ≤ c + c / 2
  · rw [le16_put16_of_ne (Or.inl hlow)]
  · by_cases hhigh : c + c / 2 + 2 ≤ c' + c' / 2
    · rw [le16_put16_of_ne (Or.inr hhigh)]
    · -- the two entries share a byte
      have hb0 := (b (c + c / 2)).toNat_lt
      by_cases hodd : c % 2 = 1
      · have heven : ¬ c' % 2 = 1 := by omega
        have hoff : c + c / 2 = c' + c' / 2 + 1 := by omega
        rw [hoff] at hb0 ⊢
        rw [if_neg heven, if_neg heven, if_pos hodd, le16_put16_prev, le16, le16]
        omega
      · have hodd' : c' % 2 = 1 := by omega
        have hoff : c' + c' / 2 = c + c / 2 + 1 := by omega
        have hb1 := (b (c + c / 2 + 1)).toNat_lt
        rw [hoff, if_pos hodd', if_pos hodd', if_neg hodd, le16_put16_next, le16, le16]
        omega

end Twelve

/-! ### 16 and 32 bits -/

section

variable {t : Table} {c : Nat} (hc : t.Holds c)

include hc

theorem get16 (h16 : t.fatType = 16) (b : Buf) :
    fatGetEntry b t.fatType c = le16 b (c * 2) := by
  have h12 : ¬ t.fatType = 12 := by omega
  have hoff := hc.u32_offset
  rw [Table.offset, if_neg h12, if_pos h16] at hoff
  rw [fatGetEntry, if_neg h12, if_pos h16, hoff]

theorem set16 (h16 : t.fatType = 16) (b : Buf) (v : Nat) :
    fatSetEntry b t.fatType c v = put16 b (c * 2) v := by
  have h12 : ¬ t.fatType = 12 := by omega
  have hoff := hc.u32_offset
  rw [Table.offset, if_neg h12, if_pos h16] at hoff
  rw [fatSetEntry, if_neg h12, if_pos h16, hoff]

theorem get32 (h32 : t.fatType = 32) (b : Buf) :
    fatGetEntry b t.fatType c = le32 b (c * 4) % 0x10000000 := by
  have h12 : ¬ t.fatType = 12 := by omega
  have h16 : ¬ t.fatType = 16 := by omega
  have hoff := hc.u32_offset
  rw [Table.offset, if_neg h12, if_neg h16] at hoff
  rw [fatGetEntry, if_neg h12, if_neg h16, hoff]

theorem set32 (h32 : t.fatType = 32) (b : Buf) (v : Nat) :
    fatSetEntry b t.fatType c v =
      put32 b (c * 4) (le32 b (c * 4) / 0x10000000 * 0x10000000 + v % 0x10000000) := by
  have h12 : ¬ t.fatType = 12 := by omega
  have h16 : ¬ t.fatType = 16 := by omega
  have hoff := hc.u32_offset
  rw [Table.offset, if_neg h12, if_neg h16] at hoff
  rw [fatSetEntry, if_neg h12, if_neg h16, hoff]

end

/-! ### All widths -/

section

variable {t : Table} {c : Nat} (hc : t.Holds c) (b : Buf)

include hc

theorem get_set (v : Nat) :
    fatGetEntry (fatSetEntry b t.fatType c v) t.fatType c = v % 2 ^ t.entryBits := by
  rcases t.type with h12 | h16 | h32
  · rw [get_set12 h12 hc, Table.entryBits, if_neg (by omega), h12]
    rfl
  · rw [set16 hc h16, get16 hc h16, le16_put16, Table.entryBits, if_neg (by omega), h16]
    rfl
  · rw [set32 hc h32, get32 hc h32, le32_put32, Table.entryBits, if_pos h32]
    have hold := le32_lt b (c * 4)
    omega

theorem get_set_of_ne (v : Nat) {c' : Nat} (hc' : t.Holds c') (hne : c' ≠ c) :
    fatGetEntry (fatSetEntry b t.fatType c v) t.fatType c' = fatGetEntry b t.fatType c' := by
  rcases t.type with h12 | h16 | h32
  · exact get_set12_of_ne h12 hc b v hc' hne
  · rw [set16 hc h16, get16 hc' h16, get16 hc' h16, le16_put16_of_ne (by omega)]
  · rw [set32 hc h32, get32 hc' h32, get32 hc' h32, le32_put32_of_ne (by omega)]

theorem top_set (h32 : t.fatType = 32) (v c' : Nat) :
    le32 (fatSetEntry b t.fatType c v) (c' * 4) / 0x10000000 = le32 b (c' * 4) / 0x10000000 := by
  rw [set32 hc h32]
  by_cases hne : c' = c
  · rw [hne, le32_put32]
    have hold := le32_lt b (c * 4)
    omega
  · rw [le32_put32_of_ne (by omega)]

theorem set_get : fatSetEntry b t.fatType c (fatGetEntry b t.fatType c) = b := by
  rcases t.type with h12 | h16 | h32
  · exact set_get12 h12 hc b
  · rw [get16 hc h16, set16 hc h16, put16_self]
  · have hsame : le32 b (c * 4) / 0x10000000 * 0x10000000 +
        le32 b (c * 4) % 0x10000000 % 0x10000000 = le32 b (c * 4) := by omega
    rw [get32 hc h32, set32 hc h32, hsame, put32_self]

end

/-- **The accessors of the FAT form a lens.**  What was set is read back, cut to the width of
    an entry; every other entry keeps its value; the four top bits of 32-bit entries stay;
    setting what was read changes no byte. -/
theorem fat_entry_lens {t : Table} {c : Nat} (hc : t.Holds c) (b : Buf) (v : Nat) :
    fatGetEntry (fatSetEntry b t.fatType c v) t.fatType c = v % 2 ^ t.entryBits ∧
    (∀ c', t.Holds c' → c' ≠ c →
      fatGetEntry (fatSetEntry b t.fatType c v) t.fatType c' = fatGetEntry b t.fatType c') ∧
    (t.fatType = 32 → ∀ c', t.Holds c' →
      le32 (fatSetEntry b t.fatType c v) (c' * 4) / 0x10000000 = le32 b (c' * 4) / 0x10000000) ∧
    fatSetEntry b t.fatType c (fatGetEntry b t.fatType c) = b := by
  refine ⟨get_set hc b v, ?_, ?_, set_get hc b⟩
  · intro c' hc' hne
    exact get_set_of_ne hc b v hc' hne
  · intro h32 c' _
    exact top_set hc b h32 v c'

/-- Entry 3 of a 12-bit FAT of one sector, and its neighbour 2. -/
theorem fat_entry_lens_twelve :
    fatGetEntry (fatSetEntry (fun _ => 0xFF) 12 3 0x1234) 12 3 = 0x234 ∧
    fatGetEntry (fatSetEntry (fun _ => 0xFF) 12 3 0x1234) 12 2 = 0xFFF := by
  have h := fat_entry_lens (t := ⟨12, 512, Or.inl rfl, by decide⟩) (c := 3) (by decide)
    (fun _ => 0xFF) 0x1234
  exact ⟨h.1, h.2.1 2 (by decide) (by decide)⟩

/-! ### Taking and freeing clusters -/

end Mcopy

end Gemios
