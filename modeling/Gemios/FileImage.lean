import Gemios.Bytes
import Mathlib.Data.List.Basic
import Mathlib.Data.List.GetD

/-!
# Files written piece by piece

A file that is written at several places, and what is read back from it: pieces that lie one behind
the other, tables of records of one size, and strings that are kept in one table.
-/

namespace Gemios

/-- A file: its bytes, and how many there are.  Bytes that were skipped are zero. -/
structure FileImage where
  bytes : Buf
  size : Nat

namespace FileImage

def empty : FileImage := ⟨fun _ => 0, 0⟩

/-- `fseek` and `fwrite`. -/
def write (f : FileImage) (off : Nat) (bs : List UInt8) : FileImage :=
  if bs = [] then f
  else
    ⟨fun i => if off ≤ i ∧ i < off + bs.length then bs.getD (i - off) 0 else f.bytes i,
      max f.size (off + bs.length)⟩

def writeAll (f : FileImage) (pieces : List (Nat × List UInt8)) : FileImage :=
  pieces.foldl (fun f p => f.write p.1 p.2) f

end FileImage

/-- The `n` bytes from `off` on. -/
def bytesAt (b : Buf) (off n : Nat) : List UInt8 := (List.range n).map fun k => b (off + k)

@[simp] theorem length_bytesAt (b : Buf) (off n : Nat) : (bytesAt b off n).length = n := by
  simp [bytesAt]

theorem bytesAt_add (b : Buf) (off m n : Nat) :
    bytesAt b off (m + n) = bytesAt b off m ++ bytesAt b (off + m) n := by
  simp only [bytesAt, List.range_add, List.map_append, List.map_map, Function.comp_def, Nat.add_assoc]

theorem bytesAt_congr {b b' : Buf} {off n : Nat} (h : ∀ i, off ≤ i → i < off + n → b i = b' i) :
    bytesAt b off n = bytesAt b' off n := by
  apply List.map_congr_left
  intro k hk
  have hlt := List.mem_range.mp hk
  exact h (off + k) (Nat.le_add_right _ _) (by omega)

theorem bytesAt_append {b : Buf} {off n : Nat} {s t : List UInt8} (h : bytesAt b off n = s ++ t) :
    bytesAt b off s.length = s ∧ bytesAt b (off + s.length) t.length = t := by
  have hlen := congrArg List.length h
  rw [length_bytesAt, List.length_append] at hlen
  rw [hlen, bytesAt_add] at h
  exact List.append_inj h (length_bytesAt b off s.length)

/-! ### Writing -/

namespace FileImage

theorem write_nil (f : FileImage) (off : Nat) : f.write off [] = f := if_pos rfl

theorem bytesAt_write (f : FileImage) (off : Nat) (bs : List UInt8) :
    bytesAt (f.write off bs).bytes off bs.length = bs := by
  by_cases hbs : bs = []
  · subst hbs
    rfl
  rw [write, if_neg hbs]
  apply List.ext_getElem
  · simp
  · intro k hk hk'
    simp [bytesAt, hk']

theorem bytesAt_write_of_apart (f : FileImage) {off off' n : Nat} {bs : List UInt8}
    (h : off + n ≤ off' ∨ off' + bs.length ≤ off) :
    bytesAt (f.write off' bs).bytes off n = bytesAt f.bytes off n := by
  by_cases hbs : bs = []
  · rw [hbs, write_nil]
  rw [write, if_neg hbs]
  apply bytesAt_congr
  intro i hlo hhi
  exact if_neg (by omega)

theorem write_size (f : FileImage) (off : Nat) (bs : List UInt8) :
    (f.write off bs).size = if bs = [] then f.size else max f.size (off + bs.length) := by
  rw [write]
  split <;> rfl

end FileImage

/-! ### Pieces one behind the other -/

/-- The pieces lie one behind the other, from `lo` on and up to `hi`. -/
def Stacked : (lo : Nat) → List (Nat × List UInt8) → (hi : Nat) → Prop
  | lo, [], hi => lo ≤ hi
  | lo, (off, bs) :: ps, hi => lo ≤ off ∧ Stacked (off + bs.length) ps hi

theorem Stacked.le {lo hi : Nat} {ps : List (Nat × List UInt8)} (h : Stacked lo ps hi) : lo ≤ hi := by
  induction ps generalizing lo with
  | nil => exact h
  | cons p ps ih =>
    have hrest := ih h.2
    have hlo := h.1
    omega

theorem Stacked.append {lo mid hi : Nat} {ps qs : List (Nat × List UInt8)} (h : Stacked lo ps mid)
    (h' : Stacked mid qs hi) : Stacked lo (ps ++ qs) hi := by
  induction ps generalizing lo with
  | nil =>
    cases qs with
    | nil => exact Nat.le_trans h h'
    | cons q qs => exact ⟨Nat.le_trans h h'.1, h'.2⟩
  | cons p ps ih => exact ⟨h.1, ih h.2⟩

theorem Stacked.mem {lo hi : Nat} {ps : List (Nat × List UInt8)} (h : Stacked lo ps hi)
    {p : Nat × List UInt8} (hp : p ∈ ps) : lo ≤ p.1 ∧ p.1 + p.2.length ≤ hi := by
  induction ps generalizing lo with
  | nil => cases hp
  | cons q ps ih =>
    rcases List.mem_cons.mp hp with rfl | hmem
    · exact ⟨h.1, h.2.le⟩
    · have hlo := h.1
      have hrest := ih h.2 hmem
      omega

/-- **Every piece is read back**, and the bytes before the first one stay. -/
theorem Stacked.read {lo hi : Nat} {ps : List (Nat × List UInt8)} (h : Stacked lo ps hi) (f : FileImage) :
    (∀ p ∈ ps, bytesAt (f.writeAll ps).bytes p.1 p.2.length = p.2) ∧
      ∀ off n, off + n ≤ lo → bytesAt (f.writeAll ps).bytes off n = bytesAt f.bytes off n := by
  induction ps generalizing lo f with
  | nil => exact ⟨fun p hp => absurd hp List.not_mem_nil, fun _ _ _ => rfl⟩
  | cons q ps ih =>
    obtain ⟨hall, hkeep⟩ := ih h.2 (f.write q.1 q.2)
    refine ⟨fun p hp => ?_, fun off n hoff => ?_⟩
    · rcases List.mem_cons.mp hp with rfl | hmem
      · exact (hkeep p.1 p.2.length (Nat.le_refl _)).trans (f.bytesAt_write p.1 p.2)
      · exact hall p hmem
    · have hlo := h.1
      exact (hkeep off n (by omega)).trans (f.bytesAt_write_of_apart (Or.inl (by omega)))

theorem Stacked.size {ps : List (Nat × List UInt8)} {off : Nat} {bs : List UInt8} (hbs : bs ≠ [])
    {lo : Nat} (h : Stacked lo (ps ++ [(off, bs)]) (off + bs.length)) {f : FileImage}
    (hf : f.size ≤ off + bs.length) : (f.writeAll (ps ++ [(off, bs)])).size = off + bs.length := by
  induction ps generalizing lo f with
  | nil =>
    rw [FileImage.writeAll, List.nil_append, List.foldl_cons, List.foldl_nil, FileImage.write_size,
      if_neg hbs]
    exact Nat.max_eq_right hf
  | cons q ps ih =>
    obtain ⟨o, qs⟩ := q
    have hrest : Stacked (o + qs.length) (ps ++ [(off, bs)]) (off + bs.length) := h.2
    have hq := hrest.le
    apply ih hrest
    rw [FileImage.write_size]
    split
    · exact hf
    · exact Nat.max_le.mpr ⟨hf, hq⟩

/-! ### Little-endian fields -/

def le16Bytes (v : Nat) : List UInt8 := [UInt8.ofNat v, UInt8.ofNat (v / 256)]

def le32Bytes (v : Nat) : List UInt8 := le16Bytes v ++ le16Bytes (v / 65536)

@[simp] theorem length_le16Bytes (v : Nat) : (le16Bytes v).length = 2 := rfl

@[simp] theorem length_le32Bytes (v : Nat) : (le32Bytes v).length = 4 := rfl

theorem le16_of_bytesAt {b : Buf} {off v : Nat} (h : bytesAt b off 2 = le16Bytes v) :
    le16 b off = v % 65536 := by
  simp only [bytesAt, le16Bytes, List.range_succ, List.range_zero, List.map_cons, List.map_nil,
    List.nil_append, List.singleton_append, List.cons.injEq, and_true] at h
  rw [le16, ← Nat.add_zero off, h.1, Nat.add_zero, h.2, UInt8.toNat_ofNat', UInt8.toNat_ofNat']
  omega

theorem le32_of_bytesAt {b : Buf} {off v : Nat} (h : bytesAt b off 4 = le32Bytes v) :
    le32 b off = v % 4294967296 := by
  obtain ⟨hlo, hhi⟩ := bytesAt_append (s := le16Bytes v) (t := le16Bytes (v / 65536)) h
  have hhi' : le16 b (off + 2) = v / 65536 % 65536 := le16_of_bytesAt hhi
  rw [le32, le16_of_bytesAt hlo, hhi']
  omega

/-! ### Tables of records -/

section Records

variable {α : Type} (enc : α → List UInt8) {w : Nat} (hw : ∀ a, (enc a).length = w)

include hw

theorem length_records (as : List α) : (as.flatMap enc).length = w * as.length := by
  induction as with
  | nil => rfl
  | cons a as ih =>
    rw [List.flatMap_cons, List.length_append, hw, ih, List.length_cons, Nat.mul_succ]
    omega

/-- **A record of a table** is read back at its index. -/
theorem bytesAt_record {b : Buf} {off : Nat} {as : List α}
    (h : bytesAt b off (as.flatMap enc).length = as.flatMap enc) {i : Nat} {a : α}
    (hi : as[i]? = some a) : bytesAt b (off + w * i) w = enc a := by
  induction as generalizing off i with
  | nil => cases hi
  | cons a' as ih =>
    obtain ⟨hhead, hrest⟩ := bytesAt_append (s := enc a') (t := as.flatMap enc) h
    cases i with
    | zero =>
      rw [List.getElem?_cons_zero, Option.some.injEq] at hi
      rw [← hi, Nat.mul_zero, Nat.add_zero, ← hw a']
      exact hhead
    | succ i =>
      rw [hw a'] at hrest
      have hrec := ih hrest hi
      rw [Nat.add_assoc, Nat.add_comm w, ← Nat.mul_succ] at hrec
      exact hrec

end Records

/-! ### String tables -/

/-- The string at `p`, which ends within `n` bytes. -/
def stringAt (b : Buf) (p n : Nat) : List UInt8 := (bytesAt b p n).takeWhile (· != 0)

theorem stringAt_eq {b : Buf} {p n : Nat} {s : List UInt8} (h : bytesAt b p (s.length + 1) = s ++ [0])
    (hs : (0 : UInt8) ∉ s) (hn : s.length < n) : stringAt b p n = s := by
  obtain ⟨m, rfl⟩ : ∃ m, n = s.length + 1 + m := ⟨n - (s.length + 1), by omega⟩
  have hall : ∀ c ∈ s, (c != 0) = true := by
    intro c hc
    rw [bne_iff_ne]
    exact fun h0 => hs (h0 ▸ hc)
  rw [stringAt, bytesAt_add, h, List.append_assoc, List.takeWhile_append_of_pos hall]
  simp

/-- The string `s` stands at offset `off` of a string table. -/
def InTable (tab : List UInt8) (off : Nat) (s : List UInt8) : Prop :=
  ∃ pre post, tab = pre ++ (s ++ [0]) ++ post ∧ pre.length = off

theorem InTable.snoc (tab s : List UInt8) : InTable (tab ++ s ++ [0]) tab.length s :=
  ⟨tab, [], by simp, rfl⟩

theorem InTable.more {tab : List UInt8} {off : Nat} {s : List UInt8} (h : InTable tab off s)
    (more : List UInt8) : InTable (tab ++ more) off s := by
  obtain ⟨pre, post, rfl, hoff⟩ := h
  exact ⟨pre, post ++ more, by simp, hoff⟩

/-- **A string of the table** is read back at its offset. -/
theorem InTable.stringAt {tab : List UInt8} {off : Nat} {s : List UInt8} (h : InTable tab off s)
    (hs : (0 : UInt8) ∉ s) {b : Buf} {base size : Nat} (hb : bytesAt b base tab.length = tab)
    (hsize : base + tab.length ≤ size) :
    stringAt b (base + off) (size - (base + off)) = s := by
  obtain ⟨pre, post, rfl, rfl⟩ := h
  have hpre := (bytesAt_append (s := pre ++ (s ++ [0])) (t := post) hb).1
  have hstr := (bytesAt_append (s := pre) (t := s ++ [0]) hpre).2
  simp only [List.length_append, List.length_singleton] at hsize hstr
  exact stringAt_eq hstr hs (by omega)

end Gemios
