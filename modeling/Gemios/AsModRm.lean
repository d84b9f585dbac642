import Mathlib.Algebra.Group.Nat.Defs
import Gemios.AsOperand

/-!
# ModRM and SIB bytes

`emit_modrm_sib` of `src/tools/as.c` against a decoder of the 32-bit addressing forms of
IA-32.
-/

namespace Gemios.As

/-! ### The encoder -/

/-- The bits of a ModRM byte, and of a SIB byte, joined with `|`. -/
def orBits (a b c : Nat) : UInt8 := UInt8.ofNat (a ||| b <<< 3 ||| c)

/-- A 32-bit displacement, with a relocation for the symbol if there is one. -/
def disp32Items (rm : Operand) : List Item :=
  if rm.hasSym then [.ref rm.symName R_386_32 rm.disp] else bytes (dword rm.disp)

def disp8Items (rm : Operand) : List Item := [.byte (UInt8.ofNat rm.disp.toNat)]

/-- The test for a displacement between -128 and 127, and no symbol. -/
def Operand.shortDisp (rm : Operand) : Bool :=
  (-128 ≤ rm.disp.toInt && rm.disp.toInt ≤ 127) && !rm.hasSym

/-- The test for no displacement and no symbol. -/
def Operand.noDisp (rm : Operand) : Bool := rm.disp == 0 && !rm.hasSym

def scaleCode (scale : BitVec 32) : Nat :=
  if scale = 2 then 1 else if scale = 4 then 2 else if scale = 8 then 3 else 0

/-- What `emit_modrm_sib` emits. -/
def modrmItems (regField : Nat) (rm : Operand) : List Item :=
  if rm.kind = .reg then bytes [orBits 0xC0 regField rm.regNum]
  else
    match rm.baseReg, rm.indexReg with
    | none, none => bytes [orBits 0x05 regField 0] ++ disp32Items rm
    | none, some index =>
      bytes [orBits 0x04 regField 0, orBits (scaleCode rm.scale <<< 6) index 5] ++ disp32Items rm
    | some base, some index =>
      if rm.noDisp ∧ base ≠ 5 then
        bytes [orBits 0x04 regField 0, orBits (scaleCode rm.scale <<< 6) index base]
      else if rm.shortDisp then
        bytes [orBits 0x44 regField 0, orBits (scaleCode rm.scale <<< 6) index base] ++
          disp8Items rm
      else
        bytes [orBits 0x84 regField 0, orBits (scaleCode rm.scale <<< 6) index base] ++
          disp32Items rm
    | some base, none =>
      if base = 4 then
        if rm.noDisp then bytes [orBits 0x04 regField 0, 0x24]
        else if rm.shortDisp then bytes [orBits 0x44 regField 0, 0x24] ++ disp8Items rm
        else bytes [orBits 0x84 regField 0, 0x24] ++ disp32Items rm
      else if rm.noDisp ∧ base ≠ 5 then bytes [orBits 0 regField base]
      else if rm.shortDisp then bytes [orBits 0x40 regField base] ++ disp8Items rm
      else bytes [orBits 0x80 regField base] ++ disp32Items rm

def emitModrmSib (st : Asm) (secIdx regField : Nat) (rm : Operand) (pass : Nat) : Option Asm :=
  emitItems secIdx pass st (modrmItems regField rm)

/-! ### The decoder -/

/-- What a ModRM byte, with the SIB byte and displacement after it, denotes. -/
inductive Place where
  | reg (n : Nat)
  | mem (base : Option Nat) (index : Option (Nat × Nat)) (disp : BitVec 32)
deriving DecidableEq

/-- A decoded r/m field: the reg field, the place, the position of the 32-bit displacement if
    there is one, and the number of bytes read. -/
structure Decoded where
  regField : Nat
  place : Place
  dispAt : Option Nat
  length : Nat
deriving DecidableEq

/-- The 32-bit number at `i`. -/
def readDword (bs : List UInt8) (i : Nat) : BitVec 32 :=
  BitVec.ofNat 32 ((bs.getD i 0).toNat + 256 * (bs.getD (i + 1) 0).toNat +
    65536 * (bs.getD (i + 2) 0).toNat + 16777216 * (bs.getD (i + 3) 0).toNat)

/-- A displacement of `mode` at `i`: none, a sign-extended byte, or 32 bits. -/
def decodeDisp (mode : Nat) (bs : List UInt8) (i : Nat) : BitVec 32 × Option Nat × Nat :=
  if mode = 1 then ((BitVec.ofNat 8 (bs.getD i 0).toNat).signExtend 32, none, i + 1)
  else if mode = 2 then (readDword bs i, some i, i + 4)
  else (0, none, i)

/-- The 32-bit addressing rules: r/m 4 is followed by a SIB byte, whose index 4 is none; base 5
    is no base, with 32 bits of displacement, when the mode is 0. -/
def decodeModrm (bs : List UInt8) : Decoded :=
  let m := (bs.getD 0 0).toNat
  let mode := m / 64
  let regField := m / 8 % 8
  let rm := m % 8
  if mode = 3 then ⟨regField, .reg rm, none, 1⟩
  else if rm = 4 then
    let s := (bs.getD 1 0).toNat
    let index := if s / 8 % 8 = 4 then none else some (s / 8 % 8, 2 ^ (s / 64))
    if s % 8 = 5 ∧ mode = 0 then
      let (disp, dispAt, n) := decodeDisp 2 bs 2
      ⟨regField, .mem none index disp, dispAt, n⟩
    else
      let (disp, dispAt, n) := decodeDisp mode bs 2
      ⟨regField, .mem (some (s % 8)) index disp, dispAt, n⟩
  else if rm = 5 ∧ mode = 0 then
    let (disp, dispAt, n) := decodeDisp 2 bs 1
    ⟨regField, .mem none none disp, dispAt, n⟩
  else
    let (disp, dispAt, n) := decodeDisp mode bs 1
    ⟨regField, .mem (some rm) none disp, dispAt, n⟩

/-- What an operand denotes.  A scale says nothing without an index. -/
def Operand.place (rm : Operand) : Place :=
  if rm.kind = .reg then .reg rm.regNum
  else .mem rm.baseReg (rm.indexReg.map (·, rm.scale.toNat)) rm.disp

/-! ### Reading a displacement back -/

/-- The displacement of each mode, as it is emitted. -/
def dispItems (mode : Nat) (rm : Operand) : List Item :=
  if mode = 0 then [] else if mode = 1 then disp8Items rm else disp32Items rm

def dispBytes (mode : Nat) (disp : BitVec 32) : List UInt8 :=
  if mode = 0 then [] else if mode = 1 then [UInt8.ofNat disp.toNat] else dword disp

/-- A displacement is emitted in a mode that can hold it, and a symbol needs 32 bits. -/
def ModeFits (mode : Nat) (rm : Operand) : Prop :=
  (mode = 0 ∧ rm.disp = 0 ∧ rm.hasSym = false) ∨
    (mode = 1 ∧ -128 ≤ rm.disp.toInt ∧ rm.disp.toInt ≤ 127 ∧ rm.hasSym = false) ∨ mode = 2

theorem Operand.noDisp_iff (rm : Operand) : rm.noDisp ↔ rm.disp = 0 ∧ rm.hasSym = false := by
  simp [Operand.noDisp]

theorem Operand.shortDisp_iff (rm : Operand) :
    rm.shortDisp ↔ -128 ≤ rm.disp.toInt ∧ rm.disp.toInt ≤ 127 ∧ rm.hasSym = false := by
  simp [Operand.shortDisp, and_assoc]

theorem ModeFits.zero {rm : Operand} (h : rm.noDisp) : ModeFits 0 rm :=
  .inl ⟨rfl, rm.noDisp_iff.mp h⟩

theorem ModeFits.one {rm : Operand} (h : rm.shortDisp) : ModeFits 1 rm :=
  .inr (.inl ⟨rfl, rm.shortDisp_iff.mp h⟩)

theorem ModeFits.two (rm : Operand) : ModeFits 2 rm := .inr (.inr rfl)

theorem signExtend_low {d : BitVec 32} (h1 : -128 ≤ d.toInt) (h2 : d.toInt ≤ 127) :
    (BitVec.ofNat 8 (UInt8.ofNat d.toNat).toNat).signExtend 32 = d := by
  apply BitVec.eq_of_toInt_eq
  rw [BitVec.toInt_signExtend_of_le (by decide)]
  have := d.isLt
  simp only [UInt8.toNat_ofNat', BitVec.toInt_eq_toNat_bmod, BitVec.toNat_ofNat,
    Int.bmod_def] at h1 h2 ⊢
  omega

theorem readDword_dword (bs rest : List UInt8) (d : BitVec 32) :
    readDword (bs ++ dword d ++ rest) bs.length = d := by
  have hget : ∀ k < 4, (bs ++ dword d ++ rest).getD (bs.length + k) 0 = (dword d).getD k 0 := by
    intro k hk
    have hlen : (dword d).length = 4 := rfl
    simp only [List.append_assoc, List.getD_eq_getElem?_getD]
    rw [List.getElem?_append_right (by omega), Nat.add_sub_cancel_left,
      List.getElem?_append_left (by omega)]
  have h0 := hget 0 (by decide)
  rw [Nat.add_zero] at h0
  apply BitVec.eq_of_toNat_eq
  rw [readDword, h0, hget 1 (by decide), hget 2 (by decide), hget 3 (by decide)]
  have := d.isLt
  simp only [dword, List.getD_cons_zero, List.getD_cons_succ, UInt8.toNat_ofNat',
    BitVec.toNat_ofNat]
  omega

theorem decodeDisp_dispBytes {mode : Nat} {rm : Operand} (h : ModeFits mode rm)
    (bs rest : List UInt8) :
    decodeDisp mode (bs ++ dispBytes mode rm.disp ++ rest) bs.length =
      (rm.disp, if mode = 2 then some bs.length else none,
        bs.length + (dispBytes mode rm.disp).length) := by
  rcases h with ⟨rfl, hzero, -⟩ | ⟨rfl, h1, h2, -⟩ | rfl
  · simp [decodeDisp, dispBytes, hzero]
  · have hget : (bs ++ dispBytes 1 rm.disp ++ rest).getD bs.length 0 =
        UInt8.ofNat rm.disp.toNat := by
      simp [dispBytes, List.getD_eq_getElem?_getD]
    simp only [decodeDisp, hget, signExtend_low h1 h2]
    simp [dispBytes]
  · have hread := readDword_dword bs rest rm.disp
    rw [show dispBytes 2 rm.disp = dword rm.disp from rfl, decodeDisp, if_neg (by decide),
      if_pos rfl, hread]
    rfl

/-! ### Reading the bytes back -/

theorem orBits_toNat : ∀ md < 4, ∀ r < 8, ∀ x < 8,
    (orBits (md <<< 6) r x).toNat = 64 * md + 8 * r + x := by
  decide +kernel

theorem orBits_rm : ∀ md < 4, ∀ x < 8, ∀ r < 8,
    orBits (md <<< 6 ||| x) r 0 = orBits (md <<< 6) r x := by
  decide +kernel

/-- A place with a displacement that is still to be read. -/
def Decoded.withDisp (regField : Nat) (base : Option Nat) (index : Option (Nat × Nat))
    (d : BitVec 32 × Option Nat × Nat) : Decoded :=
  ⟨regField, .mem base index d.1, d.2.1, d.2.2⟩

theorem decodeModrm_reg {r x : Nat} (hr : r < 8) (hx : x < 8) (tail : List UInt8) :
    decodeModrm (orBits 0xC0 r x :: tail) = ⟨r, .reg x, none, 1⟩ := by
  have hbyte := orBits_toNat 3 (by decide) r hr x hx
  simp only [show 3 <<< 6 = 0xC0 from rfl] at hbyte
  simp only [decodeModrm, List.getD_cons_zero, hbyte]
  have h1 : (64 * 3 + 8 * r + x) / 64 = 3 := by omega
  have h2 : (64 * 3 + 8 * r + x) / 8 % 8 = r := by omega
  have h3 : (64 * 3 + 8 * r + x) % 8 = x := by omega
  rw [h1, h2, h3, if_pos rfl]

theorem decodeModrm_base {mode r x : Nat} (hmode : mode < 3) (hr : r < 8) (hx : x < 8)
    (hsib : x ≠ 4) (tail : List UInt8) :
    decodeModrm (orBits (mode <<< 6) r x :: tail) =
      if x = 5 ∧ mode = 0 then
        .withDisp r none none (decodeDisp 2 (orBits (mode <<< 6) r x :: tail) 1)
      else .withDisp r (some x) none (decodeDisp mode (orBits (mode <<< 6) r x :: tail) 1) := by
  have hbyte := orBits_toNat mode (by omega) r hr x hx
  simp only [decodeModrm, List.getD_cons_zero, hbyte]
  have h1 : (64 * mode + 8 * r + x) / 64 = mode := by omega
  have h2 : (64 * mode + 8 * r + x) / 8 % 8 = r := by omega
  have h3 : (64 * mode + 8 * r + x) % 8 = x := by omega
  rw [h1, h2, h3, if_neg (by omega), if_neg hsib]
  rfl

theorem decodeModrm_sib {mode r sc index base : Nat} (hmode : mode < 3) (hr : r < 8)
    (hsc : sc < 4) (hindex : index < 8) (hbase : base < 8) (tail : List UInt8) :
    decodeModrm (orBits (mode <<< 6) r 4 :: orBits (sc <<< 6) index base :: tail) =
      (let i := if index = 4 then none else some (index, 2 ^ sc)
       let bs := orBits (mode <<< 6) r 4 :: orBits (sc <<< 6) index base :: tail
       if base = 5 ∧ mode = 0 then .withDisp r none i (decodeDisp 2 bs 2)
       else .withDisp r (some base) i (decodeDisp mode bs 2)) := by
  have hbyte := orBits_toNat mode (by omega) r hr 4 (by decide)
  have hsib := orBits_toNat sc hsc index hindex base hbase
  simp only [decodeModrm, List.getD_cons_zero, List.getD_cons_succ, hbyte, hsib]
  have h1 : (64 * mode + 8 * r + 4) / 64 = mode := by omega
  have h2 : (64 * mode + 8 * r + 4) / 8 % 8 = r := by omega
  have h3 : (64 * mode + 8 * r + 4) % 8 = 4 := by omega
  have h4 : (64 * sc + 8 * index + base) / 64 = sc := by omega
  have h5 : (64 * sc + 8 * index + base) / 8 % 8 = index := by omega
  have h6 : (64 * sc + 8 * index + base) % 8 = base := by omega
  rw [h1, h2, h3, h4, h5, h6, if_neg (by omega), if_pos rfl]
  rfl

theorem scaleCode_lt (scale : BitVec 32) : scaleCode scale < 4 := by
  unfold scaleCode
  split_ifs <;> decide

theorem two_pow_scaleCode {scale : BitVec 32}
    (h : scale = 1 ∨ scale = 2 ∨ scale = 4 ∨ scale = 8) : 2 ^ scaleCode scale = scale.toNat := by
  rcases h with rfl | rfl | rfl | rfl <;> rfl

/-! ### Encoding and decoding -/

/-- A memory operand that the 32-bit addressing forms can express. -/
structure Operand.Encodable (rm : Operand) : Prop where
  kind : rm.kind ≠ .reg
  base : ∀ b, rm.baseReg = some b → b < 8
  index : ∀ i, rm.indexReg = some i → i < 8 ∧ i ≠ 4
  scale : rm.scale = 1 ∨ rm.scale = 2 ∨ rm.scale = 4 ∨ rm.scale = 8

/-- What is emitted for a memory operand: leading bytes and a displacement of some mode.  The
    leading bytes say the registers and the mode. -/
structure Emitted (regField : Nat) (rm : Operand) (head : List UInt8) (mode : Nat) : Prop where
  items : modrmItems regField rm = bytes head ++ dispItems mode rm
  fits : ModeFits mode rm
  decoded : ∀ tail, decodeModrm (head ++ tail) =
    .withDisp regField rm.baseReg (rm.indexReg.map (·, rm.scale.toNat))
      (decodeDisp mode (head ++ tail) head.length)

theorem Emitted.of_base {r base mode : Nat} {rm : Operand} (hr : r < 8) (hbase : base < 8)
    (hsib : base ≠ 4) (hmode : mode < 3) (hfive : ¬(base = 5 ∧ mode = 0)) (fits : ModeFits mode rm)
    (hb : rm.baseReg = some base) (hi : rm.indexReg = none)
    (items : modrmItems r rm = bytes [orBits (mode <<< 6) r base] ++ dispItems mode rm) :
    Emitted r rm [orBits (mode <<< 6) r base] mode := by
  refine ⟨items, fits, fun tail => ?_⟩
  rw [hb, hi, List.singleton_append, decodeModrm_base hmode hr hbase hsib, if_neg hfive]
  rfl

theorem Emitted.of_sib {r base index sc mode : Nat} {rm : Operand} (hr : r < 8) (hbase : base < 8)
    (hindex : index < 8) (hsc : sc < 4) (hmode : mode < 3) (hfive : ¬(base = 5 ∧ mode = 0))
    (fits : ModeFits mode rm) (hb : rm.baseReg = some base)
    (hi : rm.indexReg.map (·, rm.scale.toNat) = if index = 4 then none else some (index, 2 ^ sc))
    (items : modrmItems r rm =
      bytes [orBits (mode <<< 6 ||| 4) r 0, orBits (sc <<< 6) index base] ++ dispItems mode rm) :
    Emitted r rm [orBits (mode <<< 6 ||| 4) r 0, orBits (sc <<< 6) index base] mode := by
  refine ⟨items, fits, fun tail => ?_⟩
  rw [orBits_rm mode (by omega) 4 (by decide) r hr, hb, hi]
  rw [List.cons_append, List.singleton_append,
    decodeModrm_sib hmode hr hsc hindex hbase tail, if_neg hfive]
  rfl

theorem emitted_absolute {r : Nat} {rm : Operand} (hr : r < 8) (h : rm.Encodable)
    (hb : rm.baseReg = none) (hi : rm.indexReg = none) :
    Emitted r rm [orBits 0x05 r 0] 2 := by
  refine ⟨?_, .two rm, fun tail => ?_⟩
  · simp [modrmItems, h.kind, hb, hi, dispItems]
  · rw [show orBits 0x05 r 0 = orBits (0 <<< 6) r 5 from orBits_rm 0 (by decide) 5 (by decide) r hr,
      hb, hi, List.singleton_append,
      decodeModrm_base (by decide) hr (by decide) (by decide), if_pos ⟨rfl, rfl⟩]
    rfl

theorem emitted_index {r index : Nat} {rm : Operand} (hr : r < 8) (h : rm.Encodable)
    (hb : rm.baseReg = none) (hi : rm.indexReg = some index) :
    Emitted r rm [orBits 0x04 r 0, orBits (scaleCode rm.scale <<< 6) index 5] 2 := by
  obtain ⟨hindex, hfour⟩ := h.index index hi
  refine ⟨?_, .two rm, fun tail => ?_⟩
  · simp [modrmItems, h.kind, hb, hi, dispItems]
  · rw [show orBits 0x04 r 0 = orBits (0 <<< 6) r 4 from orBits_rm 0 (by decide) 4 (by decide) r hr,
      hb, hi, List.cons_append, List.singleton_append,
      decodeModrm_sib (by decide) hr (scaleCode_lt _) hindex (by decide), if_pos ⟨rfl, rfl⟩,
      if_neg hfour, two_pow_scaleCode h.scale]
    rfl

theorem emitted_base_index {r base index : Nat} {rm : Operand} (hr : r < 8) (h : rm.Encodable)
    (hb : rm.baseReg = some base) (hi : rm.indexReg = some index) :
    ∃ head mode, Emitted r rm head mode := by
  obtain ⟨hindex, hfour⟩ := h.index index hi
  have hbase := h.base base hb
  have hsc := scaleCode_lt rm.scale
  have hi' : rm.indexReg.map (·, rm.scale.toNat) =
      if index = 4 then none else some (index, 2 ^ scaleCode rm.scale) := by
    rw [hi, if_neg hfour, two_pow_scaleCode h.scale]
    rfl
  by_cases hzero : rm.noDisp ∧ base ≠ 5
  · refine ⟨_, 0, .of_sib hr hbase hindex hsc (by decide) (by simp [hzero.2])
      (.zero hzero.1) hb hi' ?_⟩
    simp [modrmItems, h.kind, hb, hi, dispItems, hzero]
  · by_cases hshort : rm.shortDisp
    · refine ⟨_, 1, .of_sib hr hbase hindex hsc (by decide) (by simp) (.one hshort) hb hi' ?_⟩
      simp [modrmItems, h.kind, hb, hi, dispItems, hzero, hshort]
    · refine ⟨_, 2, .of_sib hr hbase hindex hsc (by decide) (by simp) (.two rm) hb hi' ?_⟩
      simp [modrmItems, h.kind, hb, hi, dispItems, hzero, hshort]

theorem emitted_esp {r : Nat} {rm : Operand} (hr : r < 8) (h : rm.Encodable)
    (hb : rm.baseReg = some 4) (hi : rm.indexReg = none) :
    ∃ head mode, Emitted r rm head mode := by
  have hi' : rm.indexReg.map (·, rm.scale.toNat) =
      if 4 = 4 then none else some (4, 2 ^ 0) := by rw [hi]; rfl
  have hsib : orBits 0 4 4 = 0x24 := by decide
  by_cases hzero : rm.noDisp
  · refine ⟨_, 0, .of_sib hr (by decide) (by decide) (by decide) (by decide) (by decide)
      (.zero hzero) hb hi' ?_⟩
    simp [modrmItems, h.kind, hb, hi, dispItems, hzero, hsib]
  · by_cases hshort : rm.shortDisp
    · refine ⟨_, 1, .of_sib hr (by decide) (by decide) (by decide) (by decide) (by decide)
        (.one hshort) hb hi' ?_⟩
      simp [modrmItems, h.kind, hb, hi, dispItems, hzero, hshort, hsib]
    · refine ⟨_, 2, .of_sib hr (by decide) (by decide) (by decide) (by decide) (by decide)
        (.two rm) hb hi' ?_⟩
      simp [modrmItems, h.kind, hb, hi, dispItems, hzero, hshort, hsib]

theorem emitted_base {r base : Nat} {rm : Operand} (hr : r < 8) (h : rm.Encodable)
    (hb : rm.baseReg = some base) (hi : rm.indexReg = none) (hesp : base ≠ 4) :
    ∃ head mode, Emitted r rm head mode := by
  have hbase := h.base base hb
  by_cases hzero : rm.noDisp ∧ base ≠ 5
  · refine ⟨_, 0, .of_base hr hbase hesp (by decide) (by simp [hzero.2]) (.zero hzero.1) hb hi ?_⟩
    simp [modrmItems, h.kind, hb, hi, dispItems, hzero, hesp]
  · by_cases hshort : rm.shortDisp
    · refine ⟨_, 1, .of_base hr hbase hesp (by decide) (by simp) (.one hshort) hb hi ?_⟩
      simp [modrmItems, h.kind, hb, hi, dispItems, hzero, hshort, hesp]
    · refine ⟨_, 2, .of_base hr hbase hesp (by decide) (by simp) (.two rm) hb hi ?_⟩
      simp [modrmItems, h.kind, hb, hi, dispItems, hzero, hshort, hesp]

theorem Operand.Encodable.emitted {r : Nat} {rm : Operand} (hr : r < 8) (h : rm.Encodable) :
    ∃ head mode, Emitted r rm head mode := by
  rcases hb : rm.baseReg with _ | base <;> rcases hi : rm.indexReg with _ | index
  · exact ⟨_, 2, emitted_absolute hr h hb hi⟩
  · exact ⟨_, 2, emitted_index hr h hb hi⟩
  · by_cases hesp : base = 4
    · subst hesp
      exact emitted_esp hr h hb hi
    · exact emitted_base hr h hb hi hesp
  · exact emitted_base_index hr h hb hi

/-! ### Emitting an operand -/

theorem emitItems_dispItems {secIdx pass mode : Nat} {st st' : Asm} {rm : Operand}
    (fits : ModeFits mode rm)
    (h : emitItems secIdx pass st (dispItems mode rm) = some st') :
    st'.sections = (secEmit st secIdx (dispBytes mode rm.disp)).sections ∧
      if rm.hasSym ∧ pass = 2 then
        mode = 2 ∧ ∃ i, (st'.symbols.getD i noSymbol).name = cleanString (rm.symName.take 127) ∧
          st'.relocs = st.relocs ++ [⟨secIdx, u32 (st.secSize secIdx), i, R_386_32⟩]
      else st'.relocs = st.relocs := by
  have hplain : ∀ bs, emitItems secIdx pass st (bytes bs) = some st' →
      st'.sections = (secEmit st secIdx bs).sections ∧ st'.relocs = st.relocs := by
    intro bs hbs
    rw [emitItems_bytes] at hbs
    cases hbs
    exact ⟨rfl, secEmit_relocs st secIdx bs⟩
  rcases fits with ⟨rfl, -, hsym⟩ | ⟨rfl, -, -, hsym⟩ | rfl
  · rw [if_neg (by simp [hsym])]
    exact hplain [] h
  · rw [if_neg (by simp [hsym])]
    exact hplain [UInt8.ofNat rm.disp.toNat] h
  · by_cases hsym : rm.hasSym
    · simp only [dispItems, disp32Items, hsym, if_true] at h
      rw [if_neg (by decide), if_neg (by decide)] at h
      obtain ⟨hsec, i, hname, hrel⟩ := emitItem_ref (by simpa [emitItems] using h)
      refine ⟨hsec, ?_⟩
      by_cases hpass : pass = 2
      · rw [if_pos hpass] at hrel
        simpa [hsym, hpass] using ⟨i, hname, hrel⟩
      · rw [if_neg hpass] at hrel
        simpa [hpass] using hrel
    · rw [if_neg (by simp [hsym])]
      apply hplain (dword rm.disp)
      simpa [hsym, dispItems, disp32Items] using h

/-! ### The operands of `parse_operand` -/

theorem parseReg_lt {p : List UInt8} {r : RegType × Nat} (h : parseReg p = some r) : r.2 < 8 := by
  simp only [parseReg] at h
  split at h
  · obtain ⟨e, he, rfl⟩ := Option.map_eq_some_iff.mp h
    have hall : ∀ e ∈ registers, e.2.2 < 8 := by decide
    exact hall e (List.mem_of_find?_eq_some he)
  · contradiction

theorem isBlank_of_isSymChar {c : UInt8} (h : isSymChar c) : isBlank c = false := by
  have hall : ∀ c, isSymChar c → isBlank c = false := forall_byte (by decide +kernel)
  exact hall c h

theorem cleanString_symAt (p : List UInt8) : cleanString ((symAt p).1.take 127) = (symAt p).1 := by
  rw [symAt, List.take_take, Nat.min_self, cleanString, List.rdropWhile_eq_self_iff]
  intro hne
  have hmem := List.mem_of_mem_take (List.getLast_mem hne)
  rw [isBlank_of_isSymChar (List.mem_takeWhile_imp hmem)]
  exact Bool.false_ne_true

/-- What holds of every operand: the registers have numbers below 8, only a symbol has a name,
    and a register operand has no symbol. -/
structure Operand.Ok (op : Operand) : Prop where
  reg : op.regNum < 8
  base : ∀ b, op.baseReg = some b → b < 8
  index : ∀ i, op.indexReg = some i → i < 8
  name : cleanString (op.symName.take 127) = op.symName
  plain : op.kind = .reg → op.hasSym = false

theorem noOperand_ok (kind : OpKind) : Operand.Ok { noOperand with kind := kind } :=
  ⟨by simp [noOperand], by simp [noOperand], by simp [noOperand], rfl, fun _ => rfl⟩

theorem cleanString_symOrExpr (symbols : List Symbol) (p : List UInt8) :
    cleanString (((symOrExpr symbols p).1.getD []).take 127) = (symOrExpr symbols p).1.getD [] := by
  unfold symOrExpr
  split
  · exact cleanString_symAt p
  · rfl

theorem Operand.Ok.setDisp {op : Operand} (h : op.Ok) (hk : op.kind = .mem) (symbols : List Symbol)
    (p : List UInt8) : (op.setDisp (symOrExpr symbols p)).Ok :=
  ⟨h.reg, h.base, h.index, cleanString_symOrExpr symbols p, fun hreg => by
    rw [show (op.setDisp (symOrExpr symbols p)).kind = op.kind from rfl, hk] at hreg
    contradiction⟩

theorem regNum_lt {part : List UInt8} {n : Nat} (h : (parseReg part).map (·.2) = some n) :
    n < 8 := by
  obtain ⟨r, hr, rfl⟩ := Option.map_eq_some_iff.mp h
  exact parseReg_lt hr

theorem Operand.Ok.setParts {op : Operand} (h : op.Ok) (parts : List (List UInt8)) :
    (op.setParts parts).Ok := by
  unfold Operand.setParts
  split
  · exact ⟨h.reg, fun _ => regNum_lt, h.index, h.name, h.plain⟩
  · exact ⟨h.reg, fun _ => regNum_lt, fun _ => regNum_lt, h.name, h.plain⟩
  · exact ⟨h.reg, fun _ => regNum_lt, fun _ => regNum_lt, h.name, h.plain⟩
  · exact h

theorem parseOperand_ok {symbols : List Symbol} {s : List UInt8} {op : Operand}
    (h : parseOperand symbols s = some op) : op.Ok := by
  have hmem := noOperand_ok .mem
  unfold parseOperand at h
  split at h
  · contradiction
  · split at h
    · rename_i hreg
      cases h
      split at hreg
      · exact ⟨parseReg_lt hreg, by simp [noOperand], by simp [noOperand], rfl, fun _ => rfl⟩
      · contradiction
    · split at h
      · cases h
        exact ⟨by simp [noOperand], by simp [noOperand], by simp [noOperand],
          cleanString_symOrExpr symbols _, by simp⟩
      · simp only at h
        split at h
        · have hdisp : ∀ before q : List UInt8, (if before = [] then { noOperand with kind := .mem }
              else Operand.setDisp { noOperand with kind := .mem } (symOrExpr symbols q)).Ok := by
            intro before q
            split
            · exact hmem
            · exact hmem.setDisp rfl symbols q
          split at h <;> cases h
          · exact (hdisp _ _).setParts _
          · exact hdisp _ _
        · cases h
          exact hmem.setDisp rfl symbols _

/-- The bytes that are emitted for a register or memory operand decode to it, and a symbol has
    its relocation at the 32-bit displacement. -/
theorem emitModrmSib_decodes {st st' : Asm} {secIdx r pass : Nat} {symbols : List Symbol}
    {text : List UInt8} {rm : Operand} (hr : r < 8)
    (hsec : secIdx < st.sections.length) (hparse : parseOperand symbols text = some rm)
    (hkind : rm.kind = .reg ∨ rm.kind = .mem) (hindex : rm.indexReg ≠ some 4)
    (hscale : rm.scale = 1 ∨ rm.scale = 2 ∨ rm.scale = 4 ∨ rm.scale = 8)
    (h : emitModrmSib st secIdx r rm pass = some st') :
    ∃ bs dispAt, st'.sections = (secEmit st secIdx bs).sections ∧
      (∀ rest, decodeModrm (bs ++ rest) = ⟨r, rm.place, dispAt, bs.length⟩) ∧
      if rm.hasSym ∧ pass = 2 then
        ∃ k i, dispAt = some k ∧ (st'.symbols.getD i noSymbol).name = rm.symName ∧
          st'.relocs = st.relocs ++ [⟨secIdx, u32 (st.secSize secIdx + k), i, R_386_32⟩]
      else st'.relocs = st.relocs := by
  have hok := parseOperand_ok hparse
  rcases hkind with hkind | hkind
  · refine ⟨[orBits 0xC0 r rm.regNum], none, ?_⟩
    rw [emitModrmSib, modrmItems, if_pos hkind, emitItems_bytes] at h
    cases h
    rw [if_neg (by simp [hok.plain hkind])]
    refine ⟨rfl, fun rest => ?_, secEmit_relocs _ _ _⟩
    rw [List.singleton_append, decodeModrm_reg hr hok.reg, Operand.place, if_pos hkind]
    rfl
  · have henc : rm.Encodable :=
      ⟨by simp [hkind], hok.base, fun i hi => ⟨hok.index i hi, fun h4 => hindex (h4 ▸ hi)⟩, hscale⟩
    obtain ⟨head, mode, hem⟩ := henc.emitted hr
    rw [emitModrmSib, hem.items, emitItems_append, emitItems_bytes, Option.bind_some] at h
    obtain ⟨hsections, hrel⟩ :=
      emitItems_dispItems hem.fits h
    refine ⟨head ++ dispBytes mode rm.disp, if mode = 2 then some head.length else none, ?_, ?_, ?_⟩
    · rw [hsections, secEmit_append]
    · intro rest
      rw [List.append_assoc, hem.decoded, ← List.append_assoc,
        decodeDisp_dispBytes hem.fits head rest, Operand.place, if_neg henc.kind, List.length_append]
      rfl
    · rw [secEmit_relocs, secSize_secEmit st head hsec, hok.name] at hrel
      split
      · rename_i hboth
        rw [if_pos hboth] at hrel
        obtain ⟨hmode, i, hname, hrelocs⟩ := hrel
        exact ⟨head.length, i, if_pos hmode, hname, hrelocs⟩
      · rename_i hnot
        rwa [if_neg hnot] at hrel

/-- `.text` with three bytes and no symbol. -/
def textAsm : Asm :=
  ⟨[noSection, ⟨str ".text", SHT_PROGBITS, 6, 4, [0x90, 0x90, 0x8B], 3⟩], 1, [noSymbol], [], []⟩

theorem emitModrmSib_decodes_table :
    ∃ rm st', parseOperand [] (str "tab+8(,%eax,4)") = some rm ∧
      emitModrmSib textAsm 1 2 rm 2 = some st' ∧
      ∃ bs dispAt, st'.sections = (secEmit textAsm 1 bs).sections ∧
        (∀ rest, decodeModrm (bs ++ rest) = ⟨2, rm.place, dispAt, bs.length⟩) ∧
        if rm.hasSym ∧ 2 = 2 then
          ∃ k i, dispAt = some k ∧ (st'.symbols.getD i noSymbol).name = rm.symName ∧
            st'.relocs = textAsm.relocs ++ [⟨1, u32 (textAsm.secSize 1 + k), i, R_386_32⟩]
        else st'.relocs = textAsm.relocs := by
  have hparse : parseOperand [] (str "tab+8(,%eax,4)") = some
      { noOperand with
        kind := .mem, symName := str "tab", hasSym := true, indexReg := some 0, scale := 4,
        disp := 8 } := by decide +kernel
  obtain ⟨st', h⟩ : ∃ st', emitModrmSib textAsm 1 2
      { noOperand with
        kind := .mem, symName := str "tab", hasSym := true, indexReg := some 0, scale := 4,
        disp := 8 } 2 = some st' := Option.isSome_iff_exists.mp (by decide +kernel)
  exact ⟨_, st', hparse, h, emitModrmSib_decodes (by decide) (by decide) hparse (.inr rfl)
    (by decide) (by decide) h⟩

end Gemios.As
