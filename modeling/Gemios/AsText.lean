import Gemios.AsOperand

/-!
# The text of a line

The functions of `src/tools/as.c` that take a line apart: the label, the operands as texts, and
the string of `.ascii` and `.asciz`.  A function that reads or writes outside an array has no
result.
-/

namespace Gemios.As

/-- `#` or `;`, where a comment begins. -/
def isComment (c : UInt8) : Bool := c == 0x23 || c == 0x3B

def lineEnds (p : List UInt8) : Bool := p.head?.all isComment

/-- `strstr`: where `needle` occurs first. -/
def strstr (needle : List UInt8) : List UInt8 → Option Nat
  | [] => if needle.isEmpty then some 0 else none
  | c :: s => if needle.isPrefixOf (c :: s) then some 0 else (strstr needle s).map (· + 1)

/-! ### The label -/

def isLabelChar (c : UInt8) : Bool := isAlnum c || c == 0x5F || c == 0x2E || c == 0x24

/-- `find_label_colon`, for a text without blanks before it: what is before the colon, and
    behind it. -/
def findLabelColon (p : List UInt8) : Option (List UInt8 × List UInt8) :=
  if p.head?.all fun c => c == 0x22 || isComment c then none
  else
    let name := p.takeWhile isLabelChar
    let blanks := (p.dropWhile isLabelChar).takeWhile isBlank
    match skipWs (p.dropWhile isLabelChar) with
    | [] => none
    | c :: q => if c = 0x3A then some (name ++ blanks, q) else none

/-! ### The token -/

def isTokenChar (c : UInt8) : Bool := !isSpace c && !isComment c

/-- The token, of which 63 characters are kept, and the text behind it. -/
def takeToken (p : List UInt8) : List UInt8 × List UInt8 :=
  ((p.takeWhile isTokenChar).take 63, skipWs (p.dropWhile isTokenChar))

/-! ### Operands -/

/-- A store into a row of `ops`, when there is room. -/
def pushChar (op : List UInt8) (c : UInt8) : List UInt8 := if op.length < 510 then op ++ [c] else op

/-- The inner loop of `parse_operands_raw`: the operand, and the text that it ends at.  A
    backslash that is stored takes the next character with it; one that is not stored does not. -/
def scanOperand : List UInt8 → Int → Bool → List UInt8 → Option (List UInt8 × List UInt8)
  | op, _, _, [] => some (op, [])
  | op, inParen, inQuote, c :: p =>
    if !inQuote && (isComment c || (inParen == 0 && c == 0x2C)) then some (op, c :: p)
    else if c = 0x22 then scanOperand (pushChar op c) inParen (!inQuote) p
    else if c = 0x5C ∧ inQuote then
      if op.length < 510 then
        match p with
        | [] => none
        | d :: p => scanOperand (pushChar (pushChar op c) d) inParen inQuote p
      else scanOperand op inParen inQuote p
    else if c = 0x28 ∧ ¬ inQuote then scanOperand (pushChar op c) (inParen + 1) inQuote p
    else if c = 0x29 ∧ ¬ inQuote then scanOperand (pushChar op c) (inParen - 1) inQuote p
    else scanOperand (pushChar op c) inParen inQuote p

/-- The blanks that are trimmed off an operand. -/
def trimOperand (op : List UInt8) : List UInt8 :=
  (cleanString op).dropWhile fun c => c == 0x20 || c == 0x09

/-- `parse_operands_raw`, with room for `n` operands. -/
def parseOperandsFrom : Nat → List UInt8 → Option (List (List UInt8))
  | 0, _ => some []
  | n + 1, p =>
    if lineEnds p then some []
    else
      (scanOperand [] 0 false p).bind fun (op, q) =>
        (parseOperandsFrom n (skipWs (if q.head? = some 0x2C then q.drop 1 else q))).map
          (trimOperand op :: ·)

def parseOperandsRaw (p : List UInt8) : Option (List (List UInt8)) := parseOperandsFrom 8 (skipWs p)

/-- The parts that `parse_operand` stores in `parts`, which has room for three. -/
def operandParts (s : List UInt8) : List (List UInt8) :=
  match skipWs s with
  | [] => []
  | c :: rest =>
    if (c = 0x25 ∧ (parseReg (c :: rest)).isSome) ∨ c = 0x24 then []
    else
      let after := ((c :: rest).dropWhile (· != 0x28)).drop 1
      if (c :: rest).contains 0x28 ∧ after.contains 0x29 then
        let inside := (after.takeWhile (· != 0x29)).take 127
        splitParts (inside.length + 1) inside
      else []

/-- `parse_operand` stays within `parts`. -/
def partsFit (s : List UInt8) : Bool := (operandParts s).length ≤ 3

/-! ### Strings -/

def isOctal (c : UInt8) : Bool := 0x30 ≤ c && c ≤ 0x37

/-- The loop over at most three octal digits: the number, and what is behind. -/
def octalDigits : Nat → Nat → List UInt8 → Nat × List UInt8
  | 0, acc, p => (acc, p)
  | _, acc, [] => (acc, [])
  | n + 1, acc, c :: p => if isOctal c then octalDigits n (acc * 8 + (c.toNat - 0x30)) p else (acc, c :: p)

/-- `(uint8_t)strtoul`, in base 16, of two characters. -/
def hexByte (hex : List UInt8) : UInt8 :=
  match hex.dropWhile isSpace with
  | 0x2D :: q => -UInt8.ofNat (digits 16 0 q).1
  | 0x2B :: q => UInt8.ofNat (digits 16 0 q).1
  | q => UInt8.ofNat (digits 16 0 q).1

/-- The byte for what is behind a backslash, and the text behind that; `none` is a read behind
    the end of the line. -/
def takeEscape : List UInt8 → Option (UInt8 × List UInt8)
  | [] => none
  | c :: p =>
    if c = 0x30 ∧ ¬ p.head?.any isOctal then some (0, p)
    else if isOctal c then
      let (oct, q) := octalDigits 3 0 (c :: p)
      some (UInt8.ofNat oct, q)
    else if c = 0x78 then
      match p with
      | h :: l :: q => some (hexByte [h, l], q)
      | _ => none
    else some (escape c, p)

/-- The loop of `emit_string_literal`: the bytes it emits.  Every round takes a character. -/
def stringBytes : Nat → List UInt8 → Option (List UInt8)
  | 0, _ => some []
  | _, [] => some []
  | n + 1, c :: p =>
    if c = 0x22 then some []
    else if c = 0x5C then
      (takeEscape p).bind fun (b, q) => (stringBytes n q).map (b :: ·)
    else (stringBytes n p).map (c :: ·)

/-- What `emit_string_literal` emits. -/
def stringLiteral (p : List UInt8) (nullTerminated : Bool) : Option (List UInt8) :=
  let q := skipWs p
  let q := if q.head? = some 0x22 then q.drop 1 else q
  (stringBytes (q.length + 1) q).map fun bs => if nullTerminated then bs ++ [0] else bs

/-! ### The first occurrence -/

theorem strstr_spec {needle s : List UInt8} {pos : Nat} (h : strstr needle s = some pos) :
    needle <+: s.drop pos ∧ ∀ i < pos, ¬ needle <+: s.drop i := by
  induction s generalizing pos with
  | nil =>
    rw [strstr] at h
    cases needle with
    | nil =>
      obtain rfl : 0 = pos := by simpa using h
      exact ⟨List.nil_prefix, fun i hi => absurd hi (Nat.not_lt_zero i)⟩
    | cons d needle => simp at h
  | cons c s ih =>
    rw [strstr] at h
    by_cases hp : needle.isPrefixOf (c :: s) = true
    · rw [if_pos hp] at h
      obtain rfl := Option.some.inj h
      exact ⟨List.isPrefixOf_iff_prefix.mp hp, fun i hi => absurd hi (Nat.not_lt_zero i)⟩
    · rw [if_neg hp] at h
      obtain ⟨pos', hpos, rfl⟩ := Option.map_eq_some_iff.mp h
      obtain ⟨hpre, hfirst⟩ := ih hpos
      refine ⟨hpre, fun i hi => ?_⟩
      cases i with
      | zero => exact fun hpre => hp (List.isPrefixOf_iff_prefix.mpr hpre)
      | succ i => exact hfirst i (by omega)

theorem strstr_splice {needle s : List UInt8} {pos : Nat} (h : strstr needle s = some pos) :
    s.take pos ++ needle ++ s.drop (pos + needle.length) = s := by
  obtain ⟨rest, hrest⟩ := (strstr_spec h).1
  have htail : s.drop (pos + needle.length) = rest := by
    rw [← List.drop_drop, ← hrest, List.drop_left]
  rw [htail, List.append_assoc, hrest, List.take_append_drop]

theorem strstr_isSome (needle a b : List UInt8) : strstr needle (a ++ needle ++ b) ≠ none := by
  induction a with
  | nil =>
    cases needle with
    | nil => cases b <;> simp [strstr]
    | cons d needle =>
      rw [List.nil_append, List.cons_append, strstr, if_pos]
      · simp
      · exact List.isPrefixOf_iff_prefix.mpr ⟨b, rfl⟩
  | cons c a ih =>
    rw [List.cons_append, List.cons_append, strstr]
    split
    · simp
    · simpa using ih

theorem strstr_first {needle a b : List UInt8}
    (h : ∀ i < a.length, ¬ needle <+: (a ++ needle ++ b).drop i) :
    strstr needle (a ++ needle ++ b) = some a.length := by
  cases hs : strstr needle (a ++ needle ++ b) with
  | none => exact absurd hs (strstr_isSome _ _ _)
  | some pos =>
    obtain ⟨hpre, hfirst⟩ := strstr_spec hs
    have hge : ¬ pos < a.length := fun hlt => h pos hlt hpre
    have hle : ¬ a.length < pos := by
      intro hlt
      refine hfirst a.length hlt ?_
      rw [List.append_assoc, List.drop_left]
      exact List.prefix_append _ _
    rw [Nat.le_antisymm (Nat.not_lt.mp hle) (Nat.not_lt.mp hge)]

theorem strstr_none {needle s : List UInt8} (hne : needle ≠ [])
    (h : ∀ i < s.length, ¬ needle <+: s.drop i) : strstr needle s = none := by
  cases hs : strstr needle s with
  | none => rfl
  | some pos =>
    obtain ⟨hpre, _⟩ := strstr_spec hs
    by_cases hlt : pos < s.length
    · exact absurd hpre (h pos hlt)
    · rw [List.drop_of_length_le (Nat.not_lt.mp hlt), List.prefix_nil] at hpre
      exact absurd hpre hne

end Gemios.As
