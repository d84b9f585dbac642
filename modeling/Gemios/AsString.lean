import Gemios.AsLine
import Gemios.AsPreprocess

/-!
# String directives

A string between quotes, with the escapes that assemblers use, on its way through
`src/tools/as.c`: it is read as a line, passes the label, the token and the operands, and
`emit_string_literal` decodes it.  The operands of a string directive are parsed like those of
an instruction, into an array with room for three parts between parentheses.
-/

namespace Gemios.As

def escapeByte (b : UInt8) : List UInt8 :=
  if b = 0x22 then [0x5C, 0x22]
  else if b = 0x5C then [0x5C, 0x5C]
  else if b = 0x0A then [0x5C, 0x6E]
  else if b = 0x09 then [0x5C, 0x74]
  else if b = 0x0D then [0x5C, 0x72]
  else if b = 0x08 then [0x5C, 0x62]
  else if b = 0x0C then [0x5C, 0x66]
  else if 0x20 ≤ b ∧ b ≤ 0x7E then [b]
  else [0x5C, 0x30 + b / 64, 0x30 + b / 8 % 8, 0x30 + b % 8]

def quoted (s : List UInt8) : List UInt8 := 0x22 :: (s.flatMap escapeByte ++ [0x22])

/-! ### The escapes -/

inductive EscapeOf (b : UInt8) : List UInt8 → Prop
  | plain (hq : b ≠ 0x22) (hb : b ≠ 0x5C) : EscapeOf b [b]
  | short {c : UInt8} (h : ∀ rest, takeEscape (c :: rest) = some (b, rest)) : EscapeOf b [0x5C, c]
  | octal {c d e : UInt8} (h : ∀ rest, takeEscape (c :: d :: e :: rest) = some (b, rest))
    (hd : isOctal d) (he : isOctal e) : EscapeOf b [0x5C, c, d, e]

theorem octal_spec : ∀ n < 256,
    isOctal (0x30 + UInt8.ofNat n / 64) ∧ isOctal (0x30 + UInt8.ofNat n / 8 % 8) ∧
      isOctal (0x30 + UInt8.ofNat n % 8) ∧
      UInt8.ofNat ((((0x30 + UInt8.ofNat n / 64).toNat - 0x30) * 8 +
        ((0x30 + UInt8.ofNat n / 8 % 8).toNat - 0x30)) * 8 +
          ((0x30 + UInt8.ofNat n % 8).toNat - 0x30)) = UInt8.ofNat n := by
  decide +kernel

theorem takeEscape_octal {c d e : UInt8} (hc : isOctal c) (hd : isOctal d) (he : isOctal e)
    (rest : List UInt8) :
    takeEscape (c :: d :: e :: rest) =
      some (UInt8.ofNat (((c.toNat - 0x30) * 8 + (d.toNat - 0x30)) * 8 + (e.toNat - 0x30)), rest) := by
  have hdigits : octalDigits 3 0 (c :: d :: e :: rest) =
      (((c.toNat - 0x30) * 8 + (d.toNat - 0x30)) * 8 + (e.toNat - 0x30), rest) := by
    rw [octalDigits, if_pos hc, octalDigits, if_pos hd, octalDigits, if_pos he, octalDigits,
      Nat.zero_mul, Nat.zero_add]
  rw [takeEscape, if_neg, if_pos hc, hdigits]
  rintro ⟨_, hno⟩
  exact hno hd

theorem escapeOf (b : UInt8) : EscapeOf b (escapeByte b) := by
  have hshort : ∀ c : UInt8, (∀ rest, takeEscape (c :: rest) = some (escape c, rest)) →
      b = escape c → EscapeOf b [0x5C, c] := by
    intro c hc hb
    exact EscapeOf.short fun rest => hb ▸ hc rest
  unfold escapeByte
  by_cases h1 : b = 0x22
  · rw [if_pos h1]
    exact hshort 0x22 (fun rest => rfl) h1
  by_cases h2 : b = 0x5C
  · rw [if_neg h1, if_pos h2]
    exact hshort 0x5C (fun rest => rfl) h2
  rw [if_neg h1, if_neg h2]
  by_cases h3 : b = 0x0A
  · rw [if_pos h3]
    exact hshort 0x6E (fun rest => rfl) h3
  by_cases h4 : b = 0x09
  · rw [if_neg h3, if_pos h4]
    exact hshort 0x74 (fun rest => rfl) h4
  by_cases h5 : b = 0x0D
  · rw [if_neg h3, if_neg h4, if_pos h5]
    exact hshort 0x72 (fun rest => rfl) h5
  rw [if_neg h3, if_neg h4, if_neg h5]
  by_cases h6 : b = 0x08
  · rw [if_pos h6]
    exact hshort 0x62 (fun rest => rfl) h6
  by_cases h7 : b = 0x0C
  · rw [if_neg h6, if_pos h7]
    exact hshort 0x66 (fun rest => rfl) h7
  rw [if_neg h6, if_neg h7]
  split
  · exact EscapeOf.plain h1 h2
  · obtain ⟨hc, hd, he, hvalue⟩ := octal_spec b.toNat b.toNat_lt
    rw [UInt8.ofNat_toNat] at hc hd he hvalue
    refine EscapeOf.octal (fun rest => ?_) hd he
    rw [takeEscape_octal hc hd he, hvalue]

theorem stringBytes_escaped (s rest : List UInt8) {n : Nat}
    (hn : (s.flatMap escapeByte).length < n) :
    stringBytes n (s.flatMap escapeByte ++ 0x22 :: rest) = some s := by
  induction s generalizing n with
  | nil =>
    cases n with
    | zero => cases hn
    | succ n => rfl
  | cons b s ih =>
    rw [List.flatMap_cons, List.length_append] at hn
    rw [List.flatMap_cons, List.append_assoc]
    cases n with
    | zero => cases hn
    | succ n =>
      have hstep : ∀ c p, takeEscape (c :: p) = some (b, s.flatMap escapeByte ++ 0x22 :: rest) →
          (s.flatMap escapeByte).length < n → stringBytes (n + 1) (0x5C :: c :: p) = some (b :: s) := by
        intro c p hc hlt
        rw [stringBytes, if_neg (by decide), if_pos rfl, hc]
        dsimp only [Option.bind_some]
        rw [ih hlt]
        rfl
      have hb := escapeOf b
      generalize escapeByte b = e at hb hn ⊢
      cases hb with
      | plain hq hb =>
        simp only [List.length_cons, List.length_nil] at hn
        rw [List.singleton_append, stringBytes, if_neg hq, if_neg hb, ih (by omega)]
        rfl
      | short h =>
        simp only [List.length_cons, List.length_nil] at hn
        exact hstep _ _ (h _) (by omega)
      | octal h hd he =>
        simp only [List.length_cons, List.length_nil] at hn
        exact hstep _ _ (h _) (by omega)

theorem stringLiteral_quoted (s : List UInt8) (nullTerminated : Bool) :
    stringLiteral (quoted s) nullTerminated =
      some (if nullTerminated then s ++ [0] else s) := by
  have hskip : skipWs (quoted s) = quoted s := rfl
  have hquote : (if (quoted s).head? = some 0x22 then (quoted s).drop 1 else quoted s) =
      s.flatMap escapeByte ++ [0x22] := rfl
  unfold stringLiteral
  rw [hskip]
  dsimp only
  rw [hquote, stringBytes_escaped s [] (by rw [List.length_append]; omega)]
  rfl

/-! ### The operands -/

theorem getLast?_ne_of_suffix {p q : List UInt8} {c : UInt8} (hq : q <:+ p)
    (h : p.getLast? ≠ some c) : q.getLast? ≠ some c := by
  obtain ⟨a, rfl⟩ := hq
  intro hlast
  apply h
  rw [List.getLast?_append, hlast]
  rfl

theorem scanOperand_some {op : List UInt8} {inParen : Int} {inQuote : Bool} {p : List UInt8}
    (h : p.getLast? ≠ some 0x5C) :
    ∃ op' q, scanOperand op inParen inQuote p = some (op', q) ∧ q <:+ p := by
  have hmore : ∀ {a p : List UInt8} {r : Option (List UInt8 × List UInt8)},
      (a ++ p).getLast? ≠ some 0x5C →
      (p.getLast? ≠ some 0x5C → ∃ op' q, r = some (op', q) ∧ q <:+ p) →
        ∃ op' q, r = some (op', q) ∧ q <:+ a ++ p := by
    intro a p r hlast ih
    obtain ⟨op', q, hr, hq⟩ := ih (getLast?_ne_of_suffix (List.suffix_append a p) hlast)
    exact ⟨op', q, hr, hq.trans (List.suffix_append a p)⟩
  fun_induction scanOperand op inParen inQuote p with
  | case1 op => exact ⟨op, [], rfl, List.suffix_refl []⟩
  | case2 op inParen inQuote c p => exact ⟨op, c :: p, rfl, List.suffix_refl _⟩
  | case3 op inParen inQuote p hend ih => exact hmore (a := [0x22]) h ih
  | case4 op inParen inQuote c hend hquote hback =>
    rw [hback.1] at h
    exact absurd rfl h
  | case5 op inParen inQuote c hend hquote hback hlt d p ih => exact hmore (a := [c, d]) h ih
  | case6 op inParen inQuote c p hend hquote hback hlt ih => exact hmore (a := [c]) h ih
  | case7 op inParen inQuote c p hend hquote hback hopen ih => exact hmore (a := [c]) h ih
  | case8 op inParen inQuote c p hend hquote hback hopen hclose ih => exact hmore (a := [c]) h ih
  | case9 op inParen inQuote c p hend hquote hback hopen hclose ih => exact hmore (a := [c]) h ih

theorem nextOperand_suffix {p q : List UInt8} (hq : q <:+ p) :
    skipWs (if q.head? = some 0x2C then q.drop 1 else q) <:+ p := by
  refine (List.dropWhile_suffix _).trans (List.IsSuffix.trans ?_ hq)
  split
  · exact List.drop_suffix 1 q
  · exact List.suffix_refl q

theorem parseOperandsFrom_some {n : Nat} {p : List UInt8} (h : p.getLast? ≠ some 0x5C) :
    ∃ raw, parseOperandsFrom n p = some raw := by
  induction n generalizing p with
  | zero => exact ⟨[], rfl⟩
  | succ n ih =>
    rw [parseOperandsFrom]
    split
    · exact ⟨[], rfl⟩
    · obtain ⟨op, q, hscan, hq⟩ : ∃ op q, scanOperand [] 0 false p = some (op, q) ∧ q <:+ p :=
        scanOperand_some h
      have hnext := nextOperand_suffix hq
      obtain ⟨raw, hraw⟩ := ih (getLast?_ne_of_suffix hnext h)
      rw [hscan]
      dsimp only [Option.bind_some]
      rw [hraw]
      exact ⟨_, rfl⟩

theorem quoted_getLast? (s : List UInt8) : (quoted s).getLast? ≠ some 0x5C := by
  unfold quoted
  rw [← List.cons_append, List.getLast?_append]
  simp

theorem pushChar_of_lt {op : List UInt8} (h : op.length < 510) (c : UInt8) :
    pushChar op c = op ++ [c] :=
  if_pos h

theorem scanOperand_plain {op : List UInt8} {inParen : Int} {c : UInt8} (rest : List UInt8)
    (hq : c ≠ 0x22) (hb : c ≠ 0x5C) (h : op.length < 510) :
    scanOperand op inParen true (c :: rest) = scanOperand (op ++ [c]) inParen true rest := by
  rw [scanOperand.eq_def]
  dsimp only
  rw [if_neg (by simp), if_neg hq, if_neg (by simp [hb]), if_neg (by simp), if_neg (by simp),
    pushChar_of_lt h]

theorem scanOperand_pair {op : List UInt8} {inParen : Int} (c : UInt8) (rest : List UInt8)
    (h : op.length + 2 ≤ 510) :
    scanOperand op inParen true (0x5C :: c :: rest) =
      scanOperand (op ++ [0x5C, c]) inParen true rest := by
  have hone : pushChar op 0x5C = op ++ [0x5C] := pushChar_of_lt (by omega) _
  have hlen : (op ++ [0x5C]).length < 510 := by
    rw [List.length_append]
    exact h
  rw [scanOperand, if_neg (by simp), if_neg (by decide), if_pos (by simp), if_pos (by omega), hone,
    pushChar_of_lt hlen, List.append_assoc]
  rfl

theorem isOctal_ne {c : UInt8} (h : isOctal c) : c ≠ 0x22 ∧ c ≠ 0x5C := by
  constructor
  · rintro rfl
    cases h
  · rintro rfl
    cases h

theorem scanOperand_escaped (s : List UInt8) {op : List UInt8} {inParen : Int} (rest : List UInt8)
    (h : (op ++ s.flatMap escapeByte).length ≤ 510) :
    scanOperand op inParen true (s.flatMap escapeByte ++ rest) =
      scanOperand (op ++ s.flatMap escapeByte) inParen true rest := by
  induction s generalizing op with
  | nil => rw [List.flatMap_nil, List.append_nil, List.nil_append]
  | cons b s ih =>
    rw [List.flatMap_cons, ← List.append_assoc] at h
    have hb := escapeOf b
    rw [List.flatMap_cons, List.append_assoc, ← List.append_assoc op, ← ih h]
    rw [List.length_append, List.length_append] at h
    generalize escapeByte b = e at hb h ⊢
    cases hb with
    | plain hq hb =>
      simp only [List.length_cons, List.length_nil] at h
      exact scanOperand_plain _ hq hb (by omega)
    | short hc =>
      simp only [List.length_cons, List.length_nil] at h
      exact scanOperand_pair _ _ (by omega)
    | @octal c d e hc hd he =>
      simp only [List.length_cons, List.length_nil] at h
      obtain ⟨hdq, hdb⟩ := isOctal_ne hd
      obtain ⟨heq, heb⟩ := isOctal_ne he
      have hlen : (op ++ [0x5C, c]).length = op.length + 2 := List.length_append
      have hlen' : (op ++ [0x5C, c] ++ [d]).length = op.length + 3 := by
        rw [List.length_append, hlen]
        rfl
      dsimp only [List.cons_append, List.nil_append]
      rw [scanOperand_pair _ _ (by omega), scanOperand_plain _ hdq hdb (by omega),
        scanOperand_plain _ heq heb (by omega)]
      simp

theorem parseOperandsRaw_quoted {s : List UInt8} (h : (quoted s).length ≤ 510) :
    parseOperandsRaw (quoted s) = some [quoted s] := by
  have hlen : (0x22 :: s.flatMap escapeByte).length < 510 := by
    have heq : (quoted s).length = (0x22 :: s.flatMap escapeByte).length + 1 := by
      unfold quoted
      simp
    omega
  have hscan : scanOperand [] 0 false (quoted s) = some (quoted s, []) := by
    unfold quoted
    rw [scanOperand.eq_def]
    dsimp only
    rw [if_neg (by decide), if_pos rfl, pushChar_of_lt (by decide)]
    rw [Bool.not_false, scanOperand_escaped s [0x22] (Nat.le_of_lt hlen)]
    rw [scanOperand.eq_def]
    dsimp only
    rw [if_neg (by simp), if_pos rfl, List.nil_append, List.singleton_append, pushChar_of_lt hlen]
    rfl
  have htrim : trimOperand (quoted s) = quoted s := by
    unfold trimOperand cleanString
    have hclean : (quoted s).rdropWhile isBlank = quoted s := by
      unfold quoted
      rw [← List.cons_append, List.rdropWhile_concat_neg _ _ _ (by decide)]
    rw [hclean]
    rfl
  have hskip : skipWs (quoted s) = quoted s := rfl
  unfold parseOperandsRaw
  rw [hskip, parseOperandsFrom, if_neg (by simp [quoted, lineEnds, isComment]), hscan]
  dsimp only [Option.bind_some]
  rw [htrim]
  rfl

/-! ### The line -/

def isGap (c : UInt8) : Bool := c == 0x20 || c == 0x09

/-- `.ascii`, or `.asciz` with a zero byte at the end. -/
inductive StringDir where
  | ascii | asciz
deriving DecidableEq

def StringDir.text : StringDir → List UInt8
  | .ascii => str ".ascii"
  | .asciz => str ".asciz"

def StringDir.emits (d : StringDir) (s : List UInt8) : List UInt8 :=
  match d with
  | .ascii => s
  | .asciz => s ++ [0]

structure LineLabel where
  name : List UInt8
  gap : List UInt8
  gap' : List UInt8
  name_ne : name ≠ []
  name_ok : ∀ c ∈ name, isLabelChar c
  short : (name ++ gap).length < 127
  gap_ok : ∀ c ∈ gap, isGap c
  gap_ok' : ∀ c ∈ gap', isGap c

def LineLabel.text (l : LineLabel) : List UInt8 := l.name ++ l.gap ++ [0x3A] ++ l.gap'

structure StringLine where
  lead : List UInt8
  label : Option LineLabel
  dir : StringDir
  gap : List UInt8
  string : List UInt8
  lead_ok : ∀ c ∈ lead, isGap c
  gap_ne : gap ≠ []
  gap_ok : ∀ c ∈ gap, isGap c

def StringLine.body (l : StringLine) : List UInt8 := l.dir.text ++ l.gap ++ quoted l.string

def StringLine.text (l : StringLine) : List UInt8 :=
  l.lead ++ (l.label.elim [] LineLabel.text ++ l.body)

/-- The tables after the label of the line, with its entry in the log. -/
def StringLine.before (l : StringLine) (pass line : Nat) (st : Asm) : Option (Asm × List Event) :=
  match l.label with
  | none => some (st, [])
  | some label =>
    (defineLabel pass st (st.labelPos line label.name)).map fun st' =>
      (st', [.label (st.labelPos line label.name)])

theorem isBlank_of_isGap {c : UInt8} (h : isGap c) : isBlank c := by
  unfold isGap at h
  unfold isBlank
  simp only [Bool.or_eq_true] at h ⊢
  exact Or.inl (Or.inl h)

theorem skipWs_gap {gap : List UInt8} (h : ∀ c ∈ gap, isGap c) (rest : List UInt8) :
    skipWs (gap ++ rest) = skipWs rest :=
  List.dropWhile_append_of_pos fun c hc => isBlank_of_isGap (h c hc)

theorem assembleLine_statement {pass line : Nat} {st st₁ : Asm} {text q token r : List UInt8}
    {log : List Event} {raw : List (List UInt8)} (hstart : ¬ lineEnds (skipWs text))
    (hcomment : (skipWs text).take 2 ≠ [0x2F, 0x2A])
    (hlabel : takeLabel pass line st (skipWs text) = some (st₁, log, q)) (hq : ¬ lineEnds q)
    (htoken : takeToken q = (token, r)) (hraw : parseOperandsRaw r = some raw)
    (hrep : lookup repTable token = none) :
    assembleLine pass line st text =
      if raw.all partsFit then
        (runCmd pass st₁ (statement st₁ line token r raw)).map
          (·, log ++ jumpEvents line st₁ token raw)
      else none := by
  unfold assembleLine
  rw [assembleFuel]
  dsimp only
  rw [if_neg (not_or.mpr ⟨hstart, hcomment⟩), hlabel]
  dsimp only [Option.bind_eq_bind, Option.bind_some]
  rw [if_neg hq, htoken]
  dsimp only
  rw [hraw]
  dsimp only [Option.bind_some]
  rw [hrep]
  by_cases hfit : raw.all partsFit = true
  · rw [if_neg (not_not.mpr hfit), if_pos hfit]
    dsimp only
    cases runCmd pass st₁ (statement st₁ line token r raw) <;> rfl
  · rw [if_pos hfit, if_neg hfit]
    rfl

/-! ### The label and the token -/

theorem isGap_cases {c : UInt8} (h : isGap c) : c = 0x20 ∨ c = 0x09 := by
  simpa [isGap] using h

theorem isLabelChar_of_isGap {c : UInt8} (h : isGap c) : isLabelChar c = false := by
  rcases isGap_cases h with rfl | rfl <;> rfl

theorem isTokenChar_of_isGap {c : UInt8} (h : isGap c) : isTokenChar c = false := by
  rcases isGap_cases h with rfl | rfl <;> rfl

theorem not_isBlank_of_isLabelChar {c : UInt8} (h : isLabelChar c) :
    isBlank c = false ∧ isComment c = false ∧ c ≠ 0x22 ∧ c ≠ 0x2F := by
  have hall : ∀ c, isLabelChar c →
      isBlank c = false ∧ isComment c = false ∧ c ≠ 0x22 ∧ c ≠ 0x2F :=
    forall_byte (by decide +kernel)
  exact hall c h

theorem takeWhile_gap {p : UInt8 → Bool} {word : List UInt8} (gap rest : List UInt8) {c : UInt8}
    (hword : ∀ d ∈ word, p d) (hgap : ∀ d ∈ gap, p d = false) (hc : p c = false) :
    (word ++ (gap ++ c :: rest)).takeWhile p = word ∧
      (word ++ (gap ++ c :: rest)).dropWhile p = gap ++ c :: rest := by
  have hstop : ∀ q : List UInt8, q.head?.all (fun d => !p d) →
      (word ++ q).takeWhile p = word ∧ (word ++ q).dropWhile p = q := by
    intro q hq
    rw [List.takeWhile_append_of_pos hword, List.dropWhile_append_of_pos hword]
    cases q with
    | nil => exact ⟨List.append_nil word, rfl⟩
    | cons d q =>
      have hd : ¬ p d = true := by simpa using hq
      rw [List.takeWhile_cons_of_neg hd, List.dropWhile_cons_of_neg hd, List.append_nil]
      exact ⟨rfl, rfl⟩
  apply hstop
  cases gap with
  | nil => simpa using hc
  | cons d gap => simpa using hgap d List.mem_cons_self

theorem findLabelColon_name {name gap rest : List UInt8} {c : UInt8} (hne : name ≠ [])
    (hname : ∀ d ∈ name, isLabelChar d) (hgap : ∀ d ∈ gap, isGap d)
    (hc : isLabelChar c = false) (hblank : isBlank c = false) :
    findLabelColon (name ++ (gap ++ c :: rest)) =
      if c = 0x3A then some (name ++ gap, rest) else none := by
  obtain ⟨htake, hdrop⟩ := takeWhile_gap gap rest hname
    (fun d hd => isLabelChar_of_isGap (hgap d hd)) hc
  have hblanks : (gap ++ c :: rest).takeWhile isBlank = gap := by
    rw [List.takeWhile_append_of_pos fun d hd => isBlank_of_isGap (hgap d hd),
      List.takeWhile_cons_of_neg (by simp [hblank]), List.append_nil]
  have hskip : skipWs (gap ++ c :: rest) = c :: rest := by
    rw [skipWs_gap hgap]
    exact List.dropWhile_cons_of_neg (by simp [hblank])
  have hhead : ¬ (name ++ (gap ++ c :: rest)).head?.all fun d => d == 0x22 || isComment d := by
    cases name with
    | nil => exact absurd rfl hne
    | cons d name =>
      obtain ⟨-, hcomment, hquote, -⟩ := not_isBlank_of_isLabelChar (hname d List.mem_cons_self)
      simp [hcomment, hquote]
  unfold findLabelColon
  rw [if_neg hhead, htake, hdrop]
  dsimp only
  rw [hblanks, hskip]

theorem takeToken_word {word gap rest : List UInt8} {c : UInt8}
    (hword : ∀ d ∈ word, isTokenChar d) (hlen : word.length ≤ 63) (hne : gap ≠ [])
    (hgap : ∀ d ∈ gap, isGap d) (hblank : isBlank c = false) :
    takeToken (word ++ (gap ++ c :: rest)) = (word, c :: rest) := by
  obtain ⟨d, gap, rfl⟩ := List.exists_cons_of_ne_nil hne
  have hd := isTokenChar_of_isGap (hgap d List.mem_cons_self)
  obtain ⟨htake, hdrop⟩ := takeWhile_gap [] (gap ++ c :: rest) hword
    (fun e he => nomatch he) hd
  have hskip : skipWs (d :: gap ++ c :: rest) = c :: rest := by
    rw [skipWs_gap hgap]
    exact List.dropWhile_cons_of_neg (by simp [hblank])
  unfold takeToken
  rw [List.cons_append, ← List.nil_append (d :: _), htake, hdrop, List.take_of_length_le hlen]
  exact congrArg (word, ·) hskip

theorem StringDir.text_ne (d : StringDir) : d.text ≠ [] := by
  cases d <;> decide

theorem StringDir.text_ok (d : StringDir) :
    (∀ c ∈ d.text, isLabelChar c) ∧ (∀ c ∈ d.text, isTokenChar c) ∧ d.text.length ≤ 63 := by
  cases d <;> decide +kernel

theorem StringDir.statement_eq (d : StringDir) (st : Asm) (line : Nat) (s : List UInt8)
    (raw : List (List UInt8)) :
    statement st line d.text (quoted s) raw = .emit (bytes (d.emits s)) := by
  cases d with
  | ascii =>
    have htoken : isToken [".text"] (str ".ascii") = false ∧
        isToken [".data"] (str ".ascii") = false ∧ isToken [".bss"] (str ".ascii") = false ∧
        isToken [".asciz", ".string"] (str ".ascii") = false ∧
        isToken [".ascii"] (str ".ascii") = true := by
      decide +kernel
    obtain ⟨h1, h2, h3, h4, h5⟩ := htoken
    unfold statement StringDir.text
    rw [if_pos (by decide)]
    unfold directive
    simp only [h1, h2, h3, h4, h5, stringLiteral_quoted]
    rfl
  | asciz =>
    have htoken : isToken [".text"] (str ".asciz") = false ∧
        isToken [".data"] (str ".asciz") = false ∧ isToken [".bss"] (str ".asciz") = false ∧
        isToken [".asciz", ".string"] (str ".asciz") = true := by
      decide +kernel
    obtain ⟨h1, h2, h3, h4⟩ := htoken
    unfold statement StringDir.text
    rw [if_pos (by decide)]
    unfold directive
    simp only [h1, h2, h3, h4, stringLiteral_quoted]
    rfl

def StringLine.start (l : StringLine) : List UInt8 := l.label.elim [] LineLabel.text ++ l.body

theorem StringLine.body_eq (l : StringLine) :
    l.body = l.dir.text ++ (l.gap ++ 0x22 :: (l.string.flatMap escapeByte ++ [0x22])) := by
  unfold body quoted
  rw [List.append_assoc]

theorem LineLabel.text_append (l : LineLabel) (p : List UInt8) :
    l.text ++ p = l.name ++ (l.gap ++ 0x3A :: (l.gap' ++ p)) := by
  unfold text
  simp only [List.append_assoc, List.cons_append, List.nil_append]

theorem StringLine.body_cons (l : StringLine) : ∃ c p, l.body = c :: p ∧ isLabelChar c := by
  obtain ⟨c, word, hword⟩ := List.exists_cons_of_ne_nil l.dir.text_ne
  have hc : isLabelChar c := l.dir.text_ok.1 c (hword ▸ List.mem_cons_self)
  rw [body_eq, hword]
  exact ⟨c, _, rfl, hc⟩

theorem StringLine.start_cons (l : StringLine) : ∃ c p, l.start = c :: p ∧ isLabelChar c := by
  unfold start
  cases l.label with
  | none => exact l.body_cons
  | some label =>
    obtain ⟨c, name, hname⟩ := List.exists_cons_of_ne_nil label.name_ne
    have hc : isLabelChar c := label.name_ok c (hname ▸ List.mem_cons_self)
    rw [Option.elim_some, label.text_append, hname]
    exact ⟨c, _, rfl, hc⟩

theorem skipWs_of_head {p q : List UInt8} {c : UInt8} (hp : p = c :: q) (hc : isLabelChar c) :
    skipWs p = p ∧ lineEnds p = false := by
  obtain ⟨hblank, hcomment, -, -⟩ := not_isBlank_of_isLabelChar hc
  subst hp
  exact ⟨List.dropWhile_cons_of_neg (by simp [hblank]), hcomment⟩

theorem StringLine.skipWs_text (l : StringLine) : skipWs l.text = l.start := by
  obtain ⟨c, p, hstart, hc⟩ := l.start_cons
  have htext : l.text = l.lead ++ l.start := rfl
  rw [htext, skipWs_gap l.lead_ok, (skipWs_of_head hstart hc).1]

theorem StringLine.takeToken_body (l : StringLine) :
    takeToken l.body = (l.dir.text, quoted l.string) := by
  rw [body_eq]
  exact takeToken_word l.dir.text_ok.2.1 l.dir.text_ok.2.2 l.gap_ne l.gap_ok rfl

theorem cleanString_gap {gap : List UInt8} (h : ∀ c ∈ gap, isGap c) (s : List UInt8) :
    cleanString (s ++ gap) = cleanString s := by
  unfold cleanString List.rdropWhile
  rw [List.reverse_append, List.dropWhile_append_of_pos]
  intro c hc
  exact isBlank_of_isGap (h c (List.mem_reverse.mp hc))

theorem cleanString_name {name gap : List UInt8} (hname : ∀ c ∈ name, isLabelChar c)
    (hgap : ∀ c ∈ gap, isGap c) : cleanString (name ++ gap) = name := by
  rw [cleanString_gap hgap]
  refine List.rdropWhile_eq_self_iff.mpr fun hne => ?_
  simp [(not_isBlank_of_isLabelChar (hname _ (List.getLast_mem hne))).1]

theorem StringLine.takeLabel_start (l : StringLine) (pass line : Nat) (st : Asm) :
    takeLabel pass line st l.start =
      (l.before pass line st).map fun r => (r.1, r.2, l.body) := by
  unfold takeLabel start before
  cases l.label with
  | none =>
    rw [Option.elim_none, List.nil_append]
    have hnone : findLabelColon l.body = none := by
      rw [body_eq, findLabelColon_name l.dir.text_ne l.dir.text_ok.1 l.gap_ok rfl rfl]
      rfl
    rw [hnone]
    rfl
  | some label =>
    obtain ⟨c, p, hbody, hc⟩ := l.body_cons
    have hskip : skipWs (label.gap' ++ l.body) = l.body := by
      rw [skipWs_gap label.gap_ok', (skipWs_of_head hbody hc).1]
    rw [Option.elim_some, label.text_append,
      findLabelColon_name label.name_ne label.name_ok label.gap_ok rfl rfl, if_pos rfl]
    dsimp only
    rw [if_pos label.short, cleanString_name label.name_ok label.gap_ok, hskip]
    cases defineLabel pass st (st.labelPos line label.name) <;> rfl

/-! ### Reading the line -/

theorem escapeByte_spec : ∀ n < 256,
    (escapeByte (UInt8.ofNat n)).all (fun c => c != 0 && c != 0x0A) = true := by
  decide +kernel

theorem escapeByte_ne (b : UInt8) : ∀ c ∈ escapeByte b, c ≠ 0 ∧ c ≠ 0x0A := by
  intro c hc
  have h := escapeByte_spec b.toNat b.toNat_lt
  rw [UInt8.ofNat_toNat, List.all_eq_true] at h
  simpa using h c hc

theorem ne_of_isLabelChar {c : UInt8} (h : isLabelChar c) : c ≠ 0 ∧ c ≠ 0x0A := by
  constructor
  · rintro rfl
    cases h
  · rintro rfl
    cases h

theorem ne_of_isGap {c : UInt8} (h : isGap c) : c ≠ 0 ∧ c ≠ 0x0A := by
  rcases isGap_cases h with rfl | rfl <;> decide

theorem quoted_ne (s : List UInt8) : ∀ c ∈ quoted s, c ≠ 0 ∧ c ≠ 0x0A := by
  intro c hc
  unfold quoted at hc
  simp only [List.mem_cons, List.mem_append, List.mem_flatMap, List.not_mem_nil, or_false] at hc
  rcases hc with rfl | ⟨b, -, hb⟩ | rfl
  · decide
  · exact escapeByte_ne b c hb
  · decide

theorem StringLine.body_ne (l : StringLine) : ∀ c ∈ l.body, c ≠ 0 ∧ c ≠ 0x0A := by
  intro c hc
  unfold body at hc
  simp only [List.mem_append] at hc
  rcases hc with (hc | hc) | hc
  · exact ne_of_isLabelChar (l.dir.text_ok.1 c hc)
  · exact ne_of_isGap (l.gap_ok c hc)
  · exact quoted_ne l.string c hc

theorem LineLabel.text_ne (l : LineLabel) : ∀ c ∈ l.text, c ≠ 0 ∧ c ≠ 0x0A := by
  intro c hc
  unfold text at hc
  simp only [List.mem_append, List.mem_singleton] at hc
  rcases hc with ((hc | hc) | rfl) | hc
  · exact ne_of_isLabelChar (l.name_ok c hc)
  · exact ne_of_isGap (l.gap_ok c hc)
  · decide
  · exact ne_of_isGap (l.gap_ok' c hc)

theorem StringLine.text_ne (l : StringLine) : ∀ c ∈ l.text, c ≠ 0 ∧ c ≠ 0x0A := by
  intro c hc
  unfold text at hc
  rcases List.mem_append.mp hc with hc | hc
  · exact ne_of_isGap (l.lead_ok c hc)
  · rcases List.mem_append.mp hc with hc | hc
    · cases hl : l.label with
      | none =>
        rw [hl] at hc
        cases hc
      | some label =>
        rw [hl] at hc
        exact label.text_ne c hc
    · exact l.body_ne c hc

theorem StringLine.cleanString_text (l : StringLine) : cleanString l.text = l.text := by
  have hlast : l.text = (l.lead ++ (l.label.elim [] LineLabel.text ++ (l.dir.text ++ (l.gap ++
      (0x22 :: l.string.flatMap escapeByte))))) ++ [0x22] := by
    unfold text body quoted
    simp only [List.append_assoc, List.cons_append]
  rw [hlast]
  exact List.rdropWhile_concat_neg _ _ _ (by decide)

/-- Where a source is read up to, so that the line is neither in a comment or a macro nor a
    call of one, nor longer than a line may be. -/
structure StringLine.Read (l : StringLine) (src : Source) : Prop where
  noComment : src.inComment = false
  noMacro : src.inMacro = none
  noDef : ¬ (str ".macro").isPrefixOf (skipWs l.text)
  noEnd : ¬ (str ".endm").isPrefixOf (skipWs l.text)
  noCall : ∀ m ∈ src.macros, m.name ≠ (macroToken (skipWs l.text)).1
  short : l.text.length < LINE_SIZE

theorem StringLine.readLine_eq {l : StringLine} {src : Source} (h : l.Read src) (fuel : Nat)
    {buf : List UInt8} (hbuf : cleanString buf = l.text) :
    readLine fuel src buf = some { src with lines := src.lines ++ [l.text] } := by
  obtain ⟨c, p, hstart, hc⟩ := l.start_cons
  rw [← l.skipWs_text] at hstart
  obtain ⟨-, -, -, hslash⟩ := not_isBlank_of_isLabelChar hc
  have hopen : ∀ rest, ¬ (0x2F :: rest).isPrefixOf (skipWs l.text) := by
    intro rest hpre
    rw [hstart, List.isPrefixOf_cons_cons, Bool.and_eq_true, beq_iff_eq] at hpre
    exact hslash hpre.1.symm
  have hblock : ¬ (str "/*").isPrefixOf (skipWs l.text) := hopen [0x2A]
  have hline : ¬ (str "//").isPrefixOf (skipWs l.text) := hopen [0x2F]
  have hends : lineEnds (skipWs l.text) = false := by
    rw [l.skipWs_text] at hstart ⊢
    exact (skipWs_of_head hstart hc).2
  have hfind : (src.macros.find? fun m => m.name == (macroToken (skipWs l.text)).1) = none := by
    rw [List.find?_eq_none]
    intro m hm hname
    exact h.noCall m hm (beq_iff_eq.mp hname)
  unfold readLine
  dsimp only
  rw [hbuf, h.noComment, if_neg (by decide), if_neg hblock, if_neg, if_neg h.noDef,
    if_neg h.noEnd, h.noMacro]
  · dsimp only
    rw [hfind]
  · rw [hends, not_or]
    exact ⟨by decide, hline⟩

theorem readLine_newline (src : Source) (h : src.inComment = false) (fuel : Nat) :
    readLine fuel src [0x0A] = some src := by
  unfold readLine
  dsimp only
  rw [h, if_neg (by decide), if_neg (by decide), if_pos (by decide)]

theorem StringLine.readText_line {l : StringLine} {src : Source} (h : l.Read src) (fuel : Nat)
    (rest : List UInt8) :
    readText fuel src (l.text ++ 0x0A :: rest) =
      readText fuel { src with lines := src.lines ++ [l.text] } rest := by
  have hnewline : (0x0A : UInt8) ∉ l.text := fun hmem => (l.text_ne _ hmem).2 rfl
  have hwhole : ∀ q : List UInt8, (∀ c ∈ q, c ≠ 0) →
      (l.text ++ q).takeWhile (· ≠ 0) = l.text ++ q := by
    intro q hq
    refine List.takeWhile_eq_self_iff.mpr fun c hc => ?_
    rcases List.mem_append.mp hc with hc | hc
    · simpa using (l.text_ne c hc).1
    · simpa using hq c hc
  obtain ⟨first, hfirst, hlines⟩ := bufLines_line (by decide) hnewline h.short rest
  unfold readText
  rw [hlines, List.foldlM_append]
  rcases hfirst with rfl | rfl
  · have hclean : cleanString (l.text ++ [0x0A]) = l.text := by
      have hpos : isBlank 0x0A = true := rfl
      exact (List.rdropWhile_concat_pos isBlank l.text 0x0A hpos).trans l.cleanString_text
    rw [List.foldlM_cons, hwhole _ (by simp), l.readLine_eq h fuel hclean]
    rfl
  · have hfirst := hwhole [] (by simp)
    rw [List.append_nil] at hfirst
    have hblank : readLine fuel { src with lines := src.lines ++ [l.text] }
        (([0x0A] : List UInt8).takeWhile (· ≠ 0)) =
          some { src with lines := src.lines ++ [l.text] } :=
      readLine_newline { src with lines := src.lines ++ [l.text] } h.noComment fuel
    rw [List.foldlM_cons, hfirst, l.readLine_eq h fuel l.cleanString_text]
    dsimp only [Option.bind_eq_bind, Option.bind_some]
    rw [List.foldlM_cons, hblank]
    rfl

/-! ### The bytes that are emitted -/

/-- The quoted text is taken for operands that have at most three parts between parentheses. -/
def OperandsFit (s : List UInt8) : Prop :=
  ∀ raw, parseOperandsRaw (quoted s) = some raw → ∀ r ∈ raw, (operandParts r).length ≤ 3

theorem operandsFit_iff {s : List UInt8} (h : (quoted s).length ≤ 510) :
    OperandsFit s ↔ (operandParts (quoted s)).length ≤ 3 := by
  unfold OperandsFit
  rw [parseOperandsRaw_quoted h]
  constructor
  · intro hfit
    exact hfit _ rfl _ List.mem_cons_self
  · intro hfit raw hraw r hr
    obtain rfl := Option.some.inj hraw
    rwa [List.mem_singleton.mp hr]

theorem localJump_none {token : List UInt8} (h : shortOpcode token = none)
    (raw : List (List UInt8)) : localJump token raw = none := by
  unfold localJump
  split
  · split
    · rw [h]
      rfl
    · rfl
  · rfl

theorem StringLine.assembleLine_eq (l : StringLine) {pass line : Nat} {st st₁ : Asm}
    {log : List Event} (h : l.before pass line st = some (st₁, log)) {raw : List (List UInt8)}
    (hraw : parseOperandsRaw (quoted l.string) = some raw) :
    assembleLine pass line st l.text =
      if raw.all partsFit then
        some (secEmit st₁ st₁.curSection (l.dir.emits l.string), log)
      else none := by
  obtain ⟨c, p, hstart, hc⟩ := l.start_cons
  obtain ⟨d, q, hbody, hd⟩ := l.body_cons
  have hends := (skipWs_of_head hstart hc).2
  have hends' := (skipWs_of_head hbody hd).2
  have hslash : l.start.take 2 ≠ [0x2F, 0x2A] := by
    rw [hstart, List.take_succ_cons]
    intro heq
    exact (not_isBlank_of_isLabelChar hc).2.2.2 (List.cons.inj heq).1
  have hlabel : takeLabel pass line st l.start = some (st₁, log, l.body) := by
    rw [l.takeLabel_start, h]
    rfl
  have hrep : lookup repTable l.dir.text = none := by
    cases l.dir <;> decide +kernel
  have hjumps : jumpEvents line st₁ l.dir.text raw = [] := by
    have hshort : shortOpcode l.dir.text = none := by
      cases l.dir <;> decide +kernel
    unfold jumpEvents
    rw [localJump_none hshort]
  rw [← l.skipWs_text] at hends hslash hlabel
  rw [assembleLine_statement (by simp [hends]) hslash hlabel (by simp [hends']) l.takeToken_body
    hraw hrep, hjumps, List.append_nil, l.dir.statement_eq]
  unfold runCmd
  dsimp only
  rw [emitItems_bytes]
  rfl

/-- A line with a string directive is assembled as it stands, and emits its string exactly if
    `parse_operand` stays within its array for the operands that the text is taken for. -/
theorem string_directive_exact (l : StringLine) :
    (∀ src, l.Read src → ∀ fuel rest,
      readText fuel src (l.text ++ 0x0A :: rest) =
        readText fuel { src with lines := src.lines ++ [l.text] } rest) ∧
    ∀ pass line st st₁ log, l.before pass line st = some (st₁, log) →
      (assembleLine pass line st l.text =
          some (secEmit st₁ st₁.curSection (l.dir.emits l.string), log) ↔
        OperandsFit l.string) := by
  refine ⟨fun src h fuel rest => l.readText_line h fuel rest, ?_⟩
  intro pass line st st₁ log h
  obtain ⟨raw, hraw⟩ : ∃ raw, parseOperandsRaw (quoted l.string) = some raw :=
    parseOperandsFrom_some (quoted_getLast? l.string)
  have hfit : OperandsFit l.string ↔ raw.all partsFit = true := by
    unfold OperandsFit
    rw [hraw, List.all_eq_true]
    constructor
    · intro hall r hr
      exact decide_eq_true (hall raw rfl r hr)
    · intro hall raw' hraw' r hr
      obtain rfl := Option.some.inj hraw'
      exact of_decide_eq_true (hall r hr)
  rw [l.assembleLine_eq h hraw, hfit]
  by_cases hall : raw.all partsFit = true
  · rw [if_pos hall]
    exact iff_of_true rfl hall
  · rw [if_neg hall]
    exact iff_of_false (fun heq => nomatch heq) hall

def asciiLine (s : List UInt8) : StringLine where
  lead := []
  label := none
  dir := .ascii
  gap := [0x20]
  string := s
  lead_ok := by simp
  gap_ne := by simp
  gap_ok := by simp [isGap]

/-- A string with a comma, a comment character and parentheses. -/
theorem string_directive_exact_sample :
    readText 0 ⟨[], none, false, []⟩ ((asciiLine (str "(a,b);")).text ++ [0x0A]) =
        some ⟨[], none, false, [(asciiLine (str "(a,b);")).text]⟩ ∧
      assembleLine 1 0 (initAsm.beginPass 1) (asciiLine (str "(a,b);")).text =
        some (secEmit (initAsm.beginPass 1) 1 (str "(a,b);"), []) := by
  have hread : (asciiLine (str "(a,b);")).Read ⟨[], none, false, []⟩ :=
    { noComment := rfl
      noMacro := rfl
      noDef := by decide +kernel
      noEnd := by decide +kernel
      noCall := fun m hm => nomatch hm
      short := by decide +kernel }
  have hshort : (quoted (str "(a,b);")).length ≤ 510 := by decide +kernel
  have hfit : OperandsFit (str "(a,b);") := (operandsFit_iff hshort).mpr (by decide +kernel)
  exact ⟨(string_directive_exact _).1 _ hread 0 [],
    ((string_directive_exact _).2 1 0 _ _ [] rfl).mpr hfit⟩

/-- Four parts between parentheses: `parse_operand` writes behind its array. -/
theorem string_parts_overrun :
    (asciiLine (str "(a,b,c,d)")).text = str ".ascii \"(a,b,c,d)\"" ∧
      assembleLine 1 0 (initAsm.beginPass 1) (asciiLine (str "(a,b,c,d)")).text = none := by
  decide +kernel

end Gemios.As
