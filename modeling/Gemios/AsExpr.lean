import Gemios.AsOperand
import Gemios.WordInt

/-!
# The value of an expression

`eval_expr` of `src/tools/as.c` against the usual value of an expression.  The recursive
call for the right operand of an operator takes all operators behind it, so a chain of
operators is grouped to the right, and `~` covers the whole rest of the chain.  `Expr.Safe`
says where that makes no difference.
-/

namespace Gemios.As

/-! ### Well-formed expressions -/

def numeral (base : Nat) (ds : List UInt8) : Nat :=
  ds.foldl (fun n c => n * base + (hexDigit c).getD 0) 0

/-- A 32-bit number in decimal, or in hexadecimal after `0x` or `0X`. -/
inductive IsLiteral : List UInt8 → Nat → Prop
  | dec {ds : List UInt8} (hne : ds ≠ []) (hd : ∀ c ∈ ds, isDigit c = true)
      (hv : numeral 10 ds < 2 ^ 32) : IsLiteral ds (numeral 10 ds)
  | hex {x : UInt8} {ds : List UInt8} (hx : x = 0x78 ∨ x = 0x58) (hne : ds ≠ [])
      (hd : ∀ c ∈ ds, (hexDigit c).isSome = true) (hv : numeral 16 ds < 2 ^ 32) :
      IsLiteral (0x30 :: x :: ds) (numeral 16 ds)

structure Literal where
  text : List UInt8
  value : Nat
  ok : IsLiteral text value

structure Blanks where
  text : List UInt8
  ok : ∀ c ∈ text, isBlank c = true

mutual

/-- An operand of a binary operator.  Blanks stand before each token. -/
inductive Term where
  | lit (b : Blanks) (l : Literal)
  | paren (b : Blanks) (e : Expr) (b' : Blanks)
  | neg (b : Blanks) (t : Term)
  | not (b : Blanks) (t : Term)

/-- Operands and the operators between them, as they stand in the text. -/
inductive Expr where
  | last (t : Term)
  | more (t : Term) (b : Blanks) (op : BinOp) (e : Expr)

end

def BinOp.text : BinOp → List UInt8
  | .add => [0x2B]
  | .sub => [0x2D]
  | .or => [0x7C]
  | .and => [0x26]
  | .shl => [0x3C, 0x3C]
  | .shr => [0x3E, 0x3E]

mutual

def Term.text : Term → List UInt8
  | .lit b l => b.text ++ l.text
  | .paren b e b' => b.text ++ 0x28 :: (e.text ++ b'.text ++ [0x29])
  | .neg b t => b.text ++ 0x2D :: t.text
  | .not b t => b.text ++ 0x7E :: t.text

def Expr.text : Expr → List UInt8
  | .last t => t.text
  | .more t b op e => t.text ++ b.text ++ op.text ++ e.text

end

/-- The classes of operators that can be mixed without parentheses. -/
inductive OpClass where
  | additive | bitwise | shift
deriving DecidableEq

def BinOp.cls : BinOp → OpClass
  | .add => .additive
  | .sub => .additive
  | .or => .bitwise
  | .and => .bitwise
  | .shl => .shift
  | .shr => .shift

/-- The operators of a chain are of one class. -/
def Expr.OneClass (c : OpClass) : Expr → Prop
  | .last _ => True
  | .more _ _ op e => op.cls = c ∧ e.OneClass c

mutual

/-- Operators of different classes are mixed only through parentheses. -/
def Term.WellFormed : Term → Prop
  | .lit _ _ => True
  | .paren _ e _ => e.WellFormed
  | .neg _ t => t.WellFormed
  | .not _ t => t.WellFormed

def Expr.WellFormed : Expr → Prop
  | .last t => t.WellFormed
  | .more t _ op e => t.WellFormed ∧ e.WellFormed ∧ e.OneClass op.cls

end

/-! ### The usual value -/

def BinOp.usual (op : BinOp) (a b : Int) : Int :=
  match op with
  | .add => a + b
  | .sub => a - b
  | .or => Int.lor a b
  | .and => Int.land a b
  | .shl => a * 2 ^ b.toNat
  | .shr => a / 2 ^ b.toNat

mutual

/-- Unary operators bind tighter than binary ones. -/
def Term.value : Term → Int
  | .lit _ l => l.value
  | .paren _ e _ => e.value
  | .neg _ t => -t.value
  | .not _ t => -t.value - 1

def Expr.value : Expr → Int
  | .last t => t.value
  | .more t _ op e => e.valueFrom op t.value

/-- The value of a chain after the value `acc` and the operator `op`. -/
def Expr.valueFrom (op : BinOp) (acc : Int) : Expr → Int
  | .last t => op.usual acc t.value
  | .more t _ op' e => e.valueFrom op' (op.usual acc t.value)

end

/-! ### Where the grouping does not matter -/

/-- The two operators can be grouped to the right. -/
def BinOp.Regroups (op op' : BinOp) : Prop :=
  (op = .add ∧ (op' = .add ∨ op' = .sub)) ∨ (op = .or ∧ op' = .or) ∨ (op = .and ∧ op' = .and)

/-- The operator before a chain can be applied after those of the chain. -/
def Expr.Follows (op : BinOp) : Expr → Prop
  | .last _ => True
  | .more _ _ op' _ => op.Regroups op'

/-- A shift is by 0 to 31 bits, and what is shifted to the right is a signed 32-bit number. -/
def BinOp.InRange (op : BinOp) (a b : Int) : Prop :=
  (op = .shl ∨ op = .shr → 0 ≤ b ∧ b < 32) ∧ (op = .shr → InInt32 a)

/-- A number or an expression in parentheses. -/
def Term.IsAtom : Term → Prop
  | .lit _ _ => True
  | .paren _ _ _ => True
  | .neg _ _ => False
  | .not _ _ => False

def Term.IsNot : Term → Prop
  | .not _ _ => True
  | _ => False

mutual

/-- The operand of `-` is a number or in parentheses. -/
def Term.Safe : Term → Prop
  | .lit _ _ => True
  | .paren _ e _ => e.Safe
  | .neg _ t => t.IsAtom ∧ t.Safe
  | .not _ t => t.Safe

/-- Each operator but the last of a chain can be grouped to the right, and `~` stands before the
    last operand, or before a shift to the right. -/
def Expr.Safe : Expr → Prop
  | .last t => t.Safe
  | .more t _ op e =>
    t.Safe ∧ e.Safe ∧ e.Follows op ∧ op.InRange t.value e.value ∧ (t.IsNot → op = .shr)

end

/-! ### The operators on words -/

theorem BinOp.apply_usual {op : BinOp} {a b : Int} (h : op.InRange a b) :
    op.apply (BitVec.ofInt 32 a) (BitVec.ofInt 32 b) = BitVec.ofInt 32 (op.usual a b) := by
  have hcount : op = .shl ∨ op = .shr → (BitVec.ofInt 32 b).toNat % 32 = b.toNat := by
    intro hop
    have hb := h.1 hop
    rw [BitVec.toNat_ofInt]
    omega
  cases op with
  | add => exact (BitVec.ofInt_add a b).symm
  | sub => exact (ofInt_sub a b).symm
  | or => exact (ofInt_lor a b).symm
  | and => exact (ofInt_land a b).symm
  | shl =>
    dsimp only [BinOp.apply, BinOp.usual]
    rw [hcount (Or.inl rfl), ofInt_shiftLeft]
  | shr =>
    dsimp only [BinOp.apply, BinOp.usual]
    rw [hcount (Or.inr rfl), ofInt_shiftRight (h.2 rfl)]

theorem BinOp.inRange_of_regroups {op op' : BinOp} (h : op.Regroups op') (a b : Int) :
    op.InRange a b ∧ op'.InRange a b := by
  rcases h with ⟨rfl, rfl | rfl⟩ | ⟨rfl, rfl⟩ | ⟨rfl, rfl⟩ <;> simp [BinOp.InRange]

theorem BinOp.Regroups.apply_eq {op op' : BinOp} (h : op.Regroups op') (a b c : BitVec 32) :
    op.apply a (op'.apply b c) = op'.apply (op.apply a b) c := by
  rcases h with ⟨rfl, rfl | rfl⟩ | ⟨rfl, rfl⟩ | ⟨rfl, rfl⟩
  · exact (BitVec.add_assoc a b c).symm
  · dsimp only [BinOp.apply]
    rw [BitVec.sub_eq_add_neg, BitVec.sub_eq_add_neg, BitVec.add_assoc]
  · exact (BitVec.or_assoc a b c).symm
  · exact (BitVec.and_assoc a b c).symm

/-- These are all pairs of one class that regroup for all words. -/
theorem BinOp.regroups_iff {op op' : BinOp} (hcls : op'.cls = op.cls) :
    op.Regroups op' ↔
      ∀ a b c : BitVec 32, op.apply a (op'.apply b c) = op'.apply (op.apply a b) c := by
  refine ⟨fun h => h.apply_eq, fun h => ?_⟩
  -- two instances tell the pairs apart
  have h₁ := h 1 0 1
  have h₂ := h 1 1 2
  cases op <;> cases op' <;> first
    | exact absurd hcls (by decide)
    | exact Or.inl ⟨rfl, Or.inl rfl⟩
    | exact Or.inl ⟨rfl, Or.inr rfl⟩
    | exact Or.inr (Or.inl ⟨rfl, rfl⟩)
    | exact Or.inr (Or.inr ⟨rfl, rfl⟩)
    | exact absurd h₁ (by decide)
    | exact absurd h₂ (by decide)

theorem Expr.ofInt_valueFrom : (e : Expr) → (op : BinOp) → (acc : Int) → e.Safe → e.Follows op →
    op.InRange acc e.value →
    BitVec.ofInt 32 (e.valueFrom op acc) =
      op.apply (BitVec.ofInt 32 acc) (BitVec.ofInt 32 e.value)
  | .last t, op, acc, _, _, hr => (BinOp.apply_usual hr).symm
  | .more t _ op' e, op, acc, hs, hf, _ => by
    obtain ⟨_, hse, hfe, hre, _⟩ := hs
    have hnot : ¬ (op' = .shl ∨ op' = .shr) := by
      rcases hf with ⟨_, rfl | rfl⟩ | ⟨_, rfl⟩ | ⟨_, rfl⟩ <;> decide
    have hre' : op'.InRange (op.usual acc t.value) e.value :=
      ⟨fun h => absurd h hnot, fun h => absurd (Or.inr h) hnot⟩
    have hacc := BinOp.apply_usual (BinOp.inRange_of_regroups hf acc t.value).1
    calc BitVec.ofInt 32 (e.valueFrom op' (op.usual acc t.value))
        = op'.apply (BitVec.ofInt 32 (op.usual acc t.value)) (BitVec.ofInt 32 e.value) :=
          Expr.ofInt_valueFrom e op' _ hse hfe hre'
      _ = op'.apply (op.apply (BitVec.ofInt 32 acc) (BitVec.ofInt 32 t.value))
            (BitVec.ofInt 32 e.value) := by rw [hacc]
      _ = op.apply (BitVec.ofInt 32 acc)
            (op'.apply (BitVec.ofInt 32 t.value) (BitVec.ofInt 32 e.value)) :=
          (hf.apply_eq _ _ _).symm
      _ = op.apply (BitVec.ofInt 32 acc) (BitVec.ofInt 32 (e.valueFrom op' t.value)) := by
          rw [Expr.ofInt_valueFrom e op' t.value hse hfe hre]

/-- The shift to the right is the only operator that `~` can be taken out of. -/
theorem BinOp.not_apply_iff (op : BinOp) :
    op = .shr ↔ ∀ a b : BitVec 32, ~~~op.apply a b = op.apply (~~~a) b := by
  refine ⟨fun h a b => ?_, fun h => ?_⟩
  · rw [h]
    dsimp only [BinOp.apply]
    rw [← BitVec.not_sshiftRight]
  · have h₁ := h 0 1
    cases op <;> first
      | rfl
      | exact absurd h₁ (by decide)

/-! ### Reading the tokens -/

/-- The text does not go on with a letter or a digit. -/
def NoAlnum (p : List UInt8) : Prop := ∀ c, p.head? = some c → isAlnum c = false

structure Ends (p : List UInt8) : Prop where
  word : NoAlnum p
  op : binOp (skipWs p) = none

theorem skipWs_blanks (b : Blanks) (p : List UInt8) : skipWs (b.text ++ p) = skipWs p := by
  obtain ⟨bs, hb⟩ := b
  induction bs with
  | nil => rfl
  | cons c bs ih =>
    have hc : isBlank c = true := hb c List.mem_cons_self
    have htail := ih fun d hd => hb d (List.mem_cons_of_mem c hd)
    dsimp only [List.cons_append, skipWs] at htail ⊢
    rw [List.dropWhile_cons_of_pos hc]
    exact htail

theorem skipWs_cons {c : UInt8} (hc : isBlank c = false) (p : List UInt8) :
    skipWs (c :: p) = c :: p := List.dropWhile_cons_of_neg (by simp [hc])

theorem skipWs_skipWs (p : List UInt8) : skipWs (skipWs p) = skipWs p := List.dropWhile_idempotent _ p

theorem noAlnum_cons {c : UInt8} (hc : isAlnum c = false) (p : List UInt8) : NoAlnum (c :: p) := by
  intro d hd
  cases hd
  exact hc

theorem not_isAlnum_of_isBlank {c : UInt8} (h : isBlank c = true) : isAlnum c = false := by
  unfold isBlank at h
  simp only [Bool.or_eq_true, beq_iff_eq] at h
  rcases h with ((rfl | rfl) | rfl) | rfl <;> decide

theorem noAlnum_blanks (b : Blanks) {p : List UInt8} (hp : NoAlnum p) : NoAlnum (b.text ++ p) := by
  obtain ⟨bs, hb⟩ := b
  cases bs with
  | nil => exact hp
  | cons c bs => exact noAlnum_cons (not_isAlnum_of_isBlank (hb c List.mem_cons_self)) _

theorem isAlnum_of_hexDigit {c : UInt8} (h : isAlnum c = false) : hexDigit c = none := by
  unfold isAlnum isAlpha at h
  unfold hexDigit
  simp only [Bool.or_eq_false_iff, Bool.and_eq_false_iff, decide_eq_false_iff_not, UInt8.not_le] at h
  obtain ⟨⟨hupper, hlower⟩, hdigit⟩ := h
  have hnot : isDigit c = false := hdigit
  rw [if_neg (by simp [hnot]), if_neg, if_neg]
  · simp only [Bool.and_eq_true, decide_eq_true_eq, not_and, UInt8.not_le]
    intro hc
    rcases hupper with hu | hu
    · exact absurd hc (UInt8.not_le.mpr hu)
    · exact UInt8.lt_of_le_of_lt (by decide) hu
  · simp only [Bool.and_eq_true, decide_eq_true_eq, not_and, UInt8.not_le]
    intro hc
    rcases hlower with hl | hl
    · exact absurd hc (UInt8.not_le.mpr hl)
    · exact UInt8.lt_of_le_of_lt (by decide) hl

theorem digits_append {base : Nat} {ds : List UInt8}
    (hd : ∀ c ∈ ds, ∃ d, hexDigit c = some d ∧ d < base) {p : List UInt8} (hp : NoAlnum p)
    (acc : Nat) :
    digits base acc (ds ++ p) =
      (ds.foldl (fun n c => n * base + (hexDigit c).getD 0) acc, p) := by
  induction ds generalizing acc with
  | nil =>
    cases p with
    | nil => rfl
    | cons c p =>
      have hc : hexDigit c = none := isAlnum_of_hexDigit (hp c rfl)
      simp [digits, hc]
  | cons c ds ih =>
    obtain ⟨d, hc, hlt⟩ := hd c List.mem_cons_self
    have htail := ih (fun e he => hd e (List.mem_cons_of_mem c he)) (acc * base + d)
    have hkeep : (some d).filter (fun d => decide (d < base)) = some d := by
      simp [Option.filter, hlt]
    dsimp only [List.cons_append, digits, List.foldl_cons]
    rw [hc, hkeep]
    exact htail

theorem strtoul_append {base : Nat} {ds : List UInt8}
    (hd : ∀ c ∈ ds, ∃ d, hexDigit c = some d ∧ d < base) {p : List UInt8} (hp : NoAlnum p)
    (hv : numeral base ds < 2 ^ 32) :
    strtoul base (ds ++ p) = (BitVec.ofNat 32 (numeral base ds), p) := by
  have hmin : min (numeral base ds) 18446744073709551615 = numeral base ds := by omega
  unfold strtoul
  rw [digits_append hd hp]
  dsimp only
  rw [← numeral, hmin]

theorem hexDigit_of_isDigit {c : UInt8} (h : isDigit c = true) : ∃ d, hexDigit c = some d ∧ d < 10 := by
  refine ⟨c.toNat - 0x30, by simp [hexDigit, h], ?_⟩
  unfold isDigit at h
  simp only [Bool.and_eq_true, decide_eq_true_eq, UInt8.le_iff_toNat_le] at h
  have h2 : c.toNat ≤ 57 := h.2
  omega

theorem hexDigit_lt {c : UInt8} {d : Nat} (h : hexDigit c = some d) : d < 16 := by
  unfold hexDigit isDigit at h
  simp only [Bool.and_eq_true, decide_eq_true_eq, UInt8.le_iff_toNat_le] at h
  split at h
  · next hc =>
    have h2 : c.toNat ≤ 57 := hc.2
    cases h
    omega
  · split at h
    · next hc =>
      have h2 : c.toNat ≤ 102 := hc.2
      cases h
      omega
    · split at h
      · next hc =>
        have h2 : c.toNat ≤ 70 := hc.2
        cases h
        omega
      · cases h

theorem digit_not_x {c : UInt8} (h : isAlnum c = false ∨ isDigit c = true) :
    (c == 0x78 || c == 0x58) = false := by
  rw [Bool.or_eq_false_iff, beq_eq_false_iff_ne, beq_eq_false_iff_ne]
  refine ⟨fun heq => ?_, fun heq => ?_⟩
  · rw [heq] at h
    revert h
    decide
  · rw [heq] at h
    revert h
    decide

theorem number_literal {text : List UInt8} {value : Nat} (h : IsLiteral text value) {p : List UInt8}
    (hp : NoAlnum p) : number (text ++ p) = (BitVec.ofNat 32 value, p) := by
  cases h with
  | dec hne hd hv =>
    have hstr := strtoul_append (fun c hc => hexDigit_of_isDigit (hd c hc)) hp hv
    unfold number
    split
    · next x c rest heq =>
      -- the second character is a digit, or it does not belong to the number
      have hx : isAlnum x = false ∨ isDigit x = true := by
        cases text with
        | nil => exact absurd rfl hne
        | cons c₀ text =>
          cases text with
          | nil =>
            rw [List.singleton_append, List.cons.injEq] at heq
            exact Or.inl (hp x (by rw [heq.2]; rfl))
          | cons d text =>
            rw [List.cons_append, List.cons.injEq, List.cons_append, List.cons.injEq] at heq
            refine Or.inr ?_
            rw [← heq.2.1]
            exact hd d (List.mem_cons_of_mem c₀ List.mem_cons_self)
      rw [digit_not_x hx, Bool.false_and, if_neg (by simp)]
      exact hstr
    · exact hstr
  | @hex x ds hx hne hd hv =>
    have hdig : ∀ c ∈ ds, ∃ d, hexDigit c = some d ∧ d < 16 := by
      intro c hc
      obtain ⟨d, hdc⟩ := Option.isSome_iff_exists.mp (hd c hc)
      exact ⟨d, hdc, hexDigit_lt hdc⟩
    have hstr := strtoul_append hdig hp hv
    cases ds with
    | nil => exact absurd rfl hne
    | cons c ds =>
      have hc : (hexDigit c).isSome = true := hd c List.mem_cons_self
      have hx' : (x == 0x78 || x == 0x58) = true := by
        rcases hx with rfl | rfl <;> rfl
      change (if ((x == 0x78 || x == 0x58) && (hexDigit c).isSome) = true then
        strtoul 16 (c :: (ds ++ p)) else _) = _
      rw [hx', hc, Bool.and_true, if_pos rfl]
      exact hstr

/-! ### The evaluation -/

section

variable (symbols : List Symbol) {f : Nat}

theorem evalExpr_tilde {p q : List UInt8} (h : skipWs p = 0x7E :: q) :
    evalExprFuel symbols (f + 1) p =
      (~~~(evalExprFuel symbols f q).1, (evalExprFuel symbols f q).2) := by
  rw [evalExprFuel, h]
  rfl

theorem evalExpr_minus {p q : List UInt8} (h : skipWs p = 0x2D :: q) :
    evalExprFuel symbols (f + 1) p =
      evalOps symbols f (-(evalAtom (evalExprFuel symbols f) symbols (skipWs q)).1)
        (skipWs (evalAtom (evalExprFuel symbols f) symbols (skipWs q)).2) := by
  rw [evalExprFuel, h]
  rfl

theorem evalExpr_atom {p : List UInt8} (h : ∀ q, skipWs p ≠ 0x7E :: q)
    (h' : ∀ q, skipWs p ≠ 0x2D :: q) :
    evalExprFuel symbols (f + 1) p =
      evalOps symbols f (evalAtom (evalExprFuel symbols f) symbols (skipWs p)).1
        (skipWs (evalAtom (evalExprFuel symbols f) symbols (skipWs p)).2) := by
  rw [evalExprFuel]
  split
  · next q heq => exact absurd heq (h q)
  · next q heq => exact absurd heq (h' q)
  · rfl

theorem evalOps_ends {p : List UInt8} (h : Ends p) (v : BitVec 32) :
    evalOps symbols f v (skipWs p) = (v, skipWs p) := by
  cases f with
  | zero => rw [evalOps]
  | succ f => rw [evalOps, h.op]

theorem evalOps_op (op : BinOp) {p : List UInt8} (v : BitVec 32) :
    evalOps symbols (f + 1) v (op.text ++ p) =
      evalOps symbols f (op.apply v (evalExprFuel symbols f p).1)
        (skipWs (evalExprFuel symbols f p).2) := by
  rw [evalOps]
  cases op <;> rfl

/-- With this fuel, every expression is evaluated that is not too long. -/
def Evaluates (f : Nat) : Prop :=
  ∀ e : Expr, e.Safe → e.text.length + 1 ≤ f → ∀ p, Ends p →
    evalExprFuel symbols f (e.text ++ p) = (BitVec.ofInt 32 e.value, skipWs p)

theorem IsLiteral.head {text : List UInt8} {value : Nat} (h : IsLiteral text value) :
    ∃ c rest, text = c :: rest ∧ isDigit c = true := by
  cases h with
  | dec hne hd _ =>
    cases text with
    | nil => exact absurd rfl hne
    | cons c rest => exact ⟨c, rest, rfl, hd c List.mem_cons_self⟩
  | hex _ _ _ _ => exact ⟨_, _, rfl, rfl⟩

theorem evalAtom_digit (eval : List UInt8 → BitVec 32 × List UInt8) {c : UInt8}
    (hc : isDigit c = true) (q : List UInt8) : evalAtom eval symbols (c :: q) = number (c :: q) := by
  unfold evalAtom
  split
  · next heq => cases heq
  · next heq =>
    cases heq
    exact absurd hc (by decide)
  · next heq =>
    cases heq
    exact absurd hc (by decide)
  · next heq =>
    cases heq
    exact absurd hc (by decide)
  · next heq =>
    cases heq
    rw [if_pos hc]

theorem evalAtom_term (ih : Evaluates symbols f) {t : Term} (ha : t.IsAtom) (hs : t.Safe)
    (hlen : t.text.length ≤ f + 1) {p : List UInt8} (hp : NoAlnum p) :
    (∀ q, skipWs (t.text ++ p) ≠ 0x7E :: q) ∧ (∀ q, skipWs (t.text ++ p) ≠ 0x2D :: q) ∧
      evalAtom (evalExprFuel symbols f) symbols (skipWs (t.text ++ p)) =
        (BitVec.ofInt 32 t.value, p) := by
  cases t with
  | lit b l =>
    obtain ⟨c, rest, htext, hc⟩ := l.ok.head
    have hblank : isBlank c = false := by
      cases hb : isBlank c with
      | false => rfl
      | true =>
        have halnum := not_isAlnum_of_isBlank hb
        unfold isAlnum at halnum
        rw [hc, Bool.or_true] at halnum
        cases halnum
    have hskip : skipWs ((Term.lit b l).text ++ p) = c :: (rest ++ p) := by
      rw [Term.text, List.append_assoc, skipWs_blanks, htext, List.cons_append, skipWs_cons hblank]
    rw [hskip]
    refine ⟨fun q heq => ?_, fun q heq => ?_, ?_⟩
    · cases heq
      exact absurd hc (by decide)
    · cases heq
      exact absurd hc (by decide)
    · have hnum := number_literal l.ok hp
      rw [htext, List.cons_append] at hnum
      rw [evalAtom_digit symbols _ hc, hnum, Term.value]
      exact congrArg (·, p) (BitVec.ofInt_natCast 32 l.value).symm
  | paren b e b' =>
    have hskip : skipWs ((Term.paren b e b').text ++ p) =
        0x28 :: (e.text ++ (b'.text ++ 0x29 :: p)) := by
      rw [Term.text, List.append_assoc, skipWs_blanks, List.cons_append, skipWs_cons (by decide)]
      simp only [List.append_assoc, List.cons_append, List.nil_append]
    have hclose : skipWs (b'.text ++ 0x29 :: p) = 0x29 :: p := by
      rw [skipWs_blanks, skipWs_cons (by decide)]
    have hends : Ends (b'.text ++ 0x29 :: p) := by
      refine ⟨noAlnum_blanks b' (noAlnum_cons (by decide) p), ?_⟩
      rw [hclose]
      rfl
    have hshort : e.text.length + 1 ≤ f := by
      simp only [Term.text, List.length_append, List.length_cons, List.length_nil] at hlen
      omega
    have hinner := ih e hs hshort _ hends
    rw [hskip]
    refine ⟨fun q heq => ?_, fun q heq => ?_, ?_⟩
    · cases heq
    · cases heq
    · change (let r := evalExprFuel symbols f (e.text ++ (b'.text ++ 0x29 :: p))
        (r.1, if (skipWs r.2).head? = some 0x29 then (skipWs r.2).drop 1 else skipWs r.2)) = _
      rw [hinner, hclose]
      dsimp only
      rw [skipWs_cons (by decide), List.head?_cons, if_pos rfl, Term.value]
      rfl
  | neg _ _ => cases ha
  | not _ _ => cases ha

theorem eval_head (ih : Evaluates symbols f) {t : Term} (hs : t.Safe) (hn : ¬ t.IsNot)
    (hlen : t.text.length ≤ f + 1) {p : List UInt8} (hp : NoAlnum p) :
    evalExprFuel symbols (f + 1) (t.text ++ p) =
      evalOps symbols f (BitVec.ofInt 32 t.value) (skipWs p) := by
  have hatom : t.IsAtom → evalExprFuel symbols (f + 1) (t.text ++ p) =
      evalOps symbols f (BitVec.ofInt 32 t.value) (skipWs p) := by
    intro ha
    obtain ⟨htilde, hminus, heval⟩ := evalAtom_term symbols ih ha hs hlen hp
    rw [evalExpr_atom symbols htilde hminus, heval]
  cases t with
  | lit b l => exact hatom trivial
  | paren b e b' => exact hatom trivial
  | neg b t =>
    have hskip : skipWs ((Term.neg b t).text ++ p) = 0x2D :: (t.text ++ p) := by
      rw [Term.text, List.append_assoc, skipWs_blanks, List.cons_append, skipWs_cons (by decide)]
    have hshort : t.text.length ≤ f + 1 := by
      simp only [Term.text, List.length_append, List.length_cons] at hlen
      omega
    obtain ⟨_, _, heval⟩ := evalAtom_term symbols ih hs.1 hs.2 hshort hp
    rw [evalExpr_minus symbols hskip, heval, Term.value, BitVec.ofInt_neg]
  | not b t => exact absurd trivial hn

theorem skipWs_op (b : Blanks) (op : BinOp) (p : List UInt8) :
    skipWs (b.text ++ (op.text ++ p)) = op.text ++ p := by
  rw [skipWs_blanks]
  cases op <;> exact skipWs_cons (by decide) _

theorem noAlnum_op (op : BinOp) (p : List UInt8) : NoAlnum (op.text ++ p) := by
  cases op <;> exact noAlnum_cons (by decide) _

theorem Term.text_pos (t : Term) : 0 < t.text.length := by
  cases t with
  | lit b l =>
    obtain ⟨c, rest, htext, _⟩ := l.ok.head
    rw [Term.text, htext, List.length_append, List.length_cons]
    omega
  | paren _ _ _ =>
    simp only [Term.text, List.length_append, List.length_cons]
    omega
  | neg _ _ =>
    simp only [Term.text, List.length_append, List.length_cons]
    omega
  | not _ _ =>
    simp only [Term.text, List.length_append, List.length_cons]
    omega

theorem Term.text_not (b : Blanks) (t : Term) (p : List UInt8) :
    skipWs ((Term.not b t).text ++ p) = 0x7E :: (t.text ++ p) := by
  rw [Term.text, List.append_assoc, skipWs_blanks, List.cons_append, skipWs_cons (by decide)]

theorem Expr.Follows.single {e : Expr} (h : e.Follows .shr) : ∃ t, e = .last t := by
  cases e with
  | last t => exact ⟨t, rfl⟩
  | more _ _ _ _ =>
    rcases h with ⟨h, _⟩ | ⟨h, _⟩ | ⟨h, _⟩ <;> cases h

theorem ofInt_not_shift {t u : Term} (b b' : Blanks) :
    ~~~BitVec.ofInt 32 (Expr.more t b' .shr (.last u)).value =
      BitVec.ofInt 32 (Expr.more (.not b t) b' .shr (.last u)).value := by
  simp only [Expr.value, Expr.valueFrom, Term.value, BinOp.usual]
  rw [← ofInt_not, not_div_two_pow]

theorem inInt32_of_not {x : Int} (h : InInt32 (-x - 1)) : InInt32 x := by
  unfold InInt32 at h ⊢
  omega

theorem evaluates_last (ih : Evaluates symbols f) {t : Term} (hs : t.Safe)
    (hlen : t.text.length ≤ f) {p : List UInt8} (hp : Ends p) :
    evalExprFuel symbols (f + 1) (t.text ++ p) = (BitVec.ofInt 32 t.value, skipWs p) := by
  by_cases hn : t.IsNot
  · cases t with
    | not b t =>
      have hshort : (Expr.last t).text.length + 1 ≤ f := by
        simp only [Term.text, List.length_append, List.length_cons] at hlen
        simp only [Expr.text]
        omega
      have hinner := ih (.last t) hs hshort p hp
      rw [Expr.text, Expr.value] at hinner
      rw [evalExpr_tilde symbols (Term.text_not b t p), hinner, Term.value, ofInt_not]
    | _ => cases hn
  · rw [eval_head symbols ih hs hn (by omega) hp.word, evalOps_ends symbols hp]

theorem evaluates_more (ih : ∀ g ≤ f, Evaluates symbols g) {t : Term} {b : Blanks} {op : BinOp}
    {e : Expr} (hs : (Expr.more t b op e).Safe) (hlen : (Expr.more t b op e).text.length ≤ f)
    {p : List UInt8} (hp : Ends p) :
    evalExprFuel symbols (f + 1) ((Expr.more t b op e).text ++ p) =
      (BitVec.ofInt 32 (Expr.more t b op e).value, skipWs p) := by
  obtain ⟨hst, hse, hfe, hre, hnot⟩ := hs
  have htext : (Expr.more t b op e).text ++ p =
      t.text ++ (b.text ++ (op.text ++ (e.text ++ p))) := by
    simp only [Expr.text, List.append_assoc]
  have hop : 0 < op.text.length := by
    cases op <;> decide
  simp only [Expr.text, List.length_append] at hlen
  rw [htext]
  by_cases hn : t.IsNot
  · cases t with
    | not b₀ t =>
      obtain rfl := hnot hn
      obtain ⟨u, rfl⟩ := hfe.single
      have hsafe : (Expr.more t b .shr (.last u)).Safe :=
        ⟨hst, hse, trivial, ⟨hre.1, fun h => inInt32_of_not (hre.2 h)⟩, fun _ => rfl⟩
      have hshort : (Expr.more t b .shr (.last u)).text.length + 1 ≤ f := by
        simp only [Term.text, Expr.text, List.length_append, List.length_cons] at hlen ⊢
        omega
      have hinner := ih f (Nat.le_refl f) _ hsafe hshort p hp
      rw [show (Expr.more t b .shr (.last u)).text ++ p =
        t.text ++ (b.text ++ (BinOp.shr.text ++ ((Expr.last u).text ++ p))) by
          simp only [Expr.text, List.append_assoc]] at hinner
      rw [evalExpr_tilde symbols (Term.text_not b₀ t _), hinner, ← ofInt_not_shift b₀ b]
    | _ => cases hn
  · have hword : NoAlnum (b.text ++ (op.text ++ (e.text ++ p))) := noAlnum_blanks b (noAlnum_op op _)
    obtain ⟨g, rfl⟩ : ∃ g, f = g + 1 := ⟨f - 1, by omega⟩
    have hpos := t.text_pos
    have hinner := ih g (by omega) e hse (by omega) p hp
    rw [eval_head symbols (ih (g + 1) (Nat.le_refl _)) hst hn (by omega) hword, skipWs_op,
      evalOps_op, hinner]
    dsimp only
    rw [skipWs_skipWs, evalOps_ends symbols hp, Expr.value,
      Expr.ofInt_valueFrom e op t.value hse hfe hre]

theorem evaluates (f : Nat) : Evaluates symbols f := by
  induction f using Nat.strong_induction_on with
  | _ f ih =>
    intro e hs hlen p hp
    obtain ⟨g, rfl⟩ : ∃ g, f = g + 1 := ⟨f - 1, by omega⟩
    cases e with
    | last t =>
      rw [Expr.text, Expr.value]
      rw [Expr.text] at hlen
      exact evaluates_last symbols (ih g (by omega)) hs (by omega) hp
    | more t b op e =>
      exact evaluates_more symbols (fun g' hg' => ih g' (by omega)) hs (by omega) hp

end

/-- **Expressions have their usual value** modulo 2 ^ 32, and exactly the expression is read,
    where the grouping of `eval_expr` makes no difference. -/
theorem eval_expr_usual (symbols : List Symbol) {e : Expr} (hs : e.Safe) {p : List UInt8}
    (hp : Ends p) :
    evalExpr symbols (e.text ++ p) = (BitVec.ofInt 32 e.value, skipWs p) := by
  unfold evalExpr
  refine evaluates symbols _ e hs ?_ p hp
  rw [List.length_append]
  omega

def noBlanks : Blanks := ⟨[], by simp⟩

def digitTerm (d : UInt8) (h : isDigit d = true) : Term :=
  .lit noBlanks ⟨[d], numeral 10 [d], .dec (by simp) (by simpa using h) (by
    obtain ⟨n, hn, hlt⟩ := hexDigit_of_isDigit h
    simp only [numeral, List.foldl_cons, List.foldl_nil, hn, Option.getD_some]
    omega)⟩

/-- `7+((5-3)<<2)-~1`. -/
def sampleExpr : Expr :=
  .more (digitTerm 0x37 rfl) noBlanks .add
    (.more (.paren noBlanks
        (.more (.paren noBlanks
            (.more (digitTerm 0x35 rfl) noBlanks .sub (.last (digitTerm 0x33 rfl))) noBlanks)
          noBlanks .shl (.last (digitTerm 0x32 rfl))) noBlanks)
      noBlanks .sub (.last (.not noBlanks (digitTerm 0x31 rfl))))

theorem eval_expr_usual_sample :
    evalExpr [] (sampleExpr.text ++ []) = (BitVec.ofInt 32 sampleExpr.value, skipWs []) := by
  refine eval_expr_usual [] ?_ ⟨nofun, rfl⟩
  refine ⟨trivial, ⟨⟨⟨trivial, trivial, trivial, ⟨nofun, nofun⟩, nofun⟩, trivial, trivial,
    ⟨fun _ => by decide, nofun⟩, nofun⟩, trivial, trivial, ⟨nofun, nofun⟩, nofun⟩,
    Or.inl ⟨rfl, Or.inr rfl⟩, ⟨nofun, nofun⟩, nofun⟩

/-- `1-2-3`. -/
def threeTerms : Expr :=
  .more (digitTerm 0x31 rfl) noBlanks .sub
    (.more (digitTerm 0x32 rfl) noBlanks .sub (.last (digitTerm 0x33 rfl)))

/-- `1-2-3` is grouped as `1-(2-3)`, so its value is 2. -/
theorem eval_expr_grouping :
    threeTerms.WellFormed ∧ threeTerms.text = str "1-2-3" ∧ Ends [] ∧
      evalExpr [] (threeTerms.text ++ []) = (2, skipWs []) ∧
      evalExpr [] (threeTerms.text ++ []) ≠ (BitVec.ofInt 32 threeTerms.value, skipWs []) :=
  ⟨⟨trivial, ⟨trivial, trivial, trivial⟩, rfl, trivial⟩, by decide, ⟨nofun, rfl⟩,
    by decide +kernel, by decide +kernel⟩

end Gemios.As
