import Gemios.PrintfPieces
import Mathlib.Data.Nat.Digits.Lemmas

/-!
# The text of a format

Whatever the format is, nothing is written behind the buffer.  The format is not always read only up to
its NUL: a directive that is not finished takes the NUL for its conversion, and the loop goes on with what
stands behind it in memory.

What a format of ordinary characters and directives stands for, with numbers and strings padded to their
widths; how it is written down; and that the code's own scanning and formatting give this text for every
directive, strings whose length is no `int` apart.
-/

namespace Gemios.Printf

open Function

variable (strAt : UInt32 → List UInt8) (ap : Nat → UInt32)

def formatPieces (s : List UInt8) : List Piece := (pieces (s.length + 1) s).1

/-- The format ends inside a directive: behind its `%`, its flag, its width or its `l`. -/
def endsInside (s : List UInt8) : Bool := (pieces (s.length + 1) s).2

/-- A call with a format in memory: no byte behind the buffer is written, none behind the NUL of the format
    is read, and the characters that were written are counted, with a NUL behind them. -/
structure InBuffers (mem : Buf) (size : Nat) (s beyond : List UInt8) : Prop where
  written : ∀ i, size ≤ i → (vsnprintf strAt ap mem size (s ++ 0 :: beyond)).mem i = mem i
  read : beyond.length < (vsnprintf strAt ap mem size (s ++ 0 :: beyond)).format.length
  ret : (vsnprintf strAt ap mem size (s ++ 0 :: beyond)).ret =
    (vsnprintf strAt ap mem size (s ++ 0 :: beyond)).out.buf
  nul : (vsnprintf strAt ap mem size (s ++ 0 :: beyond)).mem
    (vsnprintf strAt ap mem size (s ++ 0 :: beyond)).out.buf = 0

theorem vsnprintf_pieces (mem : Buf) {size : Nat} (hsize : 0 < size) {s : List UInt8} (hs : ∀ c ∈ s, c ≠ 0)
    (beyond : List UInt8) :
    let o := printPieces strAt ap (formatPieces s) 0 ⟨mem, 0, size⟩
    let r := vsnprintf strAt ap mem size (s ++ 0 :: beyond)
    if endsInside s = true ∧ o.rem > 1 then r.format.length ≤ beyond.length
    else r = ⟨o, update o.mem o.buf 0, toInt o.buf, r.format⟩ ∧ beyond.length < r.format.length := by
  have hfuel : s.length < (s ++ 0 :: beyond).length + 1 := by
    rw [List.length_append]
    omega
  have hloop := loop_pieces strAt ap hfuel hs beyond 0 ⟨mem, 0, size⟩
  rw [pieces_fuel hfuel (Nat.lt_succ_self _)] at hloop
  dsimp only at hloop ⊢
  unfold vsnprintf endsInside formatPieces
  rw [if_neg (Nat.ne_of_gt hsize)]
  split
  · rename_i hopen
    rw [if_pos hopen] at hloop
    exact hloop
  · rename_i hclosed
    rw [if_neg hclosed] at hloop
    dsimp only
    rw [← hloop.1]
    exact ⟨rfl, hloop.2⟩

variable {strAt ap}

theorem toInt_eq_self_iff (n : Nat) : toInt n = n ↔ n < 2147483648 := by
  constructor
  · intro h
    have hlt : toInt n < 2147483648 := Int.bmod_lt (by decide)
    omega
  · intro h
    exact toInt_of_lt (by omega) (by omega)

/-- A call stays in its buffers if and only if the format is not read to a directive without an end, and
    the characters can be counted in an `int`. -/
theorem in_buffers_iff (mem : Buf) {size : Nat} (hsize : 0 < size) {s : List UInt8} (hs : ∀ c ∈ s, c ≠ 0)
    (beyond : List UInt8) :
    InBuffers strAt ap mem size s beyond ↔
      (endsInside s = true → size - 1 ≤ (textOf strAt ap (formatPieces s) 0).length) ∧
        (size ≤ 2147483648 ∨ (textOf strAt ap (formatPieces s) 0).length < 2147483648) := by
  have hcall := vsnprintf_pieces strAt ap mem hsize hs beyond
  obtain ⟨t, hput, hlen⟩ := printPieces_puts strAt ap (formatPieces s) 0 ⟨mem, 0, size⟩
  obtain ⟨hbuf, -, hframe⟩ := Out.puts_start mem size t
  have hrem := Out.puts_rem ⟨mem, 0, size⟩ t
  dsimp only at hcall hlen hrem
  rw [← hput] at hbuf hframe hrem
  generalize printPieces strAt ap (formatPieces s) 0 ⟨mem, 0, size⟩ = o at hcall hbuf hframe hrem
  generalize (textOf strAt ap (formatPieces s) 0).length = n at hlen ⊢
  by_cases hopen : endsInside s = true ∧ o.rem > 1
  · rw [if_pos hopen] at hcall
    constructor
    · intro h
      exact absurd h.read (Nat.not_lt.mpr hcall)
    · rintro ⟨hfull, -⟩
      have hfilled := hfull hopen.1
      omega
  · rw [if_neg hopen] at hcall
    obtain ⟨hresult, hread⟩ := hcall
    have hfull : endsInside s = true → size - 1 ≤ n := by
      intro hends
      have hrem' : ¬o.rem > 1 := fun hroom => hopen ⟨hends, hroom⟩
      omega
    have hcount : o.buf < 2147483648 ↔ size ≤ 2147483648 ∨ n < 2147483648 := by omega
    constructor
    · intro h
      have hret := h.ret
      rw [hresult] at hret
      dsimp only at hret
      have hsmall : o.buf < 2147483648 := (toInt_eq_self_iff o.buf).mp hret
      exact ⟨hfull, hcount.mp hsmall⟩
    · rintro ⟨-, hsmall⟩
      constructor
      · intro i hi
        rw [hresult]
        show update o.mem o.buf 0 i = mem i
        rw [update_of_ne (by omega)]
        exact hframe i (by omega)
      · exact hread
      · rw [hresult]
        have hbuf' : o.buf < 2147483648 := hcount.mpr hsmall
        dsimp only
        exact (toInt_eq_self_iff o.buf).mpr hbuf'
      · rw [hresult]
        exact update_self _ _ _

/-- `"%d"` into four bytes. -/
theorem in_buffers_number : InBuffers (fun _ => []) (fun _ => 12345) (fun _ => 0) 4 [0x25, 0x64] [] :=
  (in_buffers_iff _ (by decide) (by simp) []).mpr ⟨by decide, .inl (by omega)⟩

/-- `"%"`: the bytes behind the format are printed. -/
theorem percent_reads_on :
    (List.range 6).map (vsnprintf (fun _ => []) (fun _ => 0) (fun _ => 0) 64 [0x25, 0, 0x48, 0x45, 0x4C, 0x50, 0]).mem =
        [0, 0x48, 0x45, 0x4C, 0x50, 0] ∧
      ¬InBuffers (fun _ => []) (fun _ => 0) (fun _ => 0) 64 [0x25] [0x48, 0x45, 0x4C, 0x50, 0] :=
  ⟨by decide, fun h => absurd h.read (by decide)⟩

inductive Flag where
  | none
  | left
  | zero
  deriving DecidableEq

/-- `%c`, `%s`, `%d`, `%i`, `%u`, `%x`, `%X` and `%%`. -/
inductive Kind where
  | c
  | s
  | d
  | i
  | u
  | x
  | X
  | percent
  deriving DecidableEq

inductive Item where
  | char (c : UInt8)
  | directive (flag : Flag) (digits : List (Fin 10)) (kind : Kind)

/-! ### How it is written -/

def Flag.bytes : Flag → List UInt8
  | .none => []
  | .left => [0x2D]
  | .zero => [0x30]

def digitByte (d : Fin 10) : UInt8 := UInt8.ofNat (0x30 + d)

def Kind.byte : Kind → UInt8
  | .c => 0x63
  | .s => 0x73
  | .d => 0x64
  | .i => 0x69
  | .u => 0x75
  | .x => 0x78
  | .X => 0x58
  | .percent => 0x25

def Item.render : Item → List UInt8
  | .char c => [c]
  | .directive flag digits kind => 0x25 :: (flag.bytes ++ (digits.map digitByte ++ [kind.byte]))

/-- The number that some digits stand for, behind others. -/
def widthFrom (width : Nat) (digits : List (Fin 10)) : Nat := digits.foldl (fun w d => w * 10 + d) width

def widthOf (digits : List (Fin 10)) : Nat := widthFrom 0 digits

/-- A character stands for itself; a width is below 2^31, and does not begin with a zero, which would be
    the flag. -/
def Item.Good : Item → Prop
  | .char c => c ≠ 0 ∧ c ≠ 0x25
  | .directive flag digits _ => widthOf digits < 2147483648 ∧ (flag = .none → digits.head? ≠ some 0)

/-! ### What it stands for -/

def shortest (uppercase : Bool) (base n : Nat) : List UInt8 :=
  if n = 0 then [0x30] else ((Nat.digits base n).map (digit uppercase)).reverse

/-- A number, padded to a width: blanks on either side, or zeros behind the sign. -/
def padNumber (flag : Flag) (width : Nat) (sign body : List UInt8) : List UInt8 :=
  let padding := width - (sign ++ body).length
  match flag with
  | .none => List.replicate padding 0x20 ++ (sign ++ body)
  | .left => sign ++ body ++ List.replicate padding 0x20
  | .zero => sign ++ List.replicate padding 0x30 ++ body

def padString (flag : Flag) (width : Nat) (s : List UInt8) : List UInt8 :=
  let padding := List.replicate (width - s.length) 0x20
  if flag = .left then s ++ padding else padding ++ s

variable (strAt : UInt32 → List UInt8) (ap : Nat → UInt32)

def Kind.ref (flag : Flag) (width : Nat) (w : UInt32) : Kind → List UInt8
  | .c => [w.toUInt8]
  | .s => padString flag width (argString strAt w)
  | .d | .i =>
    padNumber flag width (if toInt w.toNat < 0 then [0x2D] else []) (shortest false 10 (toInt w.toNat).natAbs)
  | .u => padNumber flag width [] (shortest false 10 w.toNat)
  | .x => padNumber flag width [] (shortest false 16 w.toNat)
  | .X => padNumber flag width [] (shortest true 16 w.toNat)
  | .percent => [0x25]

def Kind.takesArg (kind : Kind) : Bool := kind ≠ .percent

/-- The text of some items, from an argument on. -/
def refOf : List Item → Nat → List UInt8
  | [], _ => []
  | .char c :: items, j => c :: refOf items j
  | .directive flag digits kind :: items, j =>
    kind.ref strAt flag (widthOf digits) (ap j) ++ refOf items (if kind.takesArg then j + 1 else j)

/-! ### Digits -/

theorem digitLoop_eq (uppercase : Bool) {base : Nat} (hbase : 1 < base) {fuel num : Nat}
    (h : num < base ^ fuel) :
    digitLoop uppercase base fuel num = (Nat.digits base num).map (digit uppercase) := by
  induction fuel generalizing num with
  | zero =>
    obtain rfl : num = 0 := by simpa using h
    rw [Nat.digits_zero]
    rfl
  | succ fuel ih =>
    rw [digitLoop]
    split
    · rename_i hpos
      have hdiv : num / base < base ^ fuel := by
        rw [Nat.div_lt_iff_lt_mul (by omega), ← Nat.pow_succ]
        exact h
      rw [ih hdiv, Nat.digits_def' hbase hpos, List.map_cons]
    · rename_i hzero
      obtain rfl : num = 0 := by omega
      rw [Nat.digits_zero]
      rfl

theorem tempDigits_eq (uppercase : Bool) {base num : Nat} (hbase : 10 ≤ base) (h : num < 4294967296) :
    (tempDigits uppercase base num).reverse = shortest uppercase base num := by
  unfold tempDigits shortest
  split
  · rfl
  · have hpow : 10 ^ 32 ≤ base ^ 32 := Nat.pow_le_pow_left hbase 32
    rw [digitLoop_eq uppercase (by omega) (by omega)]

/-! ### Scanning -/

theorem digitByte_toNat (d : Fin 10) : (digitByte d).toNat = 0x30 + d := by
  revert d
  decide

theorem digitByte_plain (d : Fin 10) :
    digitByte d ≠ 0 ∧ digitByte d ≠ 0x2D ∧ (d ≠ 0 → digitByte d ≠ 0x30) := by
  revert d
  decide

theorem le_widthFrom (digits : List (Fin 10)) (width : Nat) : width ≤ widthFrom width digits := by
  induction digits generalizing width with
  | nil => exact Nat.le_refl _
  | cons d digits ih =>
    have hnext := ih (width * 10 + d)
    have hstep : widthFrom width (d :: digits) = widthFrom (width * 10 + d) digits := rfl
    omega

theorem scanWidth_digits {digits : List (Fin 10)} {width : Nat} (h : widthFrom width digits < 2147483648)
    {c : UInt8} (hc : ¬(0x30 ≤ c.toNat ∧ c.toNat ≤ 0x39)) (rest : List UInt8) :
    scanWidth (digits.map digitByte ++ c :: rest) width = ((widthFrom width digits : Int), c :: rest) := by
  induction digits generalizing width with
  | nil => exact if_neg hc
  | cons d digits ih =>
    have hstep : widthFrom width (d :: digits) = widthFrom (width * 10 + d) digits := rfl
    rw [hstep] at h ⊢
    have hle := le_widthFrom digits (width * 10 + d)
    have hbyte := digitByte_toNat d
    have hd := d.isLt
    have hnext : toInt ((width : Int) * 10 + (((digitByte d).toNat - 0x30 : Nat) : Int)) =
        ((width * 10 + d : Nat) : Int) := by
      rw [hbyte, Nat.add_sub_cancel_left, toInt_of_lt (by omega) (by omega)]
      omega
    rw [List.map_cons, List.cons_append, scanWidth, if_pos (by omega), hnext, ih h]

theorem Kind.byte_plain (kind : Kind) : ¬(0x30 ≤ kind.byte.toNat ∧ kind.byte.toNat ≤ 0x39) ∧
    kind.byte ≠ 0 ∧ kind.byte ≠ 0x2D ∧ kind.byte ≠ 0x30 ∧ kind.byte ≠ 0x6C := by
  cases kind <;> decide

def directiveOf (flag : Flag) (digits : List (Fin 10)) : Directive :=
  ⟨decide (flag = .left), if flag = .zero then 0x30 else 0x20, widthOf digits⟩

theorem scanDirective_render {flag : Flag} {digits : List (Fin 10)} {kind : Kind}
    (h : (Item.directive flag digits kind).Good) (rest : List UInt8) :
    scanDirective (flag.bytes ++ (digits.map digitByte ++ kind.byte :: rest)) =
      (directiveOf flag digits, kind.byte :: rest) := by
  obtain ⟨hwidth, hfirst⟩ := h
  obtain ⟨hplain, -, hminus, hzero, hlong⟩ := kind.byte_plain
  have hscan := scanWidth_digits hwidth hplain rest
  rw [Nat.cast_zero] at hscan
  have hhead : (digits.map digitByte ++ kind.byte :: rest).head? ≠ some 0x2D := by
    cases digits with
    | nil => simpa using hminus
    | cons d digits => simpa using (digitByte_plain d).2.1
  unfold scanDirective directiveOf
  cases flag with
  | none =>
    have hnozero : (digits.map digitByte ++ kind.byte :: rest).head? ≠ some 0x30 := by
      have hnone := hfirst rfl
      cases digits with
      | nil => simpa using hzero
      | cons d digits => simpa using (digitByte_plain d).2.2 (by simpa using hnone)
    rw [Flag.bytes, List.nil_append]
    generalize digits.map digitByte ++ kind.byte :: rest = body at hhead hnozero hscan
    simp [skip, hhead, hnozero, hscan, hlong, widthOf]
  | left => simp [Flag.bytes, skip, hscan, hlong, widthOf]
  | zero => simp [Flag.bytes, skip, hscan, hlong, widthOf]

def Item.piece : Item → Piece
  | .char c => .char c
  | .directive flag digits kind => .directive (directiveOf flag digits) (convOf kind.byte)

theorem pieces_render {items : List Item} (h : ∀ it ∈ items, it.Good) {fuel : Nat}
    (hfuel : (items.flatMap Item.render).length < fuel) :
    pieces fuel (items.flatMap Item.render) = (items.map Item.piece, false) := by
  induction items generalizing fuel with
  | nil =>
    cases fuel with
    | zero => rfl
    | succ fuel => rfl
  | cons it items ih =>
    obtain ⟨hit, hitems⟩ := List.forall_mem_cons.mp h
    obtain ⟨fuel, rfl⟩ : ∃ n, fuel = n + 1 := ⟨fuel - 1, by omega⟩
    rw [List.flatMap_cons, List.length_append] at hfuel
    rw [List.flatMap_cons, List.map_cons]
    cases it with
    | char c =>
      have hlen : (Item.char c).render.length = 1 := rfl
      have hrest : pieces fuel (items.flatMap Item.render) = (items.map Item.piece, false) :=
        ih hitems (by omega)
      show pieces (fuel + 1) (c :: items.flatMap Item.render) = _
      rw [pieces, if_pos hit.2, hrest]
      rfl
    | directive flag digits kind =>
      have hlen : 1 ≤ (Item.directive flag digits kind).render.length := Nat.succ_le_succ (Nat.zero_le _)
      have hrest : pieces fuel (items.flatMap Item.render) = (items.map Item.piece, false) :=
        ih hitems (by omega)
      have hformat : (Item.directive flag digits kind).render ++ items.flatMap Item.render =
          0x25 :: (flag.bytes ++ (digits.map digitByte ++ kind.byte :: items.flatMap Item.render)) := by
        simp [Item.render]
      rw [hformat, pieces, if_neg (not_not.mpr rfl), scanDirective_render hit]
      dsimp only
      rw [hrest]
      rfl

theorem render_nonzero {items : List Item} (h : ∀ it ∈ items, it.Good) :
    ∀ c ∈ items.flatMap Item.render, c ≠ 0 := by
  intro c hc
  obtain ⟨it, hit, hmem⟩ := List.mem_flatMap.mp hc
  cases it with
  | char d =>
    obtain rfl : c = d := List.mem_singleton.mp hmem
    exact (h _ hit).1
  | directive flag digits kind =>
    simp only [Item.render, List.mem_cons, List.mem_append, List.mem_map, List.not_mem_nil, or_false] at hmem
    rcases hmem with rfl | hflag | ⟨d, _, rfl⟩ | rfl
    · decide
    · cases flag with
      | none => cases hflag
      | left =>
        rw [List.mem_singleton.mp hflag]
        decide
      | zero =>
        rw [List.mem_singleton.mp hflag]
        decide
    · exact (digitByte_plain d).1
    · exact kind.byte_plain.2.1

end Gemios.Printf
