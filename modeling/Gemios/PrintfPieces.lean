import Gemios.Printf

/-!
# A format as pieces

A format is characters and directives, one after another, and perhaps a directive that is not finished.
Without a buffer that can be full every piece has a text; `vsnprintf` prints these texts into its buffer.
-/

namespace Gemios.Printf

inductive Piece where
  | char (c : UInt8)
  | directive (d : Directive) (k : Conv)

/-- The pieces of a format, and whether it ends inside a directive. -/
def pieces : Nat → List UInt8 → List Piece × Bool
  | 0, _ => ([], false)
  | _ + 1, [] => ([], false)
  | fuel + 1, c :: format =>
    if c ≠ 0x25 then (.char c :: (pieces fuel format).1, (pieces fuel format).2)
    else
      match scanDirective format with
      | (_, []) => ([], true)
      | (d, conv :: format) => (.directive d (convOf conv) :: (pieces fuel format).1, (pieces fuel format).2)

/-! ### Texts -/

def numberText (num base : Nat) (width : Int) (padChar : UInt8) (uppercase isSigned leftAlign : Bool) :
    List UInt8 :=
  let negative := isSigned && decide (toInt num < 0)
  let sign : List UInt8 := if negative then [0x2D] else []
  let num := if negative then (-toInt num % 4294967296).toNat else num
  let digits := (tempDigits uppercase base num).reverse
  let padding := (width - (sign ++ digits).length).toNat
  if leftAlign then sign ++ digits ++ List.replicate padding 0x20
  else if padChar = 0x30 then sign ++ List.replicate padding padChar ++ digits
  else List.replicate padding padChar ++ (sign ++ digits)

/-- A string with its padding, the length taken as an `int`. -/
def stringText (s : List UInt8) (width : Int) (leftAlign : Bool) : List UInt8 :=
  let padding := List.replicate (width - toInt s.length).toNat 0x20
  if leftAlign then s ++ padding else padding ++ s

variable (strAt : UInt32 → List UInt8) (ap : Nat → UInt32)

def Conv.text (d : Directive) (w : UInt32) : Conv → List UInt8
  | .char => [w.toUInt8]
  | .string => stringText (argString strAt w) d.width d.leftAlign
  | .signed => numberText w.toNat 10 d.width d.padChar false true d.leftAlign
  | .unsigned => numberText w.toNat 10 d.width d.padChar false false d.leftAlign
  | .hex => numberText w.toNat 16 d.width d.padChar false false d.leftAlign
  | .upperHex => numberText w.toNat 16 d.width d.padChar true false d.leftAlign
  | .pointer => 0x30 :: 0x78 :: numberText w.toNat 16 8 0x30 false false false
  | .percent => [0x25]
  | .other c => [c]

/-- The text of some pieces, from an argument on. -/
def textOf : List Piece → Nat → List UInt8
  | [], _ => []
  | .char c :: ps, j => c :: textOf ps j
  | .directive d k :: ps, j => k.text strAt d (ap j) ++ textOf ps (if k.takesArg then j + 1 else j)

def printPieces : List Piece → Nat → Out → Out
  | [], _, o => o
  | .char c :: ps, j, o => printPieces ps j (o.put c)
  | .directive d k :: ps, j, o =>
    printPieces ps (if k.takesArg then j + 1 else j) (convert strAt d (ap j) o k)

/-! ### The loops -/

theorem put_rem {o : Out} (h : o.rem > 1) (c : UInt8) : (o.put c).rem = o.rem - 1 := by
  rw [Out.put, if_pos h]

theorem padLeft_eq (pad : UInt8) (len : Int) {fuel : Nat} {o : Out} (width : Int) (hfuel : o.rem ≤ fuel) :
    padLeft pad len fuel width o = o.puts (List.replicate (width - len).toNat pad) := by
  induction fuel generalizing width o with
  | zero =>
    have hfull : o.rem ≤ 1 := by omega
    exact (Out.puts_full hfull _).symm
  | succ fuel ih =>
    unfold padLeft
    split
    · rename_i hroom
      have hturns : (width - len).toNat = (width - 1 - len).toNat + 1 := by omega
      have hrem := put_rem hroom.2 pad
      rw [ih _ (by omega), hturns, List.replicate_succ, Out.puts_cons]
    · rename_i hstop
      by_cases hlt : len < width
      · exact (Out.puts_full (by omega) _).symm
      · have hturns : (width - len).toNat = 0 := by omega
        rw [hturns]
        rfl

theorem padRight_eq_padLeft {fuel : Nat} {o : Out} {width len width' len' : Int}
    (h : width - len = width' - len') : padRight width fuel len o = padLeft 0x20 len' fuel width' o := by
  induction fuel generalizing len width' o with
  | zero => rfl
  | succ fuel ih =>
    have hlt : len < width ↔ len' < width' := by omega
    unfold padRight padLeft
    simp only [hlt]
    split
    · exact ih (by omega)
    · rfl

theorem padRight_eq (width : Int) {fuel : Nat} {o : Out} (len : Int) (hfuel : o.rem ≤ fuel) :
    padRight width fuel len o = o.puts (List.replicate (width - len).toNat 0x20) := by
  rw [padRight_eq_padLeft rfl]
  exact padLeft_eq 0x20 len width hfuel

theorem copyStr_eq (s : List UInt8) (o : Out) : copyStr s o = o.puts s := by
  induction s generalizing o with
  | nil => rfl
  | cons c s ih =>
    unfold copyStr
    split
    · exact ih _
    · rename_i hfull
      exact (Out.puts_full (Nat.not_lt.mp hfull) _).symm

theorem formatString_eq (o : Out) (s : List UInt8) (width : Int) (leftAlign : Bool) :
    formatString o s width leftAlign = o.puts (stringText s width leftAlign) := by
  unfold formatString stringText
  cases leftAlign with
  | false =>
    simp only [Bool.not_false, if_true, Bool.false_eq_true, if_false]
    rw [padLeft_eq _ _ _ (Nat.le_refl _), copyStr_eq, Out.puts_append]
  | true =>
    simp only [Bool.not_true, if_true, Bool.false_eq_true, if_false]
    rw [padRight_eq _ _ (Nat.le_refl _), copyStr_eq, Out.puts_append]

theorem formatNumber_eq (o : Out) (num base : Nat) (width : Int) (padChar : UInt8)
    (uppercase isSigned leftAlign : Bool) :
    formatNumber o num base width padChar uppercase isSigned leftAlign =
      o.puts (numberText num base width padChar uppercase isSigned leftAlign) := by
  unfold formatNumber numberText
  dsimp only
  generalize (isSigned && decide (toInt num < 0)) = negative
  generalize tempDigits uppercase base
    (if negative = true then (-toInt num % 4294967296).toNat else num) = temp
  cases leftAlign with
  | true =>
    cases negative with
    | true => simp [padRight_eq _ _ (Nat.le_refl _)]
    | false => simp [padRight_eq _ _ (Nat.le_refl _)]
  | false =>
    cases negative with
    | false => simp [padLeft_eq _ _ _ (Nat.le_refl _)]
    | true =>
      by_cases hzero : padChar = 0x30
      · -- The sign goes before the padding, and a place of the width with it.
        have hturns : ((if width > 0 then width - 1 else width) - (temp.length : Int)).toNat =
            (width - ((temp.length : Int) + 1)).toNat := by
          split <;> omega
        simp [hzero, padLeft_eq _ _ _ (Nat.le_refl _), hturns]
      · simp [hzero, padLeft_eq _ _ _ (Nat.le_refl _)]

/-! ### The cases -/

theorem convert_eq (d : Directive) (w : UInt32) (o : Out) {k : Conv} (hk : k = .pointer → o.rem > 3) :
    convert strAt d w o k = o.puts (k.text strAt d w) := by
  cases k with
  | char => rfl
  | percent => rfl
  | other c => rfl
  | string => exact formatString_eq _ _ _ _
  | signed => exact formatNumber_eq _ _ _ _ _ _ _ _
  | unsigned => exact formatNumber_eq _ _ _ _ _ _ _ _
  | hex => exact formatNumber_eq _ _ _ _ _ _ _ _
  | upperHex => exact formatNumber_eq _ _ _ _ _ _ _ _
  | pointer =>
    unfold convert Conv.text
    dsimp only
    rw [if_pos (hk rfl), formatNumber_eq, Out.puts_cons, Out.puts_cons]

theorem numberText_length (num base : Nat) (width : Int) (padChar : UInt8) (uppercase isSigned : Bool) :
    width ≤ (numberText num base width padChar uppercase isSigned false).length := by
  unfold numberText
  dsimp only
  rw [if_neg Bool.false_ne_true]
  split <;> simp only [List.length_append, List.length_replicate] <;> omega

theorem convert_puts (d : Directive) (w : UInt32) (o : Out) (k : Conv) :
    ∃ s, convert strAt d w o k = o.puts s ∧
      min s.length (o.rem - 1) = min (k.text strAt d w).length (o.rem - 1) := by
  by_cases hk : k = .pointer → o.rem > 3
  · exact ⟨_, convert_eq strAt d w o hk, rfl⟩
  · -- The `0x` is left out, and the digits fill the rest.
    obtain ⟨rfl, hsmall⟩ := Classical.not_imp.mp hk
    have hdigits := numberText_length w.toNat 16 8 0x30 false false
    refine ⟨numberText w.toNat 16 8 0x30 false false false, ?_, ?_⟩
    · unfold convert
      dsimp only
      rw [if_neg hsmall, formatNumber_eq]
    · unfold Conv.text
      simp only [List.length_cons]
      omega

theorem printPieces_puts (ps : List Piece) (j : Nat) (o : Out) :
    ∃ s, printPieces strAt ap ps j o = o.puts s ∧
      min s.length (o.rem - 1) = min (textOf strAt ap ps j).length (o.rem - 1) := by
  induction ps generalizing j o with
  | nil => exact ⟨[], rfl, rfl⟩
  | cons p ps ih =>
    -- What the first piece prints, and then the others into the room that is left.
    have hfirst : ∀ {o' : Out} {j' : Nat} {s t : List UInt8}, o' = o.puts s →
        min s.length (o.rem - 1) = min t.length (o.rem - 1) →
        ∃ s, printPieces strAt ap ps j' o' = o.puts s ∧
          min s.length (o.rem - 1) = min (t ++ textOf strAt ap ps j').length (o.rem - 1) := by
      intro o' j' s t hput hlen
      obtain ⟨s', hrest, hlen'⟩ := ih j' o'
      refine ⟨s ++ s', ?_, ?_⟩
      · rw [hrest, hput, Out.puts_append]
      · rw [hput, Out.puts_rem] at hlen'
        rw [List.length_append, List.length_append]
        omega
    cases p with
    | char c => exact hfirst (s := [c]) (t := [c]) rfl rfl
    | directive d k =>
      obtain ⟨s, hput, hlen⟩ := convert_puts strAt d (ap j) o k
      exact hfirst hput hlen

theorem printPieces_full (ps : List Piece) (j : Nat) {o : Out} (hfull : o.rem ≤ 1) :
    printPieces strAt ap ps j o = o := by
  obtain ⟨s, hput, -⟩ := printPieces_puts strAt ap ps j o
  rw [hput, Out.puts_full hfull]

/-! ### The parser -/

theorem head_append {c : UInt8} (hc : c ≠ 0) (s beyond : List UInt8) :
    (s ++ 0 :: beyond).head? = some c ↔ s.head? = some c := by
  cases s with
  | nil => simp [hc.symm]
  | cons d s => rfl

theorem tail_append {c : UInt8} {s : List UInt8} (h : s.head? = some c) (beyond : List UInt8) :
    (s ++ 0 :: beyond).tail = s.tail ++ 0 :: beyond := by
  cases s with
  | nil => cases h
  | cons d s => rfl

theorem skip_append {c : UInt8} (hc : c ≠ 0) (s beyond : List UInt8) :
    skip c (s ++ 0 :: beyond) = skip c s ++ 0 :: beyond := by
  unfold skip
  by_cases h : s.head? = some c
  · rw [if_pos h, if_pos ((head_append hc s beyond).mpr h), tail_append h]
  · rw [if_neg h, if_neg (mt (head_append hc s beyond).mp h)]

theorem scanWidth_append (s beyond : List UInt8) (width : Int) :
    scanWidth (s ++ 0 :: beyond) width = ((scanWidth s width).1, (scanWidth s width).2 ++ 0 :: beyond) := by
  induction s generalizing width with
  | nil => rfl
  | cons c s ih =>
    rw [List.cons_append, scanWidth, scanWidth]
    split
    · exact ih _
    · rfl

theorem scanDirective_append (s beyond : List UInt8) :
    scanDirective (s ++ 0 :: beyond) = ((scanDirective s).1, (scanDirective s).2 ++ 0 :: beyond) := by
  have hminus := head_append (c := 0x2D) (by decide) s beyond
  have hzero := head_append (c := 0x30) (by decide) (skip 0x2D s) beyond
  unfold scanDirective
  simp only [skip_append (c := 0x2D) (by decide), hminus, hzero]
  generalize hflag : (decide ((skip 0x2D s).head? = some 0x30) && !decide (s.head? = some 0x2D)) = zero
  have hpad : (if zero = true then (skip 0x2D s ++ 0 :: beyond).tail else skip 0x2D s ++ 0 :: beyond) =
      (if zero = true then (skip 0x2D s).tail else skip 0x2D s) ++ 0 :: beyond := by
    cases zero with
    | false => rfl
    | true =>
      rw [Bool.and_eq_true, decide_eq_true_eq] at hflag
      exact tail_append hflag.1 beyond
  rw [hpad, scanWidth_append]
  generalize scanWidth (if zero = true then (skip 0x2D s).tail else skip 0x2D s) 0 = found
  obtain ⟨width, rest⟩ := found
  have hlong := head_append (c := 0x6C) (by decide) rest beyond
  simp only [hlong]
  by_cases hl : rest.head? = some 0x6C
  · rw [if_pos hl, if_pos hl, tail_append hl, skip_append (by decide)]
  · rw [if_neg hl, if_neg hl]

theorem skip_suffix (c : UInt8) (s : List UInt8) : skip c s <:+ s := by
  unfold skip
  split
  · exact List.tail_suffix s
  · exact List.suffix_refl s

theorem scanWidth_suffix (s : List UInt8) (width : Int) : (scanWidth s width).2 <:+ s := by
  induction s generalizing width with
  | nil => exact List.suffix_refl []
  | cons c s ih =>
    rw [scanWidth]
    split
    · exact (ih _).trans (List.suffix_cons c s)
    · exact List.suffix_refl _

theorem scanDirective_suffix (s : List UInt8) : (scanDirective s).2 <:+ s := by
  unfold scanDirective
  dsimp only
  generalize (decide ((skip 0x2D s).head? = some 0x30) && !decide (s.head? = some 0x2D)) = zero
  have hpad : (if zero = true then (skip 0x2D s).tail else skip 0x2D s) <:+ s := by
    split
    · exact (List.tail_suffix _).trans (skip_suffix _ s)
    · exact skip_suffix _ s
  generalize (if zero = true then (skip 0x2D s).tail else skip 0x2D s) = rest at hpad ⊢
  have hwidth := (scanWidth_suffix rest 0).trans hpad
  split
  · exact ((skip_suffix _ _).trans (List.tail_suffix _)).trans hwidth
  · exact hwidth

/-! ### The loop -/

theorem pieces_fuel {fuel fuel' : Nat} {s : List UInt8} (h : s.length < fuel) (h' : s.length < fuel') :
    pieces fuel s = pieces fuel' s := by
  induction fuel generalizing fuel' s with
  | zero => omega
  | succ fuel ih =>
    obtain ⟨fuel', rfl⟩ : ∃ n, fuel' = n + 1 := ⟨fuel' - 1, by omega⟩
    cases s with
    | nil => rfl
    | cons c s =>
      rw [List.length_cons] at h h'
      have hsuffix := (scanDirective_suffix s).length_le
      rw [pieces, pieces]
      split
      · have hrest : pieces fuel s = pieces fuel' s := ih (by omega) (by omega)
        rw [hrest]
      · generalize scanDirective s = found at hsuffix
        obtain ⟨d, rest⟩ := found
        cases rest with
        | nil => rfl
        | cons conv rest =>
          rw [List.length_cons] at hsuffix
          have hrest : pieces fuel rest = pieces fuel' rest := ih (by omega) (by omega)
          dsimp only
          rw [hrest]

theorem loop_suffix (fuel : Nat) (format : List UInt8) (j : Nat) (o : Out) :
    (loop strAt ap fuel format j o).2 <:+ format := by
  induction fuel generalizing format j o with
  | zero => exact List.suffix_refl _
  | succ fuel ih =>
    cases format with
    | nil => exact List.suffix_refl _
    | cons c format =>
      have hsuffix := scanDirective_suffix format
      rw [loop]
      split
      · split
        · exact (ih _ _ _).trans (List.suffix_cons c format)
        · generalize scanDirective format = found at hsuffix
          obtain ⟨d, rest⟩ := found
          cases rest with
          | nil => exact List.nil_suffix
          | cons conv rest =>
            exact ((ih _ _ _).trans (List.suffix_cons conv rest)).trans (hsuffix.trans (List.suffix_cons c format))
      · exact List.suffix_refl _

/-- The loop prints the pieces, and stays before the NUL; unless it comes to a directive that is not
    finished, with room left. -/
theorem loop_pieces {fuel : Nat} {s : List UInt8} (hfuel : s.length < fuel) (hs : ∀ c ∈ s, c ≠ 0)
    (beyond : List UInt8) (j : Nat) (o : Out) :
    let o' := printPieces strAt ap (pieces fuel s).1 j o
    let r := loop strAt ap fuel (s ++ 0 :: beyond) j o
    if (pieces fuel s).2 = true ∧ o'.rem > 1 then r.2.length ≤ beyond.length
    else r.1 = o' ∧ beyond.length < r.2.length := by
  induction fuel generalizing s j o with
  | zero => omega
  | succ fuel ih =>
    dsimp only at ih ⊢
    cases s with
    | nil =>
      rw [pieces, if_neg (fun h => Bool.false_ne_true h.1), List.nil_append, loop, if_neg (fun h => h.1 rfl)]
      exact ⟨rfl, Nat.lt_succ_self _⟩
    | cons c s =>
      obtain ⟨hc, hs⟩ := List.forall_mem_cons.mp hs
      rw [List.length_cons] at hfuel
      by_cases hroom : o.rem > 1
      · have hguard : c ≠ 0 ∧ o.rem > 1 := ⟨hc, hroom⟩
        rw [List.cons_append, pieces, loop, if_pos hguard]
        by_cases hpercent : c = 0x25
        · rw [if_neg (not_not.mpr hpercent), if_neg (not_not.mpr hpercent), scanDirective_append]
          have hsuffix := scanDirective_suffix s
          generalize scanDirective s = found at hsuffix
          obtain ⟨d, rest⟩ := found
          cases rest with
          | nil =>
            -- The NUL is taken for the conversion, and the format goes on behind it.
            dsimp only [List.nil_append]
            rw [if_pos ⟨rfl, hroom⟩]
            exact (loop_suffix strAt ap _ _ _ _).length_le
          | cons conv rest =>
            have hlen := hsuffix.length_le
            rw [List.length_cons] at hlen
            exact ih (by omega) (fun d hd => hs d (hsuffix.subset (List.mem_cons_of_mem _ hd))) _ _
        · rw [if_pos hpercent, if_pos hpercent]
          exact ih (by omega) hs j (o.put c)
      · have hfull : o.rem ≤ 1 := Nat.not_lt.mp hroom
        rw [printPieces_full strAt ap _ _ hfull, if_neg (fun h => hroom h.2), List.cons_append, loop,
          if_neg (fun h => hroom h.2)]
        refine ⟨rfl, ?_⟩
        simp only [List.length_cons, List.length_append]
        omega

end Gemios.Printf
