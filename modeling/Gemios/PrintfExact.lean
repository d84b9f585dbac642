import Gemios.PrintfText

/-!
# What is printed is the text, cut off

`vsnprintf` leaves the first `size - 1` characters of the text of its format.  `%s` keeps the length of
its string in an `int`: a string that is too long for it is padded although it is wider than its field.
-/

namespace Gemios.Printf

/-! ### Numbers and strings -/

theorem toInt_of_word {n : Nat} (h : n < 4294967296) :
    toInt n = if n < 2147483648 then (n : Int) else (n : Int) - 4294967296 := by
  split
  · exact toInt_of_lt (by omega) (by omega)
  · rw [toInt, Int.bmod_def]
    split
    · omega
    · omega

theorem numberText_eq (flag : Flag) (width : Nat) {num base : Nat} (uppercase isSigned : Bool)
    (hbase : 10 ≤ base) (h : num < 4294967296) :
    numberText num base width (if flag = .zero then 0x30 else 0x20) uppercase isSigned (decide (flag = .left)) =
      padNumber flag width (if isSigned = true ∧ toInt num < 0 then [0x2D] else [])
        (shortest uppercase base (if isSigned then (toInt num).natAbs else num)) := by
  have hvalue : (0 ≤ toInt num → (toInt num).natAbs = num) ∧ (toInt num).natAbs ≤ 2147483648 := by
    rw [toInt_of_word h]
    split <;> omega
  have habs : (if (isSigned && decide (toInt num < 0)) = true then (-toInt num % 4294967296).toNat else num) =
      if isSigned then (toInt num).natAbs else num := by
    cases isSigned with
    | false => simp only [Bool.false_and, Bool.false_eq_true, if_false]
    | true =>
      simp only [Bool.true_and, decide_eq_true_eq, if_true]
      split
      · have hpos : -toInt num % 4294967296 = -toInt num := Int.emod_eq_of_lt (by omega) (by omega)
        rw [hpos]
        omega
      · rename_i hneg
        exact (hvalue.1 (Int.not_lt.mp hneg)).symm
  have hlt : (if isSigned then (toInt num).natAbs else num) < 4294967296 := by
    split
    · omega
    · exact h
  have hsign : (if (isSigned && decide (toInt num < 0)) = true then [0x2D] else ([] : List UInt8)) =
      if isSigned = true ∧ toInt num < 0 then [0x2D] else [] := by
    simp only [Bool.and_eq_true, decide_eq_true_eq]
  unfold numberText padNumber
  dsimp only
  rw [habs, hsign, tempDigits_eq uppercase hbase hlt]
  generalize (if isSigned = true ∧ toInt num < 0 then [0x2D] else ([] : List UInt8)) = sign
  generalize shortest uppercase base (if isSigned then (toInt num).natAbs else num) = body
  have hpadding : ((width : Int) - ((sign ++ body).length : Int)).toNat = width - (sign ++ body).length := by
    omega
  rw [hpadding]
  cases flag with
  | none => rfl
  | left => rfl
  | zero => rfl

/-- The `int` that holds the length of the string gives another padding than the length itself. -/
def Miscounted (width : Nat) (s : List UInt8) : Prop :=
  ((width : Int) - toInt s.length).toNat ≠ width - s.length

instance (width : Nat) (s : List UInt8) : Decidable (Miscounted width s) :=
  inferInstanceAs (Decidable (_ ≠ _))

theorem miscounted_iff {width : Nat} (hwidth : width < 2147483648) {s : List UInt8}
    (hs : s.length < 4294967296) : Miscounted width s ↔ 2147483648 ≤ s.length := by
  have hword := toInt_of_word hs
  unfold Miscounted
  constructor
  · intro hne
    by_contra hshort
    rw [if_pos (by omega)] at hword
    omega
  · intro hlong
    rw [if_neg (by omega)] at hword
    omega

theorem Miscounted.long {width : Nat} {s : List UInt8} (h : Miscounted width s) (hwidth : width < 2147483648) :
    width ≤ s.length ∧ 0 < ((width : Int) - toInt s.length).toNat ∧
      4294967296 ≤ ((width : Int) - toInt s.length).toNat + s.length := by
  have hlo : -2147483648 ≤ toInt s.length := Int.le_bmod (by decide)
  by_cases hlong : s.length < 4294967296
  · have hword := toInt_of_word hlong
    have hlen := (miscounted_iff hwidth hlong).mp h
    rw [if_neg (by omega)] at hword
    omega
  · unfold Miscounted at h
    omega

section

variable (strAt : UInt32 → List UInt8) (ap : Nat → UInt32)

theorem Kind.text_eq (flag : Flag) (digits : List (Fin 10)) (w : UInt32) (kind : Kind)
    (h : kind = .s → ¬Miscounted (widthOf digits) (argString strAt w)) :
    (convOf kind.byte).text strAt (directiveOf flag digits) w = kind.ref strAt flag (widthOf digits) w := by
  have hw : w.toNat < 4294967296 := w.toNat_lt
  cases kind with
  | c => rfl
  | percent => rfl
  | s =>
    have hcount := not_not.mp (h rfl)
    show stringText (argString strAt w) (widthOf digits) (decide (flag = .left)) =
      padString flag (widthOf digits) (argString strAt w)
    unfold stringText padString
    rw [hcount]
    simp only [decide_eq_true_eq]
  | d =>
    have hnumber := numberText_eq flag (widthOf digits) false true (Nat.le_refl 10) hw
    simp only [true_and, if_true] at hnumber
    exact hnumber
  | i =>
    have hnumber := numberText_eq flag (widthOf digits) false true (Nat.le_refl 10) hw
    simp only [true_and, if_true] at hnumber
    exact hnumber
  | u =>
    have hnumber := numberText_eq flag (widthOf digits) false false (Nat.le_refl 10) hw
    simp only [Bool.false_eq_true, false_and, if_false] at hnumber
    exact hnumber
  | x =>
    have hnumber := numberText_eq flag (widthOf digits) false false (Nat.le_add_right 10 6) hw
    simp only [Bool.false_eq_true, false_and, if_false] at hnumber
    exact hnumber
  | X =>
    have hnumber := numberText_eq flag (widthOf digits) true false (Nat.le_add_right 10 6) hw
    simp only [Bool.false_eq_true, false_and, if_false] at hnumber
    exact hnumber

def Blanks (room : Nat) (text : List UInt8) : Prop := text.take room = List.replicate room 0x20

/-- Every string that begins within the room has a length that is counted right; or the text from there
    on (behind the string, where it stands on the left) is blanks anyway, up to the end of the room. -/
def StringsFit : List Item → Nat → Nat → Prop
  | [], _, _ => True
  | .char _ :: items, j, room => StringsFit items j (room - 1)
  | .directive flag digits kind :: items, j, room =>
    let s := argString strAt (ap j)
    let rest := refOf strAt ap items (if kind.takesArg then j + 1 else j)
    if kind = .s ∧ Miscounted (widthOf digits) s then
      if flag = .left then Blanks (room - s.length) rest else Blanks room (s ++ rest)
    else
      StringsFit items (if kind.takesArg then j + 1 else j)
        (room - (kind.ref strAt flag (widthOf digits) (ap j)).length)

end

/-! ### Texts that are cut off -/

theorem take_append_iff {α : Type} (room : Nat) (x s t : List α) :
    (x ++ s).take room = (x ++ t).take room ↔ s.take (room - x.length) = t.take (room - x.length) := by
  rw [List.take_append, List.take_append, List.append_right_inj]

/-- A list that is equal to itself behind copies of one element has only this element. -/
theorem shifted_iff {α : Type} (b : α) {m room : Nat} (s rest t : List α) (hm : 0 < m)
    (hroom : room ≤ m + s.length) :
    (List.replicate m b ++ s ++ rest).take room = (s ++ t).take room ↔
      (s ++ t).take room = List.replicate room b := by
  have hlen : ((List.replicate m b ++ s ++ rest).take room).length = room := by
    simp only [List.length_take, List.length_append, List.length_replicate]
    omega
  constructor
  · intro h
    -- Each element is one of the copies, or an earlier element of the list.
    have hall : ∀ i, i < room → (s ++ t)[i]? = some b := by
      intro i
      induction i using Nat.strong_induction_on with
      | _ i ih =>
        intro hi
        have heq := congrArg (·[i]?) h
        simp only [List.getElem?_take, if_pos hi] at heq
        rw [← heq, List.append_assoc]
        by_cases him : i < m
        · rw [List.getElem?_append_left (by simpa using him), List.getElem?_replicate, if_pos him]
        · have hback := ih (i - m) (by omega) (by omega)
          rw [List.getElem?_append_left (by omega)] at hback
          rw [List.getElem?_append_right (by simp; omega), List.length_replicate,
            List.getElem?_append_left (by omega), hback]
    rw [h] at hlen
    refine List.eq_replicate_iff.mpr ⟨hlen, fun c hc => ?_⟩
    obtain ⟨i, hi, rfl⟩ := List.getElem_of_mem hc
    have hget := hall i (by omega)
    rw [List.getElem_take]
    rw [List.getElem?_eq_some_iff] at hget
    exact hget.2
  · intro h
    rw [h]
    refine List.eq_replicate_iff.mpr ⟨hlen, fun c hc => ?_⟩
    rw [List.append_assoc, List.take_append, List.length_replicate] at hc
    rcases List.mem_append.mp hc with hc | hc
    · exact List.eq_of_mem_replicate (List.mem_of_mem_take hc)
    · rw [List.take_append_of_le_length (by omega)] at hc
      have hsub : c ∈ (s ++ t).take room := by
        rw [List.take_append]
        exact List.mem_append_left _ ((List.take_sublist_take_left (Nat.sub_le room m)).subset hc)
      rw [h] at hsub
      exact List.eq_of_mem_replicate hsub

/-! ### The buffer -/

variable {strAt : UInt32 → List UInt8} {ap : Nat → UInt32}

theorem Kind.takesArg_eq (kind : Kind) : (convOf kind.byte).takesArg = kind.takesArg := by
  cases kind <;> rfl

theorem Kind.not_pointer (kind : Kind) : convOf kind.byte ≠ .pointer := by
  cases kind <;> exact Conv.noConfusion

theorem printPieces_items (items : List Item) (j : Nat) (o : Out) :
    printPieces strAt ap (items.map Item.piece) j o = o.puts (textOf strAt ap (items.map Item.piece) j) := by
  induction items generalizing j o with
  | nil => rfl
  | cons it items ih =>
    cases it with
    | char c => exact ih j (o.put c)
    | directive flag digits kind =>
      have hconvert := convert_eq strAt (directiveOf flag digits) (ap j) o
        fun hk => absurd hk kind.not_pointer
      rw [List.map_cons, Item.piece, printPieces, textOf, hconvert, ih, Out.puts_append]

theorem take_text_iff {items : List Item} (hitems : ∀ it ∈ items, it.Good) (j : Nat) {room : Nat}
    (hroom : room < 4294967296) :
    (textOf strAt ap (items.map Item.piece) j).take room = (refOf strAt ap items j).take room ↔
      StringsFit strAt ap items j room := by
  induction items generalizing j room with
  | nil => exact iff_of_true rfl trivial
  | cons it items ih =>
    obtain ⟨hit, hothers⟩ := List.forall_mem_cons.mp hitems
    have ih := ih hothers
    cases it with
    | char c =>
      have hrest := ih j (lt_of_le_of_lt (Nat.sub_le room 1) hroom)
      exact (take_append_iff room [c] _ _).trans hrest
    | directive flag digits kind =>
      rw [List.map_cons, Item.piece, textOf, refOf, StringsFit, kind.takesArg_eq]
      by_cases hbad : kind = .s ∧ Miscounted (widthOf digits) (argString strAt (ap j))
      · rw [if_pos hbad]
        obtain ⟨rfl, hmis⟩ := hbad
        obtain ⟨hwide, hpad, hlong⟩ := hmis.long hit.1
        -- The reference has no padding here, and the code has more than fits.
        have href : Kind.s.ref strAt flag (widthOf digits) (ap j) = argString strAt (ap j) := by
          unfold Kind.ref padString
          dsimp only
          rw [Nat.sub_eq_zero_of_le hwide, List.replicate_zero, List.append_nil, List.nil_append, ite_self]
        have htext : (convOf Kind.s.byte).text strAt (directiveOf flag digits) (ap j) =
            stringText (argString strAt (ap j)) (widthOf digits) (decide (flag = .left)) := rfl
        rw [href, htext]
        unfold stringText
        dsimp only
        by_cases hleft : flag = .left
        · rw [if_pos hleft, if_pos (decide_eq_true hleft), List.append_assoc, take_append_iff,
            List.take_append_of_le_length (by simp; omega), List.take_replicate, Nat.min_eq_left (by omega)]
          exact eq_comm
        · rw [if_neg hleft, if_neg (by simpa using hleft)]
          exact shifted_iff 0x20 _ _ _ hpad (by omega)
      · rw [if_neg hbad]
        have htext := kind.text_eq strAt flag digits (ap j) fun hs hmis => hbad ⟨hs, hmis⟩
        rw [htext, take_append_iff]
        exact ih _ (lt_of_le_of_lt (Nat.sub_le room _) hroom)

theorem buffer_text (mem : Buf) {size : Nat} (hsize : 0 < size) {items : List Item}
    (hitems : ∀ it ∈ items, it.Good) (beyond : List UInt8) :
    (List.range (vsnprintf strAt ap mem size (items.flatMap Item.render ++ 0 :: beyond)).out.buf).map
        (vsnprintf strAt ap mem size (items.flatMap Item.render ++ 0 :: beyond)).mem =
      (textOf strAt ap (items.map Item.piece) 0).take (size - 1) := by
  have hcall := vsnprintf_pieces strAt ap mem hsize (render_nonzero hitems) beyond
  have hparse := pieces_render hitems (Nat.lt_succ_self (items.flatMap Item.render).length)
  have hends : endsInside (items.flatMap Item.render) = false := congrArg Prod.snd hparse
  have hpieces : formatPieces (items.flatMap Item.render) = items.map Item.piece := congrArg Prod.fst hparse
  obtain ⟨-, htext, -⟩ := Out.puts_start mem size (textOf strAt ap (items.map Item.piece) 0)
  dsimp only at hcall
  rw [if_neg (fun h => Bool.false_ne_true (hends ▸ h.1)), hpieces, printPieces_items] at hcall
  rw [hcall.1]
  dsimp only
  generalize (Out.mk mem 0 size).puts (textOf strAt ap (items.map Item.piece) 0) = o at htext
  have hnul : (List.range o.buf).map (Function.update o.mem o.buf 0) = (List.range o.buf).map o.mem :=
    List.map_congr_left fun i hi => Function.update_of_ne (Nat.ne_of_lt (List.mem_range.mp hi)) _ _
  rw [hnul, htext]

/-- The text in the buffer is the text of the format, cut off, if and only if the strings that are reached
    have lengths that fit into an `int`, or only blanks follow. -/
theorem text_iff (mem : Buf) {size : Nat} (hsize : 0 < size) (hword : size < 4294967296) {items : List Item}
    (hitems : ∀ it ∈ items, it.Good) (beyond : List UInt8) :
    (List.range (vsnprintf strAt ap mem size (items.flatMap Item.render ++ 0 :: beyond)).out.buf).map
        (vsnprintf strAt ap mem size (items.flatMap Item.render ++ 0 :: beyond)).mem =
        (refOf strAt ap items 0).take (size - 1) ↔
      StringsFit strAt ap items 0 (size - 1) := by
  rw [buffer_text mem hsize hitems beyond]
  exact take_text_iff hitems 0 (by omega)

/-- `"%05d"` of -42, into four bytes. -/
theorem text_number_cut :
    (List.range (vsnprintf (fun _ => []) (fun _ => 4294967254) (fun _ => 0) 4
        ([Item.directive .zero [5] .d].flatMap Item.render ++ 0 :: [])).out.buf).map
        (vsnprintf (fun _ => []) (fun _ => 4294967254) (fun _ => 0) 4
          ([Item.directive .zero [5] .d].flatMap Item.render ++ 0 :: [])).mem =
      (refOf (fun _ => []) (fun _ => 4294967254) [.directive .zero [5] .d] 0).take (4 - 1) := by
  refine (text_iff _ (by decide) (by omega) ?_ []).mpr ?_
  · intro it hit
    rw [List.mem_singleton.mp hit]
    exact ⟨show 5 < 2147483648 by omega, nofun⟩
  · simp [StringsFit]

theorem not_stringsFit {c : UInt8} (hc : c ≠ 0x20) {n : Nat} (hlo : 2147483648 ≤ n + 1)
    (hhi : n + 1 < 4294967296) :
    ¬StringsFit (fun _ => List.replicate (n + 1) c) (fun _ => 1) [.directive .none [] .s] 0 (2 - 1) := by
  have hlen : (List.replicate (n + 1) c).length = n + 1 := List.length_replicate
  have hmis : Miscounted (widthOf []) (List.replicate (n + 1) c) :=
    (miscounted_iff (show 0 < 2147483648 by omega) (by omega)).mpr (by omega)
  rw [StringsFit, if_pos ⟨rfl, hmis⟩, if_neg (by decide)]
  intro hblank
  have hfirst : c = 0x20 := (List.cons.inj hblank).1
  exact hc hfirst

/-- `"%s"` of 2^31 letters, into two bytes: a blank is printed. -/
theorem long_string_padded :
    ¬(List.range (vsnprintf (fun _ => List.replicate 2147483648 0x61) (fun _ => 1) (fun _ => 0) 2
        ([Item.directive .none [] .s].flatMap Item.render ++ 0 :: [])).out.buf).map
        (vsnprintf (fun _ => List.replicate 2147483648 0x61) (fun _ => 1) (fun _ => 0) 2
          ([Item.directive .none [] .s].flatMap Item.render ++ 0 :: [])).mem =
      (refOf (fun _ => List.replicate 2147483648 0x61) (fun _ => 1) [.directive .none [] .s] 0).take (2 - 1) := by
  have hgood : ∀ it ∈ [Item.directive .none [] .s], it.Good := by
    intro it hit
    rw [List.mem_singleton.mp hit]
    exact ⟨show 0 < 2147483648 by omega, nofun⟩
  rw [buffer_text _ (by decide) hgood [], take_text_iff hgood 0 (by omega)]
  exact not_stringsFit (by decide) (n := 2147483647) (by omega) (by omega)

end Gemios.Printf
