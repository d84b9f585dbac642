import Gemios.Make
import Gemios.Words

/-!
# Patterns and stems

`match_pattern`, `subst_stem` and `eval_patsubst` of `src/tools/make.c` against the stem of a
word: what stands between the two sides of the `%`.
-/

namespace Gemios.Make

/-- `next_token`: the token, and the text behind it. -/
def nextToken (p : List UInt8) : Option (Name × List UInt8) :=
  match p.dropWhile isSpace with
  | [] => none
  | c :: q => some ((c :: q).takeWhile (!isSpace ·), (c :: q).dropWhile (!isSpace ·))

/-- The length of the callers' array `stem`. -/
def STEM_SIZE : Nat := 256

/-- `match_pattern` with such an array; `none` is a write past its end. -/
def matchPatternBuf (pattern str : Name) : Option (Option Name) :=
  match matchPattern pattern str with
  | none => some none
  | some stem => if stem.length + 1 ≤ STEM_SIZE then some (some stem) else none

/-- What `eval_patsubst` appends for a token. -/
def patsubstWord (pattern replacement tok : Name) : Name :=
  if pattern.contains 0x25 && replacement.contains 0x25 then
    let pre := pattern.takeWhile (· != 0x25)
    let suf := (pattern.dropWhile (· != 0x25)).drop 1
    if tok.length ≥ pre.length + suf.length ∧ tok.take pre.length = pre ∧
        tok.drop (tok.length - suf.length) = suf then
      let stem := (tok.drop pre.length).take (tok.length - pre.length - suf.length)
      replacement.takeWhile (· != 0x25) ++ stem ++ (replacement.dropWhile (· != 0x25)).drop 1
    else tok
  else if pattern = tok then replacement
  else tok

/-- The loop of `eval_patsubst`; `sb` is what it has appended so far. -/
def patsubstLoop (pattern replacement : Name) : Nat → List UInt8 → List UInt8 → List UInt8
  | 0, sb, _ => sb
  | fuel + 1, sb, ptr =>
    match nextToken ptr with
    | none => sb
    | some (tok, ptr) =>
      let sb := if sb.length > 0 then sb ++ [0x20] else sb
      patsubstLoop pattern replacement fuel (sb ++ patsubstWord pattern replacement tok) ptr

/-- `eval_patsubst`.  Every token takes a character at least. -/
def evalPatsubst (pattern replacement text : List UInt8) : List UInt8 :=
  patsubstLoop pattern replacement (text.length + 1) [] text

/-- What a word should become: the replacement with the stem for its first `%`, if the word
    has a stem. -/
def wordImage (pattern replacement w : Name) : Name :=
  (matchPattern pattern w).elim w (substStem replacement)

/-! ### The stem -/

/-- A pattern with one `%`, between `pre` and `suf`. -/
structure Percent (pattern pre suf : Name) : Prop where
  eq : pattern = pre ++ 0x25 :: suf
  pre_free : (0x25 : UInt8) ∉ pre
  suf_free : (0x25 : UInt8) ∉ suf

theorem split_percent {a : Name} (ha : (0x25 : UInt8) ∉ a) (b : Name) :
    (a ++ 0x25 :: b).takeWhile (· != 0x25) = a ∧
      ((a ++ 0x25 :: b).dropWhile (· != 0x25)).drop 1 = b := by
  have hall : ∀ c ∈ a, (c != 0x25) = true := by
    intro c hc
    simp only [bne_iff_ne, ne_eq]
    exact fun heq => ha (heq ▸ hc)
  rw [List.takeWhile_append_of_pos hall, List.dropWhile_append_of_pos hall]
  simp

theorem substStem_first {a : Name} (ha : (0x25 : UInt8) ∉ a) (b stem : Name) :
    substStem (a ++ 0x25 :: b) stem = a ++ stem ++ b := by
  obtain ⟨hpre, hsuf⟩ := split_percent ha b
  unfold substStem
  rw [if_pos (by simp), hpre, hsuf]

theorem substStem_plain {p : Name} (hp : (0x25 : UInt8) ∉ p) (stem : Name) :
    substStem p stem = p := by
  unfold substStem
  rw [if_neg (by simpa using hp)]

theorem sides_iff (pre suf w stem : Name) :
    (w.length ≥ pre.length + suf.length ∧ w.take pre.length = pre ∧
        w.drop (w.length - suf.length) = suf) ∧
      (w.drop pre.length).take (w.length - pre.length - suf.length) = stem ↔
    w = pre ++ stem ++ suf := by
  constructor
  · rintro ⟨⟨hlen, hpre, hsuf⟩, hstem⟩
    have hrest : w.drop pre.length =
        (w.drop pre.length).take (w.length - pre.length - suf.length) ++
          w.drop (w.length - suf.length) := by
      have hdrop : w.drop (w.length - suf.length) =
          (w.drop pre.length).drop (w.length - pre.length - suf.length) := by
        rw [List.drop_drop]
        congr 1
        omega
      rw [hdrop, List.take_append_drop]
    calc w = w.take pre.length ++ w.drop pre.length := (List.take_append_drop _ _).symm
      _ = pre ++ (stem ++ suf) := by rw [hpre, hrest, hstem, hsuf]
      _ = pre ++ stem ++ suf := (List.append_assoc _ _ _).symm
  · intro h
    rw [h]
    refine ⟨⟨?_, ?_, ?_⟩, ?_⟩
    · simp only [List.length_append]
      omega
    · simp [List.append_assoc]
    · have hlen : (pre ++ stem ++ suf).length - suf.length = (pre ++ stem).length := by
        simp only [List.length_append]
        omega
      rw [hlen, List.drop_left]
    · have hlen : (pre ++ stem ++ suf).length - pre.length - suf.length = stem.length := by
        simp only [List.length_append]
        omega
      rw [hlen, List.append_assoc, List.drop_left, List.take_left]

section

variable {pattern pre suf : Name} (h : Percent pattern pre suf)

include h

theorem Percent.contains : pattern.contains 0x25 = true := by
  rw [h.eq]
  simp

theorem matchPattern_iff (w stem : Name) :
    matchPattern pattern w = some stem ↔ w = pre ++ stem ++ suf := by
  obtain ⟨hpre, hsuf⟩ := split_percent h.pre_free suf
  rw [← h.eq] at hpre hsuf
  rw [← sides_iff]
  unfold matchPattern
  rw [h.contains, hpre, hsuf]
  by_cases hlen : w.length < pre.length + suf.length
  · rw [if_neg (by simp)]
    dsimp only
    rw [if_pos hlen]
    refine ⟨fun hn => absurd hn (by simp), fun hs => ?_⟩
    have := hs.1.1
    omega
  · by_cases hp : w.take pre.length = pre
    · by_cases hs : w.drop (w.length - suf.length) = suf
      · simp only [Bool.not_true, Bool.false_eq_true, if_false, if_neg hlen, hp, bne_self_eq_false,
          hs, Option.some.injEq]
        exact ⟨fun heq => ⟨⟨by omega, trivial, trivial⟩, heq⟩, fun heq => heq.2⟩
      · simp [hlen, hp, hs]
    · simp [hlen, hp]

theorem patsubstWord_of_percent {replacement : Name} (hr : (0x25 : UInt8) ∈ replacement) (w : Name) :
    patsubstWord pattern replacement w = wordImage pattern replacement w := by
  obtain ⟨hpre, hsuf⟩ := split_percent h.pre_free suf
  rw [← h.eq] at hpre hsuf
  have hcontains : replacement.contains 0x25 = true := by simpa using hr
  unfold patsubstWord wordImage
  rw [h.contains, hcontains, hpre, hsuf, if_pos (by rfl)]
  by_cases hmatch : w.length ≥ pre.length + suf.length ∧ w.take pre.length = pre ∧
      w.drop (w.length - suf.length) = suf
  · have hstem := (matchPattern_iff h w _).mpr ((sides_iff pre suf w _).mp ⟨hmatch, rfl⟩)
    rw [if_pos hmatch, hstem, Option.elim_some]
    unfold substStem
    rw [hcontains, if_pos rfl]
  · have hnone : matchPattern pattern w = none := by
      cases hm : matchPattern pattern w with
      | none => rfl
      | some stem =>
        exact absurd ((sides_iff pre suf w stem).mpr ((matchPattern_iff h w stem).mp hm)).1 hmatch
    rw [if_neg hmatch, hnone, Option.elim_none]

end

theorem patsubstWord_plain (pattern : Name) {replacement : Name}
    (hr : (0x25 : UInt8) ∉ replacement) (w : Name) :
    patsubstWord pattern replacement w = if w = pattern then replacement else w := by
  have hcontains : replacement.contains 0x25 = false := by simpa using hr
  unfold patsubstWord
  rw [hcontains, Bool.and_false, if_neg (by simp)]
  exact if_congr eq_comm rfl rfl

theorem wordImage_plain (pattern : Name) {replacement : Name}
    (hr : (0x25 : UInt8) ∉ replacement) (w : Name) :
    wordImage pattern replacement w =
      if (matchPattern pattern w).isSome then replacement else w := by
  unfold wordImage
  cases matchPattern pattern w with
  | none => rfl
  | some stem => exact substStem_plain hr stem

/-! ### The tokens -/

theorem nextToken_spec (p : List UInt8) :
    (nextToken p = none ∧ words isSpace p = []) ∨
      ∃ w q, nextToken p = some (w, q) ∧ IsWord isSpace w ∧ q.length < p.length ∧
        words isSpace p = w :: words isSpace q := by
  unfold nextToken
  have hwords : words isSpace (p.dropWhile isSpace) = words isSpace p := words_dropWhile p
  rw [← hwords]
  have hle : (p.dropWhile isSpace).length ≤ p.length := (List.dropWhile_sublist _).length_le
  cases hp : p.dropWhile isSpace with
  | nil => exact Or.inl ⟨rfl, words_nil⟩
  | cons c q =>
    have hc : isSpace c = false := by
      have hhead := List.head?_dropWhile_not isSpace p
      rw [hp] at hhead
      simpa using hhead
    obtain ⟨hword, heq⟩ := words_first hc q
    have hrest : ((c :: q).dropWhile (!isSpace ·)).length < (c :: q).length := by
      rw [List.dropWhile_cons_of_pos (by simp [hc])]
      exact Nat.lt_succ_of_le (List.dropWhile_sublist _).length_le
    rw [hp] at hle
    exact Or.inr ⟨_, _, rfl, hword, by omega, heq⟩

theorem isWord_of_mem {p w : List UInt8} (hw : w ∈ words isSpace p) : IsWord isSpace w := by
  induction hn : p.length using Nat.strong_induction_on generalizing p with
  | _ n ih =>
    rcases nextToken_spec p with ⟨_, hnil⟩ | ⟨v, q, _, hv, hlt, heq⟩
    · rw [hnil] at hw
      cases hw
    · rw [heq] at hw
      rcases List.mem_cons.mp hw with rfl | hw
      · exact hv
      · exact ih q.length (hn ▸ hlt) hw rfl

theorem patsubstLoop_eq (pattern replacement : Name) {fuel : Nat} {sb ptr : List UInt8}
    (hf : ptr.length < fuel) :
    patsubstLoop pattern replacement fuel sb ptr =
      joinLoose 0x20 sb ((words isSpace ptr).map (patsubstWord pattern replacement)) := by
  induction fuel generalizing sb ptr with
  | zero => omega
  | succ fuel ih =>
    rw [patsubstLoop]
    rcases nextToken_spec ptr with ⟨hnone, hnil⟩ | ⟨w, q, hsome, _, hlt, heq⟩
    · rw [hnone, hnil]
      rfl
    · rw [hsome, heq]
      dsimp only
      rw [ih (by omega)]
      rfl

theorem evalPatsubst_eq (pattern replacement text : List UInt8) :
    evalPatsubst pattern replacement text =
      joinLoose 0x20 [] ((words isSpace text).map (patsubstWord pattern replacement)) :=
  patsubstLoop_eq pattern replacement (Nat.lt_succ_self _)

/-! ### Where both do what they should -/

/-- What `match_pattern` should do: it succeeds when there is a stem, which it stores within
    the array, and the stem in the pattern gives the string back. -/
structure MatchOk (pattern pre suf str : Name) : Prop where
  inside : matchPatternBuf pattern str ≠ none
  succeeds : (∃ stem, matchPatternBuf pattern str = some (some stem)) ↔
    ∃ stem, str = pre ++ stem ++ suf
  stem : ∀ stem, matchPatternBuf pattern str = some (some stem) →
    str = pre ++ stem ++ suf ∧ substStem pattern stem = str

/-- A word has the stem of the pattern replaced, or it has no stem and stays. -/
def IsImage (pre suf replacement w v : Name) : Prop :=
  (∃ stem, w = pre ++ stem ++ suf ∧ v = substStem replacement stem) ∨
    (¬ (∃ stem, w = pre ++ stem ++ suf) ∧ v = w)

/-- What `eval_patsubst` should return: the images of the words, joined by single spaces. -/
def PatsubstOk (pre suf replacement text result : List UInt8) : Prop :=
  ∃ vs, List.Forall₂ (IsImage pre suf replacement) (words isSpace text) vs ∧
    result = List.intercalate [0x20] vs

section

variable {pattern pre suf : Name} (h : Percent pattern pre suf)

include h

theorem isImage_iff (replacement w v : Name) :
    IsImage pre suf replacement w v ↔ v = wordImage pattern replacement w := by
  unfold IsImage wordImage
  cases hm : matchPattern pattern w with
  | none =>
    have hno : ¬ ∃ stem, w = pre ++ stem ++ suf := by
      rintro ⟨stem, hs⟩
      have := (matchPattern_iff h w stem).mpr hs
      rw [hm] at this
      cases this
    constructor
    · rintro (⟨stem, hs, _⟩ | ⟨_, hv⟩)
      · exact absurd ⟨stem, hs⟩ hno
      · exact hv
    · exact fun hv => Or.inr ⟨hno, hv⟩
  | some stem =>
    have hs := (matchPattern_iff h w stem).mp hm
    constructor
    · rintro (⟨stem', hs', hv⟩ | ⟨hno, _⟩)
      · have hm' := (matchPattern_iff h w stem').mpr hs'
        obtain rfl := Option.some.inj (hm.symm.trans hm')
        exact hv
      · exact absurd ⟨stem, hs⟩ hno
    · exact fun hv => Or.inl ⟨stem, hs, hv⟩

theorem patsubstOk_iff (replacement text result : List UInt8) :
    PatsubstOk pre suf replacement text result ↔
      result = List.intercalate [0x20] ((words isSpace text).map (wordImage pattern replacement)) := by
  have hmap : ∀ ws vs, List.Forall₂ (IsImage pre suf replacement) ws vs ↔
      vs = ws.map (wordImage pattern replacement) := by
    intro ws
    induction ws with
    | nil =>
      intro vs
      rw [List.forall₂_nil_left_iff, List.map_nil]
    | cons w ws ih =>
      intro vs
      rw [List.forall₂_cons_left_iff, List.map_cons]
      constructor
      · rintro ⟨v, vs', hv, hvs, rfl⟩
        rw [(isImage_iff h _ _ _).mp hv, (ih vs').mp hvs]
      · exact fun heq => ⟨_, _, (isImage_iff h _ _ _).mpr rfl, (ih _).mpr rfl, heq⟩
  constructor
  · rintro ⟨vs, hvs, rfl⟩
    rw [(hmap _ vs).mp hvs]
  · exact fun heq => ⟨_, (hmap _ _).mpr rfl, heq⟩

theorem matchOk_iff (str : Name) :
    MatchOk pattern pre suf str ↔ ∀ stem, str = pre ++ stem ++ suf → stem.length ≤ 255 := by
  constructor
  · intro hok stem hs
    have hin := hok.inside
    unfold matchPatternBuf at hin
    rw [(matchPattern_iff h str stem).mpr hs] at hin
    dsimp only at hin
    by_contra hlong
    rw [if_neg (by unfold STEM_SIZE; omega)] at hin
    exact hin rfl
  · intro hfits
    have hbuf : matchPatternBuf pattern str = some (matchPattern pattern str) := by
      unfold matchPatternBuf
      cases hm : matchPattern pattern str with
      | none => rfl
      | some stem =>
        have hlen := hfits stem ((matchPattern_iff h str stem).mp hm)
        dsimp only
        rw [if_pos (by unfold STEM_SIZE; omega)]
    refine ⟨by simp [hbuf], ?_, fun stem hs => ?_⟩
    · rw [hbuf]
      exact exists_congr fun stem => Option.some_inj.trans (matchPattern_iff h str stem)
    · have hm : matchPattern pattern str = some stem := Option.some.inj (hbuf.symm.trans hs)
      have hstem := (matchPattern_iff h str stem).mp hm
      refine ⟨hstem, ?_⟩
      rw [h.eq, substStem_first h.pre_free, hstem]

theorem matchPattern_self : (matchPattern pattern pattern).isSome = true := by
  have hself : pattern = pre ++ [0x25] ++ suf := by
    rw [List.append_assoc]
    exact h.eq
  rw [(matchPattern_iff h pattern _).mpr hself]
  rfl

theorem isSome_iff (w : Name) :
    (matchPattern pattern w).isSome = true ↔ ∃ stem, w = pre ++ stem ++ suf := by
  rw [Option.isSome_iff_exists]
  exact exists_congr fun stem => matchPattern_iff h w stem

end

theorem substStem_eq_nil (p stem : Name) :
    substStem p stem = [] ↔ p = [] ∨ (p = [0x25] ∧ stem = []) := by
  by_cases hp : (0x25 : UInt8) ∈ p
  · obtain ⟨a, b, rfl, ha⟩ := List.eq_append_cons_of_mem hp
    rw [substStem_first ha]
    constructor
    · intro hnil
      simp only [List.append_eq_nil_iff] at hnil
      obtain ⟨⟨rfl, rfl⟩, rfl⟩ := hnil
      exact Or.inr ⟨rfl, rfl⟩
    · rintro (hnil | ⟨hone, rfl⟩)
      · simp at hnil
      · cases a with
        | nil =>
          obtain rfl : b = [] := by simpa using hone
          rfl
        | cons c a => simp at hone
  · rw [substStem_plain hp]
    refine ⟨Or.inl, ?_⟩
    rintro (rfl | ⟨rfl, _⟩)
    · rfl
    · simp at hp

/-- The first word becomes nothing: it has a stem, and the replacement has no text for it. -/
def FirstVanishes (pre suf replacement text : List UInt8) : Prop :=
  ∃ stem, (words isSpace text).head? = some (pre ++ stem ++ suf) ∧
    (replacement = [] ∨ (replacement = [0x25] ∧ stem = []))

section

variable {pattern pre suf : Name} (h : Percent pattern pre suf)

include h

theorem firstVanishes_iff (replacement text : List UInt8) :
    FirstVanishes pre suf replacement text ↔
      ((words isSpace text).map (wordImage pattern replacement)).head? = some [] := by
  unfold FirstVanishes
  rw [List.head?_map, Option.map_eq_some_iff]
  constructor
  · rintro ⟨stem, hhead, hnil⟩
    refine ⟨_, hhead, ?_⟩
    unfold wordImage
    rw [(matchPattern_iff h _ stem).mpr rfl]
    exact (substStem_eq_nil _ _).mpr hnil
  · rintro ⟨w, hhead, hnil⟩
    have hw : IsWord isSpace w := isWord_of_mem (List.mem_of_mem_head? hhead)
    unfold wordImage at hnil
    cases hm : matchPattern pattern w with
    | none =>
      rw [hm] at hnil
      exact absurd hnil hw.ne_nil
    | some stem =>
      rw [hm] at hnil
      rw [(matchPattern_iff h w stem).mp hm] at hhead
      exact ⟨stem, hhead, (substStem_eq_nil _ _).mp hnil⟩

theorem patsubst_of_images {replacement text : List UInt8}
    (himg : ∀ w ∈ words isSpace text,
      patsubstWord pattern replacement w = wordImage pattern replacement w) :
    PatsubstOk pre suf replacement text (evalPatsubst pattern replacement text) ↔
      (words isSpace text).length ≤ 1 ∨ ¬ FirstVanishes pre suf replacement text := by
  rw [patsubstOk_iff h, evalPatsubst_eq, List.map_congr_left himg, joinLoose_eq_iff,
    List.length_map, firstVanishes_iff h]

/-- `eval_patsubst` is right when the replacement has a `%`, or every word with a stem is the
    pattern or stays; and no empty first image comes before others. -/
theorem patsubst_exact (replacement text : List UInt8) :
    PatsubstOk pre suf replacement text (evalPatsubst pattern replacement text) ↔
      (0x25 ∈ replacement ∨ ∀ stem, pre ++ stem ++ suf ∈ words isSpace text →
        pre ++ stem ++ suf = pattern ∨ pre ++ stem ++ suf = replacement) ∧
      ((words isSpace text).length ≤ 1 ∨ ¬ FirstVanishes pre suf replacement text) := by
  by_cases hr : (0x25 : UInt8) ∈ replacement
  · rw [patsubst_of_images h fun w _ => patsubstWord_of_percent h hr w]
    exact (and_iff_right (Or.inl hr)).symm
  · -- `eval_patsubst` replaces the pattern alone
    have himg : (∀ stem, pre ++ stem ++ suf ∈ words isSpace text →
        pre ++ stem ++ suf = pattern ∨ pre ++ stem ++ suf = replacement) →
        ∀ w ∈ words isSpace text,
          patsubstWord pattern replacement w = wordImage pattern replacement w := by
      intro hwords w hw
      rw [patsubstWord_plain pattern hr, wordImage_plain pattern hr]
      by_cases hstem : ∃ stem, w = pre ++ stem ++ suf
      · rw [if_pos ((isSome_iff h w).mpr hstem)]
        obtain ⟨stem, rfl⟩ := hstem
        rcases hwords stem hw with heq | heq
        · rw [if_pos heq]
        · rw [heq, ite_self]
      · have hne : w ≠ pattern := by
          intro heq
          rw [heq] at hstem
          exact hstem ((isSome_iff h pattern).mp (matchPattern_self h))
        rw [if_neg hne, if_neg fun hs => hstem ((isSome_iff h w).mp hs)]
    constructor
    · intro hok
      have hjoin := (patsubstOk_iff h _ _ _).mp hok
      rw [evalPatsubst_eq, funext (patsubstWord_plain pattern hr),
        funext (wordImage_plain pattern hr)] at hjoin
      have hreplaced := replaced_of_join_eq (by decide) replacement (fun _ => isWord_of_mem)
        (· = pattern) (fun w => (matchPattern pattern w).isSome = true)
        (fun w hw => by rw [hw, matchPattern_self h]) hjoin
      have hwords : ∀ stem, pre ++ stem ++ suf ∈ words isSpace text →
          pre ++ stem ++ suf = pattern ∨ pre ++ stem ++ suf = replacement :=
        fun stem hw => hreplaced _ hw ((isSome_iff h _).mpr ⟨stem, rfl⟩)
      exact ⟨Or.inr hwords, (patsubst_of_images h (himg hwords)).mp hok⟩
    · rintro ⟨hreplaced | hwords, hfirst⟩
      · exact absurd hreplaced hr
      · exact (patsubst_of_images h (himg hwords)).mpr hfirst

end

/-- `match_pattern` is right exactly when the stem fits, and `eval_patsubst` exactly when it
    replaces every word with a stem and the first image is not an empty one before others. -/
theorem pattern_exact {pattern pre suf : Name} (h : Percent pattern pre suf) :
    (∀ str, MatchOk pattern pre suf str ↔ ∀ stem, str = pre ++ stem ++ suf → stem.length ≤ 255) ∧
      ∀ replacement text,
        PatsubstOk pre suf replacement text (evalPatsubst pattern replacement text) ↔
          (0x25 ∈ replacement ∨ ∀ stem, pre ++ stem ++ suf ∈ words isSpace text →
            pre ++ stem ++ suf = pattern ∨ pre ++ stem ++ suf = replacement) ∧
          ((words isSpace text).length ≤ 1 ∨ ¬ FirstVanishes pre suf replacement text) :=
  ⟨matchOk_iff h, patsubst_exact h⟩

theorem percent_sample : Percent [0x25, 0x2E, 0x63] [] [0x2E, 0x63] := by
  constructor <;> decide

theorem pattern_exact_sample :
    MatchOk [0x25, 0x2E, 0x63] [] [0x2E, 0x63] [0x61, 0x2E, 0x63] ∧
      PatsubstOk [] [0x2E, 0x63] [0x25, 0x2E, 0x6F] [0x61, 0x2E, 0x63, 0x20, 0x62]
        (evalPatsubst [0x25, 0x2E, 0x63] [0x25, 0x2E, 0x6F] [0x61, 0x2E, 0x63, 0x20, 0x62]) := by
  obtain ⟨hmatch, hsubst⟩ := pattern_exact percent_sample
  refine ⟨(hmatch _).mpr fun stem hs => ?_, (hsubst _ _).mpr ⟨Or.inl (by decide), Or.inr ?_⟩⟩
  · have hlen := congrArg List.length hs
    simp only [List.length_append, List.length_cons, List.length_nil] at hlen
    omega
  · rintro ⟨stem, -, hnil | ⟨hone, -⟩⟩
    · cases hnil
    · simp at hone

/-- `$(patsubst %.c,x,a.c)` leaves `a.c`, and a stem of 256 bytes does not fit. -/
theorem pattern_plain_overrun :
    ¬ PatsubstOk [] [0x2E, 0x63] [0x78] [0x61, 0x2E, 0x63]
        (evalPatsubst [0x25, 0x2E, 0x63] [0x78] [0x61, 0x2E, 0x63]) ∧
      ¬ MatchOk [0x25, 0x2E, 0x63] [] [0x2E, 0x63] (List.replicate 256 0x61 ++ [0x2E, 0x63]) := by
  constructor
  · rw [patsubstOk_iff percent_sample]
    decide +kernel
  · intro hok
    have hlen := (matchOk_iff percent_sample _).mp hok (List.replicate 256 0x61) rfl
    rw [List.length_replicate] at hlen
    omega

end Gemios.Make
