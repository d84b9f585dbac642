import Gemios.FatLfnSpec
import Mathlib.Data.List.TakeWhile

/-!
# Short names read back

The 8.3 field a new entry gets, as `format_fat_name` reads it: the alias of a long name
starts with a letter, a digit, `_` or `-`, and a name that needs no long-name slots is
read back as it is, unless it ends in a dot.
-/

namespace Gemios

/-! ### Padding -/

theorem length_padTo (n : Nat) (l : List UInt8) : (padTo n l).length = n := by
  rw [padTo, List.length_take, List.length_append, List.length_replicate]
  omega

theorem padTo_eq {n : Nat} {l : List UInt8} (h : l.length ≤ n) :
    padTo n l = l ++ List.replicate (n - l.length) 0x20 := by
  rw [padTo, List.take_append, List.take_of_length_le h, List.take_replicate]
  congr 2
  omega

theorem takeWhile_padTo {n : Nat} {l : List UInt8} (h : l.length ≤ n)
    (hl : ∀ c ∈ l, c ≠ 0x20) : (padTo n l).takeWhile (· != 0x20) = l := by
  rw [padTo_eq h, List.takeWhile_append_of_pos (by simpa using hl)]
  cases n - l.length with
  | zero => simp
  | succ k => simp [List.replicate_succ]

theorem getD_padTo_zero {n : Nat} {c : UInt8} {l : List UInt8} (hn : 0 < n) :
    (padTo n (c :: l)).getD 0 0 = c := by
  obtain ⟨m, rfl⟩ : ∃ m, n = m + 1 := ⟨n - 1, by omega⟩
  rw [padTo, List.cons_append, List.take_succ_cons, List.getD_cons_zero]

/-! ### Aliases -/

theorem isAliasChar_ok {c : UInt8} (h : isAliasChar c = true) : c ≠ 0x00 ∧ c ≠ 0xE5 := by
  constructor
  · rintro rfl
    exact absurd h (by decide)
  · rintro rfl
    exact absurd h (by decide)

theorem shortOk_alias (name : List UInt8) (tailNum : Nat) :
    ShortOk (fatGenerateShortAlias name tailNum) := by
  unfold fatGenerateShortAlias
  dsimp only
  generalize hkept : aliasChars 8 _ = kept
  have hchars : ∀ c ∈ kept, isAliasChar c = true := by
    intro c hc
    rw [← hkept, aliasChars] at hc
    exact (List.mem_filter.mp (List.mem_of_mem_take hc)).2
  obtain ⟨c, base, hbase, hc⟩ : ∃ c base, (if kept = [] then [0x46, 0x49, 0x4C, 0x45] else kept) =
      c :: base ∧ isAliasChar c = true := by
    cases kept with
    | nil => exact ⟨_, _, rfl, by decide⟩
    | cons c kept => exact ⟨c, kept, if_neg (by simp), hchars c (by simp)⟩
  have htail : ((aliasTailStr tailNum).take 7).length ≤ 7 := List.length_take_le _ _
  obtain ⟨m, hm⟩ : ∃ m, 8 - ((aliasTailStr tailNum).take 7).length = m + 1 :=
    ⟨7 - ((aliasTailStr tailNum).take 7).length, by omega⟩
  rw [hbase, hm, List.take_succ_cons, List.cons_append]
  have hhead : ∀ ext, (padTo 8 (c :: (base.take m ++ (aliasTailStr tailNum).take 7)) ++
      padTo 3 ext).getD 0 0 = c := by
    intro ext
    rw [List.getD_append _ _ _ _ (by rw [length_padTo]; omega), getD_padTo_zero (by omega)]
  refine ⟨?_, ?_, ?_⟩
  · rw [List.length_append, length_padTo, length_padTo]
  · rw [hhead]
    exact (isAliasChar_ok hc).1
  · rw [hhead]
    exact (isAliasChar_ok hc).2

theorem shortOk_chooseAlias (env : Env) (fs : FatFs) (d : Disk) (dir : FatDir) (name : List UInt8) :
    ShortOk (chooseAlias env fs d dir name) := shortOk_alias name _

/-! ### Names without long-name slots -/

/-- A byte that stands for itself in an 8.3 field. -/
def Plain (c : UInt8) : Prop := toUpperChar c = c ∧ c ≠ 0x20

theorem plain_of_guards {c : UInt8} (h1 : ¬ (97 ≤ c ∧ c ≤ 122)) (h2 : ¬ isLfnOnly c = true) :
    Plain c := by
  refine ⟨if_neg h1, ?_⟩
  rintro rfl
  exact h2 (by decide)

theorem needsLfnScan_some {l : List UInt8} {i k : Nat} {r : Option Nat}
    (h : needsLfnScan l i (some k) = some r) :
    r = some k ∧ (∀ c ∈ l, Plain c) ∧ (0x2E : UInt8) ∉ l := by
  induction l generalizing i with
  | nil =>
    cases h
    exact ⟨rfl, by simp, by simp⟩
  | cons c l ih =>
    rw [needsLfnScan] at h
    split at h
    · cases h
    · next h1 =>
      split at h
      · cases h
      · next h2 =>
        split at h
        · cases h
        · next h3 =>
          obtain ⟨hr, hplain, hdot⟩ := ih h
          refine ⟨hr, fun x hx => ?_, ?_⟩
          · rcases List.mem_cons.mp hx with rfl | hx
            · exact plain_of_guards h1 h2
            · exact hplain x hx
          · rw [List.mem_cons, not_or]
            exact ⟨fun heq => h3 heq.symm, hdot⟩

theorem needsLfnScan_none {l : List UInt8} {i : Nat} {r : Option Nat}
    (h : needsLfnScan l i none = some r) : (∀ c ∈ l, Plain c) ∧
      ((r = none ∧ (0x2E : UInt8) ∉ l) ∨ ∃ base ext, l = base ++ 0x2E :: ext ∧
        r = some (i + base.length) ∧ (0x2E : UInt8) ∉ base ∧ (0x2E : UInt8) ∉ ext) := by
  induction l generalizing i with
  | nil =>
    cases h
    exact ⟨by simp, Or.inl ⟨rfl, by simp⟩⟩
  | cons c l ih =>
    rw [needsLfnScan] at h
    split at h
    · cases h
    · next h1 =>
      split at h
      · cases h
      · next h2 =>
        have hc := plain_of_guards h1 h2
        split at h
        · next h3 =>
          rw [if_neg (by simp)] at h
          obtain ⟨hr, hplain, hdot⟩ := needsLfnScan_some h
          refine ⟨fun x hx => ?_, Or.inr ⟨[], l, by rw [h3]; rfl, hr, by simp, hdot⟩⟩
          rcases List.mem_cons.mp hx with rfl | hx
          · exact hc
          · exact hplain x hx
        · next h3 =>
          obtain ⟨hplain, hr⟩ := ih h
          refine ⟨fun x hx => ?_, ?_⟩
          · rcases List.mem_cons.mp hx with rfl | hx
            · exact hc
            · exact hplain x hx
          · rcases hr with ⟨hr, hdot⟩ | ⟨base, ext, rfl, hr, hb, hx⟩
            · refine Or.inl ⟨hr, ?_⟩
              rw [List.mem_cons, not_or]
              exact ⟨fun heq => h3 heq.symm, hdot⟩
            · refine Or.inr ⟨c :: base, ext, rfl, ?_, ?_, hx⟩
              · rw [hr, List.length_cons]
                congr 1
                omega
              · rw [List.mem_cons, not_or]
                exact ⟨fun heq => h3 heq.symm, hb⟩

/-- A name in 8.3 form: its base and its extension. -/
structure Plain83 (name base ext : List UInt8) : Prop where
  eq : (name = base ∧ ext = []) ∨ name = base ++ 0x2E :: ext
  base_ne : base ≠ []
  base_len : base.length ≤ 8
  ext_len : ext.length ≤ 3
  plain : ∀ c ∈ base ++ ext, Plain c
  base_dot : (0x2E : UInt8) ∉ base
  slash : ∀ c ∈ base ++ ext, isSlash c = false

theorem plain83_of_not_lfn {name : List UInt8} (hlfn : fatNeedsLfn name = false) (hne : name ≠ [])
    (hdots : name ≠ [0x2E] ∧ name ≠ [0x2E, 0x2E]) (hslash : ∀ c ∈ name, isSlash c = false) :
    ∃ base ext, Plain83 name base ext := by
  unfold fatNeedsLfn at hlfn
  split at hlfn
  · cases hlfn
  · split at hlfn
    · next h => exact absurd h (not_or.mpr hdots)
    · split at hlfn
      · cases hlfn
      · next hscan =>
        obtain ⟨hplain, ⟨_, hdot⟩ | ⟨base, ext, _, hr, _⟩⟩ := needsLfnScan_none hscan
        · exact ⟨name, [], Or.inl ⟨rfl, rfl⟩, hne, by simpa using hlfn, by simp, by simpa using hplain,
            hdot, by simpa using hslash⟩
        · cases hr
      · next k hscan =>
        obtain ⟨hplain, ⟨hr, _⟩ | ⟨base, ext, rfl, hr, hb, hx⟩⟩ := needsLfnScan_none hscan
        · cases hr
        · rw [Nat.zero_add, Option.some.injEq] at hr
          subst hr
          simp only [decide_eq_false_iff_not, not_or, List.length_append, List.length_cons] at hlfn
          refine ⟨base, ext, Or.inr rfl, ?_, by omega, by omega, fun c hc => hplain c ?_, hb,
            fun c hc => hslash c ?_⟩
          · rintro rfl
            exact hlfn.2.2 rfl
          · rcases List.mem_append.mp hc with h | h <;> simp [h]
          · rcases List.mem_append.mp hc with h | h <;> simp [h]

theorem map_toUpperChar {l : List UInt8} (h : ∀ c ∈ l, Plain c) : l.map toUpperChar = l := by
  rw [List.map_congr_left fun c hc => (h c hc).1, List.map_id'']
  exact fun _ => rfl

theorem Plain83.toFat83Name {name base ext : List UInt8} (h : Plain83 name base ext)
    (hdots : name ≠ [0x2E] ∧ name ≠ [0x2E, 0x2E]) :
    toFat83Name name = padTo 8 base ++ padTo 3 ext := by
  have hbase : ∀ c ∈ base, (c != 0x2E && !isSlash c) = true := by
    intro c hc
    rw [h.slash c (by simp [hc])]
    simpa using fun heq : c = 0x2E => h.base_dot (heq ▸ hc)
  have hext : ext.takeWhile (!isSlash ·) = ext := by
    rw [List.takeWhile_eq_self_iff]
    intro c hc
    rw [h.slash c (by simp [hc])]
    rfl
  have hup : base.map toUpperChar = base := map_toUpperChar fun c hc => h.plain c (by simp [hc])
  have hupx : ext.map toUpperChar = ext := map_toUpperChar fun c hc => h.plain c (by simp [hc])
  rw [Gemios.toFat83Name, if_neg hdots.1, if_neg hdots.2]
  rcases h.eq with ⟨rfl, rfl⟩ | rfl
  · have htake : name.takeWhile (fun c => c != 0x2E && !isSlash c) = name :=
      List.takeWhile_eq_self_iff.mpr hbase
    have hdrop : name.dropWhile (fun c => c != 0x2E && !isSlash c) = [] :=
      List.dropWhile_eq_nil_iff.mpr hbase
    simp only [htake, hdrop, List.take_of_length_le h.base_len, hup, List.takeWhile_nil,
      List.take_nil, List.map_nil]
  · have htake : (base ++ 0x2E :: ext).takeWhile (fun c => c != 0x2E && !isSlash c) = base := by
      rw [List.takeWhile_append_of_pos hbase]
      simp
    have hdrop : (base ++ 0x2E :: ext).dropWhile (fun c => c != 0x2E && !isSlash c) =
        0x2E :: ext := by
      rw [List.dropWhile_append_of_pos hbase]
      simp
    simp only [htake, hdrop, List.take_of_length_le h.base_len, hup, hext,
      List.take_of_length_le h.ext_len, hupx]

theorem Slot.name_base (e : Slot) : (List.range' 0 8).map e = e.name.take 8 := rfl

theorem Slot.name_ext (e : Slot) : (List.range' 8 3).map e = e.name.drop 8 := rfl

theorem Plain83.formatFatName {name base ext : List UInt8} (h : Plain83 name base ext) {e : Slot}
    (he : e.name = padTo 8 base ++ padTo 3 ext) :
    formatFatName e = if ext = [] then base else base ++ 0x2E :: ext := by
  have hbase : ((List.range' 0 8).map e).takeWhile (· != 0x20) = base := by
    rw [e.name_base, he, List.take_append_of_le_length (by rw [length_padTo]),
      List.take_of_length_le (by rw [length_padTo])]
    exact takeWhile_padTo h.base_len fun c hc => (h.plain c (by simp [hc])).2
  have hextName : (List.range' 8 3).map e = padTo 3 ext := by
    rw [e.name_ext, he, List.drop_append_of_le_length (by rw [length_padTo]),
      List.drop_of_length_le (by rw [length_padTo]), List.nil_append]
  have hext : ((List.range' 8 3).map e).takeWhile (· != 0x20) = ext := by
    rw [hextName]
    exact takeWhile_padTo h.ext_len fun c hc => (h.plain c (by simp [hc])).2
  -- the first byte is no dot
  have h0 : e 0 ≠ 0x2E := by
    obtain ⟨c, l, hcl⟩ := List.exists_cons_of_ne_nil h.base_ne
    have he0 : e 0 = c := by
      have := congrArg (fun l => l.getD 0 0) he
      rw [hcl, List.getD_append _ _ _ _ (by rw [length_padTo]; omega), getD_padTo_zero (by omega)] at this
      exact this
    rw [he0]
    rintro rfl
    exact h.base_dot (by rw [hcl]; simp)
  have h8 : e 8 = 0x20 ↔ ext = [] := by
    have he8 : e 8 = (padTo 3 ext).getD 0 0 := by rw [← hextName]; rfl
    rw [he8]
    constructor
    · intro heq
      cases ext with
      | nil => rfl
      | cons c l =>
        rw [getD_padTo_zero (by omega)] at heq
        exact absurd heq (h.plain c (by simp)).2
    · rintro rfl
      rfl
  rw [Gemios.formatFatName, if_neg (fun hd => h0 hd.1), if_neg (fun hd => h0 hd.1)]
  dsimp only
  rw [hbase, hext]
  by_cases hx : ext = []
  · rw [if_neg (not_not.mpr (h8.mpr hx)), if_pos hx]
  · rw [if_pos (fun heq => hx (h8.mp heq)), if_neg hx]

theorem cstr_of_not_mem {l : List UInt8} (h0 : (0 : UInt8) ∉ l) : cstr l = l :=
  List.takeWhile_eq_self_iff.mpr fun _ hc => bne_iff_ne.mpr fun heq => h0 (heq ▸ hc)

theorem toFat83Name_head {name : List UInt8} (hne : name ≠ [])
    (hslash : ∀ c ∈ name, isSlash c = false) (hlfn : fatNeedsLfn name = false) :
    (toFat83Name name).length = 11 ∧ name.head? = some ((toFat83Name name).getD 0 0) := by
  by_cases hdot : name = [0x2E]
  · subst hdot
    exact ⟨rfl, rfl⟩
  · by_cases hdots : name = [0x2E, 0x2E]
    · subst hdots
      exact ⟨rfl, rfl⟩
    · obtain ⟨base, ext, hp⟩ := plain83_of_not_lfn hlfn hne ⟨hdot, hdots⟩ hslash
      rw [hp.toFat83Name ⟨hdot, hdots⟩]
      obtain ⟨c, l, hcl⟩ := List.exists_cons_of_ne_nil hp.base_ne
      have hhead : (padTo 8 base ++ padTo 3 ext).getD 0 0 = c := by
        rw [List.getD_append _ _ _ _ (by rw [length_padTo]; omega), hcl, getD_padTo_zero (by omega)]
      refine ⟨by rw [List.length_append, length_padTo, length_padTo], ?_⟩
      rw [hhead]
      rcases hp.eq with ⟨hname, _⟩ | hname <;> rw [hname, hcl] <;> rfl

/-! ### Names that are found again -/

/-- A name whose entry is found again: a long one within the parser's bound, a short
    one that does not start like a deleted slot and does not end in a dot. -/
def NameOk (name : List UInt8) : Prop :=
  if fatNeedsLfn name then name.length ≤ 247
  else name.head? ≠ some 0xE5 ∧
    (name.getLast? ≠ some 0x2E ∨ name = [0x2E] ∨ name = [0x2E, 0x2E])

section

variable {name : List UInt8} (hok : NameOk name) (hne : name ≠ []) (h0 : (0 : UInt8) ∉ name)
  (hslash : ∀ c ∈ name, isSlash c = false)

include hok hne h0 hslash

theorem format_toFat83Name (hlfn : fatNeedsLfn name = false) {e : Slot}
    (he : e.name = toFat83Name name) : cstr (formatFatName e) = name := by
  by_cases hdot : name = [0x2E]
  · subst hdot
    have h1 : e 0 = 0x2E := congrArg (fun l : List UInt8 => l.getD 0 0) he
    have h2 : e 1 = 0x20 := congrArg (fun l : List UInt8 => l.getD 1 0) he
    rw [formatFatName, if_pos ⟨h1, h2⟩]
    rfl
  · by_cases hdots : name = [0x2E, 0x2E]
    · subst hdots
      have h1 : e 0 = 0x2E := congrArg (fun l : List UInt8 => l.getD 0 0) he
      have h2 : e 1 = 0x2E := congrArg (fun l : List UInt8 => l.getD 1 0) he
      have h3 : e 2 = 0x20 := congrArg (fun l : List UInt8 => l.getD 2 0) he
      rw [formatFatName, if_neg (fun h => by rw [h2] at h; exact absurd h.2 (by decide)),
        if_pos ⟨h1, h2, h3⟩]
      rfl
    · obtain ⟨base, ext, hp⟩ := plain83_of_not_lfn hlfn hne ⟨hdot, hdots⟩ hslash
      rw [hp.toFat83Name ⟨hdot, hdots⟩] at he
      have hformat : formatFatName e = name := by
        rw [hp.formatFatName he]
        rcases hp.eq with ⟨hname, hx⟩ | hname
        · rw [if_pos hx, hname]
        · rw [hname, if_neg]
          rintro rfl
          rw [NameOk, hlfn, if_neg Bool.false_ne_true] at hok
          exact (hok.2.resolve_right (not_or.mpr ⟨hdot, hdots⟩)) (by rw [hname]; simp)
      rw [hformat]
      exact cstr_of_not_mem h0

theorem shortOk_toFat83Name (hlfn : fatNeedsLfn name = false) : ShortOk (toFat83Name name) := by
  obtain ⟨hlen, hhead⟩ := toFat83Name_head hne hslash hlfn
  rw [NameOk, hlfn, if_neg Bool.false_ne_true] at hok
  refine ⟨hlen, fun heq => ?_, fun heq => ?_⟩
  · rw [heq] at hhead
    exact h0 (List.mem_of_mem_head? hhead)
  · rw [heq] at hhead
    exact hok.1 hhead

theorem shortOk_chooseShortName (env : Env) (fs : FatFs) (d : Disk) (dir : FatDir) :
    ShortOk (chooseShortName env fs d dir name) := by
  unfold chooseShortName
  split
  · exact shortOk_chooseAlias env fs d dir name
  · next h =>
    refine shortOk_toFat83Name hok hne h0 hslash ?_
    by_contra hlfn
    rw [Bool.not_eq_false] at hlfn
    have : 0 < name.length := List.length_pos_iff.mpr hne
    rw [numLfnSlots, if_pos hlfn] at h
    omega

/-- **The entry of a name matches the name.** -/
theorem entryMatches_name (env : Env) (fs : FatFs) (d : Disk) (dir : FatDir) (attr : UInt8)
    (c size start : Nat) (p : LfnParser) :
    entryMatches (nameParser name (chooseShortName env fs d dir name)
      (newEntry attr c size (chooseShortName env fs d dir name)) start p)
      (newEntry attr c size (chooseShortName env fs d dir name)) name = true := by
  unfold entryMatches
  cases hlfn : fatNeedsLfn name with
  | true =>
    have hnum : numLfnSlots name ≠ 0 := by
      have : 0 < name.length := List.length_pos_iff.mpr hne
      rw [numLfnSlots, if_pos hlfn]
      omega
    rw [NameOk, hlfn, if_pos rfl] at hok
    rw [nameParser, if_neg hnum, lfnState_named, lfnState_str h0, List.take_of_length_le hok,
      fatNameEquals_self]
    rfl
  | false =>
    have hnum : numLfnSlots name = 0 := by
      rw [numLfnSlots, hlfn]
      rfl
    have hshort : chooseShortName env fs d dir name = toFat83Name name := by
      rw [chooseShortName, hnum]
      rfl
    have hlen := (shortOk_toFat83Name hok hne h0 hslash hlfn).length
    have hformat : cstr (formatFatName (newEntry attr c size (toFat83Name name))) = name :=
      format_toFat83Name hok hne h0 hslash hlfn (Slot.withName_name _ hlen)
    rw [hshort, hformat, fatNameEquals_self, Bool.or_true]

end

/-! ### The round trip of a short name -/

structure ShortName (name : List UInt8) : Prop where
  ne : name ≠ []
  noNul : (0 : UInt8) ∉ name
  noSlash : ∀ c ∈ name, isSlash c = false
  notDot : name ≠ [0x2E]
  notDots : name ≠ [0x2E, 0x2E]
  fits : fatNeedsLfn name = false

/-- The 8.3 field of a name, as an entry holds it. -/
def shortField (name : List UInt8) : Slot := Slot.withName (fun _ => 0) (toFat83Name name)

/-- The 8.3 field of a name reads as the name, and not as a free slot. -/
structure ReadsBack (name : List UInt8) : Prop where
  same : fatNameEquals (cstr (formatFatName (shortField name))) name = true
  notEnd : (toFat83Name name).getD 0 0 ≠ 0x00
  notDeleted : (toFat83Name name).getD 0 0 ≠ 0xE5

/-- The first byte is not the mark of a deleted slot, and the last one is no dot. -/
def Readable (name : List UInt8) : Prop := name.head? ≠ some 0xE5 ∧ name.getLast? ≠ some 0x2E

section

variable {name : List UInt8} (h : ShortName name)

include h

theorem ShortName.plain83 : ∃ base ext, Plain83 name base ext :=
  plain83_of_not_lfn h.fits h.ne ⟨h.notDot, h.notDots⟩ h.noSlash

theorem ShortName.nameOk (hr : Readable name) : NameOk name := by
  rw [NameOk, h.fits, if_neg Bool.false_ne_true]
  exact ⟨hr.1, Or.inl hr.2⟩

theorem ShortName.shortField_name : (shortField name).name = toFat83Name name :=
  Slot.withName_name _ (toFat83Name_head h.ne h.noSlash h.fits).1

theorem ShortName.format (hr : Readable name) {e : Slot} (he : e.name = toFat83Name name) :
    cstr (formatFatName e) = name :=
  format_toFat83Name (h.nameOk hr) h.ne h.noNul h.noSlash h.fits he

theorem ShortName.readsBack (hr : Readable name) : ReadsBack name := by
  have hshort := shortOk_toFat83Name (h.nameOk hr) h.ne h.noNul h.noSlash h.fits
  constructor
  · rw [h.format hr h.shortField_name]
    exact fatNameEquals_self name
  · exact hshort.notEnd
  · exact hshort.notDeleted

theorem ShortName.dot_last (hdot : name.getLast? = some 0x2E) :
    ∃ base, name = base ++ [0x2E] ∧ (0x2E : UInt8) ∉ base := by
  have hscan : ∃ r, needsLfnScan name 0 none = some r := by
    have hfits := h.fits
    unfold fatNeedsLfn at hfits
    split at hfits
    · cases hfits
    · split at hfits
      · next hdots => exact absurd hdots (not_or.mpr ⟨h.notDot, h.notDots⟩)
      · split at hfits
        · cases hfits
        · next heq => exact ⟨_, heq⟩
        · next heq => exact ⟨_, heq⟩
  obtain ⟨r, hr⟩ := hscan
  rcases (needsLfnScan_none hr).2 with ⟨_, hnone⟩ | ⟨base, ext, heq, _, hbase, hext⟩
  · exact absurd (List.mem_of_getLast? hdot) hnone
  · refine ⟨base, ?_, hbase⟩
    rcases List.eq_nil_or_concat' ext with rfl | ⟨ext', c, rfl⟩
    · exact heq
    · have hc : name.getLast? = some c := by
        rw [heq, ← List.cons_append, ← List.append_assoc, List.getLast?_concat]
      rw [hc, Option.some.injEq] at hdot
      exact absurd (hdot ▸ List.mem_append_right ext' (List.mem_singleton_self c)) hext

theorem ShortName.readable (hr : ReadsBack name) : Readable name := by
  constructor
  · intro hhead
    rw [(toFat83Name_head h.ne h.noSlash h.fits).2, Option.some.injEq] at hhead
    exact hr.notDeleted hhead
  · intro hdot
    obtain ⟨pre, hpre, hnodot⟩ := h.dot_last hdot
    obtain ⟨base, ext, hp⟩ := h.plain83
    have hname : name = base ++ 0x2E :: ext := by
      rcases hp.eq with ⟨heq, _⟩ | heq
      · exact absurd (heq ▸ List.mem_of_getLast? hdot) hp.base_dot
      · exact heq
    -- the dot at the end leaves no extension
    have hext : ext = [] := by
      rcases List.eq_nil_or_concat' ext with hnil | ⟨ext', c, rfl⟩
      · exact hnil
      · rw [hname, ← List.cons_append, ← List.append_assoc] at hpre
        have hbase := List.append_inj_left' hpre rfl
        exact absurd (hbase ▸ List.mem_append_right base List.mem_cons_self) hnodot
    have hfield := h.shortField_name
    rw [hp.toFat83Name ⟨h.notDot, h.notDots⟩] at hfield
    have hnul : (0 : UInt8) ∉ base := fun hmem => h.noNul (hname ▸ List.mem_append_left _ hmem)
    have hlen := length_of_fatNameEquals hr.same
    rw [hp.formatFatName hfield, if_pos hext, cstr_of_not_mem hnul, hname, hext,
      List.length_append, List.length_singleton] at hlen
    omega

end

/-- **Short names go round.**  Of two names without long-name slots the 8.3 fields read as
    the names and are told apart exactly when neither begins with the mark of a deleted slot
    or ends in a dot. -/
theorem short_name_round_trip_iff {name name' : List UInt8} (h : ShortName name)
    (h' : ShortName name') :
    (ReadsBack name ∧ ReadsBack name' ∧
      (fatNameEquals name name' = false → toFat83Name name ≠ toFat83Name name')) ↔
      Readable name ∧ Readable name' := by
  constructor
  · rintro ⟨hr, hr', _⟩
    exact ⟨h.readable hr, h'.readable hr'⟩
  · rintro ⟨hr, hr'⟩
    refine ⟨h.readsBack hr, h'.readsBack hr', ?_⟩
    intro hne heq
    have hname : name = name' := by
      rw [← h.format hr h.shortField_name,
        h'.format hr' (h.shortField_name.trans heq)]
    rw [hname, fatNameEquals_self] at hne
    cases hne

/-- `A` and `B` have fields of their own. -/
theorem short_name_round_trip_letters : (ReadsBack [0x41] ∧ ReadsBack [0x42] ∧
    (fatNameEquals [0x41] [0x42] = false → toFat83Name [0x41] ≠ toFat83Name [0x42])) ↔
      Readable [0x41] ∧ Readable [0x42] :=
  short_name_round_trip_iff (by constructor <;> decide +kernel) (by constructor <;> decide +kernel)

/-- `ABC.` gets the field of `ABC` and is read back as `ABC`. -/
theorem short_name_dot_lost : ShortName [0x41, 0x42, 0x43, 0x2E] ∧
    ¬ ReadsBack [0x41, 0x42, 0x43, 0x2E] := by
  refine ⟨by constructor <;> decide +kernel, ?_⟩
  intro h
  exact absurd h.same (by decide +kernel)

end Gemios
