import Gemios.LdResolve

/-!
# The order of the objects

The rules of resolution, and the objects for which they hold in every order.
-/

namespace Gemios.Ld

def strongOf (n : List UInt8) (d : Def) : Bool := isStrong d.sym && d.sym.name == n

def commonOf (n : List UInt8) (d : Def) : Bool := isCommon d.sym && d.sym.name == n

def strongs (objs : List ElfObj) (n : List UInt8) : List Def := (allDefs objs).filter (strongOf n)

def commonsOf (objs : List ElfObj) (n : List UInt8) : List Def := (allDefs objs).filter (commonOf n)

def weaks (objs : List ElfObj) (n : List UInt8) : List Def := (allDefs objs).filter (weakOf n)

def ownStrong (n : List UInt8) : Nat := if n = str "_kernel_end" then 1 else 0

/-- The rules of resolution for one name: one strong definition at most, which wins; then the
    COMMON ones, with one allocation that is large and aligned enough for all; then the first
    weak one.  The linker's own symbol is a strong definition. -/
structure RulesOk (objs : List ElfObj) (img : Image) (n : List UInt8) : Prop where
  strong_one : (strongs objs n).length + ownStrong n ≤ 1
  strong_wins : n ≠ str "_kernel_end" → ∀ d ∈ strongs objs n, chosen img.st.globals n = some d
  common_one : (img.st.commons.filter (·.name == n)).length ≤ 1
  common_wins : n ≠ str "_kernel_end" → strongs objs n = [] → commonsOf objs n ≠ [] →
    ∃ d ∈ commonsOf objs n, chosen img.st.globals n = some d ∧
      ∃ a ∈ img.st.commons, a.name = n ∧
        (∃ g, entry img.st.globals n = some g ∧ g.vaddr = u32 (img.st.bss.vaddr + a.offset) ∧
          g.size = a.size) ∧
        ∀ c ∈ commonsOf objs n, c.sym.size ≤ a.size ∧ commonAlign c.sym ≤ a.align
  weak_keeps : n ≠ str "_kernel_end" → strongs objs n = [] → commonsOf objs n = [] →
    chosen img.st.globals n = (weaks objs n).head?

/-- Every order of the objects is rejected, or every order resolves each name to the same
    definition, by the rules. -/
def Resolves (base : Nat) (objs : List ElfObj) : Prop :=
  ∀ objs', objs'.Perm objs →
    (ldMain base objs = .rejected ∧ ldMain base objs' = .rejected) ∨
      ∃ img img', ldMain base objs = .linked img ∧ ldMain base objs' = .linked img' ∧
        ∀ n, chosen img'.st.globals n = chosen img.st.globals n ∧ RulesOk objs' img' n

/-- The first weak definition of a name in a file. -/
def firstWeak (n : List UInt8) (obj : ElfObj) : Option Def := ((fileDefs obj).filter (weakOf n)).head?

/-- The definitions that resolve in every order. -/
structure CleanDefs (objs : List ElfObj) : Prop where
  short : DefsShort objs
  strong : ∀ n, (strongs objs n).length + ownStrong n ≤ 1
  common : ∀ n, (commonsOf objs n).length ≤ 1
  both : ∀ n, n ≠ str "_kernel_end" → ∀ s ∈ strongs objs n, ∀ c ∈ commonsOf objs n,
    ∃ obj ∈ objs, s ∈ fileDefs obj ∧ c ∈ fileDefs obj ∧ c.symIdx < s.symIdx
  weak : ∀ n, n ≠ str "_kernel_end" → strongs objs n = [] → commonsOf objs n = [] →
    ∀ obj ∈ objs, ∀ obj' ∈ objs, ∀ d d', firstWeak n obj = some d → firstWeak n obj' = some d' →
      d = d'

/-- The lists that resolve in every order: the number of files is wrong; or no file has too many
    sections, and either no order is complete, or every order is, with room for the names, and the
    definitions are clean. -/
def Ordered (objs : List ElfObj) : Prop :=
  (objs.length > MAX_INPUT_FILES ∨ objs = []) ∨
    (SectionsFit objs ∧ ((∀ objs', objs'.Perm objs → ¬Complete objs') ∨
      (CleanDefs objs ∧ ∀ objs', objs'.Perm objs → Complete objs' ∧ StrtabFits objs')))

/-! ### Permutations -/

section

variable {objs objs' : List ElfObj} (hperm : objs'.Perm objs)

include hperm

theorem allDefs_perm : (allDefs objs').Perm (allDefs objs) := hperm.flatMap_right _

theorem strongs_perm (n : List UInt8) : (strongs objs' n).Perm (strongs objs n) :=
  (allDefs_perm hperm).filter _

theorem commonsOf_perm (n : List UInt8) : (commonsOf objs' n).Perm (commonsOf objs n) :=
  (allDefs_perm hperm).filter _

theorem defsShort_perm (h : DefsShort objs) : DefsShort objs' :=
  fun obj hobj => h obj (hperm.mem_iff.mp hobj)

theorem sectionsFit_perm (h : SectionsFit objs) : SectionsFit objs' :=
  fun obj hobj => h obj (hperm.mem_iff.mp hobj)

theorem defined_perm (n : List UInt8) : Defined objs' n ↔ Defined objs n := by
  simp only [Defined, hperm.mem_iff]

theorem allKeys_perm : (allKeys objs').Perm (allKeys objs) :=
  ((hperm.flatMap_right _).append_right _).append ((hperm.flatMap_right _).append_right _)

theorem tableNames_perm (hdefs : DefsShort objs) (hrels : RelsShort objs) :
    (tableNames objs').Perm (tableNames objs) := by
  have hshort : ∀ k ∈ allKeys objs, k.length ≤ 127 := by
    intro k hk
    rcases List.mem_append.mp hk with hk | hk <;> rcases List.mem_append.mp hk with hk | hk
    · obtain ⟨obj, hobj, hsyms⟩ := List.mem_flatMap.mp hk
      obtain ⟨sym, hsym, hmem⟩ := List.mem_flatMap.mp hsyms
      unfold symKeys at hmem
      split at hmem
      · rw [List.mem_singleton.mp hmem]
        exact hdefs obj hobj sym hsym ‹_›
      · contradiction
    · rw [List.mem_singleton.mp hk]
      decide
    · obtain ⟨obj, hobj, hmem⟩ := List.mem_flatMap.mp hk
      exact hrels obj hobj k hmem
    · rw [List.mem_singleton.mp hk]
      decide
  have hkeys := allKeys_perm hperm
  have hshort' : ∀ k ∈ allKeys objs', k.length ≤ 127 := fun k hk => hshort k (hkeys.mem_iff.mp hk)
  rw [tableNames, tableNames, foldl_enterName_of_short hshort, foldl_enterName_of_short hshort']
  exact foldl_insertName_perm hkeys

theorem complete_perm (hdefs : DefsShort objs) (hrels : RelsShort objs) (h : Complete objs) :
    Complete objs' := by
  refine ⟨?_, ?_, ?_, ?_, (defined_perm hperm _).mpr h.start⟩
  · rw [hperm.length_eq]
    exact h.count
  · rintro rfl
    exact h.nonempty hperm.symm.eq_nil
  · rw [(tableNames_perm hperm hdefs hrels).length_eq]
    exact h.fits
  · intro obj hobj sym hsym href
    exact (defined_perm hperm _).mpr (h.refs obj (hperm.mem_iff.mp hobj) sym hsym href)

theorem strtabFits_perm (hdefs : DefsShort objs) (hrels : RelsShort objs) (h : StrtabFits objs) :
    StrtabFits objs' := by
  unfold StrtabFits at h ⊢
  rwa [((tableNames_perm hperm hdefs hrels).map _).sum_nat]

theorem cleanDefs_perm (h : CleanDefs objs) : CleanDefs objs' := by
  refine ⟨defsShort_perm hperm h.short, fun n => ?_, fun n => ?_, fun n hn s hs c hc => ?_,
    fun n hn hs hc obj hobj obj' hobj' => ?_⟩
  · rw [(strongs_perm hperm n).length_eq]
    exact h.strong n
  · rw [(commonsOf_perm hperm n).length_eq]
    exact h.common n
  · obtain ⟨obj, hobj, hrest⟩ := h.both n hn s ((strongs_perm hperm n).mem_iff.mp hs) c
      ((commonsOf_perm hperm n).mem_iff.mp hc)
    exact ⟨obj, hperm.mem_iff.mpr hobj, hrest⟩
  · refine h.weak n hn ?_ ?_ obj (hperm.mem_iff.mp hobj) obj' (hperm.mem_iff.mp hobj')
    · exact (hs ▸ strongs_perm hperm n).symm.eq_nil
    · exact (hc ▸ commonsOf_perm hperm n).symm.eq_nil

end

/-! ### The definition that is chosen -/

theorem isMajor_iff (sym : ElfSym) : isMajor sym ↔ isCommon sym ∨ isStrong sym := by
  simp [isMajor]

theorem mem_strongs {objs : List ElfObj} {n : List UInt8} {d : Def} :
    d ∈ strongs objs n ↔ d ∈ allDefs objs ∧ isStrong d.sym ∧ d.sym.name = n := by
  simp [strongs, strongOf]

theorem mem_commonsOf {objs : List ElfObj} {n : List UInt8} {d : Def} :
    d ∈ commonsOf objs n ↔ d ∈ allDefs objs ∧ isCommon d.sym ∧ d.sym.name = n := by
  simp [commonsOf, commonOf]

theorem mem_majors {objs : List ElfObj} {n : List UInt8} {d : Def} :
    d ∈ (allDefs objs).filter (majorOf n) ↔ d ∈ commonsOf objs n ∨ d ∈ strongs objs n := by
  simp only [List.mem_filter, majorOf, Bool.and_eq_true, beq_iff_eq, isMajor_iff, mem_strongs,
    mem_commonsOf]
  tauto

theorem not_isCommon_of_isStrong {sym : ElfSym} (h : isStrong sym) : isCommon sym = false := by
  simp only [isStrong, Bool.and_eq_true, bne_iff_ne, ne_eq] at h
  simp [isCommon, h.1.1]

theorem fileDefs_pairwise (obj : ElfObj) : (fileDefs obj).Pairwise fun d d' => d.symIdx < d'.symIdx := by
  rw [List.pairwise_iff_getElem]
  intro i j hi hj hij
  simpa [fileDefs] using hij

theorem eq_of_length_le_one {α : Type} {l : List α} (h : l.length ≤ 1) {a b : α} (ha : a ∈ l)
    (hb : b ∈ l) : a = b := by
  obtain ⟨x, hx⟩ : ∃ x, l = [x] := List.length_eq_one_iff.mp
    (Nat.le_antisymm h (List.length_pos_of_mem ha))
  rw [hx, List.mem_singleton] at ha hb
  rw [ha, hb]

theorem lt_or_eq_of_getLast? {l : List Def} (h : l.Pairwise fun d d' => d.symIdx < d'.symIdx) {d x : Def}
    (hd : d ∈ l) (hx : l.getLast? = some x) : d.symIdx < x.symIdx ∨ d = x := by
  obtain ⟨l', rfl⟩ := List.getLast?_eq_some_iff.mp hx
  rw [List.mem_append, List.mem_singleton] at hd
  rcases hd with hd | rfl
  · exact .inl ((List.pairwise_append.mp h).2.2 d hd x (List.mem_singleton_self x))
  · exact .inr rfl

theorem allDefs_append (l l' : List ElfObj) : allDefs (l ++ l') = allDefs l ++ allDefs l' :=
  List.flatMap_append

theorem allDefs_cons (obj : ElfObj) (l : List ElfObj) : allDefs (obj :: l) = fileDefs obj ++ allDefs l :=
  List.flatMap_cons

theorem CleanDefs.last_strong {objs : List ElfObj} (h : CleanDefs objs) {n : List UInt8}
    (hn : n ≠ str "_kernel_end") {s : Def} (hs : s ∈ strongs objs n) :
    ((allDefs objs).filter (majorOf n)).getLast? = some s := by
  have hne : (allDefs objs).filter (majorOf n) ≠ [] :=
    List.ne_nil_of_mem (mem_majors.mpr (.inr hs))
  have hsone : (strongs objs n).length ≤ 1 := Nat.le_trans (Nat.le_add_right _ _) (h.strong n)
  obtain ⟨x, hx⟩ : ∃ x, ((allDefs objs).filter (majorOf n)).getLast? = some x :=
    Option.isSome_iff_exists.mp (List.getLast?_isSome.mpr hne)
  rw [hx, Option.some.injEq]
  rcases mem_majors.mp (List.mem_of_getLast? hx) with hc | hstrong
  swap
  · exact eq_of_length_le_one hsone hstrong hs
  -- a COMMON definition at the end would be in the file of the strong one, and before it
  exfalso
  obtain ⟨obj, hobj, hsobj, hcobj, hlt⟩ := h.both n hn s hs x hc
  obtain ⟨l₁, l₂, rfl⟩ := List.append_of_mem hobj
  have hone := h.common n
  simp only [commonsOf, allDefs_append, allDefs_cons, List.filter_append, List.length_append] at hone
  rw [allDefs_append, allDefs_cons, List.filter_append, List.filter_append, List.getLast?_append,
    List.getLast?_append, Option.or_assoc] at hx
  have hcommon : commonOf n x := (List.mem_filter.mp hc).2
  have hpos := List.length_pos_of_mem (List.mem_filter.mpr ⟨hcobj, hcommon⟩)
  cases hafter : ((allDefs l₂).filter (majorOf n)).getLast? with
  | some y =>
    rw [hafter, Option.some_or, Option.some.injEq] at hx
    subst hx
    have hy := (List.mem_filter.mp (List.mem_of_getLast? hafter)).1
    have := List.length_pos_of_mem (List.mem_filter.mpr ⟨hy, hcommon⟩)
    omega
  | none =>
    have hsmajor : majorOf n s := (List.mem_filter.mp (mem_majors.mpr (.inr hs))).2
    have hsmem : s ∈ (fileDefs obj).filter (majorOf n) := List.mem_filter.mpr ⟨hsobj, hsmajor⟩
    cases hfile : ((fileDefs obj).filter (majorOf n)).getLast? with
    | none =>
      rw [List.getLast?_eq_none_iff] at hfile
      rw [hfile] at hsmem
      cases hsmem
    | some y =>
      rw [hafter, hfile, Option.none_or, Option.some_or, Option.some.injEq] at hx
      subst hx
      rcases lt_or_eq_of_getLast? ((fileDefs_pairwise obj).filter _) hsmem hfile with hlast | rfl
      · omega
      · omega

theorem CleanDefs.last_common {objs : List ElfObj} (h : CleanDefs objs) {n : List UInt8}
    (hs : strongs objs n = []) {c : Def} (hc : c ∈ commonsOf objs n) :
    ((allDefs objs).filter (majorOf n)).getLast? = some c := by
  have hne : (allDefs objs).filter (majorOf n) ≠ [] :=
    List.ne_nil_of_mem (mem_majors.mpr (.inl hc))
  obtain ⟨x, hx⟩ : ∃ x, ((allDefs objs).filter (majorOf n)).getLast? = some x :=
    Option.isSome_iff_exists.mp (List.getLast?_isSome.mpr hne)
  rw [hx, Option.some.injEq]
  rcases mem_majors.mp (List.mem_of_getLast? hx) with hcommon | hstrong
  · exact eq_of_length_le_one (h.common n) hcommon hc
  · rw [hs] at hstrong
    cases hstrong

theorem majors_eq_nil {objs : List ElfObj} {n : List UInt8} (hs : strongs objs n = [])
    (hc : commonsOf objs n = []) : (allDefs objs).filter (majorOf n) = [] := by
  apply List.eq_nil_iff_forall_not_mem.mpr
  intro d hd
  rcases mem_majors.mp hd with h | h
  · rw [hc] at h
    cases h
  · rw [hs] at h
    cases h

theorem CleanDefs.rulesOk {objs : List ElfObj} (h : CleanDefs objs) {img : Image}
    (hl : Linked objs img) (n : List UInt8) : RulesOk objs img n := by
  have hone : (img.st.commons.filter (·.name == n)).length ≤ 1 := by
    rw [hl.commons n]
    exact h.common n
  refine ⟨h.strong n, ?_, hone, ?_, ?_⟩
  · intro hn d hd
    rw [hl.chosen h.short n hn, foldl_choose, h.last_strong hn hd, Option.some_or]
  · intro hn hs hc
    obtain ⟨d, hd⟩ := List.exists_mem_of_ne_nil _ hc
    have hchosen : chosen img.st.globals n = some d := by
      rw [hl.chosen h.short n hn, foldl_choose, h.last_common hs hd, Option.some_or]
    obtain ⟨-, hcommon, hname⟩ := mem_commonsOf.mp hd
    obtain ⟨a, ha, haname, hsize, halign, g, hg, hvaddr, hgsize⟩ := hl.placed n d hchosen hcommon
    refine ⟨d, hd, hchosen, a, ha, haname.trans hname, ⟨g, hg, hvaddr, hgsize⟩, ?_⟩
    intro c hcmem
    rw [eq_of_length_le_one (h.common n) hcmem hd, hsize, halign]
    exact ⟨Nat.le_refl _, Nat.le_refl _⟩
  · intro hn hs hc
    rw [hl.chosen h.short n hn, foldl_choose, majors_eq_nil hs hc]
    rfl

theorem head?_weaks (objs : List ElfObj) (n : List UInt8) :
    (weaks objs n).head? = objs.findSome? (firstWeak n) := by
  induction objs with
  | nil => rfl
  | cons obj objs ih =>
    rw [weaks, allDefs_cons, List.filter_append, List.head?_append, List.findSome?_cons, ← firstWeak]
    cases firstWeak n obj with
    | some d => rfl
    | none => exact ih

theorem CleanDefs.chosen_perm {objs objs' : List ElfObj} (h : CleanDefs objs)
    (hperm : objs'.Perm objs) {img img' : Image} (hl : Linked objs img) (hl' : Linked objs' img')
    (n : List UInt8) : chosen img'.st.globals n = chosen img.st.globals n := by
  have h' := cleanDefs_perm hperm h
  by_cases hn : n = str "_kernel_end"
  · rw [hn, hl.own, hl'.own]
  have hr := h.rulesOk hl n
  have hr' := h'.rulesOk hl' n
  by_cases hs : strongs objs n = []
  · have hs' : strongs objs' n = [] := (hs ▸ strongs_perm hperm n).eq_nil
    by_cases hc : commonsOf objs n = []
    · have hc' : commonsOf objs' n = [] := (hc ▸ commonsOf_perm hperm n).eq_nil
      rw [hr.weak_keeps hn hs hc, hr'.weak_keeps hn hs' hc', head?_weaks, head?_weaks]
      cases hw : objs.findSome? (firstWeak n) with
      | none =>
        rw [List.findSome?_eq_none_iff] at hw ⊢
        exact fun obj hobj => hw obj (hperm.mem_iff.mp hobj)
      | some d =>
        obtain ⟨obj, hobj, hd⟩ := List.exists_of_findSome?_eq_some hw
        have hsome : (objs'.findSome? (firstWeak n)).isSome :=
          List.findSome?_isSome_iff.mpr ⟨obj, hperm.mem_iff.mpr hobj, by rw [hd]; rfl⟩
        obtain ⟨d', hd'⟩ := Option.isSome_iff_exists.mp hsome
        obtain ⟨obj', hobj', hfirst⟩ := List.exists_of_findSome?_eq_some hd'
        rw [hd', h.weak n hn hs hc obj' (hperm.mem_iff.mp hobj') obj hobj d' d hfirst hd]
    · obtain ⟨c, hmem⟩ := List.exists_mem_of_ne_nil _ hc
      rw [hl.chosen h.short n hn, hl'.chosen h'.short n hn, foldl_choose, foldl_choose,
        h.last_common hs hmem, h'.last_common hs' ((commonsOf_perm hperm n).mem_iff.mpr hmem)]
      rfl
  · obtain ⟨s, hmem⟩ := List.exists_mem_of_ne_nil _ hs
    rw [hr.strong_wins hn s hmem,
      hr'.strong_wins hn s ((strongs_perm hperm n).mem_iff.mpr hmem)]

/-! ### Every order -/

theorem CleanDefs.resolved {base : Nat} {objs objs' : List ElfObj} (h : CleanDefs objs)
    (hperm : objs'.Perm objs) {img img' : Image} (hlink : link base objs = some img)
    (hlink' : link base objs' = some img') (n : List UInt8) :
    chosen img'.st.globals n = chosen img.st.globals n ∧ RulesOk objs' img' n :=
  ⟨h.chosen_perm hperm (link_linked hlink) (link_linked hlink') n,
    (cleanDefs_perm hperm h).rulesOk (link_linked hlink') n⟩

theorem Ordered.resolves {base : Nat} {objs : List ElfObj} (h : Ordered objs) : Resolves base objs := by
  intro objs' hperm
  rcases h with hcount | ⟨hsecs, hnone | ⟨hclean, hall⟩⟩
  · refine .inl ⟨ldMain_rejected_iff.mpr (.inl hcount), ldMain_rejected_iff.mpr (.inl ?_)⟩
    rw [hperm.length_eq]
    exact hcount.imp_right fun hnil => (hnil ▸ hperm).eq_nil
  · exact .inl ⟨ldMain_rejected_iff.mpr (.inr ⟨hsecs, hnone objs (List.Perm.refl objs)⟩),
      ldMain_rejected_iff.mpr (.inr ⟨sectionsFit_perm hperm hsecs, hnone objs' hperm⟩)⟩
  · obtain ⟨img, hlink, hmain⟩ := exists_linked base hsecs (hall objs (List.Perm.refl objs))
    obtain ⟨img', hlink', hmain'⟩ :=
      exists_linked base (sectionsFit_perm hperm hsecs) (hall objs' hperm)
    exact .inr ⟨img, img', hmain, hmain', hclean.resolved hperm hlink hlink'⟩

theorem Resolves.linked {base : Nat} {objs : List ElfObj} {img : Image} (h : Resolves base objs)
    (hmain : ldMain base objs = .linked img) {objs' : List ElfObj} (hperm : objs'.Perm objs) :
    ∃ img', ldMain base objs' = .linked img' ∧ Linked objs' img' ∧
      ∀ n, chosen img'.st.globals n = chosen img.st.globals n ∧ RulesOk objs' img' n := by
  rcases h objs' hperm with ⟨hnone, -⟩ | ⟨img₁, img', h1, h2, hrules⟩
  · rw [hmain] at hnone
    contradiction
  · rw [hmain, Outcome.linked.injEq] at h1
    subst h1
    exact ⟨img', h2, link_linked (ldMain_linked_iff.mp h2).1, hrules⟩

theorem Resolves.defsShort {objs : List ElfObj} {img : Image} (hl : Linked objs img)
    (hrules : ∀ n, RulesOk objs img n) : DefsShort objs := by
  intro obj hobj sym hsym hdef
  by_contra hlong
  have hlong' : 127 < sym.name.length := Nat.lt_of_not_le hlong
  obtain ⟨d, hd, rfl⟩ := exists_fileDefs hsym
  have hmem : d ∈ allDefs objs := List.mem_flatMap.mpr ⟨obj, hobj, hd⟩
  have hn : d.sym.name ≠ str "_kernel_end" := by
    intro heq
    rw [heq] at hlong'
    exact absurd kernelEnd_length (Nat.not_le.mpr hlong')
  have hnone := hl.long d.sym.name hlong'
  have hr := hrules d.sym.name
  -- a name that is too long has no entry, but one of the rules gives it a definition
  by_cases hs : strongs objs d.sym.name = []
  · by_cases hc : commonsOf objs d.sym.name = []
    · have hweak : d ∈ weaks objs d.sym.name := by
        refine List.mem_filter.mpr ⟨hmem, ?_⟩
        rcases Bool.or_eq_true_iff.mp hdef with hmajor | hw
        · have : d ∈ (allDefs objs).filter (majorOf d.sym.name) :=
            List.mem_filter.mpr ⟨hmem, by simp [majorOf, hmajor]⟩
          rw [majors_eq_nil hs hc] at this
          cases this
        · simp [weakOf, hw]
      have hhead := hr.weak_keeps hn hs hc
      rw [hnone] at hhead
      rw [List.head?_eq_none_iff.mp hhead.symm] at hweak
      cases hweak
    · obtain ⟨c, -, hchosen, -⟩ := hr.common_wins hn hs hc
      rw [hnone] at hchosen
      contradiction
  · obtain ⟨s, hmem'⟩ := List.exists_mem_of_ne_nil _ hs
    have := hr.strong_wins hn s hmem'
    rw [hnone] at this
    contradiction

theorem Resolves.cleanDefs {base : Nat} {objs : List ElfObj} {img : Image} (h : Resolves base objs)
    (hmain : ldMain base objs = .linked img) : CleanDefs objs := by
  obtain ⟨img₀, -, hl₀, hr₀⟩ := h.linked hmain (List.Perm.refl objs)
  have hshort := Resolves.defsShort hl₀ fun n => (hr₀ n).2
  have hone : ∀ n, (commonsOf objs n).length ≤ 1 := by
    intro n
    have := (hr₀ n).2.common_one
    rwa [hl₀.commons n] at this
  refine ⟨hshort, fun n => (hr₀ n).2.strong_one, hone, ?_, ?_⟩
  · intro n hn s hs c hc
    -- the file of the COMMON definition comes last
    obtain ⟨obj, hobj, hcobj⟩ := List.mem_flatMap.mp (mem_commonsOf.mp hc).1
    obtain ⟨l₁, l₂, rfl⟩ := List.append_of_mem hobj
    have hperm : (l₁ ++ l₂ ++ [obj]).Perm (l₁ ++ obj :: l₂) := by
      rw [List.append_assoc]
      exact (List.perm_append_singleton obj l₂).append_left l₁
    obtain ⟨img', -, hl', hr'⟩ := h.linked hmain hperm
    have hchosen := (hr' n).2.strong_wins hn s ((strongs_perm hperm n).mem_iff.mpr hs)
    rw [hl'.chosen (defsShort_perm hperm hshort) n hn, foldl_choose, allDefs_append, allDefs_cons,
      List.filter_append, List.filter_append, List.getLast?_append, List.getLast?_append] at hchosen
    have hcmajor : majorOf n c := (List.mem_filter.mp (mem_majors.mpr (.inl hc))).2
    have hcmem : c ∈ (fileDefs obj).filter (majorOf n) := List.mem_filter.mpr ⟨hcobj, hcmajor⟩
    obtain ⟨x, hx⟩ : ∃ x, ((fileDefs obj).filter (majorOf n)).getLast? = some x :=
      Option.isSome_iff_exists.mp (List.getLast?_isSome.mpr (List.ne_nil_of_mem hcmem))
    have hnil : allDefs [] = [] := rfl
    simp only [hnil, List.filter_nil, List.getLast?_nil, Option.none_or, hx, Option.some_or,
      Option.some.injEq] at hchosen
    subst hchosen
    have hsobj := (List.mem_filter.mp (List.mem_of_getLast? hx)).1
    refine ⟨obj, by simp, hsobj, hcobj, ?_⟩
    rcases lt_or_eq_of_getLast? ((fileDefs_pairwise obj).filter _) hcmem hx with hlt | rfl
    · exact hlt
    · have hnot := not_isCommon_of_isStrong (mem_strongs.mp hs).2.1
      rw [(mem_commonsOf.mp hc).2.1] at hnot
      contradiction
  · intro n hn hs hc obj hobj obj' hobj' d d' hd hd'
    have hfirst : ∀ o ∈ objs, ∀ e, firstWeak n o = some e → chosen img.st.globals n = some e := by
      intro o ho e he
      obtain ⟨l₁, l₂, rfl⟩ := List.append_of_mem ho
      have hperm : (o :: (l₁ ++ l₂)).Perm (l₁ ++ o :: l₂) := List.perm_middle.symm
      obtain ⟨img', -, hl', hr'⟩ := h.linked hmain hperm
      have hkeep := (hr' n).2.weak_keeps hn (hs ▸ strongs_perm hperm n).eq_nil
        (hc ▸ commonsOf_perm hperm n).eq_nil
      rw [head?_weaks, List.findSome?_cons, he] at hkeep
      rw [← (hr' n).1, hkeep]
    have h1 := hfirst obj hobj d hd
    have h2 := hfirst obj' hobj' d' hd'
    rw [h1] at h2
    exact Option.some.inj h2

/-- With names that fit an entry it is enough to look at one order. -/
theorem ordered_of_short {objs : List ElfObj} (hsecs : SectionsFit objs) (hclean : CleanDefs objs)
    (hrels : RelsShort objs) (hcomplete : Complete objs) (hstrtab : StrtabFits objs) : Ordered objs :=
  .inr ⟨hsecs, .inr ⟨hclean, fun _ hperm => ⟨complete_perm hperm hclean.short hrels hcomplete,
    strtabFits_perm hperm hclean.short hrels hstrtab⟩⟩⟩

/-- `_start`, and `buf` as an initialised variable. -/
def dataObj : ElfObj :=
  ⟨str "a.o", [noShdr, ⟨str ".data", SHT_PROGBITS, 3, 4, 8, 0, [1, 0, 0, 0, 2, 0, 0, 0], []⟩],
    [noSym, ⟨str "_start", 0, 0, STB_GLOBAL, 0, 1⟩, ⟨str "buf", 4, 4, STB_GLOBAL, 0, 1⟩]⟩

/-- `buf` as a COMMON symbol. -/
def commonObj : ElfObj := ⟨str "b.o", [noShdr], [noSym, ⟨str "buf", 4, 4, STB_GLOBAL, 0, SHN_COMMON⟩]⟩

end Gemios.Ld
