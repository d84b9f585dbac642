import Gemios.LdAccept
import Mathlib.Algebra.GroupWithZero.Nat

/-!
# Resolution of global symbols

Which definition the linker chooses for a global name, for every order of the objects.  Strong
and COMMON definitions replace what was there and weak ones do not, so the last of the former
stands, or the first of the latter.  The order makes no difference exactly when no file can
come after the one that should win.
-/

namespace Gemios.Ld

/-! ### Folding the definitions -/

def majorOf (n : List UInt8) (d : Def) : Bool := isMajor d.sym && d.sym.name == n

def weakOf (n : List UInt8) (d : Def) : Bool := isWeak d.sym && d.sym.name == n

theorem foldl_choose (n : List UInt8) (ds : List Def) :
    ds.foldl (choose n) none = (ds.filter (majorOf n)).getLast?.or (ds.filter (weakOf n)).head? := by
  induction ds using List.reverseRecOn with
  | nil => rfl
  | append_singleton ds d ih =>
    rw [List.foldl_append, List.foldl_cons, List.foldl_nil, ih, List.filter_append,
      List.filter_append, choose]
    by_cases hname : d.sym.name = n
    · rw [if_pos hname]
      by_cases hmajor : isMajor d.sym
      · have : majorOf n d := by simp [majorOf, hmajor, hname]
        simp [hmajor, this]
      · have hm : majorOf n d = false := by simp [majorOf, hmajor]
        by_cases hweak : isWeak d.sym
        · have hw : weakOf n d := by simp [weakOf, hweak, hname]
          simp [hmajor, hweak, hm, hw]
        · have hw : weakOf n d = false := by simp [weakOf, hweak]
          simp [hmajor, hweak, hm, hw]
    · have hm : majorOf n d = false := by simp [majorOf, hname]
      have hw : weakOf n d = false := by simp [weakOf, hname]
      simp [hname, hm, hw]

/-! ### What a successful link leaves -/

def allDefs (objs : List ElfObj) : List Def := objs.flatMap fileDefs

theorem mem_fileDefs {obj : ElfObj} {d : Def} (h : d ∈ fileDefs obj) : d.sym ∈ obj.symtab := by
  obtain ⟨i, hi, rfl⟩ := List.mem_mapIdx.mp h
  exact List.getElem_mem hi

theorem exists_fileDefs {obj : ElfObj} {sym : ElfSym} (h : sym ∈ obj.symtab) :
    ∃ d ∈ fileDefs obj, d.sym = sym := by
  obtain ⟨i, hi, rfl⟩ := List.getElem_of_mem h
  exact ⟨_, List.mem_mapIdx.mpr ⟨i, hi, rfl⟩, rfl⟩

theorem DefsShort.allDefs {objs : List ElfObj} (h : DefsShort objs) :
    ∀ d ∈ allDefs objs, defines d.sym → d.sym.name.length ≤ 127 := by
  intro d hd
  obtain ⟨obj, hobj, hfile⟩ := List.mem_flatMap.mp hd
  exact h obj hobj d.sym (mem_fileDefs hfile)

structure Linked (objs : List ElfObj) (img : Image) : Prop where
  chosen : DefsShort objs → ∀ n, n ≠ str "_kernel_end" →
    chosen img.st.globals n = (allDefs objs).foldl (choose n) none
  long : ∀ n : List UInt8, 127 < n.length → Ld.chosen img.st.globals n = none
  own : Ld.chosen img.st.globals (str "_kernel_end") = none
  commons : ∀ n, (img.st.commons.filter (·.name == n)).length =
    ((allDefs objs).filter fun d => isCommon d.sym && d.sym.name == n).length
  placed : ∀ n d, Ld.chosen img.st.globals n = some d → isCommon d.sym →
    ∃ a ∈ img.st.commons, a.name = d.sym.name ∧ a.size = d.sym.size ∧
      a.align = commonAlign d.sym ∧ ∃ g, entry img.st.globals n = some g ∧
        g.vaddr = u32 (img.st.bss.vaddr + a.offset) ∧ g.size = a.size

theorem link_linked {base : Nat} {objs : List ElfObj} {img : Image}
    (h : link base objs = some img) : Linked objs img := by
  obtain ⟨st, st₁, st₂, globals', i, hsteps, rfl⟩ := link_eq_some_iff.mp h
  obtain ⟨-, -, hadd, hend, -, hrel, hstart, -⟩ := hsteps
  have hc := (collected_nil _).addFiles hadd
  have hdefs : ((mapFiles standardSections objs).2.flatMap fun inp => fileDefs inp.obj) =
      allDefs objs := by
    rw [allDefs, ← List.flatMap_map, mapFiles_objs]
  rw [List.nil_append, hdefs] at hc
  obtain ⟨hcommons, houts, hother, g, hg, hdefined, hsource⟩ := defineKernelEnd_spec hend
  have hkept := applyRelocations_kept hrel
  have hgrown : Grown st₁.globals globals' := hkept.globals.trans (findOrAddGlobalSym_grown hstart)
  have hchosen : ∀ n, n ≠ str "_kernel_end" →
      Ld.chosen globals' n = Ld.chosen st.globals n := by
    intro n hn
    rw [hgrown.chosen, Ld.chosen, hother n hn, Ld.chosen]
  have hown : Ld.chosen globals' (str "_kernel_end") = none := by
    rw [hgrown.chosen, Ld.chosen, hg]
    exact hsource
  refine ⟨?_, ?_, hown, ?_, ?_⟩
  · intro hshort n hn
    rw [← hc.chosen hshort.allDefs n, ← hchosen n hn]
  · intro n hlong
    by_cases hn : n = str "_kernel_end"
    · rw [hn]
      exact hown
    · exact (hchosen n hn).trans (by rw [Ld.chosen, entry_eq_none_of_long hc.names hlong]; rfl)
  · intro n
    rw [← hc.commons n, ← hcommons, ← hkept.commons]
  · intro n d hd hcommon
    have hn : n ≠ str "_kernel_end" := by
      rintro rfl
      rw [hown] at hd
      contradiction
    rw [hchosen n hn, Ld.chosen, Option.bind_eq_some_iff] at hd
    obtain ⟨g', hg', hd⟩ := hd
    obtain ⟨a, ha, hname, hsize, halign, hvaddr, hgsize⟩ :=
      hc.placed g' (List.mem_of_find?_eq_some hg') d hd hcommon
    refine ⟨a, ?_, hname, hsize, halign, g', ?_, ?_, hgsize⟩
    · rw [hkept.commons, hcommons]
      exact ha
    · rcases hgrown n with hsame | ⟨hnone, -⟩
      · rw [hsame, hother n hn, hg']
      · rw [hother n hn, hg'] at hnone
        contradiction
    · have hbss : st₂.bss.vaddr = st.bss.vaddr :=
        hkept.vaddrs.trans (by simp only [Tables.bss, houts])
      rw [hvaddr, ← hbss]
      rfl

/-! ### Which objects are accepted -/

/-- A name that some file defines, or the linker.  Of a defined name 127 bytes are kept. -/
def Defined (objs : List ElfObj) (n : List UInt8) : Prop :=
  n = str "_kernel_end" ∨ ∃ obj ∈ objs, ∃ sym ∈ obj.symtab, defines sym ∧ sym.name.take 127 = n

/-- The names that reach the table, in the order of their look-ups. -/
def allKeys (objs : List ElfObj) : List (List UInt8) :=
  (objs.flatMap defKeys ++ [str "_kernel_end"]) ++ (objs.flatMap relKeys ++ [str "_start"])

/-- The names of the table after all look-ups. -/
def tableNames (objs : List ElfObj) : List (List UInt8) := (allKeys objs).foldl enterName []

/-- What a list of objects needs to be linked: the table has room for all names, and every name
    that a file refers to is defined, and the entry point. -/
structure Complete (objs : List ElfObj) : Prop where
  count : objs.length ≤ MAX_INPUT_FILES
  nonempty : objs ≠ []
  fits : (tableNames objs).length ≤ MAX_GLOBAL_SYMBOLS
  refs : ∀ obj ∈ objs, ∀ sym ∈ obj.symtab, isRef sym → Defined objs sym.name
  start : Defined objs (str "_start")

theorem kernelEnd_take : (str "_kernel_end").take 127 = str "_kernel_end" := by decide

theorem defined_iff_keys {objs : List ElfObj} {n : List UInt8} :
    Defined objs n ↔ ∃ k ∈ objs.flatMap defKeys ++ [str "_kernel_end"], k.take 127 = n := by
  have hkey : ∀ {sym : ElfSym} {k : List UInt8}, k ∈ symKeys sym ↔ defines sym ∧ sym.name = k := by
    intro sym k
    unfold symKeys
    split <;> simp [*, eq_comm]
  constructor
  · rintro (rfl | ⟨obj, hobj, sym, hsym, hdef, rfl⟩)
    · exact ⟨_, List.mem_append_right _ (List.mem_singleton_self _), kernelEnd_take⟩
    · refine ⟨sym.name, List.mem_append_left _ (List.mem_flatMap.mpr ⟨obj, hobj, ?_⟩), rfl⟩
      exact List.mem_flatMap.mpr ⟨sym, hsym, hkey.mpr ⟨hdef, rfl⟩⟩
  · rintro ⟨k, hk, rfl⟩
    rcases List.mem_append.mp hk with hfile | hown
    · obtain ⟨obj, hobj, hsyms⟩ := List.mem_flatMap.mp hfile
      obtain ⟨sym, hsym, hmem⟩ := List.mem_flatMap.mp hsyms
      obtain ⟨hdef, rfl⟩ := hkey.mp hmem
      exact .inr ⟨obj, hobj, sym, hsym, hdef, rfl⟩
    · rw [List.mem_singleton.mp hown]
      exact .inl kernelEnd_take

theorem definedIn_of_all {globals : List GlobalSym} (h : ∀ g ∈ globals, g.defined = true)
    (n : List UInt8) : definedIn globals n ↔ n ∈ globals.map (·.name) := by
  rw [mem_names_iff, Ne, findGlobal_eq_none, definedIn]
  cases hentry : entry globals n with
  | none => simp
  | some g => simpa using h g (List.mem_of_find?_eq_some hentry)

theorem start_keyed : Keyed Tables.names [str "_start"] fun st =>
    (findOrAddGlobalSym st.globals (str "_start")).map fun r => { st with globals := r.1 } :=
  keyed_findOrAdd _ fun _ _ => rfl

theorem Keyed.fits {β : Type} {names : β → List (List UInt8)} {keys : List (List UInt8)}
    {f : β → Option β} (hf : Keyed names keys f) {b b' : β}
    (hb : (names b).length ≤ MAX_GLOBAL_SYMBOLS) (h : f b = some b') :
    (keys.foldl enterName (names b)).length ≤ MAX_GLOBAL_SYMBOLS ∧
      names b' = keys.foldl enterName (names b) := by
  obtain ⟨hfit, hfull⟩ := hf b hb
  by_cases hle : (keys.foldl enterName (names b)).length ≤ MAX_GLOBAL_SYMBOLS
  · obtain ⟨b₁, hb₁, hnames⟩ := hfit hle
    rw [h, Option.some.injEq] at hb₁
    exact ⟨hle, hb₁ ▸ hnames⟩
  · rw [hfull (Nat.lt_of_not_le hle)] at h
    contradiction

section

variable (base : Nat) (objs : List ElfObj)

theorem addFiles_keys : Keyed Tables.names (objs.flatMap defKeys ++ [str "_kernel_end"]) fun st =>
    (addFiles st (mapFiles standardSections objs).2).bind defineKernelEnd := by
  have h := (addFiles_keyed (mapFiles standardSections objs).2).bind defineKernelEnd_keyed
  rwa [mapFiles_objs] at h

theorem applyRelocations_keys : Keyed Tables.names (objs.flatMap relKeys ++ [str "_start"]) fun st =>
    (applyRelocations st (mapFiles standardSections objs).2).bind fun st =>
      (findOrAddGlobalSym st.globals (str "_start")).map fun r => { st with globals := r.1 } := by
  have h := (applyRelocations_keyed (mapFiles_ok standardSections objs)).bind start_keyed
  rwa [mapFiles_objs] at h

variable {base objs}

theorem definedIn_iff {st st₁ : Tables}
    (hadd : addFiles ⟨layout base (mapFiles standardSections objs).1, [], []⟩
      (mapFiles standardSections objs).2 = some st)
    (hend : defineKernelEnd st = some st₁) (n : List UInt8) :
    definedIn st₁.globals n ↔ Defined objs n := by
  have hc := (collected_nil _).addFiles hadd
  obtain ⟨-, -, hother, g, hg, hdefined, -⟩ := defineKernelEnd_spec hend
  by_cases hn : n = str "_kernel_end"
  · rw [hn]
    exact ⟨fun _ => .inl rfl, fun _ => by simp [definedIn, hg, hdefined]⟩
  · have hentry : definedIn st₁.globals n = definedIn st.globals n := by
      rw [definedIn, hother n hn, definedIn]
    obtain ⟨-, hnames⟩ :=
      (addFiles_keyed (mapFiles standardSections objs).2).fits (Nat.zero_le _) hadd
    rw [mapFiles_objs] at hnames
    rw [hentry, definedIn_of_all hc.allDefined, ← Tables.names, hnames,
      mem_foldl_enterName _ (by simp [Tables.names]), defined_iff_keys]
    simp only [Tables.names, List.map_nil, List.not_mem_nil, false_or, List.mem_append,
      List.mem_singleton]
    constructor
    · rintro ⟨k, hk, htake⟩
      exact ⟨k, .inl hk, htake⟩
    · rintro ⟨k, hk | rfl, htake⟩
      · exact ⟨k, hk, htake⟩
      · exact absurd (htake.symm.trans kernelEnd_take) hn

theorem forall_mapFiles (P : ElfObj → Prop) :
    (∀ inp ∈ (mapFiles standardSections objs).2, P inp.obj) ↔ ∀ obj ∈ objs, P obj := by
  rw [← List.forall_mem_map (P := P), mapFiles_objs]

theorem link_names {img : Image} (h : link base objs = some img) :
    (tableNames objs).length ≤ MAX_GLOBAL_SYMBOLS ∧ img.st.names = tableNames objs := by
  obtain ⟨st, st₁, st₂, globals', i, hsteps, rfl⟩ := link_eq_some_iff.mp h
  obtain ⟨-, -, hadd, hend, -, hrel, hstart, -⟩ := hsteps
  have hadded : (addFiles ⟨layout base (mapFiles standardSections objs).1, [], []⟩
      (mapFiles standardSections objs).2).bind defineKernelEnd = some st₁ := by
    rw [hadd, Option.bind_some, hend]
  have happlied : ((applyRelocations st₁ (mapFiles standardSections objs).2).bind fun st =>
      (findOrAddGlobalSym st.globals (str "_start")).map fun r => { st with globals := r.1 }) =
        some { st₂ with globals := globals' } := by
    rw [hrel, Option.bind_some, hstart]
    rfl
  have hfirst := (addFiles_keys objs).fits (Nat.zero_le _) hadded
  have hsecond := (applyRelocations_keys objs).fits (hfirst.2 ▸ hfirst.1) happlied
  rw [hfirst.2, ← List.foldl_append] at hsecond
  exact hsecond

theorem link_isSome_iff : (link base objs).isSome ↔ Complete objs := by
  rw [Option.isSome_iff_exists]
  constructor
  · rintro ⟨img, h⟩
    have hfits := (link_names h).1
    obtain ⟨st, st₁, st₂, globals', i, hsteps, rfl⟩ := link_eq_some_iff.mp h
    obtain ⟨hcount, hne, hadd, hend, hok, hrel, hstart, hentry⟩ := hsteps
    have hdefined := definedIn_iff hadd hend
    rw [(findOrAddGlobalSym_defined hstart).1, (applyRelocations_kept hrel).globals.definedIn] at hentry
    simp only [hdefined] at hok
    refine ⟨hcount, hne, hfits, ?_, (hdefined _).mp hentry⟩
    exact (forall_mapFiles fun obj => ∀ sym ∈ obj.symtab, isRef sym → Defined objs sym.name).mp hok
  · rintro ⟨hcount, hne, hfits, hrefs, hstart⟩
    rw [tableNames, allKeys, List.foldl_append] at hfits
    obtain ⟨st₁, h1, hnames₁⟩ := (addFiles_keys objs
      ⟨layout base (mapFiles standardSections objs).1, [], []⟩
      (Nat.zero_le _)).1 (Nat.le_trans (length_le_foldl_enterName _ _) hfits)
    have hfit₁ : st₁.names.length ≤ MAX_GLOBAL_SYMBOLS := by
      rw [hnames₁]
      exact Nat.le_trans (length_le_foldl_enterName _ _) hfits
    obtain ⟨st₃, h2, -⟩ := (applyRelocations_keys objs st₁ hfit₁).1 (by rw [hnames₁]; exact hfits)
    obtain ⟨st, hadd, hend⟩ := Option.bind_eq_some_iff.mp h1
    obtain ⟨st₂, hrel, h3⟩ := Option.bind_eq_some_iff.mp h2
    obtain ⟨⟨globals', i⟩, hfind, rfl⟩ := Option.map_eq_some_iff.mp h3
    have hdefined := definedIn_iff hadd hend
    have hentry : (globals'.getD i noGlobal).defined := by
      rw [(findOrAddGlobalSym_defined hfind).1, (applyRelocations_kept hrel).globals.definedIn]
      exact (hdefined _).mpr hstart
    have hok : ∀ inp ∈ (mapFiles standardSections objs).2, ∀ sym ∈ inp.obj.symtab,
        isRef sym → definedIn st₁.globals sym.name := by
      simp only [hdefined]
      exact (forall_mapFiles fun obj => ∀ sym ∈ obj.symtab, isRef sym → Defined objs sym.name).mpr
        hrefs
    have hsteps : LinkSteps base objs st st₁ st₂ globals' i :=
      ⟨hcount, hne, hadd, hend, hok, hrel, hfind, hentry⟩
    exact ⟨_, link_eq_some_iff.mpr ⟨st, st₁, st₂, globals', i, hsteps, rfl⟩⟩

theorem complete_of_link {img : Image} (h : link base objs = some img) : Complete objs :=
  link_isSome_iff.mp (Option.isSome_iff_exists.mpr ⟨img, h⟩)

end

/-! ### How `main` ends -/

/-- `sec_map` has an entry for each section. -/
def SectionsFit (objs : List ElfObj) : Prop := ∀ obj ∈ objs, obj.shdrs.length ≤ MAX_SECTIONS_PER_FILE

/-- `strtab_buf` has room for the names of the table. -/
def StrtabFits (objs : List ElfObj) : Prop :=
  1 + ((tableNames objs).map fun n => n.length + 1).sum ≤ STRTAB_SIZE

theorem link_strtab {base : Nat} {objs : List ElfObj} {img : Image} (h : link base objs = some img) :
    img.strtab.length = 1 + ((tableNames objs).map fun n => n.length + 1).sum := by
  rw [← (link_names h).2, Image.strtab, List.length_cons, List.length_flatMap, Tables.names, List.map_map,
    Nat.add_comm]
  congr 2
  refine List.map_congr_left fun g _ => ?_
  simp

section

variable {base : Nat} {objs : List ElfObj}

theorem any_sections : (objs.any fun obj => obj.shdrs.length > MAX_SECTIONS_PER_FILE) = true ↔
    ¬SectionsFit objs := by
  simp [SectionsFit, List.any_eq_true]

theorem ldMain_linked_iff {img : Image} :
    ldMain base objs = .linked img ↔ link base objs = some img ∧ SectionsFit objs ∧ StrtabFits objs := by
  unfold ldMain
  split
  · rename_i hcount
    refine ⟨fun h => by contradiction, fun ⟨h, _⟩ => ?_⟩
    have hcomplete := complete_of_link h
    rcases hcount with hmany | hnil
    · exact absurd hcomplete.count (Nat.not_le.mpr hmany)
    · exact absurd hnil hcomplete.nonempty
  · by_cases hsecs : SectionsFit objs
    · rw [if_neg (any_sections.not.mpr (not_not.mpr hsecs))]
      split
      · rename_i hnone
        rw [hnone]
        exact ⟨fun h => by contradiction, fun ⟨h, _⟩ => by contradiction⟩
      · rename_i img' hlink
        rw [hlink, Option.some.injEq, StrtabFits, ← link_strtab hlink]
        split
        · rename_i hlong
          exact ⟨fun h => by contradiction, fun ⟨_, _, h⟩ => absurd h (Nat.not_le.mpr hlong)⟩
        · rename_i hroom
          rw [Outcome.linked.injEq]
          exact ⟨fun h => ⟨h, hsecs, Nat.not_lt.mp hroom⟩, And.left⟩
    · rw [if_pos (any_sections.mpr hsecs)]
      exact ⟨fun h => by contradiction, fun ⟨_, h, _⟩ => absurd h hsecs⟩

theorem ldMain_rejected_iff :
    ldMain base objs = .rejected ↔
      (objs.length > MAX_INPUT_FILES ∨ objs = []) ∨ (SectionsFit objs ∧ ¬Complete objs) := by
  have hnone : link base objs = none ↔ ¬Complete objs := by
    rw [← @link_isSome_iff base, Option.not_isSome_iff_eq_none]
  unfold ldMain
  by_cases hcount : objs.length > MAX_INPUT_FILES ∨ objs = []
  · rw [if_pos hcount]
    exact ⟨fun _ => .inl hcount, fun _ => rfl⟩
  · rw [if_neg hcount, or_iff_right hcount]
    by_cases hsecs : SectionsFit objs
    · rw [if_neg (any_sections.not.mpr (not_not.mpr hsecs)), ← hnone, and_iff_right hsecs]
      cases hlink : link base objs with
      | none => exact ⟨fun _ => rfl, fun _ => rfl⟩
      | some img =>
        refine ⟨fun h => ?_, fun h => by contradiction⟩
        simp only at h
        split at h <;> contradiction
    · rw [if_pos (any_sections.mpr hsecs)]
      exact ⟨fun h => by contradiction, fun ⟨h, _⟩ => absurd h hsecs⟩

end

theorem exists_linked (base : Nat) {objs : List ElfObj} (hsecs : SectionsFit objs)
    (h : Complete objs ∧ StrtabFits objs) :
    ∃ img, link base objs = some img ∧ ldMain base objs = .linked img := by
  obtain ⟨img, hlink⟩ := Option.isSome_iff_exists.mp ((@link_isSome_iff base objs).mpr h.1)
  exact ⟨img, hlink, ldMain_linked_iff.mpr ⟨hlink, hsecs, h.2⟩⟩

end Gemios.Ld
