import Mathlib.Logic.Basic
import Gemios.Ld

/-!
# The table of global symbols

What each step of the linker does to the table: which symbol wrote the entry of a name, and
which names are in the table.
-/

namespace Gemios.Ld

def entry (globals : List GlobalSym) (name : List UInt8) : Option GlobalSym :=
  globals.find? (·.name == name)

/-- The symbol that wrote the entry of a name. -/
def chosen (globals : List GlobalSym) (name : List UInt8) : Option Def :=
  (entry globals name).bind (·.source)

/-- The name is in the table with a definition. -/
def definedIn (globals : List GlobalSym) (name : List UInt8) : Bool :=
  (entry globals name).any (·.defined)

def NamesOk (globals : List GlobalSym) : Prop := ∀ g ∈ globals, g.name.length ≤ 127

/-- Before the linker's own symbol, an entry is defined if a symbol wrote it. -/
def SourcesOk (globals : List GlobalSym) : Prop := ∀ g ∈ globals, g.defined = g.source.isSome

/-! ### One entry -/

theorem entry_eq_none_of_long {globals : List GlobalSym} (h : NamesOk globals)
    {name : List UInt8} (hlong : 127 < name.length) : entry globals name = none := by
  rw [entry, List.find?_eq_none]
  intro g hg heq
  have := h g hg
  rw [eq_of_beq heq] at this
  omega

theorem findGlobal_eq_some {globals : List GlobalSym} {name : List UInt8} {i : Nat}
    (h : findGlobal globals name = some i) :
    ∃ g, globals[i]? = some g ∧ entry globals name = some g := by
  induction globals generalizing i with
  | nil => simp [findGlobal] at h
  | cons g globals ih =>
    by_cases hg : g.name == name
    · simp only [findGlobal, List.findIdx?_cons, hg, if_true, Option.some.injEq] at h
      subst h
      exact ⟨g, rfl, by simp only [entry, List.find?_cons, hg]⟩
    · simp only [findGlobal, List.findIdx?_cons, hg] at h
      obtain ⟨j, hj, rfl⟩ := Option.map_eq_some_iff.mp (by simpa using h)
      obtain ⟨g', hg', hentry⟩ := ih hj
      exact ⟨g', by simpa using hg', by simpa only [entry, List.find?_cons, hg] using hentry⟩

theorem findGlobal_eq_none {globals : List GlobalSym} {name : List UInt8} :
    findGlobal globals name = none ↔ entry globals name = none := by
  rw [findGlobal, entry, List.findIdx?_eq_none_iff, List.find?_eq_none]
  simp

theorem entry_modify {globals : List GlobalSym} {name : List UInt8} {i : Nat}
    {f : GlobalSym → GlobalSym} (hf : ∀ g, (f g).name = g.name)
    (h : findGlobal globals name = some i) (n : List UInt8) :
    entry (globals.modify i f) n =
      if n = name then (entry globals name).map f else entry globals n := by
  induction globals generalizing i with
  | nil => simp [findGlobal] at h
  | cons g globals ih =>
    by_cases hg : g.name == name
    · simp only [findGlobal, List.findIdx?_cons, hg, if_true, Option.some.injEq] at h
      subst h
      have hname := eq_of_beq hg
      split
      · rename_i heq
        simp only [List.modify_zero_cons, entry, List.find?_cons, hf, heq, hg, Option.map_some]
      · rename_i hne
        have hne' : (name == n) = false := beq_eq_false_iff_ne.mpr (Ne.symm hne)
        simp only [List.modify_zero_cons, entry, List.find?_cons, hf, hname, hne']
    · simp only [findGlobal, List.findIdx?_cons, hg] at h
      obtain ⟨j, hj, rfl⟩ := Option.map_eq_some_iff.mp (by simpa using h)
      have := ih hj
      simp only [List.modify_succ_cons, entry, List.find?_cons, hg] at this ⊢
      split
      · rename_i hgn
        rw [if_neg]
        intro heq
        rw [heq] at hgn
        exact hg hgn
      · exact this

theorem entry_append (globals : List GlobalSym) (g : GlobalSym) (n : List UInt8) :
    entry (globals ++ [g]) n =
      (entry globals n).or (if g.name = n then some g else none) := by
  rw [entry, List.find?_append, ← entry]
  by_cases h : g.name = n <;> simp [h]

theorem findOrAddGlobalSym_short {globals globals' : List GlobalSym} {name : List UInt8} {i : Nat}
    (hshort : name.length ≤ 127) (h : findOrAddGlobalSym globals name = some (globals', i)) :
    findGlobal globals' name = some i ∧
      entry globals' name = some ((entry globals name).getD { noGlobal with name := name }) ∧
      ∀ n, n ≠ name → entry globals' n = entry globals n := by
  have htake : name.take 127 = name := List.take_of_length_le hshort
  simp only [findOrAddGlobalSym, htake] at h
  split at h
  · rename_i j hj
    cases h
    obtain ⟨g, -, hg⟩ := findGlobal_eq_some hj
    exact ⟨hj, by rw [hg]; rfl, fun _ _ => rfl⟩
  · rename_i hnone
    split at h
    · contradiction
    · cases h
      have hentry := findGlobal_eq_none.mp hnone
      refine ⟨?_, ?_, ?_⟩
      · rw [findGlobal, List.findIdx?_append, ← findGlobal, hnone]
        simp [noGlobal]
      · rw [entry_append, hentry]
        simp
      · intro n hne
        rw [entry_append, if_neg (fun heq => hne heq.symm)]
        simp

/-! ### Definitions -/

def isCommon (sym : ElfSym) : Bool := sym.shndx == SHN_COMMON

def isStrong (sym : ElfSym) : Bool :=
  sym.shndx != SHN_COMMON && sym.bind == STB_GLOBAL && sym.shndx != SHN_UNDEF

def isWeak (sym : ElfSym) : Bool :=
  sym.shndx != SHN_COMMON && sym.bind == STB_WEAK && sym.shndx != SHN_UNDEF

/-- A definition that replaces the one that was there. -/
def isMajor (sym : ElfSym) : Bool := isCommon sym || isStrong sym

def defines (sym : ElfSym) : Bool := isMajor sym || isWeak sym

/-- The definition of `name` after one more symbol. -/
def choose (name : List UInt8) (c : Option Def) (d : Def) : Option Def :=
  if d.sym.name = name then
    if isMajor d.sym then some d else if isWeak d.sym then c.or (some d) else c
  else c

def fileDefs (obj : ElfObj) : List Def := obj.symtab.mapIdx fun i sym => ⟨obj.path, i, sym⟩

/-- The alignment that a COMMON symbol asks for. -/
def commonAlign (sym : ElfSym) : Nat := if sym.value ≠ 0 then sym.value else 4

theorem define_name (vaddr : Nat) (d : Def) (g : GlobalSym) : (g.define vaddr d).name = g.name := rfl

theorem addSymbol_cases {inp : Input} {st st' : Tables} {i : Nat} {sym : ElfSym}
    (h : addSymbol inp st i sym = some st') :
    (defines sym = false ∧ st' = st) ∨
      ∃ globals j, findOrAddGlobalSym st.globals sym.name = some (globals, j) ∧
        ((∃ vaddr, (isMajor sym ∨ (isWeak sym ∧ (globals.getD j noGlobal).defined = false)) ∧
            (isCommon sym → vaddr = u32 (st.bss.vaddr + alignUp st.bss.size (commonAlign sym))) ∧
            st'.globals = globals.modify j (·.define vaddr ⟨inp.obj.path, i, sym⟩)) ∨
          (isMajor sym = false ∧ isWeak sym ∧ (globals.getD j noGlobal).defined ∧
            st'.globals = globals)) := by
  unfold addSymbol at h
  by_cases hcommon : sym.shndx = SHN_COMMON
  · simp only [hcommon, if_true, Option.map_eq_some_iff, Prod.exists] at h
    obtain ⟨globals, j, hfind, rfl⟩ := h
    exact .inr ⟨globals, j, hfind, .inl ⟨_, .inl (by simp [isMajor, isCommon, hcommon]),
      fun _ => rfl, rfl⟩⟩
  · simp only [hcommon, if_false] at h
    by_cases hbind : (sym.bind = STB_GLOBAL ∨ sym.bind = STB_WEAK) ∧ sym.shndx ≠ SHN_UNDEF
    · simp only [hbind, ne_eq, not_false_eq_true, and_self, if_true, Option.map_eq_some_iff,
        Prod.exists] at h
      obtain ⟨globals, j, hfind, hst⟩ := h
      refine .inr ⟨globals, j, hfind, ?_⟩
      have hstrong : isStrong sym = decide (sym.bind = STB_GLOBAL) := by
        by_cases hg : sym.bind = STB_GLOBAL <;> simp [isStrong, hcommon, hbind.2, hg]
      have hweak : isWeak sym = decide (sym.bind = STB_WEAK) := by
        by_cases hw : sym.bind = STB_WEAK <;> simp [isWeak, hcommon, hbind.2, hw]
      have hmajor : isMajor sym = decide (sym.bind = STB_GLOBAL) := by
        simp [isMajor, isCommon, hcommon, hstrong]
      split at hst
      · rename_i hdef
        subst hst
        refine .inl ⟨_, ?_, by simp [isCommon, hcommon], rfl⟩
        rw [hmajor, hweak]
        rcases hdef with hdef | hdef
        · rcases hbind.1 with hb | hb <;> simp [hb, -List.getD_eq_getElem?_getD, hdef]
        · simp [hdef]
      · rename_i hdef
        subst hst
        simp only [not_or, Bool.not_eq_false] at hdef
        have hb : sym.bind = STB_WEAK := hbind.1.resolve_left hdef.2
        exact .inr ⟨by simp [hmajor, hdef.2], by simp [hweak, hb], hdef.1, rfl⟩
    · simp only [hbind, if_false, Option.some.injEq] at h
      refine .inl ⟨?_, h.symm⟩
      simp only [not_and_or, not_or, ne_eq, not_not] at hbind
      have hne : ¬SHN_UNDEF = SHN_COMMON := by decide
      rcases hbind with hb | hb <;>
        simp [defines, isMajor, isCommon, isStrong, isWeak, hcommon, hb, hne]

theorem findOrAddGlobalSym_mem {globals globals' : List GlobalSym} {name : List UInt8} {i : Nat}
    (h : findOrAddGlobalSym globals name = some (globals', i)) {g : GlobalSym} (hg : g ∈ globals') :
    g ∈ globals ∨ g = { noGlobal with name := name.take 127 } := by
  simp only [findOrAddGlobalSym] at h
  split at h
  · cases h
    exact .inl hg
  · split at h
    · contradiction
    · cases h
      simpa using hg

theorem forall_mem_modify {P : GlobalSym → Prop} {globals : List GlobalSym} {j : Nat}
    {f : GlobalSym → GlobalSym} (hf : ∀ g, P g → P (f g)) (h : ∀ g ∈ globals, P g) :
    ∀ g ∈ globals.modify j f, P g := by
  intro g hg
  obtain ⟨k, hk, rfl⟩ := List.getElem_of_mem hg
  rw [List.getElem_modify]
  have hk' : k < globals.length := by simpa using hk
  have := h globals[k] (List.getElem_mem hk')
  split
  · exact hf _ this
  · exact this

theorem findOrAddGlobalSym_forall {P : GlobalSym → Prop} {globals globals' : List GlobalSym}
    {name : List UInt8} {i : Nat} (h : findOrAddGlobalSym globals name = some (globals', i))
    (hnew : P { noGlobal with name := name.take 127 }) (hP : ∀ g ∈ globals, P g) :
    ∀ g ∈ globals', P g := by
  intro g hg
  rcases findOrAddGlobalSym_mem h hg with hg | rfl
  · exact hP g hg
  · exact hnew

theorem addSymbol_forall {P : GlobalSym → Prop} {inp : Input} {st st' : Tables} {i : Nat}
    {sym : ElfSym} (hnew : P { noGlobal with name := sym.name.take 127 })
    (hdef : ∀ g vaddr d, P g → P (g.define vaddr d)) (hP : ∀ g ∈ st.globals, P g)
    (h : addSymbol inp st i sym = some st') : ∀ g ∈ st'.globals, P g := by
  rcases addSymbol_cases h with ⟨-, rfl⟩ | ⟨globals, j, hfind, ⟨vaddr, -, -, hst⟩ | ⟨-, -, -, hst⟩⟩
  · exact hP
  · rw [hst]
    exact forall_mem_modify (fun g hg => hdef g vaddr _ hg) (findOrAddGlobalSym_forall hfind hnew hP)
  · rw [hst]
    exact findOrAddGlobalSym_forall hfind hnew hP

theorem addSymbol_namesOk {inp : Input} {st st' : Tables} {i : Nat} {sym : ElfSym}
    (hP : NamesOk st.globals) (h : addSymbol inp st i sym = some st') : NamesOk st'.globals :=
  addSymbol_forall (P := fun g => g.name.length ≤ 127)
    (by simp only [List.length_take]; omega) (fun _ _ _ hg => hg) hP h

theorem addSymbol_sourcesOk {inp : Input} {st st' : Tables} {i : Nat} {sym : ElfSym}
    (hP : SourcesOk st.globals) (h : addSymbol inp st i sym = some st') : SourcesOk st'.globals :=
  addSymbol_forall (P := fun g => g.defined = g.source.isSome) rfl (fun _ _ _ _ => rfl) hP h

theorem addSymbol_chosen {inp : Input} {st st' : Tables} {i : Nat} {sym : ElfSym}
    (hshort : defines sym → sym.name.length ≤ 127) (hok : SourcesOk st.globals)
    (h : addSymbol inp st i sym = some st') (n : List UInt8) :
    chosen st'.globals n = choose n (chosen st.globals n) ⟨inp.obj.path, i, sym⟩ := by
  rcases addSymbol_cases h with ⟨hdef, rfl⟩ | ⟨globals, j, hfind, hcase⟩
  · simp only [defines, Bool.or_eq_false_iff] at hdef
    simp [choose, hdef.1, hdef.2]
  have hdef : defines sym := by
    rcases hcase with ⟨-, hm | hw, -, -⟩ | ⟨-, hw, -⟩ <;> simp [defines, *]
  obtain ⟨hidx, hentry, hother⟩ := findOrAddGlobalSym_short (hshort hdef) hfind
  obtain ⟨g, hget, hg⟩ := findGlobal_eq_some hidx
  have hgetD : globals.getD j noGlobal = g := by simp [hget]
  have hold : chosen globals n = chosen st.globals n := by
    by_cases hn : n = sym.name
    · rw [hn, chosen, hentry, chosen]
      cases entry st.globals sym.name <;> rfl
    · rw [chosen, hother n hn, chosen]
  -- the entry of the name is defined if a symbol wrote it
  have hsource : g.defined = (chosen st.globals sym.name).isSome := by
    have hg' : SourcesOk globals := findOrAddGlobalSym_forall hfind rfl hok
    have hmem : g ∈ globals := List.mem_of_find?_eq_some hg
    rw [hg' g hmem]
    by_cases hn : n = sym.name
    · rw [← hn, ← hold, hn, chosen, hg]
      rfl
    · rw [hg, Option.some.injEq] at hentry
      rw [hentry, chosen]
      cases entry st.globals sym.name <;> rfl
  rcases hcase with ⟨vaddr, hkind, -, hst⟩ | ⟨hmajor, hweak, hdefined, hst⟩
  · rw [hst, chosen, entry_modify (define_name vaddr _) hidx]
    by_cases hn : n = sym.name
    · rw [if_pos hn, hg]
      simp only [choose, hn, if_true]
      rcases hkind with hm | ⟨hw, hnot⟩
      · rw [if_pos hm]
        rfl
      · rw [hgetD, hsource, Option.isSome_eq_false_iff, Option.isNone_iff_eq_none] at hnot
        rw [hnot]
        simp [GlobalSym.define, hw]
    · rw [if_neg hn, ← chosen, hold, choose, if_neg (fun heq => hn heq.symm)]
  · rw [hst, hold]
    simp only [choose]
    split
    · rename_i hn
      rw [hgetD, hsource] at hdefined
      obtain ⟨c, hc⟩ := Option.isSome_iff_exists.mp hdefined
      simp [hmajor, ← hn, hc]
    · rfl

/-! ### All files -/

theorem addSymbol_allocates {inp : Input} {st st' : Tables} {i : Nat} {sym : ElfSym}
    (h : addSymbol inp st i sym = some st') :
    (st'.outs = if isCommon sym then
        st.outs.modify OUT_SEC_BSS (·.append [] sym.size (commonAlign sym))
      else st.outs) ∧
    st'.commons = st.commons ++
      if isCommon sym then
        [⟨sym.name, alignUp st.bss.size (commonAlign sym), sym.size, commonAlign sym⟩]
      else [] := by
  unfold addSymbol at h
  by_cases hcommon : sym.shndx = SHN_COMMON
  · simp only [hcommon, if_true, Option.map_eq_some_iff, Prod.exists] at h
    obtain ⟨globals, j, -, rfl⟩ := h
    simp [isCommon, hcommon, commonAlign]
  · simp only [hcommon, if_false] at h
    have hother : isCommon sym = false := by simp [isCommon, hcommon]
    simp only [hother, Bool.false_eq_true, if_false, List.append_nil]
    split at h
    · obtain ⟨⟨globals, j⟩, -, hst⟩ := Option.map_eq_some_iff.mp h
      simp only at hst
      split at hst <;> rw [← hst] <;> exact ⟨rfl, rfl⟩
    · cases h
      exact ⟨rfl, rfl⟩

theorem addSymbol_bss_vaddr {inp : Input} {st st' : Tables} {i : Nat} {sym : ElfSym}
    (h : addSymbol inp st i sym = some st') : st'.bss.vaddr = st.bss.vaddr := by
  rw [Tables.bss, (addSymbol_allocates h).1]
  split
  · simp only [Tables.bss, List.getD_eq_getElem?_getD, List.getElem?_modify, if_true]
    cases st.outs[OUT_SEC_BSS]? <;> rfl
  · rfl

/-- The entry that a COMMON symbol wrote has the address and size of an allocation. -/
def Placed (st : Tables) (g : GlobalSym) : Prop :=
  ∀ d, g.source = some d → isCommon d.sym → ∃ a ∈ st.commons, a.name = d.sym.name ∧
    a.size = d.sym.size ∧ a.align = commonAlign d.sym ∧ g.vaddr = u32 (st.bss.vaddr + a.offset) ∧
    g.size = a.size

theorem addSymbol_placed {inp : Input} {st st' : Tables} {i : Nat} {sym : ElfSym}
    (hP : ∀ g ∈ st.globals, Placed st g) (h : addSymbol inp st i sym = some st') :
    ∀ g ∈ st'.globals, Placed st' g := by
  obtain ⟨-, hcommons⟩ := addSymbol_allocates h
  have hvaddr := addSymbol_bss_vaddr h
  have hmono : ∀ g, Placed st g → Placed st' g := by
    intro g hg d hd hcommon
    obtain ⟨a, ha, hrest⟩ := hg d hd hcommon
    refine ⟨a, ?_, ?_⟩
    · rw [hcommons]
      exact List.mem_append_left _ ha
    · rwa [hvaddr]
  have hnew : Placed st' { noGlobal with name := sym.name.take 127 } := by
    intro d hd
    cases hd
  have hold : ∀ g ∈ st.globals, Placed st' g := fun g hg => hmono g (hP g hg)
  rcases addSymbol_cases h with ⟨-, rfl⟩ | ⟨globals, j, hfind, ⟨vaddr, -, hplace, hst⟩ | ⟨-, -, -, hst⟩⟩
  · exact hP
  · rw [hst]
    refine forall_mem_modify ?_ (findOrAddGlobalSym_forall hfind hnew hold)
    intro g _ d hd hcommon
    cases hd
    refine ⟨⟨sym.name, alignUp st.bss.size (commonAlign sym), sym.size, commonAlign sym⟩, ?_, rfl,
      rfl, rfl, ?_, rfl⟩
    · rw [hcommons, if_pos hcommon]
      simp
    · rw [hvaddr]
      exact hplace hcommon
  · rw [hst]
    exact findOrAddGlobalSym_forall hfind hnew hold

theorem addSymbol_defined {inp : Input} {st st' : Tables} {i : Nat} {sym : ElfSym}
    (hP : ∀ g ∈ st.globals, g.defined = true) (h : addSymbol inp st i sym = some st') :
    ∀ g ∈ st'.globals, g.defined = true := by
  rcases addSymbol_cases h with ⟨-, rfl⟩ | ⟨globals, j, hfind, hcase⟩
  · exact hP
  -- the entry at the index is the only one that may be new
  have hother : ∀ k (hk : k < globals.length), k ≠ j → globals[k].defined = true := by
    intro k hk hkj
    simp only [findOrAddGlobalSym] at hfind
    split at hfind
    · cases hfind
      exact hP _ (List.getElem_mem hk)
    · split at hfind
      · contradiction
      · cases hfind
        have hlt : k < st.globals.length := by
          rw [List.length_append, List.length_singleton] at hk
          omega
        rw [List.getElem_append_left hlt]
        exact hP _ (List.getElem_mem hlt)
  intro g hg
  rcases hcase with ⟨vaddr, -, -, hst⟩ | ⟨-, -, hdefined, hst⟩
  · rw [hst] at hg
    obtain ⟨k, hk, rfl⟩ := List.getElem_of_mem hg
    rw [List.getElem_modify]
    split
    · rfl
    · exact hother k (by simpa using hk) (Ne.symm ‹_›)
  · rw [hst] at hg
    obtain ⟨k, hk, rfl⟩ := List.getElem_of_mem hg
    by_cases hkj : k = j
    · subst hkj
      simpa [List.getD_eq_getElem?_getD, hk] using hdefined
    · exact hother k hk hkj

/-- The invariant of the table over step 5: what holds of it, and the symbol that wrote the
    entry of each name. -/
structure Collected (ds : List Def) (st : Tables) : Prop where
  names : NamesOk st.globals
  sources : SourcesOk st.globals
  allDefined : ∀ g ∈ st.globals, g.defined = true
  chosen : (∀ d ∈ ds, defines d.sym → d.sym.name.length ≤ 127) →
    ∀ n, chosen st.globals n = ds.foldl (choose n) none
  commons : ∀ n, (st.commons.filter (·.name == n)).length =
    (ds.filter fun d => isCommon d.sym && d.sym.name == n).length
  placed : ∀ g ∈ st.globals, Placed st g

theorem Collected.addSymbol {ds : List Def} {st st' : Tables} (hc : Collected ds st) {inp : Input}
    {i : Nat} {sym : ElfSym} (h : addSymbol inp st i sym = some st') :
    Collected (ds ++ [⟨inp.obj.path, i, sym⟩]) st' := by
  obtain ⟨-, hcommons⟩ := addSymbol_allocates h
  refine ⟨addSymbol_namesOk hc.names h, addSymbol_sourcesOk hc.sources h,
    addSymbol_defined hc.allDefined h, ?_, ?_, addSymbol_placed hc.placed h⟩
  · intro hshort n
    have hprev := hc.chosen (fun d hd => hshort d (List.mem_append_left _ hd)) n
    rw [addSymbol_chosen (hshort ⟨inp.obj.path, i, sym⟩ (by simp)) hc.sources h, List.foldl_append,
      ← hprev]
    rfl
  · intro n
    rw [hcommons, List.filter_append, List.filter_append, List.length_append, List.length_append,
      hc.commons n]
    congr 1
    by_cases hcommon : isCommon sym
    · by_cases hn : sym.name = n <;> simp [hcommon, hn]
    · simp [hcommon]

theorem Collected.addSymbols {inp : Input} {ds : List Def} {st st' : Tables} (hc : Collected ds st)
    {i : Nat} {syms : List ElfSym} (h : addSymbols inp st i syms = some st') :
    Collected (ds ++ syms.mapIdx fun k sym => ⟨inp.obj.path, i + k, sym⟩) st' := by
  induction syms generalizing ds st i with
  | nil =>
    cases h
    simpa using hc
  | cons sym syms ih =>
    simp only [Ld.addSymbols, Option.bind_eq_some_iff] at h
    obtain ⟨st₁, h1, h2⟩ := h
    have := ih (hc.addSymbol h1) h2
    simpa [List.mapIdx_cons, Nat.add_assoc, Nat.add_comm 1] using this

theorem Collected.addFiles {ins : List Input} {ds : List Def} {st st' : Tables}
    (hc : Collected ds st) (h : addFiles st ins = some st') :
    Collected (ds ++ ins.flatMap fun inp => fileDefs inp.obj) st' := by
  induction ins generalizing ds st with
  | nil =>
    cases h
    simpa using hc
  | cons inp ins ih =>
    simp only [Ld.addFiles, List.foldlM_cons, Option.bind_eq_bind, Option.bind_eq_some_iff] at h
    obtain ⟨st₁, h1, h2⟩ := h
    have := ih (hc.addSymbols h1) h2
    simpa [fileDefs] using this

theorem collected_nil (outs : List OutSec) : Collected [] ⟨outs, [], []⟩ :=
  ⟨by simp [NamesOk], by simp [SourcesOk], by simp, fun _ _ => rfl, fun _ => rfl, by simp⟩

/-! ### The steps after the definitions -/

/-- The table has at most new entries, which no symbol defines. -/
def Grown (globals globals' : List GlobalSym) : Prop :=
  ∀ n, entry globals' n = entry globals n ∨
    (entry globals n = none ∧ ∃ g, entry globals' n = some g ∧ g.defined = false ∧ g.source = none)

theorem Grown.refl (globals : List GlobalSym) : Grown globals globals := fun _ => .inl rfl

theorem Grown.trans {gs gs' gs'' : List GlobalSym} (h : Grown gs gs') (h' : Grown gs' gs'') :
    Grown gs gs'' := by
  intro n
  rcases h n with h1 | ⟨hnone, g, hg, hundef⟩
  · rw [← h1]
    exact h' n
  · rcases h' n with h2 | ⟨hnone', -⟩
    · exact .inr ⟨hnone, g, h2.trans hg, hundef⟩
    · rw [hg] at hnone'
      contradiction

theorem Grown.chosen {gs gs' : List GlobalSym} (h : Grown gs gs') (n : List UInt8) :
    chosen gs' n = chosen gs n := by
  rcases h n with h1 | ⟨hnone, g, hg, -, hsource⟩
  · rw [Ld.chosen, h1, Ld.chosen]
  · rw [Ld.chosen, hg, Ld.chosen, hnone]
    exact hsource

theorem Grown.definedIn {gs gs' : List GlobalSym} (h : Grown gs gs') (n : List UInt8) :
    definedIn gs' n = definedIn gs n := by
  rcases h n with h1 | ⟨hnone, g, hg, hdefined, -⟩
  · rw [Ld.definedIn, h1, Ld.definedIn]
  · rw [Ld.definedIn, hg, Ld.definedIn, hnone]
    simpa using hdefined

theorem findOrAddGlobalSym_grown {globals globals' : List GlobalSym} {name : List UInt8} {i : Nat}
    (h : findOrAddGlobalSym globals name = some (globals', i)) : Grown globals globals' := by
  intro n
  simp only [findOrAddGlobalSym] at h
  split at h
  · cases h
    exact .inl rfl
  · split at h
    · contradiction
    · cases h
      rw [entry_append]
      cases hn : entry globals n with
      | some g => exact .inl rfl
      | none =>
        by_cases hname : name.take 127 = n
        · exact .inr ⟨rfl, { noGlobal with name := name.take 127 }, by simp [hname], rfl, rfl⟩
        · exact .inl (by simp [hname])

theorem findOrAddGlobalSym_defined {globals globals' : List GlobalSym} {name : List UInt8} {i : Nat}
    (h : findOrAddGlobalSym globals name = some (globals', i)) :
    (globals'.getD i noGlobal).defined = definedIn globals name ∧
      (definedIn globals name → globals' = globals) := by
  simp only [findOrAddGlobalSym] at h
  split at h
  · rename_i j hj
    cases h
    obtain ⟨g, hget, hentry⟩ := findGlobal_eq_some hj
    exact ⟨by simp [definedIn, hentry, hget], fun _ => rfl⟩
  · rename_i hnone
    have hentry := findGlobal_eq_none.mp hnone
    split at h
    · contradiction
    · cases h
      exact ⟨by simp [definedIn, hentry, noGlobal], by simp [definedIn, hentry]⟩

/-- An undefined reference that has to be resolved. -/
def isRef (sym : ElfSym) : Bool := sym.shndx == SHN_UNDEF && sym.bind == STB_GLOBAL

theorem checkSymbol_eq (globals : List GlobalSym) (sym : ElfSym) :
    checkSymbol globals sym =
      if isRef sym → definedIn globals sym.name then some globals else none := by
  by_cases href : isRef sym
  · have href' : sym.shndx = SHN_UNDEF ∧ sym.bind = STB_GLOBAL := by simpa [isRef] using href
    simp only [checkSymbol, if_pos href', href, true_implies]
    cases hfind : findOrAddGlobalSym globals sym.name with
    | none =>
      rw [if_neg, Option.bind_none]
      intro hdef
      -- a name in the table is found
      simp only [findOrAddGlobalSym] at hfind
      split at hfind
      · contradiction
      · rename_i hnone
        rw [definedIn, findGlobal_eq_none.mp hnone] at hdef
        contradiction
    | some r =>
      obtain ⟨hd, hsame⟩ := findOrAddGlobalSym_defined (i := r.2) hfind
      simp only [Option.bind_some, hd]
      split
      · rename_i hdef
        rw [hsame hdef]
      · rfl
  · have href' : ¬(sym.shndx = SHN_UNDEF ∧ sym.bind = STB_GLOBAL) := by simpa [isRef] using href
    simp [checkSymbol, href', href]

theorem foldlM_check {α β : Type} {f : β → α → Option β} {P : α → Prop} [DecidablePred P] {b : β}
    (hf : ∀ a, f b a = if P a then some b else none) (l : List α) :
    l.foldlM f b = if ∀ a ∈ l, P a then some b else none := by
  induction l with
  | nil => simp
  | cons a l ih =>
    rw [List.foldlM_cons, hf]
    by_cases ha : P a
    · simp [ha, ih]
    · simp [ha]

theorem checkFiles_eq (globals : List GlobalSym) (ins : List Input) :
    checkFiles globals ins =
      if ∀ inp ∈ ins, ∀ sym ∈ inp.obj.symtab, isRef sym → definedIn globals sym.name
      then some globals else none := by
  apply foldlM_check
  intro inp
  exact foldlM_check (checkSymbol_eq globals) inp.obj.symtab

theorem foldlM_rel {α β : Type} {f : β → α → Option β} {R : β → β → Prop} (hrefl : ∀ s, R s s)
    (htrans : ∀ s s' s'', R s s' → R s' s'' → R s s'') (hstep : ∀ s a s', f s a = some s' → R s s')
    {l : List α} {b b' : β} (h : l.foldlM f b = some b') : R b b' := by
  induction l generalizing b with
  | nil =>
    cases h
    exact hrefl _
  | cons a l ih =>
    simp only [List.foldlM_cons, Option.bind_eq_bind, Option.bind_eq_some_iff] at h
    obtain ⟨b₁, h1, h2⟩ := h
    exact htrans _ b₁ b' (hstep _ a b₁ h1) (ih h2)

structure Kept (st st' : Tables) : Prop where
  globals : Grown st.globals st'.globals
  commons : st'.commons = st.commons
  vaddrs : st'.bss.vaddr = st.bss.vaddr

theorem Kept.refl (st : Tables) : Kept st st := ⟨.refl _, rfl, rfl⟩

theorem Kept.trans {st st' st'' : Tables} (h : Kept st st') (h' : Kept st' st'') : Kept st st'' :=
  ⟨h.globals.trans h'.globals, h'.commons.trans h.commons, h'.vaddrs.trans h.vaddrs⟩

theorem relocSym_kept {inp : Input} {st st' : Tables} {sym : ElfSym} {S : Nat}
    (h : relocSym st inp sym = some (st', S)) : Kept st st' := by
  unfold relocSym at h
  split at h
  · cases h
    exact .refl st
  · obtain ⟨⟨globals, i⟩, hfind, hst⟩ := Option.map_eq_some_iff.mp h
    cases hst
    exact ⟨findOrAddGlobalSym_grown hfind, rfl, rfl⟩

theorem modify_data {α : Type} (g : OutSec → α) (hg : ∀ sec data, g { sec with data := data } = g sec)
    (outs : List OutSec) (i j : Nat) (f : OutSec → Buf) :
    g ((outs.modify i fun sec => { sec with data := f sec }).getD j default) =
      g (outs.getD j default) := by
  simp only [List.getD_eq_getElem?_getD, List.getElem?_modify]
  cases outs[j]? with
  | none => simp
  | some sec => by_cases hij : i = j <;> simp [hij, hg]

theorem applyRel_kept {inp : Input} {target outIdx : Nat} {st st' : Tables} {rel : ElfRel}
    (h : applyRel inp target outIdx st rel = some st') : Kept st st' := by
  obtain ⟨⟨st₁, S⟩, hsym, rfl⟩ := Option.map_eq_some_iff.mp h
  have hkept := relocSym_kept hsym
  exact ⟨hkept.globals, hkept.commons, (modify_data OutSec.vaddr (fun _ _ => rfl) _ _ _ _).trans hkept.vaddrs⟩

theorem applyShdr_kept {inp : Input} {st st' : Tables} {shdr : ElfShdr}
    (h : applyShdr inp st shdr = some st') : Kept st st' := by
  unfold applyShdr at h
  split at h
  · split at h
    · cases h
      exact .refl st
    · exact foldlM_rel Kept.refl (fun _ _ _ => Kept.trans) (fun _ _ _ => applyRel_kept) h
  · cases h
    exact .refl st

theorem applyRelocations_kept {ins : List Input} {st st' : Tables}
    (h : applyRelocations st ins = some st') : Kept st st' := by
  refine foldlM_rel Kept.refl (fun _ _ _ => Kept.trans) (fun _ _ _ => ?_) h
  exact foldlM_rel Kept.refl (fun _ _ _ => Kept.trans) (fun _ _ _ => applyShdr_kept)

theorem mapFiles_objs (outs : List OutSec) (objs : List ElfObj) :
    (mapFiles outs objs).2.map (·.obj) = objs := by
  induction objs generalizing outs with
  | nil => rfl
  | cons obj objs ih => simp [mapFiles, ih]

theorem defineOwn_name (vaddr : Nat) (g : GlobalSym) : (g.defineOwn vaddr).name = g.name := rfl

theorem kernelEnd_length : (str "_kernel_end").length ≤ 127 := by decide

theorem defineKernelEnd_spec {st st' : Tables} (h : defineKernelEnd st = some st') :
    st'.commons = st.commons ∧ st'.outs = st.outs ∧
      (∀ n, n ≠ str "_kernel_end" → entry st'.globals n = entry st.globals n) ∧
      ∃ g, entry st'.globals (str "_kernel_end") = some g ∧ g.defined ∧ g.source = none := by
  obtain ⟨⟨globals, i⟩, hfind, rfl⟩ := Option.map_eq_some_iff.mp h
  obtain ⟨hidx, hentry, hother⟩ := findOrAddGlobalSym_short kernelEnd_length hfind
  refine ⟨rfl, rfl, ?_, ?_⟩
  · intro n hn
    simp only [entry_modify (defineOwn_name _) hidx, if_neg hn, hother n hn]
  · simp only [entry_modify (defineOwn_name _) hidx, if_true, hentry]
    exact ⟨_, rfl, rfl, rfl⟩

/-! ### The steps of a link -/

/-- A link that succeeds: the tables with all files, with the end of the kernel, and after the
    relocations, and the symbol table with the entry point. -/
structure LinkSteps (base : Nat) (objs : List ElfObj) (st st₁ st₂ : Tables)
    (globals : List GlobalSym) (i : Nat) : Prop where
  count : objs.length ≤ MAX_INPUT_FILES
  nonempty : objs ≠ []
  added : addFiles ⟨layout base (mapFiles standardSections objs).1, [], []⟩
    (mapFiles standardSections objs).2 = some st
  ended : defineKernelEnd st = some st₁
  checked : ∀ inp ∈ (mapFiles standardSections objs).2, ∀ sym ∈ inp.obj.symtab,
    isRef sym → definedIn st₁.globals sym.name
  applied : applyRelocations st₁ (mapFiles standardSections objs).2 = some st₂
  started : findOrAddGlobalSym st₂.globals (str "_start") = some (globals, i)
  entry : (globals.getD i noGlobal).defined

theorem link_eq_some_iff {base : Nat} {objs : List ElfObj} {img : Image} :
    link base objs = some img ↔ ∃ st st₁ st₂ globals i, LinkSteps base objs st st₁ st₂ globals i ∧
      img = ⟨{ st₂ with globals := globals }, (mapFiles standardSections objs).2,
        (globals.getD i noGlobal).vaddr, base⟩ := by
  constructor
  · intro h
    unfold link at h
    split at h
    · contradiction
    rename_i hcount
    simp only [Option.bind_eq_some_iff] at h
    obtain ⟨st, hadd, st₁, hend, globals₁, hcheck, st₂, hrel, ⟨globals, i⟩, hstart, himg⟩ := h
    simp only at himg
    by_cases hentry : (globals.getD i noGlobal).defined
    · rw [if_pos hentry] at himg
      rw [checkFiles_eq] at hcheck
      split at hcheck
      · rename_i hok
        cases hcheck
        cases himg
        exact ⟨st, st₁, st₂, globals, i, ⟨by omega, fun hnil => hcount (.inr hnil), hadd, hend, hok,
          hrel, hstart, hentry⟩, rfl⟩
      · contradiction
    · rw [if_neg hentry] at himg
      contradiction
  · rintro ⟨st, st₁, st₂, globals, i, h, rfl⟩
    have hcount := h.count
    unfold link
    rw [if_neg (by simp [h.nonempty, hcount])]
    simp only [h.added, h.ended, Option.bind_some, checkFiles_eq, if_pos h.checked]
    rw [show ({ st₁ with globals := st₁.globals } : Tables) = st₁ from rfl, h.applied,
      Option.bind_some, h.started, Option.bind_some]
    exact if_pos h.entry

end Gemios.Ld
