import Mathlib.Data.Finset.Dedup
import Mathlib.Data.Finset.Card
import Mathlib.Data.List.Perm.Basic
import Gemios.LdTable

/-!
# What the linker accepts

The names that reach the table of global symbols.  A name of more than 127 bytes is cut when it is
entered and never found again; for the others the order makes no difference.
-/

namespace Gemios.Ld

/-! ### Names in the table -/

/-- The names of the table after a name was looked up: a new entry keeps 127 bytes of it. -/
def enterName (ns : List (List UInt8)) (n : List UInt8) : List (List UInt8) :=
  if n ∈ ns then ns else ns ++ [n.take 127]

theorem length_le_enterName (ns : List (List UInt8)) (n : List UInt8) :
    ns.length ≤ (enterName ns n).length := by
  unfold enterName
  split <;> simp

theorem length_le_foldl_enterName (ns keys : List (List UInt8)) :
    ns.length ≤ (keys.foldl enterName ns).length := by
  induction keys generalizing ns with
  | nil => exact Nat.le_refl _
  | cons k keys ih => exact Nat.le_trans (length_le_enterName ns k) (ih (enterName ns k))

theorem mem_enterName {ns : List (List UInt8)} (hshort : ∀ n ∈ ns, n.length ≤ 127) {n m : List UInt8} :
    m ∈ enterName ns n ↔ m ∈ ns ∨ n.take 127 = m := by
  unfold enterName
  split
  · rename_i hn
    rw [List.take_of_length_le (hshort n hn)]
    exact ⟨.inl, fun h => h.elim id fun heq => heq ▸ hn⟩
  · rw [List.mem_append, List.mem_singleton, eq_comm (a := m)]

theorem short_enterName {ns : List (List UInt8)} (hshort : ∀ n ∈ ns, n.length ≤ 127) (n : List UInt8) :
    ∀ m ∈ enterName ns n, m.length ≤ 127 := by
  intro m hm
  rcases (mem_enterName hshort).mp hm with hold | rfl
  · exact hshort m hold
  · exact List.length_take_le ..

theorem mem_foldl_enterName (keys : List (List UInt8)) {ns : List (List UInt8)}
    (hshort : ∀ n ∈ ns, n.length ≤ 127) (m : List UInt8) :
    m ∈ keys.foldl enterName ns ↔ m ∈ ns ∨ ∃ k ∈ keys, k.take 127 = m := by
  induction keys generalizing ns with
  | nil => simp
  | cons k keys ih =>
    rw [List.foldl_cons, ih (short_enterName hshort k), mem_enterName hshort, List.exists_mem_cons_iff,
      or_assoc]

/-! ### Names that fit an entry -/

def insertName (ns : List (List UInt8)) (n : List UInt8) : List (List UInt8) :=
  if n ∈ ns then ns else ns ++ [n]

theorem foldl_enterName_of_short {keys : List (List UInt8)} (h : ∀ k ∈ keys, k.length ≤ 127)
    (ns : List (List UInt8)) : keys.foldl enterName ns = keys.foldl insertName ns := by
  induction keys generalizing ns with
  | nil => rfl
  | cons k keys ih =>
    rw [List.forall_mem_cons] at h
    rw [List.foldl_cons, List.foldl_cons, ih h.2, enterName, List.take_of_length_le h.1, insertName]

theorem mem_insertName {ns : List (List UInt8)} {n m : List UInt8} :
    m ∈ insertName ns n ↔ m ∈ ns ∨ m = n := by
  unfold insertName
  split
  · rename_i hn
    constructor
    · exact .inl
    · rintro (h | rfl)
      · exact h
      · exact hn
  · simp

theorem nodup_insertName {ns : List (List UInt8)} (h : ns.Nodup) (n : List UInt8) :
    (insertName ns n).Nodup := by
  unfold insertName
  split
  · exact h
  · rename_i hn
    exact List.nodup_append.mpr ⟨h, List.nodup_singleton n, by
      intro a ha b hb
      rw [List.mem_singleton] at hb
      rw [hb]
      exact fun heq => hn (heq ▸ ha)⟩

theorem foldl_insertName (keys : List (List UInt8)) {ns : List (List UInt8)} (h : ns.Nodup) :
    (keys.foldl insertName ns).Nodup ∧
      ∀ m, m ∈ keys.foldl insertName ns ↔ m ∈ ns ∨ m ∈ keys := by
  induction keys generalizing ns with
  | nil => simpa using h
  | cons k keys ih =>
    obtain ⟨hnodup, hmem⟩ := ih (nodup_insertName h k)
    refine ⟨hnodup, fun m => ?_⟩
    rw [List.foldl_cons, hmem, mem_insertName, List.mem_cons, or_assoc]

theorem foldl_insertName_perm {keys keys' : List (List UInt8)} (h : keys.Perm keys') :
    (keys.foldl insertName []).Perm (keys'.foldl insertName []) := by
  obtain ⟨hn, hm⟩ := foldl_insertName keys List.nodup_nil
  obtain ⟨hn', hm'⟩ := foldl_insertName keys' List.nodup_nil
  refine (List.perm_ext_iff_of_nodup hn hn').mpr fun m => ?_
  rw [hm, hm', h.mem_iff]

/-! ### Steps that put names into the table -/

/-- A step that puts `keys` into the table, and fails if they do not fit. -/
def Keyed {β : Type} (names : β → List (List UInt8)) (keys : List (List UInt8))
    (f : β → Option β) : Prop :=
  ∀ b, (names b).length ≤ MAX_GLOBAL_SYMBOLS →
    ((keys.foldl enterName (names b)).length ≤ MAX_GLOBAL_SYMBOLS →
      ∃ b', f b = some b' ∧ names b' = keys.foldl enterName (names b)) ∧
    (MAX_GLOBAL_SYMBOLS < (keys.foldl enterName (names b)).length → f b = none)

section

variable {α β : Type} {names : β → List (List UInt8)}

theorem Keyed.pure (names : β → List (List UInt8)) : Keyed names [] some :=
  fun b hb => ⟨fun _ => ⟨b, rfl, rfl⟩, fun h => absurd hb (Nat.not_le.mpr h)⟩

theorem Keyed.bind {keys keys' : List (List UInt8)} {f g : β → Option β} (hf : Keyed names keys f)
    (hg : Keyed names keys' g) : Keyed names (keys ++ keys') fun b => (f b).bind g := by
  intro b hb
  obtain ⟨hfit, hfull⟩ := hf b hb
  rw [List.foldl_append]
  have hmono := length_le_foldl_enterName (keys.foldl enterName (names b)) keys'
  by_cases h : (keys.foldl enterName (names b)).length ≤ MAX_GLOBAL_SYMBOLS
  · obtain ⟨b₁, hb₁, hnames⟩ := hfit h
    have h2 := hg b₁ (hnames ▸ h)
    rw [hnames] at h2
    simpa only [hb₁, Option.bind_some] using h2
  · simp only [hfull (Nat.lt_of_not_le h), Option.bind_none]
    exact ⟨fun hle => absurd (Nat.le_trans hmono hle) h, fun _ => trivial⟩

theorem Keyed.foldlM {f : β → α → Option β} {keys : α → List (List UInt8)} {l : List α}
    (h : ∀ a ∈ l, Keyed names (keys a) fun b => f b a) :
    Keyed names (l.flatMap keys) fun b => l.foldlM f b := by
  induction l with
  | nil => exact Keyed.pure names
  | cons a l ih =>
    have h1 := h a (List.mem_cons_self ..)
    have h2 := ih fun a' ha' => h a' (List.mem_cons_of_mem _ ha')
    simpa only [List.foldlM_cons, Option.bind_eq_bind, List.flatMap_cons] using h1.bind h2

end

/-! ### The steps of the linker -/

def Tables.names (st : Tables) : List (List UInt8) := st.globals.map (·.name)

theorem modify_names (globals : List GlobalSym) (i : Nat) {f : GlobalSym → GlobalSym}
    (hf : ∀ g, (f g).name = g.name) : (globals.modify i f).map (·.name) = globals.map (·.name) := by
  induction globals generalizing i with
  | nil => simp
  | cons g globals ih =>
    cases i with
    | zero => simp [hf]
    | succ i => simp [ih]

theorem mem_names_iff {globals : List GlobalSym} {name : List UInt8} :
    name ∈ globals.map (·.name) ↔ findGlobal globals name ≠ none := by
  rw [Ne, findGlobal_eq_none, entry, List.find?_eq_none]
  simp

theorem findOrAddGlobalSym_names (globals : List GlobalSym) (name : List UInt8)
    (hlen : globals.length ≤ MAX_GLOBAL_SYMBOLS) :
    ((enterName (globals.map (·.name)) name).length ≤ MAX_GLOBAL_SYMBOLS →
      ∃ r, findOrAddGlobalSym globals name = some r ∧
        r.1.map (·.name) = enterName (globals.map (·.name)) name) ∧
    (MAX_GLOBAL_SYMBOLS < (enterName (globals.map (·.name)) name).length →
      findOrAddGlobalSym globals name = none) := by
  cases hfind : findGlobal globals name with
  | some i =>
    have hmem : name ∈ globals.map (·.name) := by
      rw [mem_names_iff, hfind]
      simp
    rw [enterName, if_pos hmem, List.length_map]
    exact ⟨fun _ => ⟨(globals, i), by rw [findOrAddGlobalSym, hfind], rfl⟩,
      fun h => absurd hlen (Nat.not_le.mpr h)⟩
  | none =>
    have hmem : name ∉ globals.map (·.name) := by
      rw [mem_names_iff, hfind]
      simp
    rw [enterName, if_neg hmem, List.length_append, List.length_map, List.length_singleton]
    refine ⟨fun hfit => ?_, fun hfull => ?_⟩
    · refine ⟨(globals ++ [{ noGlobal with name := name.take 127 }], globals.length), ?_, ?_⟩
      · rw [findOrAddGlobalSym, hfind]
        exact if_neg (by omega)
      · simp
    · rw [findOrAddGlobalSym, hfind]
      exact if_pos (by omega)

theorem keyed_findOrAdd (name : List UInt8)
    {g : Tables → List GlobalSym × Nat → Tables}
    (hg : ∀ st r, (g st r).names = r.1.map (·.name)) :
    Keyed Tables.names [name] fun st => (findOrAddGlobalSym st.globals name).map (g st) := by
  intro st hlen
  obtain ⟨hfit, hfull⟩ :=
    findOrAddGlobalSym_names st.globals name (by simpa [Tables.names] using hlen)
  refine ⟨fun h => ?_, fun h => ?_⟩
  · obtain ⟨r, hfind, hnames⟩ := hfit h
    exact ⟨g st r, by simp only [hfind, Option.map_some], (hg st r).trans hnames⟩
  · simp only [hfull h, Option.map_none]

/-- The names that the symbol of a definition puts into the table. -/
def symKeys (sym : ElfSym) : List (List UInt8) := if defines sym then [sym.name] else []

theorem addSymbol_keyed (inp : Input) (i : Nat) (sym : ElfSym) :
    Keyed Tables.names (symKeys sym) fun st => addSymbol inp st i sym := by
  unfold symKeys addSymbol
  by_cases hcommon : sym.shndx = SHN_COMMON
  · have hdef : defines sym := by simp [defines, isMajor, isCommon, hcommon]
    simp only [if_pos hdef, if_pos hcommon]
    exact keyed_findOrAdd sym.name fun st r => modify_names r.1 r.2 (define_name _ _)
  · simp only [if_neg hcommon]
    by_cases hbind : (sym.bind = STB_GLOBAL ∨ sym.bind = STB_WEAK) ∧ sym.shndx ≠ SHN_UNDEF
    · have hdef : defines sym := by
        rcases hbind with ⟨hb | hb, hundef⟩ <;>
          simp [defines, isMajor, isStrong, isWeak, hcommon, hb, hundef]
      simp only [if_pos hdef, if_pos hbind]
      refine keyed_findOrAdd sym.name fun st r => ?_
      split
      · exact modify_names _ _ (define_name _ _)
      · rfl
    · have hdef : ¬defines sym := by
        simp only [not_and_or, not_or, ne_eq, not_not] at hbind
        have hne : ¬SHN_UNDEF = SHN_COMMON := by decide
        rcases hbind with hb | hb <;>
          simp [defines, isMajor, isCommon, isStrong, isWeak, hcommon, hb, hne]
      simp only [if_neg hdef, if_neg hbind]
      exact Keyed.pure _

theorem addSymbols_keyed (inp : Input) (i : Nat) (syms : List ElfSym) :
    Keyed Tables.names (syms.flatMap symKeys) fun st => addSymbols inp st i syms := by
  induction syms generalizing i with
  | nil => exact Keyed.pure _
  | cons sym syms ih =>
    exact (addSymbol_keyed inp i sym).bind (ih (i + 1))

/-- The names that the definitions of a file put into the table. -/
def defKeys (obj : ElfObj) : List (List UInt8) := obj.symtab.flatMap symKeys

def DefsShort (objs : List ElfObj) : Prop :=
  ∀ obj ∈ objs, ∀ sym ∈ obj.symtab, defines sym → sym.name.length ≤ 127

theorem addFiles_keyed (ins : List Input) :
    Keyed Tables.names ((ins.map (·.obj)).flatMap defKeys) fun st => addFiles st ins := by
  rw [List.flatMap_map]
  exact Keyed.foldlM fun inp _ => addSymbols_keyed inp 0 inp.obj.symtab

theorem defineKernelEnd_keyed : Keyed Tables.names [str "_kernel_end"] defineKernelEnd :=
  keyed_findOrAdd _ fun _ r => modify_names r.1 r.2 (defineOwn_name _)

/-! ### Relocations -/

def secTarget (shdr : ElfShdr) : Option Nat :=
  if shdr.flags &&& SHF_ALLOC = 0 then none else targetIdx shdr.name

theorem mapSection_target (outs : List OutSec) (shdr : ElfShdr) :
    (mapSection outs shdr).2.outSecIdx = secTarget shdr := by
  unfold mapSection secTarget
  split
  · rfl
  · cases targetIdx shdr.name <;> rfl

theorem mapSections_target (outs : List OutSec) (shdrs : List ElfShdr) :
    (mapSections outs shdrs).2.map (·.outSecIdx) = shdrs.map secTarget := by
  induction shdrs generalizing outs with
  | nil => rfl
  | cons shdr shdrs ih => simp [mapSections, ih, mapSection_target]

/-- The mappings of an input say where its sections go. -/
def Input.Ok (inp : Input) : Prop :=
  inp.secMap.map (·.outSecIdx) = inp.obj.shdrs.map secTarget

theorem mapFiles_ok (outs : List OutSec) (objs : List ElfObj) :
    ∀ inp ∈ (mapFiles outs objs).2, inp.Ok := by
  induction objs generalizing outs with
  | nil => simp [mapFiles]
  | cons obj objs ih =>
    intro inp hinp
    simp only [mapFiles, List.mem_cons] at hinp
    rcases hinp with rfl | hinp
    · exact mapSections_target outs obj.shdrs
    · exact ih _ inp hinp

theorem Input.Ok.map {inp : Input} (h : inp.Ok) (i : Nat) :
    (inp.map i).outSecIdx = secTarget (inp.obj.shdrs.getD i noShdr) := by
  have := congrArg (fun l => l[i]?) h
  simp only [List.getElem?_map] at this
  simp only [Input.map, List.getD_eq_getElem?_getD]
  cases hm : inp.secMap[i]? <;> cases hs : inp.obj.shdrs[i]? <;> simp_all
  rfl

/-- The name that a relocation against a symbol puts into the table. -/
def relSymKeys (sym : ElfSym) : List (List UInt8) :=
  if sym.bind = STB_LOCAL ∧ sym.shndx ≠ SHN_UNDEF then [] else [sym.name]

/-- The names that the relocations of a file put into the table. -/
def relKeys (obj : ElfObj) : List (List UInt8) :=
  obj.shdrs.flatMap fun shdr =>
    if shdr.type = SHT_REL ∧ (secTarget (obj.shdrs.getD shdr.info noShdr)).isSome then
      shdr.rels.flatMap fun rel => relSymKeys (obj.symtab.getD rel.sym noSym)
    else []

theorem applyRel_keyed (inp : Input) (target outIdx : Nat) (rel : ElfRel) :
    Keyed Tables.names (relSymKeys (inp.obj.symtab.getD rel.sym noSym)) fun st =>
      applyRel inp target outIdx st rel := by
  unfold applyRel relocSym
  generalize inp.obj.symtab.getD rel.sym noSym = sym
  unfold relSymKeys
  split
  · intro st hst
    exact ⟨fun _ => ⟨_, rfl, rfl⟩, fun h => absurd hst (Nat.not_le.mpr h)⟩
  · simp only [Option.map_map]
    exact keyed_findOrAdd sym.name fun _ _ => rfl

/-- The names of relocations fit an entry of the table. -/
def RelsShort (objs : List ElfObj) : Prop := ∀ obj ∈ objs, ∀ n ∈ relKeys obj, n.length ≤ 127

theorem applyRelocations_keyed {ins : List Input} (hok : ∀ inp ∈ ins, inp.Ok) :
    Keyed Tables.names ((ins.map (·.obj)).flatMap relKeys) fun st => applyRelocations st ins := by
  rw [List.flatMap_map]
  refine Keyed.foldlM fun inp hinp => Keyed.foldlM fun shdr hshdr => ?_
  unfold applyShdr
  by_cases hrel : shdr.type = SHT_REL
  · simp only [hrel, if_true, true_and]
    rw [(hok inp hinp).map]
    cases htarget : secTarget (inp.obj.shdrs.getD shdr.info noShdr) with
    | none => exact Keyed.pure _
    | some outIdx =>
      exact Keyed.foldlM fun rel _ => applyRel_keyed inp shdr.info outIdx rel
  · simp only [hrel, if_false, false_and]
    exact Keyed.pure _

end Gemios.Ld
