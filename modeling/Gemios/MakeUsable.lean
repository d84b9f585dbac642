import Gemios.MakeExpand
import Gemios.MakePlan

/-!
# Rules that can be used

The look-up of a rule keeps every stem in an array, and a recipe expands its commands.  Neither
goes wrong for the targets of a goal where the stems are short enough and no expansion runs in a
circle.
-/

namespace Gemios.Make

/-- What the expansion of a command of `f` depends on, but for what other commands write. -/
def Makefile.commandScope (mk : Makefile) (environ : List (Name × List UInt8)) (f : Found) (t : Name) :
    Scope where
  vars := mk.vars
  environ := environ
  shell _ := []
  ctx := f.autoVars t

/-- The rules of the targets `T` can be used: their look-up stays inside the stems, and no
    command of theirs expands a text inside its own expansion, or reads behind a `$` at the end
    of one. -/
structure Usable (mk : Makefile) (environ : List (Name × List UInt8)) (fs₀ : Files) (T : List Name) :
    Prop where
  stems : ∀ t ∈ T, ∀ fs, Stage fs₀ T fs → ∃ found, mk.findRule fs t = .ok found
  commands : ∀ t ∈ T, ∀ fs f, Stage fs₀ T fs → mk.ruleFor fs t = some f → ∀ cmd ∈ f.rule.commands,
    ∀ s, Expands (mk.commandScope environ f t) cmd s →
      ¬ ExpandsInside (mk.commandScope environ f t) s s ∧
        ¬ EndsInDollar (mk.commandScope environ f t) s

variable {mk : Makefile} {env : Env} {fs₀ : Files} {T : List Name}

/-! ### Look-ups -/

theorem matchStem_eq {pattern str : Name}
    (h : ∀ stem, matchPattern pattern str = some stem → stem.length < STEM_SIZE) :
    matchStem pattern str = .ok (matchPattern pattern str) := by
  unfold matchStem matchPatternBuf
  cases hm : matchPattern pattern str with
  | none => rfl
  | some stem => simp [Nat.succ_le_of_lt (h stem hm)]

/-- `u` may be tried as the first prerequisite of a pattern rule for `t`. -/
def Tries (mk : Makefile) (t u : Name) : Prop :=
  ∃ r ∈ mk.rules, ∃ stem, ∃ p ps, r.isPattern ∧ matchPattern r.target t = some stem ∧
    r.prereqs = p :: ps ∧ u = substStem p stem

/-- The pattern rules that match `t` have stems that fit. -/
def StemsFit (mk : Makefile) (t : Name) : Prop :=
  ∀ r ∈ mk.rules, r.isPattern → ∀ stem, matchPattern r.target t = some stem →
    stem.length < STEM_SIZE

theorem anyM_ok {α : Type} {p : α → Except Fault Bool} {l : List α}
    (h : ∀ a ∈ l, ∃ b, p a = .ok b) : ∃ b, l.anyM p = .ok b := by
  induction l with
  | nil => exact ⟨false, rfl⟩
  | cons a l ih =>
    rw [List.forall_mem_cons] at h
    obtain ⟨b, hb⟩ := h.1
    rw [List.anyM_cons, hb]
    cases b with
    | true => exact ⟨true, rfl⟩
    | false => exact ih h.2

section

variable {α β : Type} {f : α → Except Fault (Option β)} {a : α} {l : List α} {b : β}

theorem findSomeM?_cons_none (h : f a = .ok none) : (a :: l).findSomeM? f = l.findSomeM? f := by
  rw [List.findSomeM?_cons, h]
  rfl

theorem findSomeM?_cons_some (h : f a = .ok (some b)) : (a :: l).findSomeM? f = .ok (some b) := by
  rw [List.findSomeM?_cons, h]
  rfl

theorem findSomeM?_mem (h : l.findSomeM? f = .ok (some b)) : ∃ a ∈ l, f a = .ok (some b) := by
  induction l with
  | nil => cases h
  | cons a l ih =>
    cases ha : f a with
    | error e =>
      rw [List.findSomeM?_cons, ha] at h
      cases h
    | ok r =>
      cases r with
      | some c => exact ⟨a, List.mem_cons_self, ha.trans ((findSomeM?_cons_some ha).symm.trans h)⟩
      | none =>
        rw [findSomeM?_cons_none ha] at h
        obtain ⟨a', hmem, h'⟩ := ih h
        exact ⟨a', List.mem_cons_of_mem a hmem, h'⟩

theorem findSomeM?_ok (h : ∀ a ∈ l, ∃ r, f a = .ok r) : ∃ r, l.findSomeM? f = .ok r := by
  induction l with
  | nil => exact ⟨none, rfl⟩
  | cons a l ih =>
    rw [List.forall_mem_cons] at h
    obtain ⟨r, hr⟩ := h.1
    cases r with
    | some b => exact ⟨some b, findSomeM?_cons_some hr⟩
    | none =>
      rw [findSomeM?_cons_none hr]
      exact ih h.2

end

theorem canBuildOrExists_ok {fs : Files} {fuel : Nat} {t : Name}
    (h : ∀ u, Relation.ReflTransGen (Tries mk) t u → StemsFit mk u) :
    ∃ b, canBuildOrExists mk fs fuel t = .ok b := by
  induction fuel generalizing t with
  | zero =>
    rw [canBuildOrExists]
    split
    · exact ⟨true, rfl⟩
    · exact ⟨false, rfl⟩
  | succ fuel ih =>
    rw [canBuildOrExists]
    split
    · exact ⟨true, rfl⟩
    refine anyM_ok fun r hr => ?_
    cases hpat : r.isPattern with
    | false => exact ⟨false, rfl⟩
    | true =>
      rw [if_pos rfl, matchStem_eq (h t .refl r hr hpat)]
      cases hstem : matchPattern r.target t with
      | none => exact ⟨false, rfl⟩
      | some stem =>
        cases hps : r.prereqs with
        | nil => exact ⟨true, rfl⟩
        | cons p ps =>
          have htries : Tries mk t (substStem p stem) := ⟨r, hr, stem, p, ps, hpat, hstem, hps, rfl⟩
          exact ih fun u hu => h u (.head htries hu)

/-- **A look-up ends well** where the stems of the target, and of all that is tried for it, fit. -/
theorem findRule_ok {fs : Files} {t : Name}
    (h : ∀ u, Relation.ReflTransGen (Tries mk) t u → StemsFit mk u) :
    ∃ found, mk.findRule fs t = .ok found := by
  unfold Makefile.findRule
  cases mk.findExplicitRule t with
  | some r => exact ⟨_, rfl⟩
  | none =>
    have hpattern : ∃ r, mk.matchPatternRule fs t = .ok r := by
      refine findSomeM?_ok fun r hr => ?_
      cases hpat : r.isPattern with
      | false => exact ⟨none, rfl⟩
      | true =>
        rw [if_pos rfl, matchStem_eq (h t .refl r hr hpat)]
        cases hstem : matchPattern r.target t with
        | none => exact ⟨none, rfl⟩
        | some stem =>
          cases hps : r.prereqs with
          | nil => exact ⟨some (r, stem), rfl⟩
          | cons p ps =>
            have htries : Tries mk t (substStem p stem) :=
              ⟨r, hr, stem, p, ps, hpat, hstem, hps, rfl⟩
            exact (return_ok fun b => if b then some (r, stem) else none).mpr
              (canBuildOrExists_ok fun u hu => h u (.head htries hu))
    obtain ⟨r, hr⟩ := hpattern
    exact ⟨_, by rw [hr]; rfl⟩

/-! ### Recipes -/

theorem EndsWithin.shell {S : Scope} {fuel : Nat} {s : List UInt8} (h : EndsWithin S fuel s)
    (shell : List UInt8 → List UInt8) : EndsWithin { S with shell } fuel s := by
  induction fuel generalizing s with
  | zero =>
    obtain ⟨r, hr⟩ := h
    cases hr
  | succ fuel ih =>
    rw [endsWithin_succ] at h ⊢
    exact ⟨h.1, fun t ht => ih (h.2 t ht)⟩

theorem rule_mem_of_ruleFor {fs : Files} {t : Name} {f : Found} (h : mk.ruleFor fs t = some f) :
    f.rule ∈ mk.rules := by
  have hfind : mk.findRule fs t = .ok (some f) := by
    unfold Makefile.ruleFor at h
    cases hr : mk.findRule fs t with
    | error e =>
      rw [hr] at h
      cases h
    | ok found =>
      rw [hr] at h
      exact congrArg Except.ok h
  unfold Makefile.findRule at hfind
  split at hfind
  · rename_i r hexplicit
    cases hfind
    exact List.mem_of_find?_eq_some hexplicit
  · obtain ⟨r, hr, heq⟩ := bind_eq_ok hfind
    obtain ⟨⟨rule, stem⟩, hsome, rfl⟩ := Option.map_eq_some_iff.mp (Except.ok.inj heq)
    rw [hsome] at hr
    obtain ⟨r, hmem, hpat⟩ := findSomeM?_mem hr
    split at hpat
    · obtain ⟨m, -, hm⟩ := bind_eq_ok hpat
      cases m with
      | none => cases hm
      | some stem' =>
        dsimp only at hm
        split at hm
        · cases hm
          exact hmem
        · obtain ⟨b, -, hb⟩ := bind_eq_ok hm
          cases b with
          | false => cases hb
          | true =>
            cases hb
            exact hmem
    · cases hpat

def Makefile.commands (mk : Makefile) : List (List UInt8) := mk.rules.flatMap Rule.commands

/-- How deep the expansions of the commands can be nested: not deeper than there are texts. -/
noncomputable def Makefile.expandDepth (mk : Makefile) (environ : List (Name × List UInt8)) : Nat :=
  (mk.commands.map fun cmd => (texts ⟨mk.vars, environ, fun _ => [], {}⟩ cmd).card).sum

theorem Usable.endsWithin (h : Usable mk env.environ fs₀ T) {fs : Files} (hs : Stage fs₀ T fs)
    {t : Name} (ht : t ∈ T) {f : Found} (hf : mk.ruleFor fs t = some f) {depth : Nat}
    (hdepth : mk.expandDepth env.environ ≤ depth) :
    ∀ cmd ∈ f.rule.commands, EndsWithin (mk.commandScope env.environ f t) depth cmd := by
  intro cmd hcmd
  refine (endsWithin_card (h.commands t ht fs f hs hf cmd hcmd)).mono ((Nat.le_trans ?_) hdepth)
  have hmem : cmd ∈ mk.commands := List.mem_flatMap.mpr ⟨f.rule, rule_mem_of_ruleFor hf, hcmd⟩
  exact List.single_le_sum (fun _ _ => Nat.zero_le _) _
    (List.mem_map_of_mem (f := fun cmd => (texts ⟨mk.vars, env.environ, fun _ => [], {}⟩ cmd).card) hmem)

theorem runCommands_ok {depth : Nat} {st : State} {t : Name} {f : Found} {i : Nat}
    {cmds : List (List UInt8)}
    (h : ∀ cmd ∈ cmds, EndsWithin (mk.commandScope env.environ f t) depth cmd) :
    ∃ b, runCommands mk env depth st t f i cmds = .ok b := by
  induction cmds generalizing i with
  | nil => exact ⟨true, rfl⟩
  | cons raw cmds ih =>
    rw [List.forall_mem_cons] at h
    obtain ⟨expanded, hexp⟩ := h.1.shell (env.shell st t i)
    have hscope : { mk.commandScope env.environ f t with shell := env.shell st t i } =
        recipeScope mk env st t f i := rfl
    rw [hscope] at hexp
    rw [runCommands, hexp]
    dsimp only
    split
    · exact ⟨false, rfl⟩
    · exact ih h.2

theorem finish_ok {depth : Nat} {st : State} {t : Name} {found : Option Found} {existed needs : Bool}
    (h : ∀ f, found = some f → ∀ cmd ∈ f.rule.commands,
      EndsWithin (mk.commandScope env.environ f t) depth cmd) :
    ∃ r, finish mk env depth st t found existed needs = .ok r := by
  unfold finish
  dsimp only
  split
  · exact ⟨_, rfl⟩
  cases found with
  | none => exact ⟨_, rfl⟩
  | some f =>
    dsimp only
    split
    · obtain ⟨b, hb⟩ : ∃ b, runCommands mk env depth (st.emit (.recipe t f.prereqs)) t f 0
          f.rule.commands = .ok b := runCommands_ok (h f rfl)
      rw [hb]
      cases b with
      | false => exact ⟨_, rfl⟩
      | true => exact ⟨_, rfl⟩
    · exact ⟨_, rfl⟩

end Gemios.Make
