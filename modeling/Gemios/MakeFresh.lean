import Gemios.MakeBuild

/-!
# What a build leaves

Without cycles a build that goes well has looked at all that its goal needs, and every file it
has a recipe for exists and is not older than its prerequisites.
-/

namespace Gemios.Make

variable {mk : Makefile} {env : Env} {depth : Nat} {fs₀ : Files} {T : List Name} {goal : Name}

def Visited (log : List Event) (t : Name) : Prop := ∃ ps b, .visit t ps b ∈ log

/-- The file exists and is not older than the files `ps`. -/
def UpToDate (fs : Files) (t : Name) (ps : List Name) : Prop :=
  ∃ m, fs t = some m ∧ ∀ p ∈ ps, getMtime fs p ≤ m

/-- What holds of the targets whose calls have ended. -/
structure Settled (mk : Makefile) (st : State) : Prop where
  prereqs : ∀ u ps b, .visit u ps b ∈ st.log → u ∉ st.stack →
    ∀ p ∈ ps, Visited st.log p ∧ (mk.isPhony p ∨ p ∈ st.names)
  fresh : ∀ u ps, .visit u ps true ∈ st.log → u ∉ st.stack → mk.isPhony u = false →
    UpToDate st.fs u ps

theorem Visited.mono {log log' : List Event} (h : ∀ e ∈ log, e ∈ log') {t : Name}
    (ht : Visited log t) : Visited log' t := by
  obtain ⟨ps, b, hv⟩ := ht
  exact ⟨ps, b, h _ hv⟩

theorem Settled.emit {st : State} (h : Settled mk st) {e : Event} (he : ∀ u ps b, e ≠ .visit u ps b) :
    Settled mk (st.emit e) := by
  refine ⟨fun u ps b hmem hu p hp => ?_, fun u ps hmem hu hphony => ?_⟩
  · obtain ⟨hv, hor⟩ := h.prereqs u ps b (visit_mem_of_emit he hmem) hu p hp
    exact ⟨hv.mono fun _ hin => List.mem_append_left _ hin, hor⟩
  · exact h.fresh u ps (visit_mem_of_emit he hmem) hu hphony

theorem Settled.enter {st : State} (h : Settled mk st) {t : Name}
    (hroom : st.stack.length < MAX_CALL_DEPTH) : Settled mk (st.enter mk t) := by
  have hold : ∀ u ps b, .visit u ps b ∈ (st.enter mk t).log → u ∉ (st.enter mk t).stack →
      .visit u ps b ∈ st.log ∧ u ∉ st.stack := by
    intro u ps b hmem hu
    rw [enter_stack mk hroom, List.mem_append, List.mem_singleton, not_or] at hu
    rw [enter_log, List.mem_append, List.mem_singleton] at hmem
    rcases hmem with hmem | heq
    · exact ⟨hmem, hu.1⟩
    · cases heq
      exact absurd rfl hu.2
  refine ⟨fun u ps b hmem hu p hp => ?_, fun u ps hmem hu hphony => ?_⟩
  · obtain ⟨hmem', hu'⟩ := hold u ps b hmem hu
    obtain ⟨hv, hor⟩ := h.prereqs u ps b hmem' hu' p hp
    refine ⟨hv.mono fun _ hin => ?_, by rwa [enter_names]⟩
    rw [enter_log]
    exact List.mem_append_left _ hin
  · obtain ⟨hmem', hu'⟩ := hold u ps true hmem hu
    rw [enter_fs]
    exact h.fresh u ps hmem' hu' hphony

/-- What the loop over the prerequisites of a target that is not phony has compared. -/
def Compared (fs : Files) (ps : List Name) (targetMtime : Nat) (needs needs' : Bool) : Prop :=
  needs' = false → needs = false ∧ ∀ p ∈ ps, getMtime fs p ≤ targetMtime

theorem needsAfter_false {st : State} {t p : Name} {m : Nat} {needs : Bool}
    (ht : mk.isPhony t = false) (h : needsAfter mk st t m needs p = false) :
    needs = false ∧ getMtime st.fs p ≤ m := by
  simp only [needsAfter, ht, Bool.false_eq_true, if_false, Bool.or_eq_false_iff,
    decide_eq_false_iff_not, not_lt] at h
  exact ⟨h.1.1, h.2⟩

theorem Closed.upToDate {fs : Files} {st' st'' : State} {t : Name} {ps : List Name}
    {recipe needs : Bool}
    (h : Closed mk st' st'' t recipe (rebuilds mk t ps recipe (fs t).isSome needs)) (hrecipe : recipe)
    (ht : mk.isPhony t = false) (hsame : st'.fs t = fs t)
    (hcompared : Compared st'.fs ps (getMtime fs t) false needs)
    (hkept : ∀ p ∈ ps, st''.fs p = st'.fs p) : UpToDate st''.fs t ps := by
  cases hrebuilt : rebuilds mk t ps recipe (fs t).isSome needs with
  | true =>
    obtain ⟨time, htime, hnewer⟩ := h.made hrebuilt hrecipe ht
    refine ⟨time, htime, fun p hp => ?_⟩
    rw [getMtime, hkept p hp]
    cases hfile : st'.fs p with
    | none => exact Nat.zero_le time
    | some m => exact (hnewer p m hfile).le
  | false =>
    have hfs := h.kept hrebuilt
    simp only [rebuilds, Bool.or_eq_false_iff, Bool.not_eq_false'] at hrebuilt
    obtain ⟨⟨⟨hneeds, -⟩, hexists⟩, -⟩ := hrebuilt
    obtain ⟨m, hm⟩ := Option.isSome_iff_exists.mp hexists
    have hmtime : getMtime fs t = m := by simp [getMtime, hm]
    refine ⟨m, by rw [hfs, hsame, hm], fun p hp => ?_⟩
    rw [hfs, ← hmtime]
    exact (hcompared hneeds).2 p hp

theorem Settled.finish {st st' st'' : State} (hset : Settled mk st) (h : Settled mk st')
    (hinv : Inv mk fs₀ T goal st) {t : Name} (hskip : ¬Skips mk st t) (hroom : st.stack.length < MAX_CALL_DEPTH)
    (hloop : LoopPost mk fs₀ T goal (st.enter mk t) (mk.prereqsOf st.fs t) st' true)
    (hnotin : ∀ p ∈ mk.prereqsOf st.fs t, p ∉ st.stack ++ [t]) {needs : Bool}
    (hvisited : ∀ p ∈ mk.prereqsOf st.fs t, Visited st'.log p)
    (hcompared : mk.isPhony t = false →
      Compared st'.fs (mk.prereqsOf st.fs t) (getMtime st.fs t) false needs)
    (hstack : st''.stack = st.stack) (hevents : ∀ e ∈ st'.log, e ∈ st''.log)
    (hvisits : ∀ u ps b, .visit u ps b ∈ st''.log → .visit u ps b ∈ st'.log)
    (hclosed : Closed mk st' st'' t (mk.hasRecipe st.fs t)
      (rebuilds mk t (mk.prereqsOf st.fs t) (mk.hasRecipe st.fs t) (st.fs t).isSome needs)) :
    Settled mk st'' := by
  obtain ⟨ht, hcached⟩ := not_skips_iff.mp hskip
  have hstack' : st'.stack = st.stack ++ [t] := hloop.stack.trans (enter_stack mk hroom t)
  -- a visit of `t` is the one of this call, or an earlier one of a phony target
  have hvisit : ∀ ps b, .visit t ps b ∈ st'.log → .visit t ps b ∈ st.log ∨
      (ps = mk.prereqsOf st.fs t ∧ b = mk.hasRecipe st.fs t) := by
    intro ps b hmem
    have hmem' := hloop.visits t (by simp [enter_stack mk hroom t]) ps b hmem
    rw [enter_log, List.mem_append, List.mem_singleton] at hmem'
    refine hmem'.imp id fun heq => ?_
    cases heq
    exact ⟨rfl, rfl⟩
  -- a prerequisite in the cache is not `t`, unless that is phony
  have hkept : ∀ p, mk.isPhony p ∨ p ∈ st'.names → st''.fs p = st'.fs p := by
    intro p hp
    apply hclosed.files
    by_cases hpt : p = t
    · refine .inr (hp.elim id fun hin => ?_)
      subst hpt
      rcases hloop.names rfl p hin with hold | hnot
      · exact hcached (by rwa [enter_names] at hold)
      · exact absurd (by simp [enter_stack mk hroom p]) hnot
    · exact .inl hpt
  have hprereqs : ∀ p ∈ mk.prereqsOf st.fs t, mk.isPhony p ∨ p ∈ st'.names := by
    intro p hp
    rcases hloop.cached rfl p hp with hin | hin
    · rw [enter_stack mk hroom t] at hin
      exact absurd hin (hnotin p hp)
    · exact hin
  refine ⟨fun u ps b hmem hu p hp => ?_, fun u ps hmem hu hphony => ?_⟩
  · have hmem' := hvisits u ps b hmem
    have hsplit : Visited st'.log p ∧ (mk.isPhony p ∨ p ∈ st'.names) := by
      by_cases hut : u = t
      · subst hut
        rcases hvisit ps b hmem' with hold | ⟨rfl, rfl⟩
        · obtain ⟨hv, hor⟩ := hset.prereqs u ps b hold ht p hp
          refine ⟨hv.mono fun e he => hloop.events e ?_, hor.imp id fun hin => ?_⟩
          · rw [enter_log]
            exact List.mem_append_left _ he
          · exact (hloop.frame rfl).names p (by rwa [enter_names])
        · exact ⟨hvisited p hp, hprereqs p hp⟩
      · refine h.prereqs u ps b hmem' ?_ p hp
        rw [hstack', List.mem_append, List.mem_singleton, not_or]
        exact ⟨hstack ▸ hu, hut⟩
    exact ⟨hsplit.1.mono hevents, hsplit.2.imp id fun hin => (hclosed.names p).mpr (.inl hin)⟩
  · have hmem' := hvisits u ps true hmem
    by_cases hut : u = t
    · subst hut
      rcases hvisit ps true hmem' with hold | ⟨rfl, hrecipe⟩
      · rcases hinv.cover u ps true hold hphony with hin | hin
        · exact absurd (hcached hin) (by simp [hphony])
        · exact absurd hin ht
      have hsame : st'.fs u = st.fs u := by
        rw [(hloop.frame rfl).files u (.inr (.inl (by simp [enter_stack mk hroom u]))), enter_fs]
      exact hclosed.upToDate hrecipe.symm hphony hsame (hcompared hphony)
        fun p hp => hkept p (hprereqs p hp)
    · have hu' : u ∉ st'.stack := by
        rw [hstack', List.mem_append, List.mem_singleton, not_or]
        exact ⟨hstack ▸ hu, hut⟩
      obtain ⟨m, hm, hle⟩ := h.fresh u ps hmem' hu' hphony
      refine ⟨m, by rw [hclosed.files u (.inl hut), hm], fun p hp => ?_⟩
      rw [getMtime, hkept p (h.prereqs u ps true hmem' hu' p hp).2]
      exact hle p hp

theorem settled_rules (hplan : Plan mk fs₀ T goal) (hacyclic : Acyclic mk fs₀ T) :
    RunRules mk env depth
    (fun st t st' ok => Inv mk fs₀ T goal st → Path mk fs₀ T goal st.stack t →
      CallPost mk fs₀ T goal st t st' ok ∧
        (Settled mk st → ok → Settled mk st' ∧ Visited st'.log t))
    (fun t m st needs _ ps st' r => Inv mk fs₀ T goal st →
      (∀ p ∈ ps, Path mk fs₀ T goal st.stack p) →
      LoopPost mk fs₀ T goal st ps st' r.isSome ∧
        (Settled mk st → ∀ needs', r = some needs' → Settled mk st' ∧
          (∀ p ∈ ps, Visited st'.log p) ∧
          (mk.isPhony t = false → Compared st'.fs ps m needs needs'))) where
  skip st t hskip hinv hpath := by
    refine ⟨(plan_rules env depth hplan).skip st t hskip hinv hpath, fun hset _ => ⟨hset, ?_⟩⟩
    rcases hskip with hin | ⟨hin, -⟩
    · exact absurd (by simpa using hin) (hpath.not_mem hacyclic)
    · exact hinv.names_visited t ((findBuilt_isSome st t).mp hin)
  missing st t hskip hmissing hinv hpath :=
    ⟨(plan_rules env depth hplan).missing st t hskip hmissing hinv hpath, by simp⟩
  nil t m st needs i hinv hpaths := by
    refine ⟨(plan_rules env depth hplan).nil t m st needs i hinv hpaths, fun hset needs' heq => ?_⟩
    cases heq
    exact ⟨hset, by simp, fun _ hneeds => ⟨hneeds, by simp⟩⟩
  fail t m st needs i p ps st' h hinv hpaths :=
    ⟨(plan_rules env depth hplan).fail t m st needs i p ps st' (fun h1 h2 => (h h1 h2).1) hinv hpaths,
      by simp⟩
  cons t m st needs i p ps st₁ st' r h1 h2 hinv hpaths := by
    refine ⟨(plan_rules env depth hplan).cons t m st needs i p ps st₁ st' r (fun a b => (h1 a b).1)
      (fun a b => (h2 a b).1) hinv hpaths, fun hset needs' hr => ?_⟩
    have hpath := hpaths p (List.mem_cons_self ..)
    obtain ⟨hp1, hset1⟩ := h1 (hinv.emit not_visit_call) hpath
    obtain ⟨hset₁, hv₁⟩ := hset1 (hset.emit not_visit_call) rfl
    obtain ⟨hp2, hset2⟩ := h2 ((hp1.inv rfl).emit not_visit_done) (by
      intro q hq
      rw [emit_stack, hp1.stack]
      exact hpaths q (List.mem_cons_of_mem _ hq))
    obtain ⟨hset', hv', hcompared⟩ := hset2 (hset₁.emit not_visit_done) needs' hr
    refine ⟨hset', fun q hq => ?_, fun ht hneeds => ?_⟩
    · rcases List.mem_cons.mp hq with rfl | hq
      · exact hv₁.mono fun e he => hp2.events e (List.mem_append_left _ he)
      · exact hv' q hq
    · obtain ⟨hafter, hle⟩ := hcompared ht hneeds
      obtain ⟨hbefore, hp⟩ := needsAfter_false ht hafter
      refine ⟨hbefore, fun q hq => ?_⟩
      rcases List.mem_cons.mp hq with rfl | hq
      · -- the file of a prerequisite that is done stays as it is
        have hkept : st'.fs q = st₁.fs q := by
          refine (hp2.frame (by simp [hr])).files q ?_
          rcases hp1.cached rfl with hin | hin | hin
          · exact absurd hin (hpath.not_mem hacyclic)
          · exact .inr (.inr hin)
          · exact .inl hin
        rw [getMtime, hkept]
        exact hp
      · exact hle q hq
  stop st t st' hskip hmissing h hinv hpath :=
    ⟨(plan_rules env depth hplan).stop st t st' hskip hmissing (fun a b => (h a b).1) hinv hpath,
      by simp⟩
  build st t st' needs r hskip hmissing h hr hinv hpath := by
    have hpost := (plan_rules env depth hplan).build st t st' needs r hskip hmissing
      (fun a b => (h a b).1) hr hinv hpath
    refine ⟨hpost, fun hset hok => ?_⟩
    have hpaths := hinv.paths hplan hpath hskip
    obtain ⟨hloop, hset1⟩ := h (hinv.enter hplan hpath hskip) hpaths
    have hroom := hpath.length_lt hplan (not_skips_iff.mp hskip).1
    obtain ⟨hset', hv', hcompared⟩ := hset1 (hset.enter hroom) needs rfl
    obtain ⟨hstack, -, hclosed⟩ := (hloop.inv rfl).finish hplan
      (hloop.stack.trans (enter_stack mk hroom t)) hpath.reach
      ⟨_, _, hloop.events _ (enter_visit mk st t)⟩ hr
    obtain ⟨hevents, hvisits⟩ := finish_events hr
    have hnotin : ∀ p ∈ mk.prereqsOf st.fs t, p ∉ st.stack ++ [t] := by
      intro p hp
      rw [← enter_stack mk hroom t]
      exact (hpaths p hp).not_mem hacyclic
    refine ⟨hset.finish hset' hinv hskip hroom hloop hnotin hv' hcompared hstack hevents hvisits
      (hclosed hok).2, ?_⟩
    exact ⟨_, _, hevents _ (hloop.events _ (enter_visit mk st t))⟩

/-! ### A whole build -/

theorem inv_start : Inv mk fs₀ T goal (start fs₀) := by
  refine ⟨⟨⟨?_, ?_⟩, stage_refl, ?_, List.nodup_nil, ?_⟩, ?_⟩ <;> simp [start, State.names]

theorem settled_start : Settled mk (start fs₀) := ⟨by simp [start], by simp [start]⟩

/-- What a build of `goal` does and leaves: a recipe runs after all prerequisites of its target
    are done, and once at most.  If the build succeeds and the rules have no cycle, the goal and
    with a target also its prerequisites are looked at, and what has a recipe is up to date. -/
structure Builds (mk : Makefile) (fs₀ : Files) (T : List Name) (goal : Name) (st : State) (ok : Bool) :
    Prop where
  rules : ∀ u ps b, .visit u ps b ∈ st.log →
    ∃ fs, Stage fs₀ T fs ∧ ps = mk.prereqsOf fs u ∧ b = mk.hasRecipe fs u
  recipes : ∀ u ps, .recipe u ps ∈ st.log → .visit u ps true ∈ st.log
  order : ∀ l₁ u ps l₂, st.log = l₁ ++ .recipe u ps :: l₂ →
    ∀ i p, ps[i]? = some p → .done u i p ∈ l₁
  once : ∀ u, st.log.countP (isRecipe u) ≤ 1
  complete : Acyclic mk fs₀ T → ok → Visited st.log goal ∧
    (∀ u ps b, .visit u ps b ∈ st.log → ∀ p ∈ ps, Visited st.log p) ∧
    ∀ u ps, .visit u ps true ∈ st.log → mk.isPhony u = false → UpToDate st.fs u ps

def quietEnv : Env where
  environ := []
  shell _ _ _ _ := []
  system _ _ _ _ := 0
  time st _ := st.fs.latest + 1
  newer st _ n m h := Nat.lt_succ_of_le (st.fs.le_latest n m h)

theorem plan_of_length (hgoal : goal ∈ T) (hclosed : ∀ t ∈ T, ∀ p, Needs mk fs₀ T t p → p ∈ T)
    (hlen : T.length ≤ MAX_CALL_DEPTH) (hnames : ∀ t ∈ T, t.length ≤ 511) : Plan mk fs₀ T goal := by
  refine ⟨hgoal, hclosed, hlen.trans (by decide), hnames, fun l hnodup hchain hhead => ?_⟩
  have hmem : ∀ n ∈ l, n ∈ T := by
    clear hnodup
    induction l generalizing goal with
    | nil => simp
    | cons a l ih =>
      obtain rfl : a = goal := by simpa using hhead
      intro n hn
      rcases List.mem_cons.mp hn with rfl | hn
      · exact hgoal
      · cases l with
        | nil => contradiction
        | cons b l =>
          obtain ⟨hneeds, hrest⟩ := List.isChain_cons_cons.mp hchain
          exact ih (hclosed a hgoal b hneeds) hrest rfl n hn
  exact (hnodup.subperm hmem).length_le.trans hlen

/-- `g: a.o`, phony, and `%.o: %.c` with the recipe `$(C) $<`. -/
def compiled : Makefile where
  rules := [⟨str "g", [str "a.o"], [], false⟩, ⟨str "%.o", [str "%.c"], [str "$(C) $<"], true⟩]
  phony := [str "g"]
  vars := [⟨str "C", str ":", false⟩]

def sourceFile : Files where
  mtime n := if n = str "a.c" then some 5 else none
  latest := 5
  le_latest n m h := by
    split at h
    · exact Nat.le_of_eq (Option.some.inj h).symm
    · cases h

def compiledTargets : List Name := [str "g", str "a.o", str "a.c"]

def compiledRule : Found := ⟨⟨str "%.o", [str "%.c"], [str "$(C) $<"], true⟩, [str "a.c"], str "a"⟩

theorem compiled_goal (fs : Files) : compiled.findRule fs (str "g") =
    .ok (some ⟨⟨str "g", [str "a.o"], [], false⟩, [str "a.o"], []⟩) := rfl

theorem compiled_source (fs : Files) : compiled.findRule fs (str "a.c") = .ok none := rfl

theorem compiled_object {fs : Files} (hs : Stage sourceFile compiledTargets fs) :
    compiled.findRule fs (str "a.o") = .ok (some compiledRule) := by
  have hfile : (fs (str "a.c")).isSome = true := (hs (str "a.c")).1 rfl
  have hexists : canBuildOrExists compiled fs 21 (str "a.c") = .ok true := by
    rw [canBuildOrExists, hfile, Bool.true_or, Bool.true_or, if_pos rfl]
  have hpattern : compiled.matchPatternRule fs (str "a.o") =
      .ok (some (compiledRule.rule, str "a")) := by
    have hlast : (canBuildOrExists compiled fs 21 (str "a.c") >>= fun b =>
        (pure (if b then some (compiledRule.rule, str "a") else none) : Except Fault _)) =
          .ok (some (compiledRule.rule, str "a")) := by
      rw [hexists]
      rfl
    have hrules : compiled.rules = [⟨str "g", [str "a.o"], [], false⟩, compiledRule.rule] := rfl
    rw [Makefile.matchPatternRule, hrules]
    refine Eq.trans (findSomeM?_cons_none ?_) (findSomeM?_cons_some ?_)
    · rfl
    · exact hlast
  rw [Makefile.findRule, hpattern]
  rfl

theorem plan_compiled : Plan compiled sourceFile compiledTargets (str "g") := by
  refine plan_of_length (by decide) ?_ (by decide) (by decide)
  rintro t ht p ⟨i, fs, hs, hp⟩
  have hmem := List.mem_of_getElem? hp
  simp only [compiledTargets, List.mem_cons, List.not_mem_nil, or_false] at ht
  rcases ht with rfl | rfl | rfl
  · rw [Makefile.prereqsOf, ruleFor_of_findRule (compiled_goal fs)] at hmem
    rw [List.mem_singleton.mp hmem]
    decide
  · rw [Makefile.prereqsOf, ruleFor_of_findRule (compiled_object hs)] at hmem
    rw [List.mem_singleton.mp hmem]
    decide
  · rw [Makefile.prereqsOf, ruleFor_of_findRule (compiled_source fs)] at hmem
    cases hmem

theorem usable_compiled : Usable compiled [] sourceFile compiledTargets := by
  constructor
  · intro t ht fs hs
    simp only [compiledTargets, List.mem_cons, List.not_mem_nil, or_false] at ht
    rcases ht with rfl | rfl | rfl
    · exact ⟨_, compiled_goal fs⟩
    · exact ⟨_, compiled_object hs⟩
    · exact ⟨_, compiled_source fs⟩
  · intro t ht fs f hs hf cmd hcmd
    simp only [compiledTargets, List.mem_cons, List.not_mem_nil, or_false] at ht
    rcases ht with rfl | rfl | rfl
    · rw [ruleFor_of_findRule (compiled_goal fs), Option.some.injEq] at hf
      subst hf
      cases hcmd
    · rw [ruleFor_of_findRule (compiled_object hs), Option.some.injEq] at hf
      subst hf
      rw [List.mem_singleton.mp hcmd]
      exact (expand_ends_iff _ _).mp ⟨2, _, rfl⟩
    · rw [ruleFor_of_findRule (compiled_source fs)] at hf
      cases hf

theorem not_runs_compiled (p : Name) : ¬Runs compiled sourceFile compiledTargets p := by
  intro h
  induction h with
  | @recipe p hphony hrecipe =>
    obtain ⟨fs, -, hrecipe⟩ := hrecipe
    have hp : p = str "g" := by simpa [compiled, Makefile.isPhony] using hphony
    rw [hp, Makefile.hasRecipe, ruleFor_of_findRule (compiled_goal fs)] at hrecipe
    contradiction
  | through _ _ _ ih => exact ih

/-- `g` needs `a` and `b`, and both need a phony `p` with a recipe. -/
def shared : Makefile where
  rules := [⟨str "g", [str "a", str "b"], [], false⟩, ⟨str "a", [str "p"], [], false⟩,
    ⟨str "b", [str "p"], [], false⟩, ⟨str "p", [], [str ":"], false⟩]
  phony := [str "p"]
  vars := []

end Gemios.Make
