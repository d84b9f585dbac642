import Gemios.MakeUsable

/-!
# The build is complete and in order

Over the plan of a goal the build ends, no recipe runs twice, and what it leaves is up to date.
-/

namespace Gemios.Make

variable {mk : Makefile} {env : Env} {depth : Nat} {fs₀ : Files} {T : List Name} {goal : Name}

/-! ### Every call keeps the invariant -/

structure CallPost (mk : Makefile) (fs₀ : Files) (T : List Name) (goal : Name) (st : State)
    (t : Name) (st' : State) (ok : Bool) : Prop where
  stack : st'.stack = st.stack
  events : ∀ e ∈ st.log, e ∈ st'.log
  visits : ∀ u ∈ st.stack, ∀ qs b, .visit u qs b ∈ st'.log → .visit u qs b ∈ st.log
  log : VisitsOk mk fs₀ T goal st'.log
  inv : ok → Inv mk fs₀ T goal st'
  frame : ok → Frame mk st st'
  names : ok → ∀ n ∈ st'.names, n ∈ st.names ∨ n ∉ st.stack
  cached : ok → t ∈ st.stack ∨ mk.isPhony t ∨ t ∈ st'.names

/-- What the loop over the prerequisites `ps` leaves. -/
structure LoopPost (mk : Makefile) (fs₀ : Files) (T : List Name) (goal : Name) (st : State)
    (ps : List Name) (st' : State) (ok : Bool) : Prop where
  stack : st'.stack = st.stack
  events : ∀ e ∈ st.log, e ∈ st'.log
  visits : ∀ u ∈ st.stack, ∀ qs b, .visit u qs b ∈ st'.log → .visit u qs b ∈ st.log
  log : VisitsOk mk fs₀ T goal st'.log
  inv : ok → Inv mk fs₀ T goal st'
  frame : ok → Frame mk st st'
  names : ok → ∀ n ∈ st'.names, n ∈ st.names ∨ n ∉ st.stack
  cached : ok → ∀ p ∈ ps, p ∈ st.stack ∨ mk.isPhony p ∨ p ∈ st'.names

theorem not_visit_call {t p : Name} {i : Nat} : ∀ u ps b, Event.call t i p ≠ .visit u ps b :=
  fun _ _ _ heq => by cases heq

theorem not_visit_done {t p : Name} {i : Nat} : ∀ u ps b, Event.done t i p ≠ .visit u ps b :=
  fun _ _ _ heq => by cases heq

theorem visit_mem_of_emit {st : State} {e : Event} (he : ∀ u ps b, e ≠ .visit u ps b) {u : Name}
    {ps : List Name} {b : Bool} (h : .visit u ps b ∈ (st.emit e).log) : .visit u ps b ∈ st.log := by
  rw [emit_log, List.mem_append, List.mem_singleton] at h
  rcases h with h | heq
  · exact h
  · exact absurd heq.symm (he u ps b)

theorem visit_mem_of_enter {st : State} {t u : Name} (ht : t ∉ st.stack) (hu : u ∈ st.stack)
    {ps : List Name} {b : Bool} (h : .visit u ps b ∈ (st.enter mk t).log) : .visit u ps b ∈ st.log := by
  rw [enter_log, List.mem_append, List.mem_singleton] at h
  rcases h with h | heq
  · exact h
  · cases heq
    exact absurd hu ht

theorem enter_visit (mk : Makefile) (st : State) (t : Name) :
    .visit t (mk.prereqsOf st.fs t) (mk.hasRecipe st.fs t) ∈ (st.enter mk t).log := by
  rw [enter_log]
  exact List.mem_append_right _ (List.mem_singleton_self _)

theorem finish_events {st : State} {t : Name} {found : Option Found} {existed needs : Bool}
    {r : State × Bool} (hr : finish mk env depth st.pop t found existed needs = .ok r) :
    (∀ e ∈ st.log, e ∈ r.1.log) ∧ ∀ u qs b, .visit u qs b ∈ r.1.log → .visit u qs b ∈ st.log := by
  rcases finish_log hr with hl | ⟨-, hl⟩
  · rw [hl]
    exact ⟨fun _ h => h, fun _ _ _ h => h⟩
  · rw [hl]
    refine ⟨fun e he => List.mem_append_left _ he, fun u qs b hmem => ?_⟩
    simpa using hmem

theorem Inv.paths {st : State} (h : Inv mk fs₀ T goal st) (hplan : Plan mk fs₀ T goal) {t : Name}
    (hpath : Path mk fs₀ T goal st.stack t) (hskip : ¬Skips mk st t) :
    ∀ p ∈ mk.prereqsOf st.fs t, Path mk fs₀ T goal (st.enter mk t).stack p := by
  intro p hp
  have ht := (not_skips_iff.mp hskip).1
  rw [enter_stack mk (hpath.length_lt hplan ht) t]
  exact hpath.push ht (needs_of_mem h.stage hp)

theorem plan_rules (env : Env) (depth : Nat) (hplan : Plan mk fs₀ T goal) : RunRules mk env depth
    (fun st t st' ok => Inv mk fs₀ T goal st → Path mk fs₀ T goal st.stack t →
      CallPost mk fs₀ T goal st t st' ok)
    (fun _ _ st _ _ ps st' r => Inv mk fs₀ T goal st → (∀ p ∈ ps, Path mk fs₀ T goal st.stack p) →
      LoopPost mk fs₀ T goal st ps st' r.isSome) where
  skip st t hskip hinv _ := by
    refine ⟨rfl, fun _ h => h, fun _ _ _ _ h => h, hinv.log, fun _ => hinv, fun _ => .refl st,
      fun _ _ h => .inl h, fun _ => ?_⟩
    rcases hskip with hin | ⟨hin, -⟩
    · exact .inl (by simpa using hin)
    · exact .inr (.inr ((findBuilt_isSome st t).mp hin))
  missing st t _ _ hinv _ :=
    ⟨rfl, fun _ h => h, fun _ _ _ _ h => h, hinv.log, by simp, by simp, by simp, by simp⟩
  nil t m st needs i hinv _ :=
    ⟨rfl, fun _ h => h, fun _ _ _ _ h => h, hinv.log, fun _ => hinv, fun _ => .refl st,
      fun _ _ h => .inl h, by simp⟩
  fail t m st needs i p ps st' h hinv hpaths := by
    have hpost := h (hinv.emit not_visit_call) (hpaths p (List.mem_cons_self ..))
    refine ⟨hpost.stack, fun e he => hpost.events e (List.mem_append_left _ he), ?_, hpost.log,
      by simp, by simp, by simp, by simp⟩
    intro u hu qs b hmem
    exact visit_mem_of_emit not_visit_call (hpost.visits u hu qs b hmem)
  cons t m st needs i p ps st₁ st' r h1 h2 hinv hpaths := by
    have hp1 := h1 (hinv.emit not_visit_call) (hpaths p (List.mem_cons_self ..))
    have hinv₁ := hp1.inv rfl
    have hframe₁ : Frame mk st st₁ := ⟨(hp1.frame rfl).names, (hp1.frame rfl).files⟩
    have hp2 := h2 (hinv₁.emit not_visit_done) (by
      intro q hq
      rw [emit_stack, hp1.stack]
      exact hpaths q (List.mem_cons_of_mem _ hq))
    have hstack₁ : (st₁.emit (.done t i p)).stack = st.stack := hp1.stack
    refine ⟨hp2.stack.trans hp1.stack, ?_, ?_, hp2.log, hp2.inv, fun hr => ?_, fun hr n hn => ?_,
      fun hr q hq => ?_⟩
    · exact fun e he => hp2.events e
        (List.mem_append_left _ (hp1.events e (List.mem_append_left _ he)))
    · intro u hu qs b hmem
      have hmem₁ := visit_mem_of_emit not_visit_done (hp2.visits u (hstack₁ ▸ hu) qs b hmem)
      exact visit_mem_of_emit not_visit_call (hp1.visits u hu qs b hmem₁)
    · have hframe₂ := hp2.frame hr
      exact hframe₁.trans ⟨hframe₂.names, hframe₂.files⟩ hp1.stack
    · rcases hp2.names hr n hn with hin | hin
      · exact hp1.names rfl n hin
      · exact .inr (hstack₁ ▸ hin)
    · rcases List.mem_cons.mp hq with rfl | hq
      · rcases hp1.cached rfl with hin | hin | hin
        · exact .inl hin
        · exact .inr (.inl hin)
        · exact .inr (.inr ((hp2.frame hr).names q hin))
      · rcases hp2.cached hr q hq with hin | hin | hin
        · exact .inl (by rwa [emit_stack, hp1.stack] at hin)
        · exact .inr (.inl hin)
        · exact .inr (.inr hin)
  stop st t st' hskip _ h hinv hpath := by
    have hp := h (hinv.enter hplan hpath hskip) (hinv.paths hplan hpath hskip)
    have hroom := hpath.length_lt hplan (not_skips_iff.mp hskip).1
    refine ⟨?_, ?_, ?_, hp.log, by simp, by simp, by simp, by simp⟩
    · simp [State.pop, hp.stack, enter_stack mk hroom t]
    · intro e he
      refine hp.events e ?_
      rw [enter_log]
      exact List.mem_append_left _ he
    · intro u hu qs b hmem
      refine visit_mem_of_enter (not_skips_iff.mp hskip).1 hu (hp.visits u ?_ qs b hmem)
      rw [enter_stack mk hroom t]
      exact List.mem_append_left _ hu
  build st t st' needs r hskip _ h hr hinv hpath := by
    have hp := h (hinv.enter hplan hpath hskip) (hinv.paths hplan hpath hskip)
    have ht := (not_skips_iff.mp hskip).1
    have hstack : st'.stack = st.stack ++ [t] :=
      hp.stack.trans (enter_stack mk (hpath.length_lt hplan ht) t)
    have hevents : ∀ e ∈ st.log, e ∈ st'.log := by
      intro e he
      refine hp.events e ?_
      rw [enter_log]
      exact List.mem_append_left _ he
    obtain ⟨hst, hlog, hok⟩ := (hp.inv rfl).finish hplan hstack hpath.reach
      ⟨_, _, hp.events _ (enter_visit mk st t)⟩ hr
    obtain ⟨hfinish, hvisits⟩ := finish_events hr
    refine ⟨hst, ?_, ?_, hlog, fun h => (hok h).1, fun h => ?_, fun h n hn => ?_, fun h => ?_⟩
    · exact fun e he => hfinish e (hevents e he)
    · intro u hu qs b hmem
      have hmem' := hvisits u qs b hmem
      refine visit_mem_of_enter ht hu (hp.visits u ?_ qs b hmem')
      rw [enter_stack mk (hpath.length_lt hplan ht) t]
      exact List.mem_append_left _ hu
    · have hclosed := (hok h).2
      have hframe := hp.frame rfl
      refine ⟨fun n hn => ?_, fun n hn => ?_⟩
      · exact (hclosed.names n).mpr (.inl (hframe.names n (by rwa [enter_names])))
      · rw [hclosed.files n, hframe.files n, enter_fs]
        · rw [enter_names, enter_stack mk (hpath.length_lt hplan ht) t]
          exact hn.imp id fun hn => hn.imp (fun hin => List.mem_append_left _ hin) id
        · by_cases hnt : n = t
          · subst hnt
            rcases hn with hn | hn | hn
            · exact .inr ((not_skips_iff.mp hskip).2 hn)
            · exact absurd hn ht
            · exact .inr hn
          · exact .inl hnt
    · rcases ((hok h).2.names n).mp hn with hin | rfl
      · rcases hp.names rfl n hin with hold | hnot
        · exact .inl (by rwa [enter_names] at hold)
        · rw [enter_stack mk (hpath.length_lt hplan ht) t] at hnot
          exact .inr fun hmem => hnot (List.mem_append_left _ hmem)
      · exact .inr ht
    · exact .inr (.inr (((hok h).2.names t).mpr (.inr rfl)))

/-! ### The build ends -/

theorem Path.length_le {stack : List Name} {t : Name} (h : Path mk fs₀ T goal stack t)
    (hplan : Plan mk fs₀ T goal) : stack.length ≤ MAX_CALL_DEPTH := by
  cases stack with
  | nil => exact Nat.zero_le _
  | cons a l =>
    refine hplan.depth _ h.nodup (List.isChain_append.mp h.chain).1 ?_
    simpa using h.head

theorem buildPrereqs_ok {build : State → Name → Except Fault (State × Bool)} {k : Nat}
    (hok : ∀ st t, Inv mk fs₀ T goal st → Path mk fs₀ T goal st.stack t → st.stack.length = k →
      ∃ r, build st t = .ok r)
    (hpost : ∀ st t st' ok, build st t = .ok (st', ok) → Inv mk fs₀ T goal st →
      Path mk fs₀ T goal st.stack t → CallPost mk fs₀ T goal st t st' ok)
    {t : Name} {m : Nat} {ps : List Name} {st : State} {needs : Bool} {i : Nat}
    (hinv : Inv mk fs₀ T goal st) (hpaths : ∀ p ∈ ps, Path mk fs₀ T goal st.stack p)
    (hk : st.stack.length = k) : ∃ r, buildPrereqs mk build t m st needs i ps = .ok r := by
  induction ps generalizing st needs i with
  | nil => exact ⟨_, rfl⟩
  | cons p ps ih =>
    have hinv' := hinv.emit (not_visit_call (t := t) (i := i) (p := p))
    have hpath := hpaths p (List.mem_cons_self ..)
    obtain ⟨⟨st₁, ok⟩, hcall⟩ := hok _ p hinv' hpath hk
    rw [buildPrereqs, hcall]
    cases ok with
    | false => exact ⟨_, rfl⟩
    | true =>
      have hp := hpost _ _ _ _ hcall hinv' hpath
      refine ih ((hp.inv rfl).emit not_visit_done) (fun q hq => ?_) ?_
      · rw [emit_stack, hp.stack]
        exact hpaths q (List.mem_cons_of_mem _ hq)
      · rw [emit_stack, hp.stack]
        exact hk

/-- Each nested call is one deeper in the call stack, which no chain of prerequisites fills; the
    look-up of the rule and the recipe end. -/
theorem buildTarget_ok (hplan : Plan mk fs₀ T goal) (husable : Usable mk env.environ fs₀ T)
    (hdepth : mk.expandDepth env.environ ≤ depth) {fuel : Nat} {st : State} {t : Name}
    (hinv : Inv mk fs₀ T goal st) (hpath : Path mk fs₀ T goal st.stack t)
    (hfuel : MAX_CALL_DEPTH + 2 ≤ fuel + st.stack.length) :
    ∃ r, buildTarget mk env depth fuel st t = .ok r := by
  induction fuel generalizing st t with
  | zero =>
    have := hpath.length_le hplan
    omega
  | succ fuel ih =>
    have ht := hplan.reach_mem hpath.reach
    rw [buildTarget]
    split
    · exact ⟨_, rfl⟩
    rename_i hstack
    split
    · exact ⟨_, rfl⟩
    rename_i hcached
    obtain ⟨found, hfound⟩ := husable.stems t ht st.fs hinv.stage
    rw [hfound]
    obtain rfl := ruleFor_of_findRule hfound
    dsimp only
    split
    · exact ⟨_, rfl⟩
    have hskip : ¬Skips mk st t := by
      rintro (hin | hin)
      · exact hstack hin
      · exact hcached (by simpa using hin)
    have hroom := hpath.length_lt hplan (not_skips_iff.mp hskip).1
    have hlen : (st.enter mk t).stack.length = st.stack.length + 1 := by
      simp [enter_stack mk hroom t]
    have hloop : ∃ r, buildPrereqs mk (buildTarget mk env depth fuel) t (getMtime st.fs t)
        (st.enter mk t) false 0 (mk.prereqsOf st.fs t) = .ok r :=
      buildPrereqs_ok (fun st' t' hinv' hpath' hk => ih hinv' hpath' (by omega))
        (fun _ _ _ _ hrun => (plan_rules env depth hplan).run hrun)
        (hinv.enter hplan hpath hskip) (hinv.paths hplan hpath hskip) hlen
    obtain ⟨⟨st₁, r⟩, hrun⟩ := hloop
    unfold State.enter Makefile.prereqsOf Makefile.hasRecipe at hrun
    rw [hrun]
    cases r with
    | none => exact ⟨_, rfl⟩
    | some needs =>
      exact finish_ok fun f hf => husable.endsWithin hinv.stage ht hf hdepth

/-! ### No recipe runs twice -/

theorem occurs_of_call {log : List Event} (hlog : LogOk log) (hvisits : VisitsOk mk fs₀ T goal log)
    {u p : Name} {i : Nat} (h : .call u i p ∈ log) :
    Reach mk fs₀ T goal u ∧ Occurs mk fs₀ T u i p := by
  obtain ⟨ps, b, hv, hp⟩ := hlog.calls u i p h
  obtain ⟨hreach, fs, hstage, rfl, -⟩ := hvisits.visits u ps b hv
  exact ⟨hreach, fs, hstage, hp⟩

theorem call_of_isCallTo {p : Name} {e : Event} (h : isCallTo p e) : ∃ u i, e = .call u i p := by
  cases e with
  | call u i q =>
    have heq : q = p := by simpa [isCallTo] using h
    exact ⟨u, i, by rw [heq]⟩
  | visit => contradiction
  | done => contradiction
  | recipe => contradiction

theorem Balance.whole {log : List Event}
    (h : Balance [] log (fun _ _ => 0) fun q => if goal = q then 1 else 0) :
    (∀ u i, log.countP (isCall u i) ≤ log.countP (isVisit u)) ∧
    (∀ q, log.countP (isVisit q) ≤ log.countP (isCallTo q) + if goal = q then 1 else 0) ∧
    ∀ u, log.countP (isRecipe u) ≤ log.countP (isVisit u) :=
  ⟨fun u i => by simpa using h.calls u i, fun q => by simpa using h.visits q,
    fun u => by simpa using h.recipes u⟩

/-- A phony target that runs a recipe is visited once: it is called for from one place, by a
    target that is visited once itself. -/
theorem visits_runs {log : List Event} (honce : RunsOnce mk fs₀ T goal) (hlog : LogOk log)
    (hvisits : VisitsOk mk fs₀ T goal log)
    (hbal : Balance [] log (fun _ _ => 0) fun q => if goal = q then 1 else 0) {p : Name}
    (hreach : Reach mk fs₀ T goal p) (hruns : Runs mk fs₀ T p) : log.countP (isVisit p) ≤ 1 := by
  obtain ⟨hcalls, htimes, -⟩ := hbal.whole
  induction hreach with
  | goal =>
    have hzero : log.countP (isCallTo goal) = 0 := by
      rw [List.countP_eq_zero]
      intro e he hcall
      obtain ⟨u, i, rfl⟩ := call_of_isCallTo hcall
      obtain ⟨hu, hocc⟩ := occurs_of_call hlog hvisits he
      exact honce.goal hruns u i hu hocc
    have := htimes goal
    simpa [hzero] using this
  | @step t p ht hneeds ih =>
    obtain ⟨j, hj⟩ := hneeds
    have hp : goal ≠ p := by
      rintro rfl
      exact honce.goal hruns t j ht hj
    -- all calls for `p` are the call number `j` of `t`
    have hmono : log.countP (isCallTo p) ≤ log.countP (isCall t j) := by
      refine List.countP_mono_left ?_
      intro e he hcall
      obtain ⟨u, i, rfl⟩ := call_of_isCallTo hcall
      obtain ⟨hu, hocc⟩ := occurs_of_call hlog hvisits he
      obtain ⟨rfl, rfl⟩ := honce.once p hruns u i t j hu ht hocc hj
      simp [isCall]
    have ht1 : log.countP (isVisit t) ≤ 1 := by
      cases hphony : mk.isPhony t with
      | false => exact hvisits.once t hphony
      | true => exact ih (.through hphony ⟨j, hj⟩ hruns)
    have h1 := htimes p
    rw [if_neg hp] at h1
    calc log.countP (isVisit p) ≤ log.countP (isCallTo p) := h1
      _ ≤ log.countP (isCall t j) := hmono
      _ ≤ log.countP (isVisit t) := hcalls t j
      _ ≤ 1 := ht1

theorem recipes_once {log : List Event} (honce : RunsOnce mk fs₀ T goal) (hlog : LogOk log)
    (hvisits : VisitsOk mk fs₀ T goal log)
    (hbal : Balance [] log (fun _ _ => 0) fun q => if goal = q then 1 else 0) (u : Name) :
    log.countP (isRecipe u) ≤ 1 := by
  by_cases hany : ∃ e ∈ log, isRecipe u e
  · obtain ⟨e, he, hrecipe⟩ := hany
    cases e with
    | recipe v ps =>
      have hvu : v = u := by simpa [isRecipe] using hrecipe
      subst hvu
      obtain ⟨hreach, fs, hstage, -, hb⟩ := hvisits.visits v ps true (hlog.recipes v ps he)
      refine (hbal.whole.2.2 v).trans ?_
      cases hphony : mk.isPhony v with
      | false => exact hvisits.once v hphony
      | true => exact visits_runs honce hlog hvisits hbal hreach (.recipe hphony ⟨fs, hstage, hb.symm⟩)
    | visit => contradiction
    | call => contradiction
    | done => contradiction
  · have hzero : log.countP (isRecipe u) = 0 := by
      rw [List.countP_eq_zero]
      exact fun e he hrecipe => hany ⟨e, he, hrecipe⟩
    rw [hzero]
    exact Nat.zero_le 1

end Gemios.Make
