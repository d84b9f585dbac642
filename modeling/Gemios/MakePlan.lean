import Mathlib.Data.List.Chain
import Mathlib.Data.List.Perm.Subperm
import Mathlib.Logic.Relation
import Gemios.MakeRun

/-!
# A build that stays within its tables

The targets a goal can need while the build makes files, and the conditions on them under
which the call stack and the cache do their work.
-/

namespace Gemios.Make

/-! ### What a goal needs -/

section

variable (mk : Makefile) (fs₀ : Files) (T : List Name)

/-- A file system of the build: files are only added, and only for the targets `T`. -/
def Stage (fs : Files) : Prop :=
  ∀ n, ((fs₀ n).isSome → (fs n).isSome) ∧ ((fs n).isSome → (fs₀ n).isSome ∨ n ∈ T)

/-- `p` is prerequisite number `i` of `t`. -/
def Occurs (t : Name) (i : Nat) (p : Name) : Prop :=
  ∃ fs, Stage fs₀ T fs ∧ (mk.prereqsOf fs t)[i]? = some p

/-- `p` is a prerequisite of `t`. -/
def Needs (t p : Name) : Prop := ∃ i, Occurs mk fs₀ T t i p

inductive Reach (goal : Name) : Name → Prop
  | goal : Reach goal goal
  | step {t p : Name} : Reach goal t → Needs mk fs₀ T t p → Reach goal p

/-- A phony target with a recipe, or one that needs such a target through phony ones: each
    visit of it runs that recipe. -/
inductive Runs : Name → Prop
  | recipe {p : Name} : mk.isPhony p → (∃ fs, Stage fs₀ T fs ∧ mk.hasRecipe fs p) → Runs p
  | through {p q : Name} : mk.isPhony p → Needs mk fs₀ T p q → Runs q → Runs p

/-- The targets `T` of a goal fit the tables: all that is needed is in `T`, the cache has an
    entry for each, and no chain of prerequisites is longer than the call stack. -/
structure Plan (goal : Name) : Prop where
  goal_mem : goal ∈ T
  closed : ∀ t ∈ T, ∀ p, Needs mk fs₀ T t p → p ∈ T
  size : T.length ≤ MAX_RULES * 2
  names : ∀ t ∈ T, t.length ≤ 511
  depth : ∀ l : List Name, l.Nodup → l.IsChain (Needs mk fs₀ T) → l.head? = some goal →
    l.length ≤ MAX_CALL_DEPTH

/-- No phony target whose visit runs a recipe is a prerequisite twice, or one if it is the
    goal. -/
structure RunsOnce (goal : Name) : Prop where
  once : ∀ p, Runs mk fs₀ T p → ∀ t i t' i', Reach mk fs₀ T goal t → Reach mk fs₀ T goal t' →
    Occurs mk fs₀ T t i p → Occurs mk fs₀ T t' i' p → t = t' ∧ i = i'
  goal : Runs mk fs₀ T goal → ∀ t i, Reach mk fs₀ T goal t → ¬Occurs mk fs₀ T t i goal

def Acyclic : Prop := ∀ t, ¬Relation.TransGen (Needs mk fs₀ T) t t

end

section

variable {mk : Makefile} {env : Env} {depth : Nat} {fs₀ : Files} {T : List Name} {goal : Name}

theorem Plan.reach_mem (h : Plan mk fs₀ T goal) {t : Name} (ht : Reach mk fs₀ T goal t) : t ∈ T := by
  induction ht with
  | goal => exact h.goal_mem
  | step _ hn ih => exact h.closed _ ih _ hn

theorem stage_refl : Stage fs₀ T fs₀ := fun _ => ⟨id, .inl⟩

theorem needs_of_mem {fs : Files} (hs : Stage fs₀ T fs) {t p : Name} (hp : p ∈ mk.prereqsOf fs t) :
    Needs mk fs₀ T t p := by
  obtain ⟨i, hi⟩ := List.getElem?_of_mem hp
  exact ⟨i, fs, hs, hi⟩

/-! ### The call stack -/

/-- The stack with the target on top is a chain of prerequisites from the goal. -/
structure Path (mk : Makefile) (fs₀ : Files) (T : List Name) (goal : Name) (stack : List Name)
    (t : Name) : Prop where
  nodup : stack.Nodup
  chain : (stack ++ [t]).IsChain (Needs mk fs₀ T)
  head : (stack ++ [t]).head? = some goal
  reach : Reach mk fs₀ T goal t

theorem path_goal : Path mk fs₀ T goal [] goal := ⟨List.nodup_nil, by simp, rfl, .goal⟩

theorem nodup_concat {stack : List Name} {t : Name} (h : stack.Nodup) (ht : t ∉ stack) :
    (stack ++ [t]).Nodup := by
  refine List.nodup_append.mpr ⟨h, by simp, ?_⟩
  intro a ha b hb heq
  rw [List.mem_singleton] at hb
  exact ht (hb ▸ heq ▸ ha)

theorem Path.length_lt {stack : List Name} {t : Name} (hplan : Plan mk fs₀ T goal)
    (h : Path mk fs₀ T goal stack t) (ht : t ∉ stack) : stack.length < MAX_CALL_DEPTH := by
  have := hplan.depth _ (nodup_concat h.nodup ht) h.chain h.head
  simpa [Nat.succ_le_iff] using this

theorem Path.push {stack : List Name} {t p : Name} (h : Path mk fs₀ T goal stack t) (ht : t ∉ stack)
    (hn : Needs mk fs₀ T t p) : Path mk fs₀ T goal (stack ++ [t]) p := by
  refine ⟨nodup_concat h.nodup ht, ?_, ?_, .step h.reach hn⟩
  · rw [List.isChain_append]
    refine ⟨h.chain, by simp, ?_⟩
    intro a ha b hb
    simp only [List.getLast?_append, List.getLast?_singleton, Option.some_or, Option.mem_some_iff] at ha
    simp only [List.head?_cons, Option.mem_some_iff] at hb
    rw [← ha, ← hb]
    exact hn
  · rw [List.head?_append, h.head]
    rfl

theorem Path.not_mem {stack : List Name} {t : Name} (hacyclic : Acyclic mk fs₀ T)
    (h : Path mk fs₀ T goal stack t) : t ∉ stack := by
  intro ht
  have hchain := h.chain.imp fun _ _ hn => Relation.TransGen.single hn
  have hpair := List.isChain_iff_pairwise.mp hchain
  exact hacyclic t ((List.pairwise_append.mp hpair).2.2 t ht t (List.mem_singleton_self t))

/-! ### The invariant -/

def State.names (st : State) : List Name := st.built.map (·.1)

/-- What holds of the log at any time: the visits are of needed targets, and a target that is
    not phony has one visit at most. -/
structure VisitsOk (mk : Makefile) (fs₀ : Files) (T : List Name) (goal : Name) (log : List Event) :
    Prop where
  visits : ∀ u ps b, .visit u ps b ∈ log → Reach mk fs₀ T goal u ∧
    ∃ fs, Stage fs₀ T fs ∧ ps = mk.prereqsOf fs u ∧ b = mk.hasRecipe fs u
  once : ∀ u, mk.isPhony u = false → log.countP (isVisit u) ≤ 1

/-- The part of the invariant that does not speak of the stack. -/
structure Core (mk : Makefile) (fs₀ : Files) (T : List Name) (goal : Name) (st : State) : Prop where
  log : VisitsOk mk fs₀ T goal st.log
  stage : Stage fs₀ T st.fs
  names_mem : ∀ n ∈ st.names, n ∈ T
  names_nodup : st.names.Nodup
  names_visited : ∀ n ∈ st.names, ∃ ps b, .visit n ps b ∈ st.log

/-- What holds between the calls of a build that goes well: a visited target that is not phony
    is in the cache or on the stack. -/
structure Inv (mk : Makefile) (fs₀ : Files) (T : List Name) (goal : Name) (st : State) : Prop
    extends Core mk fs₀ T goal st where
  cover : ∀ u ps b, .visit u ps b ∈ st.log → mk.isPhony u = false → u ∈ st.names ∨ u ∈ st.stack

/-- What a call keeps: the cache, and the files of targets that are in the cache, on the stack
    or phony. -/
structure Frame (mk : Makefile) (st st' : State) : Prop where
  names : ∀ n ∈ st.names, n ∈ st'.names
  files : ∀ n, n ∈ st.names ∨ n ∈ st.stack ∨ mk.isPhony n → st'.fs n = st.fs n

theorem Frame.refl (st : State) : Frame mk st st := ⟨fun _ h => h, fun _ _ => rfl⟩

theorem Frame.trans {st st' st'' : State} (h : Frame mk st st') (h' : Frame mk st' st'')
    (hstack : st'.stack = st.stack) : Frame mk st st'' := by
  refine ⟨fun n hn => h'.names n (h.names n hn), fun n hn => ?_⟩
  rw [h'.files n, h.files n hn]
  rcases hn with hn | hn | hn
  · exact .inl (h.names n hn)
  · exact .inr (.inl (hstack ▸ hn))
  · exact .inr (.inr hn)

theorem findBuilt_isSome (st : State) (t : Name) : (st.findBuilt t).isSome ↔ t ∈ st.names := by
  simp [State.findBuilt, State.names]

theorem not_skips_iff {st : State} {t : Name} :
    ¬Skips mk st t ↔ t ∉ st.stack ∧ (t ∈ st.names → mk.isPhony t) := by
  simp only [Skips, List.contains_iff_mem, findBuilt_isSome, not_or, not_and, Bool.not_eq_false]

@[simp] theorem emit_names (st : State) (e : Event) : (st.emit e).names = st.names := rfl

@[simp] theorem emit_stack (st : State) (e : Event) : (st.emit e).stack = st.stack := rfl

@[simp] theorem emit_fs (st : State) (e : Event) : (st.emit e).fs = st.fs := rfl

theorem VisitsOk.emit {log : List Event} (h : VisitsOk mk fs₀ T goal log) {e : Event}
    (he : ∀ u ps b, e ≠ .visit u ps b) : VisitsOk mk fs₀ T goal (log ++ [e]) := by
  refine ⟨fun u ps b hmem => ?_, fun u hu => ?_⟩
  · rw [List.mem_append, List.mem_singleton] at hmem
    rcases hmem with hmem | heq
    · exact h.visits u ps b hmem
    · exact absurd heq.symm (he u ps b)
  · have hno : isVisit u e = false := by
      cases e with
      | visit t ps b => exact absurd rfl (he t ps b)
      | call => rfl
      | done => rfl
      | recipe => rfl
    simpa [List.countP_append, hno] using h.once u hu

theorem Core.emit {st : State} (h : Core mk fs₀ T goal st) {e : Event}
    (he : ∀ u ps b, e ≠ .visit u ps b) : Core mk fs₀ T goal (st.emit e) := by
  refine ⟨h.log.emit he, h.stage, h.names_mem, h.names_nodup, fun n hn => ?_⟩
  obtain ⟨ps, b, hv⟩ := h.names_visited n hn
  exact ⟨ps, b, List.mem_append_left _ hv⟩

theorem Inv.emit {st : State} (h : Inv mk fs₀ T goal st) {e : Event}
    (he : ∀ u ps b, e ≠ .visit u ps b) : Inv mk fs₀ T goal (st.emit e) := by
  refine ⟨h.toCore.emit he, fun u ps b hmem hu => ?_⟩
  · rw [emit_log, List.mem_append, List.mem_singleton] at hmem
    rcases hmem with hmem | heq
    · exact h.cover u ps b hmem hu
    · exact absurd heq.symm (he u ps b)

theorem Inv.visit {st : State} (h : Inv mk fs₀ T goal st) {t : Name} (hreach : Reach mk fs₀ T goal t)
    (hskip : ¬Skips mk st t) :
    VisitsOk mk fs₀ T goal
      (st.log ++ [.visit t (mk.prereqsOf st.fs t) (mk.hasRecipe st.fs t)]) := by
  rw [not_skips_iff] at hskip
  refine ⟨fun u ps b hmem => ?_, fun u hu => ?_⟩
  · rw [List.mem_append, List.mem_singleton] at hmem
    rcases hmem with hmem | heq
    · exact h.log.visits u ps b hmem
    · cases heq
      exact ⟨hreach, st.fs, h.stage, rfl, rfl⟩
  · rw [List.countP_append, List.countP_singleton]
    by_cases htu : t = u
    · subst htu
      -- a visit before would have left it in the cache or on the stack
      have hzero : st.log.countP (isVisit t) = 0 := by
        rw [List.countP_eq_zero]
        intro e he hvisit
        cases e with
        | visit u ps b =>
          have htu : u = t := by simpa [isVisit] using hvisit
          subst htu
          rcases h.cover u ps b he hu with hin | hin
          · rw [hskip.2 hin] at hu
            contradiction
          · exact hskip.1 hin
        | call => contradiction
        | done => contradiction
        | recipe => contradiction
      simp [hzero, isVisit]
    · have hno : ¬isVisit u (.visit t (mk.prereqsOf st.fs t) (mk.hasRecipe st.fs t)) := by
        simpa [isVisit] using htu
      rw [if_neg hno]
      exact h.log.once u hu

theorem push_stack {st : State} (h : st.stack.length < MAX_CALL_DEPTH) (t : Name) :
    (st.push t).stack = st.stack ++ [t] := by
  rw [State.push, if_pos h]

@[simp] theorem push_names (st : State) (t : Name) : (st.push t).names = st.names := by
  unfold State.push
  split <;> rfl

@[simp] theorem push_fs (st : State) (t : Name) : (st.push t).fs = st.fs := by
  unfold State.push
  split <;> rfl

theorem enter_stack (mk : Makefile) {st : State} (h : st.stack.length < MAX_CALL_DEPTH) (t : Name) :
    (st.enter mk t).stack = st.stack ++ [t] := by
  rw [State.enter, push_stack (by exact h), emit_stack]

@[simp] theorem enter_names (st : State) (t : Name) : (st.enter mk t).names = st.names := by
  rw [State.enter, push_names, emit_names]

@[simp] theorem enter_fs (st : State) (t : Name) : (st.enter mk t).fs = st.fs := by
  rw [State.enter, push_fs, emit_fs]

theorem Inv.enter {st : State} (h : Inv mk fs₀ T goal st) (hplan : Plan mk fs₀ T goal) {t : Name}
    (hpath : Path mk fs₀ T goal st.stack t) (hskip : ¬Skips mk st t) :
    Inv mk fs₀ T goal (st.enter mk t) := by
  have hstack := enter_stack mk (hpath.length_lt hplan (not_skips_iff.mp hskip).1) t
  refine ⟨⟨?_, ?_, ?_, ?_, ?_⟩, ?_⟩
  · rw [enter_log]
    exact h.visit hpath.reach hskip
  · rw [enter_fs]
    exact h.stage
  · rw [enter_names]
    exact h.names_mem
  · rw [enter_names]
    exact h.names_nodup
  · intro n hn
    rw [enter_names] at hn
    obtain ⟨ps, b, hv⟩ := h.names_visited n hn
    rw [enter_log]
    exact ⟨ps, b, List.mem_append_left _ hv⟩
  · intro u ps b hmem hu
    rw [enter_log, List.mem_append, List.mem_singleton] at hmem
    rw [enter_names, hstack]
    rcases hmem with hmem | heq
    · exact (h.cover u ps b hmem hu).imp id fun hin => List.mem_append_left _ hin
    · cases heq
      exact .inr (by simp)

/-! ### The end of a call -/

theorem mark_names {st : State} (hplan : Plan mk fs₀ T goal) (hmem : ∀ n ∈ st.names, n ∈ T)
    (hnodup : st.names.Nodup) {t : Name} (ht : t ∈ T) (b : Bool) :
    (st.mark t b).names = if t ∈ st.names then st.names else st.names ++ [t] := by
  unfold State.mark
  split
  · rename_i i hi
    have htmem : t ∈ st.names := by
      obtain ⟨hlt, heq, -⟩ := List.findIdx?_eq_some_iff_getElem.mp hi
      rw [State.names, List.mem_map]
      exact ⟨st.built[i], List.getElem_mem hlt, by simpa using heq⟩
    rw [if_pos htmem]
    simp only [State.names]
    apply List.ext_getElem
    · simp
    · intro j h1 h2
      simp only [List.getElem_map, List.getElem_modify]
      split <;> rfl
  · rename_i hnone
    have htmem : t ∉ st.names := by
      simp only [State.names, List.mem_map, not_exists, not_and]
      intro e he heq
      have := List.findIdx?_eq_none_iff.mp hnone e he
      simp [heq] at this
    have hlen : st.names.length + 1 ≤ T.length := by
      have hsub : (st.names ++ [t]).Subperm T := by
        apply (nodup_concat hnodup htmem).subperm
        intro n hn
        rw [List.mem_append, List.mem_singleton] at hn
        rcases hn with hn | rfl
        · exact hmem n hn
        · exact ht
      simpa using hsub.length_le
    have hsize := hplan.size
    have hroom : st.built.length < MAX_RULES * 2 := by
      simp only [State.names, List.length_map] at hlen
      omega
    rw [if_neg htmem, if_pos hroom]
    simp [State.names, List.take_of_length_le (hplan.names t ht)]

@[simp] theorem mark_fs (st : State) (t : Name) (b : Bool) : (st.mark t b).fs = st.fs := by
  unfold State.mark
  split
  · rfl
  · split <;> rfl

@[simp] theorem mark_stack (st : State) (t : Name) (b : Bool) : (st.mark t b).stack = st.stack := by
  unfold State.mark
  split
  · rfl
  · split <;> rfl

theorem Core.mark {st : State} (h : Core mk fs₀ T goal st) (hplan : Plan mk fs₀ T goal) {t : Name}
    (hreach : Reach mk fs₀ T goal t) (hv : ∃ ps b, .visit t ps b ∈ st.log) (b : Bool) :
    Core mk fs₀ T goal (st.mark t b) ∧ ∀ n, n ∈ (st.mark t b).names ↔ n ∈ st.names ∨ n = t := by
  have ht := hplan.reach_mem hreach
  have hnames := mark_names hplan h.names_mem h.names_nodup ht b
  have hiff : ∀ n, n ∈ (st.mark t b).names ↔ n ∈ st.names ∨ n = t := by
    intro n
    rw [hnames]
    split
    · rename_i hin
      exact ⟨.inl, fun hor => hor.elim id fun heq => heq ▸ hin⟩
    · simp
  refine ⟨⟨?_, ?_, ?_, ?_, ?_⟩, hiff⟩
  · rw [mark_log]
    exact h.log
  · rw [mark_fs]
    exact h.stage
  · intro n hn
    rcases (hiff n).mp hn with hin | rfl
    · exact h.names_mem n hin
    · exact ht
  · rw [hnames]
    split
    · exact h.names_nodup
    · rename_i hnot
      exact nodup_concat h.names_nodup hnot
  · intro n hn
    rw [mark_log]
    rcases (hiff n).mp hn with hin | rfl
    · exact h.names_visited n hin
    · exact hv

theorem Core.setTime {st : State} (h : Core mk fs₀ T goal st) {t : Name} (ht : t ∈ T) (time : Nat) :
    Core mk fs₀ T goal (st.setTime t time) := by
  refine ⟨h.log, fun n => ?_, h.names_mem, h.names_nodup, h.names_visited⟩
  simp only [State.setTime, Files.set_apply]
  by_cases hn : n = t
  · simp [hn, ht]
  · rw [if_neg hn]
    exact h.stage n

theorem Core.close {st : State} (h : Core mk fs₀ T goal st) (hplan : Plan mk fs₀ T goal) {t : Name}
    (hreach : Reach mk fs₀ T goal t) (hv : ∃ ps b, .visit t ps b ∈ st.log)
    (hcover : ∀ u ps b, .visit u ps b ∈ st.log → mk.isPhony u = false →
      u ∈ st.names ∨ u ∈ st.stack ∨ u = t) (b : Bool) :
    Inv mk fs₀ T goal (st.mark t b) ∧ ∀ n, n ∈ (st.mark t b).names ↔ n ∈ st.names ∨ n = t := by
  obtain ⟨hcore, hnames⟩ := h.mark hplan hreach hv b
  refine ⟨⟨hcore, fun u ps b' hmem hu => ?_⟩, hnames⟩
  rw [mark_log] at hmem
  rw [hnames, mark_stack]
  rcases hcover u ps b' hmem hu with hin | hin | heq
  · exact .inl (.inl hin)
  · exact .inr hin
  · exact .inl (.inr heq)

/-- What the end of a call leaves when it goes well: the target is in the cache, only its file
    can have changed, and then it is newer than all others. -/
structure Closed (mk : Makefile) (st st' : State) (t : Name) (recipe rebuilt : Bool) : Prop where
  names : ∀ n, n ∈ st'.names ↔ n ∈ st.names ∨ n = t
  files : ∀ n, n ≠ t ∨ mk.isPhony n → st'.fs n = st.fs n
  kept : rebuilt = false → st'.fs = st.fs
  made : rebuilt → recipe → mk.isPhony t = false →
    ∃ time, st'.fs t = some time ∧ ∀ n m, st.fs n = some m → m < time

theorem Inv.finish {st : State} (h : Inv mk fs₀ T goal st) (hplan : Plan mk fs₀ T goal) {t : Name}
    {stack : List Name} (hstack : st.stack = stack ++ [t]) (hreach : Reach mk fs₀ T goal t)
    (hv : ∃ ps b, .visit t ps b ∈ st.log) {found : Option Found} {existed needs : Bool}
    {r : State × Bool} (hr : Make.finish mk env depth st.pop t found existed needs = .ok r) :
    r.1.stack = stack ∧ VisitsOk mk fs₀ T goal r.1.log ∧
      (r.2 → Inv mk fs₀ T goal r.1 ∧ Closed mk st r.1 t (hasCommands found)
        (rebuilds mk t (actualPrereqs found) (hasCommands found) existed needs)) := by
  have hpop : st.pop.stack = stack := by simp [State.pop, hstack]
  have hcore : Core mk fs₀ T goal st.pop :=
    ⟨h.log, h.stage, h.names_mem, h.names_nodup, h.names_visited⟩
  have hcover : ∀ u ps b, .visit u ps b ∈ st.log → mk.isPhony u = false →
      u ∈ st.names ∨ u ∈ st.pop.stack ∨ u = t := by
    intro u ps b hmem hu
    rw [hpop]
    rcases h.cover u ps b hmem hu with hin | hin
    · exact .inl hin
    · rw [hstack, List.mem_append, List.mem_singleton] at hin
      exact .inr hin
  have hev : ∀ u qs b, Event.recipe t (actualPrereqs found) ≠ .visit u qs b :=
    fun _ _ _ heq => by cases heq
  rcases finish_cases hr with ⟨hneeds, rfl⟩ | ⟨hrecipe, rfl⟩ | ⟨-, rfl⟩ | ⟨hneeds, hrecipe, rfl⟩
  · obtain ⟨hinv, hnames⟩ := hcore.close hplan hreach hv hcover false
    refine ⟨(mark_stack _ _ _).trans hpop, hinv.log, fun _ => ⟨hinv, hnames, ?_, ?_, ?_⟩⟩
    · exact fun n _ => congrArg (·.mtime n) (mark_fs _ _ _)
    · exact fun _ => mark_fs _ _ _
    · exact fun hyes => absurd hyes (by simp [hneeds])
  · obtain ⟨hinv, hnames⟩ := hcore.close hplan hreach hv hcover true
    refine ⟨(mark_stack _ _ _).trans hpop, hinv.log, fun _ => ⟨hinv, hnames, ?_, ?_, ?_⟩⟩
    · exact fun n _ => congrArg (·.mtime n) (mark_fs _ _ _)
    · exact fun _ => mark_fs _ _ _
    · exact fun _ hyes => absurd hyes (by simp [hrecipe])
  · exact ⟨hpop, h.log.emit hev, fun hok => by cases hok⟩
  · have hcore' := hcore.emit hev
    have hv' : ∃ ps' b, .visit t ps' b ∈ (st.pop.emit (.recipe t (actualPrereqs found))).log := by
      obtain ⟨ps', b, hmem⟩ := hv
      exact ⟨ps', b, List.mem_append_left _ hmem⟩
    have hcover' : ∀ u ps' b,
        .visit u ps' b ∈ (st.pop.emit (.recipe t (actualPrereqs found))).log → mk.isPhony u = false → u ∈ st.names ∨ u ∈ st.pop.stack ∨ u = t := by
      intro u ps' b hmem hu
      rw [emit_log, List.mem_append, List.mem_singleton] at hmem
      rcases hmem with hmem | heq
      · exact hcover u ps' b hmem hu
      · cases heq
    have hnewer := env.newer (st.pop.emit (.recipe t (actualPrereqs found))) t
    generalize env.time (st.pop.emit (.recipe t (actualPrereqs found))) t = time at hnewer ⊢
    by_cases hphony : mk.isPhony t
    · rw [if_pos hphony]
      obtain ⟨hinv, hnames⟩ := hcore'.close hplan hreach hv' hcover' true
      refine ⟨(mark_stack _ _ _).trans hpop, hinv.log, fun _ => ⟨hinv, hnames, ?_, ?_, ?_⟩⟩
      · exact fun n _ => congrArg (·.mtime n) (mark_fs _ _ _)
      · exact fun _ => mark_fs _ _ _
      · exact fun _ _ hnot => absurd hphony (by simp [hnot])
    · rw [if_neg hphony]
      obtain ⟨hinv, hnames⟩ :=
        (hcore'.setTime (hplan.reach_mem hreach) time).close hplan hreach hv' hcover' true
      refine ⟨(mark_stack _ _ _).trans hpop, hinv.log, fun _ => ⟨hinv, hnames, ?_, ?_, ?_⟩⟩
      · intro n hn
        rw [mark_fs]
        refine if_neg ?_
        rintro rfl
        exact hn.elim (fun hne => hne rfl) hphony
      · exact fun hfalse => absurd hneeds (by simp [hfalse])
      · refine fun _ _ _ => ⟨time, ?_, hnewer⟩
        rw [mark_fs]
        exact if_pos rfl

end

end Gemios.Make
