import Mathlib.Data.List.Count
import Gemios.MakeTarget

/-!
# Runs of the build

One rule of induction for `build_target_internal`, and what every run keeps.
-/

namespace Gemios.Make

variable {mk : Makefile} {env : Env} {depth : Nat}

def Makefile.prereqsOf (mk : Makefile) (fs : Files) (t : Name) : List Name :=
  actualPrereqs (mk.ruleFor fs t)

def Makefile.hasRecipe (mk : Makefile) (fs : Files) (t : Name) : Bool := hasCommands (mk.ruleFor fs t)

theorem ruleFor_of_findRule {fs : Files} {t : Name} {found : Option Found}
    (h : mk.findRule fs t = .ok found) : mk.ruleFor fs t = found := by
  rw [Makefile.ruleFor, h]
  rfl

/-- The check that ends a call before its rule is looked at. -/
def Skips (mk : Makefile) (st : State) (t : Name) : Prop :=
  st.stack.contains t ∨ ((st.findBuilt t).isSome ∧ mk.isPhony t = false)

def Missing (mk : Makefile) (st : State) (t : Name) : Prop :=
  mk.ruleFor st.fs t = none ∧ st.fs t = none ∧ mk.isPhony t = false

/-- The state in which the loop over the prerequisites starts. -/
def State.enter (mk : Makefile) (st : State) (t : Name) : State :=
  (st.emit (.visit t (mk.prereqsOf st.fs t) (mk.hasRecipe st.fs t))).push t

/-- Whether a prerequisite that is done makes a rebuild needed. -/
def needsAfter (mk : Makefile) (st : State) (t : Name) (targetMtime : Nat) (needs : Bool) (p : Name) :
    Bool :=
  if mk.isPhony t then needs
  else needs || (st.findBuilt p).getD false || decide (getMtime st.fs p > targetMtime)

/-- **Induction over a run.**  `P st t st' ok` is about a call for `t`, and
    `Q t mtime st needs i ps st' r` about the loop over the prerequisites `ps` of `t`. -/
structure RunRules (mk : Makefile) (env : Env) (depth : Nat) (P : State → Name → State → Bool → Prop)
    (Q : Name → Nat → State → Bool → Nat → List Name → State → Option Bool → Prop) : Prop where
  skip : ∀ st t, Skips mk st t → P st t st true
  missing : ∀ st t, ¬Skips mk st t → Missing mk st t → P st t st false
  nil : ∀ t m st needs i, Q t m st needs i [] st (some needs)
  fail : ∀ t m st needs i p ps st', P (st.emit (.call t i p)) p st' false →
    Q t m st needs i (p :: ps) st' none
  cons : ∀ t m st needs i p ps st₁ st' r, P (st.emit (.call t i p)) p st₁ true →
    Q t m (st₁.emit (.done t i p)) (needsAfter mk st₁ t m needs p) (i + 1) ps st' r →
    Q t m st needs i (p :: ps) st' r
  stop : ∀ st t st', ¬Skips mk st t → ¬Missing mk st t →
    Q t (getMtime st.fs t) (st.enter mk t) false 0 (mk.prereqsOf st.fs t) st' none →
    P st t st'.pop false
  build : ∀ st t st' needs r, ¬Skips mk st t → ¬Missing mk st t →
    Q t (getMtime st.fs t) (st.enter mk t) false 0 (mk.prereqsOf st.fs t) st' (some needs) →
    finish mk env depth st'.pop t (mk.ruleFor st.fs t) (st.fs t).isSome needs = .ok r → P st t r.1 r.2

section

variable {P : State → Name → State → Bool → Prop}
  {Q : Name → Nat → State → Bool → Nat → List Name → State → Option Bool → Prop}

theorem RunRules.prereqs (h : RunRules mk env depth P Q) {build : State → Name → Except Fault (State × Bool)}
    (hbuild : ∀ st t st' ok, build st t = .ok (st', ok) → P st t st' ok) {t : Name} {m : Nat}
    {st st' : State} {needs : Bool} {i : Nat} {ps : List Name} {r : Option Bool}
    (hrun : buildPrereqs mk build t m st needs i ps = .ok (st', r)) :
    Q t m st needs i ps st' r := by
  induction ps generalizing st needs i with
  | nil =>
    cases hrun
    exact h.nil t m _ _ _
  | cons p ps ih =>
    rw [buildPrereqs] at hrun
    split at hrun
    · contradiction
    · rename_i st₁ hcall
      cases hrun
      exact h.fail t m st needs i p ps _ (hbuild _ _ _ _ hcall)
    · rename_i st₁ hcall
      exact h.cons t m st needs i p ps st₁ st' r (hbuild _ _ _ _ hcall) (ih hrun)

theorem RunRules.run (h : RunRules mk env depth P Q) {fuel : Nat} {st st' : State} {t : Name} {ok : Bool}
    (hrun : buildTarget mk env depth fuel st t = .ok (st', ok)) : P st t st' ok := by
  induction fuel generalizing st t st' ok with
  | zero => contradiction
  | succ fuel ih =>
    rw [buildTarget] at hrun
    by_cases hstack : st.stack.contains t
    · rw [if_pos hstack] at hrun
      cases hrun
      exact h.skip st t (.inl hstack)
    rw [if_neg hstack] at hrun
    by_cases hcached : (st.findBuilt t).isSome && !mk.isPhony t
    · rw [if_pos hcached] at hrun
      cases hrun
      exact h.skip st t (.inr (by simpa using hcached))
    rw [if_neg hcached] at hrun
    have hskip : ¬Skips mk st t := by
      rintro (hin | hin)
      · exact hstack hin
      · exact hcached (by simpa using hin)
    cases hfound : mk.findRule st.fs t with
    | error e =>
      rw [hfound] at hrun
      contradiction
    | ok found =>
      rw [hfound] at hrun
      obtain rfl := ruleFor_of_findRule hfound
      dsimp only at hrun
      by_cases hmissing : (mk.ruleFor st.fs t).isNone && (st.fs t).isNone && !mk.isPhony t
      · rw [if_pos hmissing] at hrun
        cases hrun
        exact h.missing st t hskip (by simpa [Missing, and_assoc] using hmissing)
      rw [if_neg hmissing] at hrun
      have hnot : ¬Missing mk st t := fun hm => hmissing (by simpa [Missing, and_assoc] using hm)
      split at hrun
      · contradiction
      · rename_i st₁ hloop
        cases hrun
        exact h.stop st t st₁ hskip hnot (h.prereqs (fun _ _ _ _ => ih) hloop)
      · rename_i st₁ needs hloop
        exact h.build st t st₁ needs _ hskip hnot (h.prereqs (fun _ _ _ _ => ih) hloop) hrun

end

/-! ### The log -/

@[simp] theorem emit_log (st : State) (e : Event) : (st.emit e).log = st.log ++ [e] := rfl

@[simp] theorem push_log (st : State) (t : Name) : (st.push t).log = st.log := by
  unfold State.push
  split <;> rfl

@[simp] theorem pop_log (st : State) : st.pop.log = st.log := rfl

@[simp] theorem mark_log (st : State) (t : Name) (b : Bool) : (st.mark t b).log = st.log := by
  unfold State.mark
  split
  · rfl
  · split <;> rfl

@[simp] theorem enter_log (mk : Makefile) (st : State) (t : Name) :
    (st.enter mk t).log = st.log ++ [.visit t (mk.prereqsOf st.fs t) (mk.hasRecipe st.fs t)] := by
  simp [State.enter]

def rebuilds (mk : Makefile) (t : Name) (ps : List Name) (recipe existed needs : Bool) : Bool :=
  needs || mk.isPhony t || !existed || (ps.isEmpty && recipe)

theorem finish_cases {st : State} {t : Name} {found : Option Found} {existed needs : Bool}
    {r : State × Bool} (h : finish mk env depth st t found existed needs = .ok r) :
    (rebuilds mk t (actualPrereqs found) (hasCommands found) existed needs = false ∧
      r = (st.mark t false, true)) ∨
    (hasCommands found = false ∧ r = (st.mark t true, true)) ∨
    (hasCommands found ∧ r = (st.emit (.recipe t (actualPrereqs found)), false)) ∨
    (rebuilds mk t (actualPrereqs found) (hasCommands found) existed needs ∧ hasCommands found ∧
      r = ((if mk.isPhony t then st.emit (.recipe t (actualPrereqs found))
        else (st.emit (.recipe t (actualPrereqs found))).setTime t
          (env.time (st.emit (.recipe t (actualPrereqs found))) t)).mark t true, true)) := by
  unfold finish at h
  dsimp only at h
  rw [← rebuilds] at h
  cases hneeds : rebuilds mk t (actualPrereqs found) (hasCommands found) existed needs with
  | false =>
    rw [hneeds] at h
    exact .inl ⟨rfl, (Except.ok.inj h).symm⟩
  | true =>
    rw [hneeds, Bool.not_true, if_neg Bool.false_ne_true] at h
    cases found with
    | none => exact .inr (.inl ⟨rfl, (Except.ok.inj h).symm⟩)
    | some f =>
      dsimp only at h
      cases hcmds : hasCommands (some f) with
      | false =>
        rw [hcmds, if_neg Bool.false_ne_true] at h
        exact .inr (.inl ⟨rfl, (Except.ok.inj h).symm⟩)
      | true =>
        rw [hcmds, if_pos rfl] at h
        split at h
        · contradiction
        · exact .inr (.inr (.inl ⟨rfl, (Except.ok.inj h).symm⟩))
        · exact .inr (.inr (.inr ⟨rfl, rfl, (Except.ok.inj h).symm⟩))

theorem finish_log {st : State} {t : Name} {found : Option Found} {existed needs : Bool}
    {r : State × Bool} (h : finish mk env depth st t found existed needs = .ok r) :
    r.1.log = st.log ∨
      (hasCommands found ∧ r.1.log = st.log ++ [.recipe t (actualPrereqs found)]) := by
  rcases finish_cases h with ⟨-, rfl⟩ | ⟨-, rfl⟩ | ⟨hrecipe, rfl⟩ | ⟨-, hrecipe, rfl⟩
  · exact .inl (mark_log ..)
  · exact .inl (mark_log ..)
  · exact .inr ⟨hrecipe, emit_log ..⟩
  · refine .inr ⟨hrecipe, ?_⟩
    rw [mark_log]
    split <;> rfl

def isVisit (u : Name) : Event → Bool
  | .visit t _ _ => t == u
  | _ => false

def isCall (u : Name) (i : Nat) : Event → Bool
  | .call t j _ => t == u && j == i
  | _ => false

def isCallTo (q : Name) : Event → Bool
  | .call _ _ p => p == q
  | _ => false

def isRecipe (u : Name) : Event → Bool
  | .recipe t _ => t == u
  | _ => false

/-- How often each target is visited, called for and made, from the log `l` to the log `l'`: a
    visit calls for each prerequisite once and runs the recipe once at most, and a visit is
    called for.  `calls` and `visits` count what the part of a run between the two adds. -/
structure Balance (l l' : List Event) (calls : Name → Nat → Nat) (visits : Name → Nat) : Prop where
  calls : ∀ u i, l'.countP (isCall u i) + l.countP (isVisit u) ≤
    l'.countP (isVisit u) + l.countP (isCall u i) + calls u i
  visits : ∀ q, l'.countP (isVisit q) + l.countP (isCallTo q) ≤
    l.countP (isVisit q) + l'.countP (isCallTo q) + visits q
  recipes : ∀ u, l'.countP (isRecipe u) + l.countP (isVisit u) ≤
    l'.countP (isVisit u) + l.countP (isRecipe u)

theorem Balance.trans {l l' l'' : List Event} {c c' d : Name → Nat → Nat} {v v' w : Name → Nat}
    (h : Balance l l' c v) (h' : Balance l' l'' c' v') (hc : ∀ u i, c u i + c' u i ≤ d u i)
    (hv : ∀ q, v q + v' q ≤ w q) : Balance l l'' d w := by
  refine ⟨fun u i => ?_, fun q => ?_, fun u => ?_⟩
  · have h1 := h.calls u i
    have h2 := h'.calls u i
    have := hc u i
    omega
  · have h1 := h.visits q
    have h2 := h'.visits q
    have := hv q
    omega
  · have h1 := h.recipes u
    have h2 := h'.recipes u
    omega

theorem Balance.refl (l : List Event) {c : Name → Nat → Nat} {v : Name → Nat} : Balance l l c v :=
  ⟨fun _ _ => by omega, fun _ => by omega, fun _ => by omega⟩

theorem Balance.called {l l' : List Event} {t p : Name} {i : Nat}
    (h : Balance (l ++ [.call t i p]) l' (fun _ _ => 0) fun q => if p = q then 1 else 0) :
    Balance l l' (fun u j => if t = u ∧ i = j then 1 else 0) fun _ => 0 := by
  refine ⟨fun u j => ?_, fun q => ?_, fun u => ?_⟩
  · have := h.calls u j
    simp only [List.countP_append, List.countP_singleton, isCall, isVisit, Bool.and_eq_true,
      beq_iff_eq, Bool.false_eq_true, if_false] at this
    omega
  · have := h.visits q
    simp only [List.countP_append, List.countP_singleton, isCallTo, isVisit, beq_iff_eq,
      Bool.false_eq_true, if_false] at this
    omega
  · have := h.recipes u
    simp only [List.countP_append, List.countP_singleton, isRecipe, isVisit, Bool.false_eq_true,
      if_false] at this
    omega

theorem Balance.done {l l' : List Event} {t p : Name} {i : Nat} {c : Name → Nat → Nat}
    {v : Name → Nat} (h : Balance (l ++ [.done t i p]) l' c v) : Balance l l' c v := by
  refine ⟨fun u j => ?_, fun q => ?_, fun u => ?_⟩
  · have := h.calls u j
    simp only [List.countP_append, List.countP_singleton, isCall, isVisit, Bool.false_eq_true,
      if_false] at this
    omega
  · have := h.visits q
    simp only [List.countP_append, List.countP_singleton, isCallTo, isVisit, Bool.false_eq_true,
      if_false] at this
    omega
  · have := h.recipes u
    simp only [List.countP_append, List.countP_singleton, isRecipe, isVisit, Bool.false_eq_true,
      if_false] at this
    omega

/-- A visit of `t` pays for one call for each of its prerequisites, and for its recipe. -/
theorem Balance.visited {l l' l'' : List Event} {t : Name} {ps : List Name} (ps' : List Name) {b : Bool}
    (h : Balance (l ++ [.visit t ps b]) l' (fun u j => if t = u ∧ 0 ≤ j then 1 else 0) fun _ => 0)
    (hl : l'' = l' ∨ l'' = l' ++ [.recipe t ps']) :
    Balance l l'' (fun _ _ => 0) fun q => if t = q then 1 else 0 := by
  have hcall : ∀ u j, l''.countP (isCall u j) = l'.countP (isCall u j) := by
    rcases hl with rfl | rfl <;> simp [List.countP_append, isCall]
  have hvisit : ∀ u, l''.countP (isVisit u) = l'.countP (isVisit u) := by
    rcases hl with rfl | rfl <;> simp [List.countP_append, isVisit]
  have hto : ∀ q, l''.countP (isCallTo q) = l'.countP (isCallTo q) := by
    rcases hl with rfl | rfl <;> simp [List.countP_append, isCallTo]
  have hrec : ∀ u, l''.countP (isRecipe u) ≤ l'.countP (isRecipe u) + if t = u then 1 else 0 := by
    rcases hl with rfl | rfl <;> simp [List.countP_append, isRecipe, List.countP_singleton]
  refine ⟨fun u j => ?_, fun q => ?_, fun u => ?_⟩
  · have := h.calls u j
    simp only [List.countP_append, List.countP_singleton, isCall, isVisit, beq_iff_eq,
      Bool.false_eq_true, if_false, Nat.zero_le, and_true] at this
    rw [hcall, hvisit]
    omega
  · have := h.visits q
    simp only [List.countP_append, List.countP_singleton, isCallTo, isVisit, beq_iff_eq,
      Bool.false_eq_true, if_false] at this
    rw [hto, hvisit]
    omega
  · have := h.recipes u
    simp only [List.countP_append, List.countP_singleton, isRecipe, isVisit, beq_iff_eq,
      Bool.false_eq_true, if_false] at this
    have := hrec u
    rw [hvisit]
    omega

theorem balance_rules : RunRules mk env depth
    (fun st t st' _ => Balance st.log st'.log (fun _ _ => 0) fun q => if t = q then 1 else 0)
    (fun t _ st _ i _ st' _ =>
      Balance st.log st'.log (fun u j => if t = u ∧ i ≤ j then 1 else 0) fun _ => 0) where
  skip _ _ _ := .refl _
  missing _ _ _ _ := .refl _
  nil _ _ _ _ _ := .refl _
  fail t _ st _ i p _ st' h := by
    refine h.called.trans (Balance.refl st'.log (c := fun _ _ => 0) (v := fun _ => 0))
      (fun u j => ?_) (fun _ => Nat.le_refl 0)
    by_cases htu : t = u
    · simp only [htu, true_and]
      split_ifs <;> omega
    · simp only [htu, false_and, if_false, Nat.le_refl]
  cons t _ st _ i p _ st₁ st' r h1 h2 := by
    refine h1.called.trans h2.done (fun u j => ?_) (fun _ => Nat.le_refl 0)
    by_cases htu : t = u
    · simp only [htu, true_and]
      split_ifs <;> omega
    · simp only [htu, false_and, if_false, Nat.le_refl]
  stop st t st' _ _ h := by
    rw [enter_log] at h
    exact Balance.visited [] h (.inl (pop_log st'))
  build st t st' needs r _ _ h hr := by
    rw [enter_log] at h
    refine Balance.visited (mk.prereqsOf st.fs t) h ?_
    rcases finish_log hr with hl | ⟨-, hl⟩
    · exact .inl hl
    · exact .inr hl

/-! ### Order -/

/-- Every call is for a prerequisite of a visited target, every recipe that runs is that of a
    visited target, and all prerequisites are done before it. -/
structure LogOk (log : List Event) : Prop where
  calls : ∀ u i p, .call u i p ∈ log → ∃ ps b, .visit u ps b ∈ log ∧ ps[i]? = some p
  recipes : ∀ u ps, .recipe u ps ∈ log → .visit u ps true ∈ log
  order : ∀ l₁ u ps l₂, log = l₁ ++ .recipe u ps :: l₂ →
    ∀ i p, ps[i]? = some p → .done u i p ∈ l₁

theorem logOk_nil : LogOk [] := ⟨by simp, by simp, by simp⟩

theorem LogOk.append {log : List Event} (h : LogOk log) {e : Event}
    (hcall : ∀ u i p, e = .call u i p → ∃ ps b, .visit u ps b ∈ log ∧ ps[i]? = some p)
    (hrecipe : ∀ u ps, e = .recipe u ps →
      .visit u ps true ∈ log ∧ ∀ i p, ps[i]? = some p → .done u i p ∈ log) :
    LogOk (log ++ [e]) := by
  refine ⟨fun u i p hmem => ?_, fun u ps hmem => ?_, fun l₁ u ps l₂ heq i p hp => ?_⟩
  · rw [List.mem_append, List.mem_singleton] at hmem
    obtain ⟨ps, b, hv, hp⟩ := hmem.elim (h.calls u i p) fun heq => hcall u i p heq.symm
    exact ⟨ps, b, List.mem_append_left _ hv, hp⟩
  · rw [List.mem_append, List.mem_singleton] at hmem
    rcases hmem with hmem | heq
    · exact List.mem_append_left _ (h.recipes u ps hmem)
    · exact List.mem_append_left _ (hrecipe u ps heq.symm).1
  · -- the recipe is the new event, or was in the log before
    rcases List.eq_nil_or_concat l₂ with rfl | ⟨l₃, e', rfl⟩
    · obtain ⟨hlog, he⟩ := List.append_inj' heq rfl
      rw [List.cons.injEq] at he
      rw [← hlog]
      exact (hrecipe u ps he.1).2 i p hp
    · rw [List.concat_eq_append, ← List.cons_append, ← List.append_assoc] at heq
      obtain ⟨hlog, -⟩ := List.append_inj' heq rfl
      exact h.order l₁ u ps l₃ hlog i p hp

theorem LogOk.call {log : List Event} (h : LogOk log) {t p : Name} {full ps : List Name} {b : Bool}
    {i : Nat} (hvisit : .visit t full b ∈ log) (hdrop : full.drop i = p :: ps) :
    full[i]? = some p ∧ LogOk (log ++ [.call t i p]) := by
  have hp : full[i]? = some p := by
    rw [← List.head?_drop, hdrop]
    rfl
  refine ⟨hp, h.append (fun u j q heq => ?_) (fun u qs heq => by cases heq)⟩
  cases heq
  exact ⟨full, b, hvisit, hp⟩

theorem LogOk.enter {st : State} (h : LogOk st.log) (t : Name) :
    LogOk (st.enter mk t).log ∧
      .visit t (mk.prereqsOf st.fs t) (mk.hasRecipe st.fs t) ∈ (st.enter mk t).log := by
  rw [enter_log]
  exact ⟨h.append (fun u i p heq => by cases heq) (fun u ps heq => by cases heq), by simp⟩

theorem log_rules : RunRules mk env depth
    (fun st _ st' _ => LogOk st.log → st.log <+: st'.log ∧ LogOk st'.log)
    (fun t _ st _ i ps st' r => ∀ full b, LogOk st.log → .visit t full b ∈ st.log →
      full.drop i = ps → (∀ k p, k < i → full[k]? = some p → .done t k p ∈ st.log) →
      st.log <+: st'.log ∧ LogOk st'.log ∧
        (r.isSome → ∀ k p, full[k]? = some p → .done t k p ∈ st'.log)) where
  skip st t _ h := ⟨List.prefix_rfl, h⟩
  missing st t _ _ h := ⟨List.prefix_rfl, h⟩
  nil t m st needs i full b h _ hdrop hdone := by
    refine ⟨List.prefix_rfl, h, fun _ k p hk => hdone k p ?_ hk⟩
    have hle := List.drop_eq_nil_iff.mp hdrop
    obtain ⟨hlt, -⟩ := List.getElem?_eq_some_iff.mp hk
    omega
  fail t m st needs i p ps st' h full b hlog hvisit hdrop hdone := by
    obtain ⟨-, hok⟩ := hlog.call hvisit hdrop
    obtain ⟨hpre, hok'⟩ := h hok
    exact ⟨(List.prefix_append _ _).trans hpre, hok', by simp⟩
  cons t m st needs i p ps st₁ st' r h1 h2 full b hlog hvisit hdrop hdone := by
    obtain ⟨hp, hok⟩ := hlog.call hvisit hdrop
    obtain ⟨hpre, hok₁⟩ := h1 hok
    have hpre₁ : st.log <+: st₁.log := (List.prefix_append _ _).trans hpre
    have hok₂ : LogOk (st₁.emit (.done t i p)).log :=
      hok₁.append (fun u j q heq => by cases heq) (fun u qs heq => by cases heq)
    obtain ⟨hpre₂, hok', hall⟩ := h2 full b hok₂ (List.mem_append_left _ (hpre₁.subset hvisit))
      (by rw [← List.drop_drop, hdrop]; rfl) (fun k q hk hq => by
        rcases Nat.lt_or_eq_of_le (Nat.le_of_lt_succ hk) with hlt | rfl
        · exact List.mem_append_left _ (hpre₁.subset (hdone k q hlt hq))
        · rw [hp, Option.some.injEq] at hq
          rw [hq]
          exact List.mem_append_right _ (List.mem_singleton_self _))
    exact ⟨hpre₁.trans ((List.prefix_append _ _).trans hpre₂), hok', hall⟩
  stop st t st' _ _ h hlog := by
    obtain ⟨hok, hvisit⟩ := hlog.enter t
    obtain ⟨hpre, hok', -⟩ := h _ _ hok hvisit rfl (by simp)
    rw [enter_log] at hpre
    exact ⟨(List.prefix_append _ _).trans hpre, hok'⟩
  build st t st' needs r _ _ h hr hlog := by
    obtain ⟨hok, hvisit⟩ := hlog.enter t
    obtain ⟨hpre, hok', hall⟩ := h _ _ hok hvisit rfl (by simp)
    have hpre' : st.log <+: st'.log := by
      rw [enter_log] at hpre
      exact (List.prefix_append _ _).trans hpre
    rcases finish_log hr with hl | ⟨hrecipe, hl⟩
    · rw [hl]
      exact ⟨hpre', hok'⟩
    · rw [hl, pop_log]
      refine ⟨hpre'.trans (List.prefix_append _ _),
        hok'.append (fun u i p heq => by cases heq) fun u ps heq => ?_⟩
      cases heq
      refine ⟨?_, fun i p => hall rfl i p⟩
      rw [← hrecipe]
      exact hpre.subset hvisit

end Gemios.Make
