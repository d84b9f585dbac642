import Gemios.RtosRun

/-!
# Semaphores lose no permit

A permit is in the counter, or it has been given to a task: at once, when the counter
was positive, or by the signal that woke the task.
-/

namespace Gemios

open Function

/-! ### One step -/

/-- The step gives a permit of the semaphore `i` to a task: `rtos_sem_wait` returns `true`
    without blocking, or `rtos_sem_signal` wakes a waiter. -/
def Label.grants (i : Nat) : Label → Bool
  | .wait _ j _ (.ret true) => i = j
  | .signal _ j (some _) _ => i = j
  | _ => false

/-- The step is a signal of the semaphore `i` that is not dropped at the maximum. -/
def Label.keeps (i : Nat) : Label → Bool
  | .signal _ j _ true => i = j
  | _ => false

/-- What a step can do to the semaphore `i` with the waiters `q`. -/
structure SemStep (i : Nat) (q : List Nat) (k : Rtos) (l : Label) (k' : Rtos) : Prop where
  maxCount : (k'.sems i).maxCount = (k.sems i).maxCount
  count : (k'.sems i).count + (if l.grants i then 1 else 0) =
    (k.sems i).count + (if l.keeps i then 1 else 0)
  taken : l.grants i = true → l.keeps i = false → 0 < (k.sems i).count
  added : l.keeps i = true → l.grants i = false → q = [] ∧ (k.sems i).count < (k.sems i).maxCount
  blocked : l.arrives (.sem i) ≠ none → (k.sems i).count ≤ 0

section

variable {i : Nat} {q : List Nat} {k k' k₁ : Rtos} {l : Label}

theorem SemStep.other (hc : (k'.sems i).count = (k.sems i).count)
    (hm : (k'.sems i).maxCount = (k.sems i).maxCount) (hg : l.grants i = false)
    (hk : l.keeps i = false) (ha : l.arrives (.sem i) = none) : SemStep i q k l k' where
  maxCount := hm
  count := by rw [hc, hg, hk]
  taken := fun h => by rw [hg] at h; cases h
  added := fun h => by rw [hk] at h; cases h
  blocked := fun h => absurd ha h

theorem SemStep.same (hs : k'.sems = k.sems) (hg : l.grants i = false) (hk : l.keeps i = false)
    (ha : l.arrives (.sem i) = none) : SemStep i q k l k' :=
  SemStep.other (by rw [hs]) (by rw [hs]) hg hk ha

theorem Dispatch.count_joins {o : Obj} {t : Nat} (hd : Dispatch (k.joins o t) k') :
    (k'.sems i).count = (k.sems i).count ∧ (k'.sems i).maxCount = (k.sems i).maxCount := by
  rw [hd.sems]
  exact k.count_setQueue o _ i

theorem Dispatch.count_leaves {o : Obj} {t : Nat} (hd : Dispatch (k.leaves o t) k') :
    (k'.sems i).count = (k.sems i).count ∧ (k'.sems i).maxCount = (k.sems i).maxCount := by
  rw [hd.sems]
  exact k.count_setQueue o _ i

theorem semStep_wait {t j timeoutMs : Nat} {r : Rtos × Outcome}
    (h : SemWaitCases k t j timeoutMs r) :
    SemStep i q k (.wait t j timeoutMs r.2) r.1 := by
  by_cases hij : i = j
  · subst hij
    cases h with
    | taken hpos =>
      refine ⟨?_, ?_, fun _ _ => hpos, fun h => ?_, fun h => absurd rfl h⟩
      · simp [Rtos.setSem]
      · simp [Rtos.setSem, Label.grants, Label.keeps]
      · simp [Label.keeps] at h
    | refused hzero _ => exact SemStep.same rfl rfl rfl rfl
    | blocked hzero _ hd =>
      obtain ⟨hc, hm⟩ := hd.count_joins (i := i)
      refine ⟨hm, ?_, fun h => ?_, fun h => ?_, fun _ => hzero⟩
      · simpa [Label.grants, Label.keeps] using hc
      · simp [Label.grants] at h
      · simp [Label.keeps] at h
  · cases h with
    | taken hpos =>
      refine SemStep.other ?_ ?_ ?_ rfl rfl
      · simp [Rtos.setSem, update_of_ne hij]
      · simp [Rtos.setSem, update_of_ne hij]
      · simp [Label.grants, hij]
    | refused hzero _ => exact SemStep.same rfl rfl rfl rfl
    | blocked hzero _ hd =>
      obtain ⟨hc, hm⟩ := hd.count_joins (i := i)
      refine SemStep.other hc hm rfl rfl ?_
      simp [Label.arrives, hij]

theorem semStep_signal {t j : Nat} {q : Obj → List Nat} (hw : Waiting k.taskTable k.queue q)
    (h : SemSignalCases k j (q (.sem j)) k') :
    SemStep i (q (.sem i)) k
      (.signal t j (k.sems j).wait.waitHead
        ((k.sems j).wait.waitHead.isSome || decide ((k.sems j).count < (k.sems j).maxCount))) k' := by
  have hhead : (k.sems j).wait.waitHead = (q (.sem j)).head? := (hw.linked (.sem j)).head_eq
  rw [hhead]
  by_cases hij : i = j
  · subst hij
    cases h with
    | woken hq hd =>
      obtain ⟨hc, hm⟩ := hd.count_leaves (i := i)
      rw [hq]
      refine ⟨hm, ?_, fun _ h => ?_, fun _ h => ?_, fun h => absurd rfl h⟩
      · simpa [Label.grants, Label.keeps] using hc
      · simp [Label.keeps] at h
      · simp [Label.grants] at h
    | added hq hlt =>
      rw [hq]
      refine ⟨?_, ?_, fun h => ?_, fun _ _ => ⟨rfl, hlt⟩, fun h => absurd rfl h⟩
      · simp [Rtos.setSem]
      · simp [Rtos.setSem, Label.grants, Label.keeps, hlt]
      · simp [Label.grants] at h
    | dropped hq hge =>
      rw [hq]
      refine SemStep.same rfl rfl ?_ rfl
      simp [Label.keeps, hge]
  · have hg : ∀ w b, (Label.signal t j w b).grants i = false := by
      intro w b
      cases w with
      | none => rfl
      | some w => simp [Label.grants, hij]
    have hk : ∀ w b, (Label.signal t j w b).keeps i = false := by
      intro w b
      cases b with
      | false => rfl
      | true => simp [Label.keeps, hij]
    cases h with
    | woken hq hd =>
      obtain ⟨hc, hm⟩ := hd.count_leaves (i := i)
      exact SemStep.other hc hm (hg _ _) (hk _ _) rfl
    | added hq hlt =>
      refine SemStep.other ?_ ?_ (hg _ _) (hk _ _) rfl
      · simp [Rtos.setSem, update_of_ne hij]
      · simp [Rtos.setSem, update_of_ne hij]
    | dropped hq hge => exact SemStep.same rfl (hg _ _) (hk _ _) rfl

theorem semStep_lock {t m timeoutMs : Nat} {r : Rtos × Outcome} (h : LockCases k t m timeoutMs r) :
    SemStep i q k (.lock t m timeoutMs r.2) r.1 := by
  cases h with
  | taken _ => exact SemStep.same rfl rfl rfl rfl
  | again _ _ => exact SemStep.same rfl rfl rfl rfl
  | refused _ _ _ => exact SemStep.same rfl rfl rfl rfl
  | blocked _ _ _ hd =>
    obtain ⟨hc, hm⟩ := hd.count_joins (i := i)
    refine SemStep.other hc hm rfl rfl ?_
    simp [Label.arrives]

theorem semStep_unlock {t m : Nat} {w : Option Nat} {q' : List Nat}
    (h : UnlockCases k t m q' k') : SemStep i q k (.unlock t m w) k' := by
  cases h with
  | foreign _ => exact SemStep.same rfl rfl rfl rfl
  | inner _ _ _ => exact SemStep.same rfl rfl rfl rfl
  | handed _ _ hd =>
    obtain ⟨hc, hm⟩ := hd.count_leaves (i := i)
    exact SemStep.other hc hm rfl rfl rfl
  | freed _ _ => exact SemStep.same rfl rfl rfl rfl

end

theorem rtosEventWait_sems (k : Rtos) (e : Nat) (mask : BitVec 32) (clear : Bool) :
    (rtosEventWait k e mask clear).1.sems = k.sems := by
  have htake : (eventTake k e mask clear).1.sems = k.sems := by
    unfold eventTake
    dsimp only
    split
    · rfl
    · rfl
  unfold rtosEventWait
  split
  · split
    · rfl
    · exact htake
  · exact htake

theorem rtosDelayTicks_sems (k : Rtos) (ticks : Nat) : (rtosDelayTicks k ticks).sems = k.sems := by
  unfold rtosDelayTicks
  split
  · rfl
  · split
    · rfl
    · rfl

theorem Inv.semStep {s s' : Sys} {l : Label} {q : Obj → List Nat} (h : Inv s q) (hs : Step s l s')
    (i : Nat) : SemStep i (q (.sem i)) s.k l s'.k := by
  cases hs with
  | tick => exact SemStep.same (dispatch_schedule h.running h.idle 32).sems rfl rfl rfl
  | yield _ _ => exact SemStep.same (dispatch_yield h.running h.idle).sems rfl rfl rfl
  | wait hat j timeoutMs =>
    exact semStep_wait
      (rtosSemWait_cases h.running h.idle hat.current hat.ne_idle j timeoutMs)
  | waitReturn _ => exact SemStep.same rfl rfl rfl rfl
  | signal hat j =>
    exact semStep_signal h.waiting
      (rtosSemSignal_cases h.running h.idle (h.runs hat) h.waiting j)
  | lock hat m timeoutMs =>
    exact semStep_lock
      (rtosMutexLock_cases h.running h.idle hat.current hat.ne_idle m timeoutMs)
  | lockReturn _ => exact SemStep.same rfl rfl rfl rfl
  | unlock hat m =>
    exact semStep_unlock
      (rtosMutexUnlock_cases h.running h.idle hat.current (h.runs hat) h.waiting m)
  | eventWait _ => exact SemStep.same (rtosEventWait_sems s.k _ _ _) rfl rfl rfl
  | eventReschedule _ => exact SemStep.same (dispatch_yield h.running h.idle).sems rfl rfl rfl
  | eventSet _ e mask => exact SemStep.same rfl rfl rfl rfl
  | eventClear _ e mask => exact SemStep.same rfl rfl rfl rfl
  | delay _ ticks => exact SemStep.same (rtosDelayTicks_sems s.k ticks) rfl rfl rfl
  | kill _ _ => exact SemStep.same rfl rfl rfl rfl
  | reschedule _ => exact SemStep.same (dispatch_yield h.running h.idle).sems rfl rfl rfl

/-! ### Whole runs -/

/-- The counter of the semaphore `i` between the steps. -/
structure SemInv (i : Nat) (initial maxCount : Int) (s : Sys) (tr : List Label) : Prop where
  maxCount_eq : (s.k.sems i).maxCount = maxCount
  lower : 0 ≤ (s.k.sems i).count
  upper : (s.k.sems i).count ≤ maxCount
  empty : waiters tr (.sem i) ≠ [] → (s.k.sems i).count = 0
  balance : (tr.countP (Label.grants i) : Int) + (s.k.sems i).count =
    initial + tr.countP (Label.keeps i)

theorem countP_snoc (f : Label → Bool) (tr : List Label) (l : Label) :
    (((tr ++ [l]).countP f : Nat) : Int) = tr.countP f + (if f l then 1 else 0) := by
  rw [List.countP_append, List.countP_singleton]
  split
  · simp
  · simp

theorem SemInv.step {i : Nat} {initial maxCount : Int} {s s' : Sys} {l : Label} {tr : List Label}
    (h : SemInv i initial maxCount s tr) (hs : SemStep i (waiters tr (.sem i)) s.k l s'.k) :
    SemInv i initial maxCount s' (tr ++ [l]) := by
  have hcount := hs.count
  have hlo := h.lower
  have hup := h.upper
  have hmax := h.maxCount_eq
  refine ⟨hs.maxCount.trans hmax, ?_, ?_, fun hne => ?_, ?_⟩
  · -- the counter goes down with a wait that found it positive
    cases hg : l.grants i with
    | false =>
      cases hk : l.keeps i with
      | false =>
        rw [hg, hk] at hcount
        omega
      | true =>
        rw [hg, hk] at hcount
        simp only [if_true, Bool.false_eq_true, if_false] at hcount
        omega
    | true =>
      cases hk : l.keeps i with
      | false =>
        have hpos := hs.taken hg hk
        rw [hg, hk] at hcount
        simp only [if_true, Bool.false_eq_true, if_false] at hcount
        omega
      | true =>
        rw [hg, hk] at hcount
        omega
  · -- and up with a signal that found it below the maximum
    cases hk : l.keeps i with
    | false =>
      cases hg : l.grants i with
      | false =>
        rw [hg, hk] at hcount
        omega
      | true =>
        rw [hg, hk] at hcount
        simp only [if_true, Bool.false_eq_true, if_false] at hcount
        omega
    | true =>
      cases hg : l.grants i with
      | false =>
        have hlt := (hs.added hk hg).2
        rw [hg, hk] at hcount
        simp only [if_true, Bool.false_eq_true, if_false] at hcount
        omega
      | true =>
        rw [hg, hk] at hcount
        omega
  · -- a waiter was there before, or has just found the counter at 0
    rw [waiters_snoc, Label.queue_apply] at hne
    by_cases ha : l.arrives (.sem i) = none
    · have hold : waiters tr (.sem i) ≠ [] := by
        intro hnil
        rw [hnil, ha] at hne
        exact hne (by simp)
      have hzero := h.empty hold
      cases hg : l.grants i with
      | false =>
        cases hk : l.keeps i with
        | false =>
          rw [hg, hk] at hcount
          omega
        | true => exact absurd (hs.added hk hg).1 hold
      | true =>
        cases hk : l.keeps i with
        | false =>
          have hpos := hs.taken hg hk
          omega
        | true =>
          rw [hg, hk] at hcount
          omega
    · have hle := hs.blocked ha
      have hquiet : l.grants i = false ∧ l.keeps i = false := by
        cases l with
        | wait t j timeoutMs out =>
          cases out with
          | ret b => exact absurd rfl ha
          | block => exact ⟨rfl, rfl⟩
        | lock t m timeoutMs out => exact ⟨rfl, rfl⟩
        | _ => exact absurd rfl ha
      rw [hquiet.1, hquiet.2] at hcount
      omega
  · have hbal := h.balance
    rw [countP_snoc, countP_snoc]
    omega

theorem Reach.semInv {ok : Sys → Label → Prop} {initial maxCount : Nat → Int} {i : Nat}
    (h0 : 0 ≤ initial i) (hmax : initial i ≤ maxCount i) {s : Sys} {tr : List Label}
    (h : Reach (Sys.Init initial maxCount) ok s tr) :
    SemInv i (initial i) (maxCount i) s tr := by
  induction h with
  | init hi =>
    have hsem := hi.sems i
    refine ⟨by rw [hsem]; rfl, by rw [hsem]; exact h0, by rw [hsem]; exact hmax,
      fun hne => absurd rfl hne, ?_⟩
    rw [hsem]
    simp [rtosSemInit]
  | step hr _ hs ih => exact ih.step (hr.inv.semStep hs i)

theorem Reach.grants_le {ok : Sys → Label → Prop} {initial maxCount : Nat → Int} {s : Sys}
    {tr : List Label} (h : Reach (Sys.Init initial maxCount) ok s tr) (i : Nat) :
    (tr.countP (Label.grants i) : Int) ≤ max (initial i) 0 + tr.countP (Label.keeps i) := by
  have hinv : min (initial i) 0 ≤ (s.k.sems i).count ∧
      (tr.countP (Label.grants i) : Int) + (s.k.sems i).count =
        initial i + tr.countP (Label.keeps i) := by
    induction h with
    | init hi =>
      rw [hi.sems i]
      exact ⟨Int.min_le_left _ _, by simp [rtosSemInit]⟩
    | @step s s' tr l hr _ hs ih =>
      have hstep := hr.inv.semStep hs i
      have hcount := hstep.count
      obtain ⟨hlow, hbal⟩ := ih
      rw [countP_snoc, countP_snoc]
      refine ⟨?_, by omega⟩
      cases hg : l.grants i with
      | false =>
        rw [hg] at hcount
        simp only [Bool.false_eq_true, if_false] at hcount
        split at hcount
        · omega
        · omega
      | true =>
        cases hk : l.keeps i with
        | false =>
          have hpos := hstep.taken hg hk
          rw [hg, hk] at hcount
          simp only [if_true, Bool.false_eq_true, if_false] at hcount
          omega
        | true =>
          rw [hg, hk] at hcount
          omega
  omega

/-- What a run has done with the semaphore `i`. -/
structure SemOk (i : Nat) (initial maxCount : Int) (s : Sys) (tr : List Label) : Prop where
  range : 0 ≤ (s.k.sems i).count ∧ (s.k.sems i).count ≤ maxCount
  /-- The wait queue, along the links of the tasks, holds the tasks that wait. -/
  queue : LinkedQueue (fun t => (s.k.taskTable t).nextWait) (s.k.sems i).wait.waitHead
    (s.k.sems i).wait.waitTail (waiters tr (.sem i))
  members : ∀ t, t ∈ waiters tr (.sem i) ↔ (s.k.taskTable t).WaitsFor (.sem i)
  empty : waiters tr (.sem i) ≠ [] → (s.k.sems i).count = 0
  conserved : (tr.countP (Label.grants i) : Int) =
    initial + tr.countP (Label.keeps i) - (s.k.sems i).count
  /-- A blocked call returns after it has been woken, and then once. -/
  returned : ∀ t, (tr.filterMap (Label.wakes (.sem i))).count t =
    (tr.filterMap (Label.returns (.sem i))).count t +
      if s.pos t = .semWait i ∧ t ∉ waiters tr (.sem i) then 1 else 0
  order : tr.filterMap (Label.arrives (.sem i)) =
    tr.filterMap (Label.wakes (.sem i)) ++ waiters tr (.sem i)
  /-- A wait with timeout 0 returns at once: no task is switched, blocked or queued. -/
  poll : ∀ t out s', Step s (.wait t i 0 out) s' →
    (∃ b, out = .ret b) ∧ s'.k.currentTask = s.k.currentTask ∧ s'.k.taskTable = s.k.taskTable ∧
      s'.pos t = .user

theorem Pos.object_eq_sem {p : Pos} {i : Nat} : p.object = some (.sem i) ↔ p = .semWait i := by
  cases p with
  | semWait j => simp [Pos.object]
  | _ => simp [Pos.object]

theorem Inv.poll {s s' : Sys} {q : Obj → List Nat} {t i : Nat} {out : Outcome} (h : Inv s q)
    (hs : Step s (.wait t i 0 out) s') :
    (∃ b, out = .ret b) ∧ s'.k.currentTask = s.k.currentTask ∧ s'.k.taskTable = s.k.taskTable ∧
      s'.pos t = .user := by
  cases hs with
  | wait hat _ _ =>
    have hcases := rtosSemWait_cases h.running h.idle hat.current hat.ne_idle i 0
    generalize rtosSemWait s.k i 0 = r at hcases ⊢
    cases hcases with
    | taken _ => exact ⟨⟨true, rfl⟩, rfl, rfl, update_self _ _ _⟩
    | refused _ _ => exact ⟨⟨false, rfl⟩, rfl, rfl, update_self _ _ _⟩
    | blocked _ ht _ => exact absurd rfl ht

/-- **Semaphores conserve permits** in every run. -/
theorem sem_conservation {initial maxCount : Nat → Int} {i : Nat} (h0 : 0 ≤ initial i)
    (hmax : initial i ≤ maxCount i) {s : Sys} {tr : List Label}
    (h : Reach (Sys.Init initial maxCount) (fun _ _ => True) s tr) :
    SemOk i (initial i) (maxCount i) s tr := by
  have hsem := h.semInv h0 hmax
  have hbal := hsem.balance
  refine ⟨⟨hsem.lower, hsem.upper⟩, h.inv.waiting.linked (.sem i),
    h.inv.waiting.mem (.sem i) trivial, hsem.empty, by omega, fun t => ?_, h.fifo (.sem i),
    fun t out s' hs => h.inv.poll hs⟩
  have hw := h.woken (o := .sem i) trivial t
  simp only [Pos.object_eq_sem] at hw
  exact hw

/-- A signal and a wait of task 1: the permit is kept and taken again. -/
theorem sem_conservation_one :
    ∃ s tr, SemOk 0 0 1 s tr ∧ tr.length = 2 ∧ (s.k.sems 0).count = 0 ∧
      tr.countP (Label.grants 0) = 1 ∧ tr.countP (Label.keeps 0) = 1 := by
  have hinit : Reach (Sys.Init (fun _ => 0) (fun _ => 1)) (fun _ _ => True)
      (freshSys 2 (fun _ => 6) (fun _ => 0) (fun _ => 1)) [] :=
    Reach.init (freshSys_init (by decide) _ _ _)
  have h1 := hinit.step trivial (Step.signal (t := 1) ⟨rfl, by decide, rfl⟩ 0)
  have h2 := h1.step trivial (Step.wait (t := 1) ⟨rfl, by decide, rfl⟩ 0 5)
  exact ⟨_, _, sem_conservation (by decide) (by decide) h2, rfl, by decide, by decide, by decide⟩

end Gemios
