import Gemios.RtosWait

/-!
# What each call does

The calls of `sync.c` as the cases a caller has to know: which branch is taken, what it
writes, and whether a pass of the scheduler follows.
-/

namespace Gemios

open Function

/-! ### To wait and to be woken -/

namespace Rtos

/-- The pointers of an object's wait queue are written. -/
def setQueue (k : Rtos) (o : Obj) (w : WaitQueue) : Rtos :=
  match o with
  | .sem i => k.setSem i { k.sems i with wait := w }
  | .mutex m => k.setMutex m { k.mutexes m with wait := w }
  | .event _ => k

/-- The task `t` is put at the end of the queue of `o`. -/
def queued (k : Rtos) (o : Obj) (t : Nat) : Rtos :=
  { k.setQueue o (addWaiter k.taskTable (k.queue o) t).2 with
    taskTable := (addWaiter k.taskTable (k.queue o) t).1 }

/-- The task `t` is put at the end of the queue of `o` and marked as blocked. -/
def joins (k : Rtos) (o : Obj) (t : Nat) : Rtos :=
  (k.queued o t).setTask t
    { (k.queued o t).taskTable t with state := .blocked, waitObject := some o }

/-- The task `t`, the first of the queue of `o`, is taken off. -/
def unqueued (k : Rtos) (o : Obj) (t : Nat) : Rtos :=
  { k.setQueue o ⟨(k.taskTable t).nextWait,
      if (k.taskTable t).nextWait = none then none else (k.queue o).waitTail⟩ with
    taskTable := update k.taskTable t { k.taskTable t with nextWait := none } }

/-- The task `t`, the first of the queue of `o`, is taken off and marked as ready. -/
def leaves (k : Rtos) (o : Obj) (t : Nat) : Rtos :=
  (k.unqueued o t).setTask t
    { (k.unqueued o t).taskTable t with state := .ready, waitObject := none }

theorem queue_setQueue {k : Rtos} {o : Obj} (ho : o.Queued) (w : WaitQueue) :
    (k.setQueue o w).queue = update k.queue o w := by
  cases o with
  | sem i => exact k.queue_setSem i _
  | mutex m => exact k.queue_setMutex m _
  | event e => cases ho

theorem queue_event (k : Rtos) (e : Nat) : (k.queue (.event e)).waitHead = none := rfl

theorem queue_joins {k : Rtos} {o : Obj} (ho : o.Queued) (t : Nat) :
    (k.joins o t).queue = update k.queue o (addWaiter k.taskTable (k.queue o) t).2 :=
  queue_setQueue ho _

theorem queue_leaves {k : Rtos} {o : Obj} (ho : o.Queued) (t : Nat) :
    (k.leaves o t).queue = update k.queue o
      ⟨(k.taskTable t).nextWait,
        if (k.taskTable t).nextWait = none then none else (k.queue o).waitTail⟩ :=
  queue_setQueue ho _

section

variable (k : Rtos) (o : Obj) (w : WaitQueue) (t : Nat)

theorem maxTasks_setQueue : (k.setQueue o w).maxTasks = k.maxTasks := by cases o <;> rfl

theorem idleTask_setQueue : (k.setQueue o w).idleTask = k.idleTask := by cases o <;> rfl

theorem running_setQueue : (k.setQueue o w).schedulerRunning = k.schedulerRunning := by
  cases o <;> rfl

theorem currentTask_setQueue : (k.setQueue o w).currentTask = k.currentTask := by cases o <;> rfl

theorem events_setQueue : (k.setQueue o w).events = k.events := by cases o <;> rfl

theorem count_setQueue (i : Nat) : ((k.setQueue o w).sems i).count = (k.sems i).count ∧
    ((k.setQueue o w).sems i).maxCount = (k.sems i).maxCount := by
  cases o with
  | sem j =>
    by_cases hij : i = j
    · subst hij
      simp [setQueue, setSem]
    · simp [setQueue, setSem, update_of_ne hij]
  | mutex m => exact ⟨rfl, rfl⟩
  | event e => exact ⟨rfl, rfl⟩

theorem owner_setQueue (m : Nat) :
    ((k.setQueue o w).mutexes m).locked = (k.mutexes m).locked ∧
    ((k.setQueue o w).mutexes m).recursionCount = (k.mutexes m).recursionCount ∧
    ((k.setQueue o w).mutexes m).owner = (k.mutexes m).owner := by
  cases o with
  | sem i => exact ⟨rfl, rfl, rfl⟩
  | mutex j =>
    by_cases hmj : m = j
    · subst hmj
      simp [setQueue, setMutex]
    · simp [setQueue, setMutex, update_of_ne hmj]
  | event e => exact ⟨rfl, rfl, rfl⟩

theorem joins_task {u : Nat} (hu : u ≠ t) :
    ∃ n, (k.joins o t).taskTable u = { k.taskTable u with nextWait := n } := by
  refine ⟨((addWaiter k.taskTable (k.queue o) t).1 u).nextWait, ?_⟩
  dsimp only [joins, setTask]
  rw [update_of_ne hu]
  exact Waiting.addWaiter_same k.taskTable (k.queue o) t u

theorem joins_self : ∃ n, (k.joins o t).taskTable t =
    { k.taskTable t with nextWait := n, state := .blocked, waitObject := some o } := by
  refine ⟨((addWaiter k.taskTable (k.queue o) t).1 t).nextWait, ?_⟩
  dsimp only [joins, setTask, queued]
  rw [update_self, Waiting.addWaiter_same k.taskTable (k.queue o) t t]

theorem leaves_tab : (k.leaves o t).taskTable = update k.taskTable t
    { k.taskTable t with nextWait := none, state := .ready, waitObject := none } := by
  dsimp only [leaves, setTask, unqueued]
  rw [update_self, update_idem]

theorem leaves_task {u : Nat} (hu : u ≠ t) : (k.leaves o t).taskTable u = k.taskTable u := by
  rw [leaves_tab, update_of_ne hu]

theorem leaves_self : (k.leaves o t).taskTable t =
    { k.taskTable t with nextWait := none, state := .ready, waitObject := none } := by
  rw [leaves_tab, update_self]

end

end Rtos

/-! ### What each call does -/

section

variable {k : Rtos} {c : Nat} (hrun : k.schedulerRunning = true) (hidle : k.IdleOk)
  (hc : k.currentTask = some c) (hci : c ≠ k.idleTask)

theorem Rtos.IdleOk.congr {k k' : Rtos} (h : k.IdleOk) (hmax : k'.maxTasks = k.maxTasks)
    (hidle : k'.idleTask = k.idleTask)
    (hst : (k'.taskTable k.idleTask).state = (k.taskTable k.idleTask).state) : k'.IdleOk := by
  refine ⟨?_, ?_, ?_⟩
  · rw [hidle, hmax]
    exact h.bound
  · rw [hidle, hst]
    exact h.ne_blocked
  · rw [hidle, hst]
    exact h.ne_unused

include hrun hidle hci in
theorem dispatch_joins (o : Obj) :
    Dispatch (k.joins o c) (rtosTaskBlock (k.queued o c) (some c) o) := by
  have hidle' : (k.queued o c).IdleOk := by
    refine hidle.congr (k.maxTasks_setQueue o _) (k.idleTask_setQueue o _) ?_
    dsimp only [Rtos.queued]
    rw [Waiting.addWaiter_same]
  refine dispatch_block ((k.running_setQueue o _).trans hrun) hidle' ?_
  exact fun heq => hci (heq.trans (k.idleTask_setQueue o _))

include hrun hidle in
theorem dispatch_leaves (hruns : k.Runs) (o : Obj) (t : Nat) :
    Dispatch (k.leaves o t) (rtosTaskUnblock (k.unqueued o t) t) := by
  have hstate : ∀ u, ((k.unqueued o t).taskTable u).state = (k.taskTable u).state := by
    intro u
    dsimp only [Rtos.unqueued]
    by_cases hut : u = t
    · subst hut
      rw [update_self]
    · rw [update_of_ne hut]
  have hmax : (k.unqueued o t).maxTasks = k.maxTasks := k.maxTasks_setQueue o _
  refine dispatch_unblock ((k.running_setQueue o _).trans hrun)
    (hidle.congr hmax (k.idleTask_setQueue o _) (hstate _)) ?_
  obtain ⟨c, hc, hlt, hb⟩ := hruns
  refine ⟨c, (k.currentTask_setQueue o _).trans hc, ?_, ?_⟩
  · rw [hmax]
    exact hlt
  · rw [hstate]
    exact hb

/-- What `rtos_sem_wait` can do. -/
inductive SemWaitCases (k : Rtos) (c i timeoutMs : Nat) : Rtos × Outcome → Prop
  | taken (h : 0 < (k.sems i).count) :
      SemWaitCases k c i timeoutMs
        (k.setSem i { k.sems i with count := (k.sems i).count - 1 }, .ret true)
  | refused (h : (k.sems i).count ≤ 0) (ht : timeoutMs = 0) :
      SemWaitCases k c i timeoutMs (k, .ret false)
  | blocked (h : (k.sems i).count ≤ 0) (ht : timeoutMs ≠ 0)
      (hd : Dispatch (k.joins (.sem i) c)
        (rtosTaskBlock (k.queued (.sem i) c) (some c) (.sem i))) :
      SemWaitCases k c i timeoutMs
        (rtosTaskBlock (k.queued (.sem i) c) (some c) (.sem i), .block)

include hrun hidle hc hci in
theorem rtosSemWait_cases (i timeoutMs : Nat) :
    SemWaitCases k c i timeoutMs (rtosSemWait k i timeoutMs) := by
  unfold rtosSemWait
  dsimp only
  split
  · next h => exact .taken h
  · next h =>
    split
    · next ht => exact .refused (by omega) ht
    · next ht =>
      split
      · next hnone => cases hnone.symm.trans hc
      · next cur hcur =>
        cases hcur.symm.trans hc
        exact .blocked (by omega) ht (dispatch_joins hrun hidle hci (.sem i))

/-- What `rtos_sem_signal` can do, with the waiters `q`. -/
inductive SemSignalCases (k : Rtos) (i : Nat) (q : List Nat) : Rtos → Prop
  | woken {t : Nat} {rest : List Nat} (hq : q = t :: rest)
      (hd : Dispatch (k.leaves (.sem i) t) (rtosTaskUnblock (k.unqueued (.sem i) t) t)) :
      SemSignalCases k i q (rtosTaskUnblock (k.unqueued (.sem i) t) t)
  | added (hq : q = []) (h : (k.sems i).count < (k.sems i).maxCount) :
      SemSignalCases k i q (k.setSem i { k.sems i with count := (k.sems i).count + 1 })
  | dropped (hq : q = []) (h : ¬ (k.sems i).count < (k.sems i).maxCount) : SemSignalCases k i q k

include hrun hidle in
theorem rtosSemSignal_cases (hruns : k.Runs) {q : Obj → List Nat}
    (hw : Waiting k.taskTable k.queue q) (i : Nat) :
    SemSignalCases k i (q (.sem i)) (rtosSemSignal k i) := by
  unfold rtosSemSignal
  cases hq : q (.sem i) with
  | nil =>
    have hpop := hw.popWaiter_nil hq
    dsimp only [Rtos.queue] at hpop ⊢
    rw [hpop]
    dsimp only
    split
    · next h => exact .added rfl h
    · next h => exact .dropped rfl h
  | cons t rest =>
    have hpop := hw.popWaiter_cons hq
    dsimp only [Rtos.queue] at hpop ⊢
    rw [hpop]
    exact .woken rfl (dispatch_leaves hrun hidle hruns (.sem i) t)

/-- The owner of `m` has at least the priority of `c`. -/
def Rtos.boost (k : Rtos) (c m : Nat) : Rtos :=
  { k with taskTable := boostOwner k.taskTable (some c) (k.mutexes m).owner }

/-- What `rtos_mutex_lock` can do. -/
inductive LockCases (k : Rtos) (c m timeoutMs : Nat) : Rtos × Outcome → Prop
  | taken (h : (k.mutexes m).locked = false) :
      LockCases k c m timeoutMs
        (k.setMutex m { k.mutexes m with locked := true, recursionCount := 1, owner := some c },
          .ret true)
  | again (h : (k.mutexes m).locked = true) (ho : (k.mutexes m).owner = some c) :
      LockCases k c m timeoutMs
        (k.setMutex m
          { k.mutexes m with recursionCount := u32 ((k.mutexes m).recursionCount + 1) }, .ret true)
  | refused (h : (k.mutexes m).locked = true) (ho : (k.mutexes m).owner ≠ some c)
      (ht : timeoutMs = 0) : LockCases k c m timeoutMs (k, .ret false)
  | blocked (h : (k.mutexes m).locked = true) (ho : (k.mutexes m).owner ≠ some c)
      (ht : timeoutMs ≠ 0)
      (hd : Dispatch ((k.boost c m).joins (.mutex m) c)
        (rtosTaskBlock ((k.boost c m).queued (.mutex m) c) (some c) (.mutex m))) :
      LockCases k c m timeoutMs
        (rtosTaskBlock ((k.boost c m).queued (.mutex m) c) (some c) (.mutex m), .block)

theorem boostOwner_task (tab : Nat → Task) (cur owner : Option Nat) (u : Nat) :
    ∃ p, boostOwner tab cur owner u = { tab u with priority := p } := by
  unfold boostOwner
  cases cur with
  | none => exact ⟨(tab u).priority, rfl⟩
  | some c =>
    cases owner with
    | none => exact ⟨(tab u).priority, rfl⟩
    | some o =>
      dsimp only
      by_cases hp : (tab c).priority > (tab o).priority
      · rw [if_pos hp]
        by_cases hu : u = o
        · subst hu
          exact ⟨(tab c).priority, update_self _ _ _⟩
        · exact ⟨(tab u).priority, update_of_ne hu _ _⟩
      · rw [if_neg hp]
        exact ⟨(tab u).priority, rfl⟩

include hrun hidle hc hci in
theorem rtosMutexLock_cases (m timeoutMs : Nat) :
    LockCases k c m timeoutMs (rtosMutexLock k m timeoutMs) := by
  unfold rtosMutexLock
  rw [if_neg (by simp [hrun])]
  dsimp only
  split
  · next hl =>
    rw [hc]
    exact .taken (by simpa using hl)
  · next hl =>
    have hl : (k.mutexes m).locked = true := by simpa using hl
    split
    · next ho => exact .again hl (ho.2.trans hc)
    · next ho =>
      have ho : (k.mutexes m).owner ≠ some c := fun h => ho ⟨by simp [hc], h.trans hc.symm⟩
      split
      · next ht => exact .refused hl ho ht
      · next ht =>
        split
        · next cur hcur =>
          cases hcur.symm.trans hc
          obtain ⟨p, hp⟩ := boostOwner_task k.taskTable (some c) (k.mutexes m).owner k.idleTask
          have hidle' : (k.boost c m).IdleOk := by
            refine hidle.congr rfl rfl ?_
            dsimp only [Rtos.boost]
            rw [hp]
          have hd := @dispatch_joins (k.boost c m) c hrun hidle' hci (.mutex m)
          have hcur : boostOwner k.taskTable k.currentTask (k.mutexes m).owner =
              boostOwner k.taskTable (some c) (k.mutexes m).owner := by rw [hc]
          rw [hcur]
          exact .blocked hl ho ht hd
        · next hnone => cases hnone.symm.trans hc

/-- The unlock of `m` by `t` gives the mutex up. -/
def Rtos.Releases (k : Rtos) (t m : Nat) : Prop :=
  (k.mutexes m).locked = true ∧ (k.mutexes m).owner = some t ∧ (k.mutexes m).recursionCount ≤ 1

instance (k : Rtos) (t m : Nat) : Decidable (k.Releases t m) :=
  inferInstanceAs (Decidable (_ ∧ _ ∧ _))

/-- The owner `c` has its base priority again, and the mutex `m` belongs to `t`. -/
def Rtos.handTo (k : Rtos) (c m t : Nat) : Rtos :=
  { k with taskTable := restoreOwner k.taskTable (some c) }.setMutex m
    { k.mutexes m with owner := some t, recursionCount := 1 }

/-- The owner `c` has its base priority again, and the mutex `m` is free. -/
def Rtos.setFree (k : Rtos) (c m : Nat) : Rtos :=
  { k with taskTable := restoreOwner k.taskTable (some c) }.setMutex m
    { locked := false, recursionCount := 0, owner := none, wait := (k.mutexes m).wait }

theorem restoreOwner_task (tab : Nat → Task) (c u : Nat) :
    ∃ p, restoreOwner tab (some c) u = { tab u with priority := p } := by
  unfold restoreOwner
  by_cases hu : u = c
  · subst hu
    exact ⟨(tab u).basePriority, update_self _ _ _⟩
  · exact ⟨(tab u).priority, update_of_ne hu _ _⟩

/-- What `rtos_mutex_unlock` can do, with the waiters `q`. -/
inductive UnlockCases (k : Rtos) (c m : Nat) (q : List Nat) : Rtos → Prop
  | foreign (h : ¬ ((k.mutexes m).locked = true ∧ (k.mutexes m).owner = some c)) :
      UnlockCases k c m q k
  | inner (h : (k.mutexes m).locked = true) (ho : (k.mutexes m).owner = some c)
      (hr : 1 < (k.mutexes m).recursionCount) :
      UnlockCases k c m q
        (k.setMutex m { k.mutexes m with recursionCount := (k.mutexes m).recursionCount - 1 })
  | handed (h : k.Releases c m) {t : Nat} {rest : List Nat} (hq : q = t :: rest)
      (hd : Dispatch ((k.handTo c m t).leaves (.mutex m) t)
        (rtosTaskUnblock ((k.handTo c m t).unqueued (.mutex m) t) t)) :
      UnlockCases k c m q (rtosTaskUnblock ((k.handTo c m t).unqueued (.mutex m) t) t)
  | freed (h : k.Releases c m) (hq : q = []) : UnlockCases k c m q (k.setFree c m)

theorem Rtos.unqueued_handTo (k : Rtos) (c m t : Nat) :
    (k.handTo c m t).unqueued (.mutex m) t =
      let tab := restoreOwner k.taskTable (some c)
      let tab' := update tab t { tab t with nextWait := none }
      let w : WaitQueue := ⟨(tab t).nextWait,
        if (tab t).nextWait = none then none else (k.mutexes m).wait.waitTail⟩
      { k with taskTable := tab' }.setMutex m
        { k.mutexes m with owner := some t, recursionCount := 1, wait := w } := by
  simp only [unqueued, setQueue, handTo, setMutex, queue, update_self,
    update_idem]

include hrun hidle hc in
theorem rtosMutexUnlock_cases (hruns : k.Runs) {q : Obj → List Nat}
    (hw : Waiting k.taskTable k.queue q) (m : Nat) :
    UnlockCases k c m (q (.mutex m)) (rtosMutexUnlock k m) := by
  have hwr : Waiting (restoreOwner k.taskTable (some c)) k.queue q := by
    refine hw.congr (fun u => ?_) fun o _ u => ?_
    · obtain ⟨p, hp⟩ := restoreOwner_task k.taskTable c u
      rw [hp]
    · obtain ⟨p, hp⟩ := restoreOwner_task k.taskTable c u
      rw [hp]
      exact Iff.rfl
  unfold rtosMutexUnlock
  rw [if_neg (by simp [hrun])]
  dsimp only
  split
  · next h =>
    refine .foreign fun hown => ?_
    rcases h with h | h
    · simp [hown.1] at h
    · exact h.2 (hown.2.trans hc.symm)
  · next h =>
    have hl : (k.mutexes m).locked = true := by
      cases hlock : (k.mutexes m).locked with
      | true => rfl
      | false => exact absurd (Or.inl hlock) h
    have ho : (k.mutexes m).owner = some c := by
      by_contra hne
      exact h (Or.inr ⟨by simp [hc], fun heq => hne (heq.trans hc)⟩)
    split
    · next hr => exact .inner hl ho hr
    · next hr =>
      have hrel : k.Releases c m := ⟨hl, ho, by omega⟩
      rw [ho]
      cases hq : q (.mutex m) with
      | nil =>
        have hpop := hwr.popWaiter_nil hq
        dsimp only [Rtos.queue] at hpop
        rw [hpop]
        exact .freed hrel rfl
      | cons t rest =>
        have hpop := hwr.popWaiter_cons hq
        dsimp only [Rtos.queue] at hpop
        rw [hpop]
        have hstate : ∀ u, ((k.handTo c m t).taskTable u).state = (k.taskTable u).state := by
          intro u
          obtain ⟨p, hp⟩ := restoreOwner_task k.taskTable c u
          dsimp only [Rtos.handTo, Rtos.setMutex]
          rw [hp]
        have hd := @dispatch_leaves (k.handTo c m t) hrun (hidle.congr rfl rfl (hstate _)) (by
          obtain ⟨c', hc', hlt, hb⟩ := hruns
          refine ⟨c', hc', hlt, ?_⟩
          rw [hstate]
          exact hb) (.mutex m) t
        have hcase : UnlockCases k c m (t :: rest) _ := .handed hrel rfl hd
        rw [Rtos.unqueued_handTo] at hcase
        exact hcase

end

/-! ### Events -/

instance (task : Task) (o : Obj) : Decidable (task.WaitsFor o) :=
  inferInstanceAs (Decidable (_ ∧ _))

def Task.woken (task : Task) : Task := { task with state := .ready, waitObject := none }

/-- The task `t` is made ready if it waits for the event `e`. -/
def wakeTask (e : Nat) (tab : Nat → Task) (t : Nat) : Nat → Task :=
  if (tab t).WaitsFor (.event e) then update tab t (tab t).woken else tab

theorem wakeTask_apply (e : Nat) (tab : Nat → Task) (t u : Nat) :
    wakeTask e tab t u =
      if u = t ∧ (tab u).WaitsFor (.event e) then (tab u).woken else tab u := by
  unfold wakeTask
  by_cases hut : u = t
  · subst hut
    by_cases hw : (tab u).WaitsFor (.event e)
    · rw [if_pos hw, if_pos ⟨rfl, hw⟩, update_self]
    · rw [if_neg hw, if_neg fun h => hw h.2]
  · have hnot : ¬ (u = t ∧ (tab u).WaitsFor (.event e)) := fun h => hut h.1
    by_cases hw : (tab t).WaitsFor (.event e)
    · rw [if_pos hw, if_neg hnot, update_of_ne hut]
    · rw [if_neg hw, if_neg hnot]

theorem foldl_wakeTask (e : Nat) (ts : List Nat) (tab : Nat → Task) (u : Nat) :
    ts.foldl (wakeTask e) tab u =
      if u ∈ ts ∧ (tab u).WaitsFor (.event e) then (tab u).woken else tab u := by
  induction ts generalizing tab with
  | nil => exact (if_neg fun h => absurd h.1 (by simp)).symm
  | cons t ts ih =>
    have hone := wakeTask_apply e tab t u
    rw [List.foldl_cons, ih]
    by_cases hnew : u = t ∧ (tab u).WaitsFor (.event e)
    · rw [if_pos hnew] at hone
      rw [hone, if_neg (fun h => absurd h.2.1 (by simp [Task.woken])),
        if_pos ⟨by simp [hnew.1], hnew.2⟩]
    · rw [if_neg hnew] at hone
      rw [hone]
      refine if_congr ⟨fun h => ⟨List.mem_cons_of_mem t h.1, h.2⟩, fun h => ⟨?_, h.2⟩⟩ rfl rfl
      exact (List.mem_cons.mp h.1).resolve_left fun hut => hnew ⟨hut, h.2⟩

theorem foldl_eventWake (maxTasks e : Nat) (tab : Nat → Task) (n : Nat) :
    (List.range n).foldl (eventWake maxTasks e) tab =
      ((usedTasks maxTasks tab).take n).foldl (wakeTask e) tab := by
  induction n with
  | zero => rfl
  | succ n ih =>
    rw [List.range_succ, List.foldl_append, ih, List.take_add_one, List.foldl_append]
    have hused : usedTasks maxTasks (((usedTasks maxTasks tab).take n).foldl (wakeTask e) tab) =
        usedTasks maxTasks tab := by
      refine usedTasks_congr maxTasks fun t => ?_
      rw [foldl_wakeTask]
      split
      · next h => simp [Task.woken, h.2.1]
      · exact Iff.rfl
    generalize hmid : ((usedTasks maxTasks tab).take n).foldl (wakeTask e) tab = mid at hused
    rw [List.foldl_cons, List.foldl_nil, eventWake, rtosGetTaskByIndex_eq, hused]
    cases (usedTasks maxTasks tab)[n]? with
    | none => rfl
    | some t => rfl

theorem rtosEventSet_task (k : Rtos) (e : Nat) (mask : BitVec 32) (t : Nat) :
    (rtosEventSet k e mask).taskTable t =
      if t < k.maxTasks ∧ (k.taskTable t).WaitsFor (.event e) then (k.taskTable t).woken
      else k.taskTable t := by
  dsimp only [rtosEventSet, Rtos.setEvent]
  rw [foldl_eventWake, rtosGetTaskCount_eq, List.take_length, foldl_wakeTask]
  by_cases hw : (k.taskTable t).WaitsFor (.event e)
  · have hused : (k.taskTable t).state ≠ .unused := by simp [hw.1]
    by_cases hlt : t < k.maxTasks
    · rw [if_pos ⟨mem_usedTasks.mpr ⟨hlt, hused⟩, hw⟩, if_pos ⟨hlt, hw⟩]
    · rw [if_neg fun h => hlt (mem_usedTasks.mp h.1).1, if_neg fun h => hlt h.1]
  · rw [if_neg fun h => hw h.2, if_neg fun h => hw h.2]

end Gemios
