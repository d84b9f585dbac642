import Gemios.RtosPass
import Gemios.RtosTask

/-!
# Tasks that come and go

The runs of `RtosRun` with `rtos_task_create`, `rtos_task_kill` and `rtos_task_exit` as
further steps.  A task that is killed while it waits in a queue stays in the queue: a
signal then makes it ready again, and a task that takes its slot cuts off the waiters
behind it.  As long as no waiter and not the idle task is killed, the queues hold exactly
the tasks that wait.
-/

namespace Gemios

open Function

/-! ### What the steps do to the states -/

/-- Some tasks are marked before the scheduler is called, or without a call: the task on
    the CPU as blocked or asleep, and blocked tasks as ready. -/
structure Marked (k k₁ : Rtos) : Prop where
  maxTasks : k₁.maxTasks = k.maxTasks
  idleTask : k₁.idleTask = k.idleTask
  running : k₁.schedulerRunning = k.schedulerRunning
  current : k₁.currentTask = k.currentTask
  states : ∀ u, (k₁.taskTable u).state = (k.taskTable u).state ∨
    k.currentTask = some u ∧ u ≠ k.idleTask ∧ (k.taskTable u).state ≠ .terminated ∧
      ((k₁.taskTable u).state = .blocked ∨ (k₁.taskTable u).state = .sleeping) ∨
    k.currentTask ≠ some u ∧ (k.taskTable u).state = .blocked ∧ (k₁.taskTable u).state = .ready

namespace Marked

variable {k k₁ k₂ : Rtos} {c w : Nat} {o : Obj}

theorem refl (k : Rtos) : Marked k k := ⟨rfl, rfl, rfl, rfl, fun _ => Or.inl rfl⟩

theorem of_quiet (h : Quiet k k₁) : Marked k k₁ := by
  refine ⟨h.maxTasks, h.idleTask, h.running, h.currentTask, fun u => Or.inl ?_⟩
  obtain ⟨p, hp⟩ := h.tasks u
  rw [hp]

theorem quiet_trans (h₁ : Quiet k k₁) (h₂ : Marked k₁ k₂) : Marked k k₂ := by
  have hstate : ∀ u, (k₁.taskTable u).state = (k.taskTable u).state := by
    intro u
    obtain ⟨p, hp⟩ := h₁.tasks u
    rw [hp]
  refine ⟨h₂.maxTasks.trans h₁.maxTasks, h₂.idleTask.trans h₁.idleTask,
    h₂.running.trans h₁.running, h₂.current.trans h₁.currentTask, fun u => ?_⟩
  have h := h₂.states u
  rw [hstate, h₁.currentTask, h₁.idleTask] at h
  exact h

theorem joins (hc : k.currentTask = some c) (hidle : c ≠ k.idleTask)
    (hlive : (k.taskTable c).state ≠ .terminated) (o : Obj) : Marked k (k.joins o c) := by
  refine ⟨k.maxTasks_setQueue o _, k.idleTask_setQueue o _, k.running_setQueue o _,
    k.currentTask_setQueue o _, fun u => ?_⟩
  by_cases hu : u = c
  · obtain ⟨n, hn⟩ := k.joins_self o c
    rw [hu, hn]
    exact Or.inr (Or.inl ⟨hc, hidle, hlive, Or.inl rfl⟩)
  · obtain ⟨n, hn⟩ := k.joins_task o c hu
    rw [hn]
    exact Or.inl rfl

theorem leaves (hc : k.currentTask ≠ some w) (hw : (k.taskTable w).state = .blocked) (o : Obj) :
    Marked k (k.leaves o w) := by
  refine ⟨k.maxTasks_setQueue o _, k.idleTask_setQueue o _, k.running_setQueue o _,
    k.currentTask_setQueue o _, fun u => ?_⟩
  by_cases hu : u = w
  · rw [hu, Rtos.leaves_self]
    exact Or.inr (Or.inr ⟨hc, hw, rfl⟩)
  · rw [Rtos.leaves_task k o w hu]
    exact Or.inl rfl

theorem mark (hc : k.currentTask = some c) (hidle : c ≠ k.idleTask)
    (hlive : (k.taskTable c).state ≠ .terminated) {task : Task} (h : task.state = .blocked ∨ task.state = .sleeping) :
    Marked k (k.setTask c task) := by
  refine ⟨rfl, rfl, rfl, rfl, fun u => ?_⟩
  dsimp only [Rtos.setTask]
  by_cases hu : u = c
  · rw [hu, update_self]
    exact Or.inr (Or.inl ⟨hc, hidle, hlive, h⟩)
  · rw [update_of_ne hu]
    exact Or.inl rfl

theorem eventSet (hc : ∀ u, k.currentTask = some u → (k.taskTable u).state ≠ .blocked) (e : Nat)
    (mask : BitVec 32) : Marked k (rtosEventSet k e mask) := by
  refine ⟨rfl, rfl, rfl, rfl, fun u => ?_⟩
  rw [rtosEventSet_task]
  split
  · next h => exact Or.inr (Or.inr ⟨fun hu => hc u hu h.2.1, h.2.1, rfl⟩)
  · exact Or.inl rfl

end Marked

/-- A call of `rtos_schedule_from_isr` in a step from `k`: the state in which it is called,
    and the number of the interrupt. -/
inductive Calls (k : Rtos) : Label → Rtos → Nat → Prop
  | tick : Calls k .tick k 32
  | yield (t : Nat) : Calls k (.yield t) k 128
  | resched (t : Nat) : Calls k (.resched t) k 128
  | wait (t i timeoutMs : Nat) : Calls k (.wait t i timeoutMs .block) (k.joins (.sem i) t) 128
  | lock (t m timeoutMs : Nat) :
      Calls k (.lock t m timeoutMs .block) ((k.boost t m).joins (.mutex m) t) 128
  | signal {t i w : Nat} {kept : Bool}
      (h : ((k.leaves (.sem i) w).taskTable t).priority <
        ((k.leaves (.sem i) w).taskTable w).priority) :
      Calls k (.signal t i (some w) kept) (k.leaves (.sem i) w) 128
  | unlock {t m w : Nat}
      (h : (((k.handTo t m w).leaves (.mutex m) w).taskTable t).priority <
        (((k.handTo t m w).leaves (.mutex m) w).taskTable w).priority) :
      Calls k (.unlock t m (some w)) ((k.handTo t m w).leaves (.mutex m) w) 128

theorem Calls.unique {k k₁ k₂ : Rtos} {l : Label} {m n : Nat} (h₁ : Calls k l k₁ m)
    (h₂ : Calls k l k₂ n) : k₁ = k₂ ∧ m = n := by
  cases h₁ <;> cases h₂ <;> exact ⟨rfl, rfl⟩

/-- A step with no call of the scheduler: the task `c` on the CPU moves on, and it may have
    marked itself. -/
structure Settled (s s' : Sys) : Prop where
  marked : Marked s.k s'.k
  self : ∃ c p p', s.At c p ∧ p ≠ .resched ∧ (∀ e mask clear, p ≠ .eventMark e mask clear) ∧
    s'.pos = update s.pos c p' ∧
    ((s'.k.taskTable c).state = (s.k.taskTable c).state ∨
      (s'.k.taskTable c).state = .sleeping ∧ p' = .resched ∨
      (s'.k.taskTable c).state = .blocked ∧ ∃ e mask clear, p' = .eventMark e mask clear)

/-- What a step does: it marks tasks, and it may call the scheduler. -/
inductive StepShape (s : Sys) (l : Label) (s' : Sys) : Prop
  | pass {k₁ : Rtos} {intNo : Nat} (hm : Marked s.k k₁) (hc : Calls s.k l k₁ intNo)
      (heq : s'.k = rtosScheduleFromIsr k₁ intNo) : StepShape s l s'
  | settled (h : Settled s s') (hc : ∀ k₁ intNo, ¬ Calls s.k l k₁ intNo) : StepShape s l s'

/-- The task on the CPU is terminated only when it is about to give the CPU up, and the idle
    task can always run. -/
structure Alive (s : Sys) : Prop where
  idle : (s.k.taskTable s.k.idleTask).Runnable
  current : ∀ c, s.k.currentTask = some c → (s.k.taskTable c).state ≠ .unused ∧
    ((s.k.taskTable c).state = .terminated → s.pos c = .resched)

theorem Alive.live {s : Sys} {c : Nat} {p : Pos} (h : Alive s) (hat : s.At c p)
    (hp : p ≠ .resched) : (s.k.taskTable c).state ≠ .terminated := by
  intro ht
  exact hp (hat.pos.symm.trans ((h.current c hat.current).2 ht))

theorem rtosYield_eq {k : Rtos} (h : k.schedulerRunning = true) :
    rtosYield k = rtosScheduleFromIsr k 128 := if_pos h

theorem unblock_leaves {k : Rtos} {c : Nat} (hrun : k.schedulerRunning = true)
    (hc : k.currentTask = some c) (o : Obj) (w : Nat) :
    rtosTaskUnblock (k.unqueued o w) w =
      if ((k.leaves o w).taskTable c).priority < ((k.leaves o w).taskTable w).priority then
        rtosScheduleFromIsr (k.leaves o w) 128
      else k.leaves o w := by
  have hcur : (k.leaves o w).currentTask = some c := (k.currentTask_setQueue o _).trans hc
  have hready : (k.unqueued o w).setTask w
      { (k.unqueued o w).taskTable w with state := .ready, waitObject := none } = k.leaves o w := rfl
  have hrun' : (k.leaves o w).schedulerRunning = true := (k.running_setQueue o _).trans hrun
  unfold rtosTaskUnblock
  dsimp only
  rw [hready, hcur, rtosYield_eq hrun']

section

variable {s s' : Sys} {q : Obj → List Nat} {l : Label} {c : Nat} {p : Pos}

theorem Settled.quiet {k' : Rtos} {pos' : Nat → Pos} (hat : s.At c p) (hr : p ≠ .resched)
    (hp : ∀ e mask clear, p ≠ .eventMark e mask clear) (hq : Quiet s.k k') (p' : Pos)
    (hpos : pos' = update s.pos c p') : Settled s ⟨k', pos'⟩ := by
  refine ⟨Marked.of_quiet hq, c, p, p', hat, hr, hp, hpos, Or.inl ?_⟩
  obtain ⟨n, hn⟩ := hq.tasks c
  dsimp only
  rw [hn]

theorem Sys.At.update_self (hat : s.At c p) : s.pos = update s.pos c p := by
  rw [← hat.pos, update_eq_self]

theorem Inv.shape_leaves (h : Inv s q) (hat : s.At c .user) {k₁ : Rtos} (hq : Quiet s.k k₁)
    {o : Obj} {w : Nat} (hw : (s.k.taskTable w).state = .blocked) (l : Label)
    (hcalls : ∀ k₂ n, Calls s.k l k₂ n ↔ k₂ = k₁.leaves o w ∧ n = 128 ∧
      ((k₁.leaves o w).taskTable c).priority < ((k₁.leaves o w).taskTable w).priority) :
    StepShape s l ⟨rtosTaskUnblock (k₁.unqueued o w) w, s.pos⟩ := by
  have hw₁ : (k₁.taskTable w).state = .blocked := by
    obtain ⟨n, hn⟩ := hq.tasks w
    rw [hn]
    exact hw
  have hcw : c ≠ w := fun heq => h.free hat (by simp) (heq ▸ hw)
  have hcur : k₁.currentTask ≠ some w := by
    rw [hq.currentTask, hat.current]
    exact fun heq => hcw (Option.some.inj heq)
  have hm : Marked s.k (k₁.leaves o w) := Marked.quiet_trans hq (Marked.leaves hcur hw₁ o)
  have heq := unblock_leaves (hq.running.trans h.running) (hq.currentTask.trans hat.current) o w
  by_cases hlt : ((k₁.leaves o w).taskTable c).priority < ((k₁.leaves o w).taskTable w).priority
  · rw [if_pos hlt] at heq
    exact .pass hm ((hcalls _ _).mpr ⟨rfl, rfl, hlt⟩) heq
  · rw [if_neg hlt] at heq
    refine .settled ⟨?_, c, .user, .user, hat, by simp, by simp, hat.update_self, Or.inl ?_⟩
      fun k₂ n hc => hlt ((hcalls k₂ n).mp hc).2.2
    · dsimp only
      rw [heq]
      exact hm
    · dsimp only
      rw [heq, Rtos.leaves_task k₁ o w hcw]
      obtain ⟨n, hn⟩ := hq.tasks c
      rw [hn]

theorem Alive.shape_eventWait {e : Nat} {mask : BitVec 32} {clear : Bool} (h : Alive s)
    (hat : s.At c p) (hr : p ≠ .resched) (hp : ∀ e mask clear, p ≠ .eventMark e mask clear) :
    Settled s ⟨(rtosEventWait s.k e mask clear).1,
      update s.pos c (eventPos e mask clear (rtosEventWait s.k e mask clear).2)⟩ := by
  have htake := Settled.quiet hat hr hp (Quiet.eventTake s.k e mask clear) .user rfl
  unfold rtosEventWait
  split
  · rw [hat.current]
    dsimp only [eventPos]
    refine ⟨Marked.mark hat.current hat.ne_idle (h.live hat hr) (Or.inl rfl), c, p, .eventMark e mask clear, hat,
      hr, hp, rfl, Or.inr (Or.inr ⟨?_, e, mask, clear, rfl⟩)⟩
    dsimp only [Rtos.setTask]
    rw [update_self]
  · exact htake

theorem Alive.shape_delay (h : Alive s) (hat : s.At c .user) (ticks : Nat) :
    Settled s ⟨rtosDelayTicks s.k ticks, update s.pos c .resched⟩ := by
  unfold rtosDelayTicks
  split
  · exact Settled.quiet hat (by simp) (by simp) (Quiet.refl s.k) .resched rfl
  · rw [hat.current]
    refine ⟨Marked.mark hat.current hat.ne_idle (h.live hat (by simp)) (Or.inr rfl), c, .user, .resched, hat, by simp,
      by simp, rfl, Or.inr (Or.inl ⟨?_, rfl⟩)⟩
    dsimp only [Rtos.setTask]
    rw [update_self]

theorem Inv.shape (h : Inv s q) (ha : Alive s) (hs : Step s l s') (hl : ∀ t u, l ≠ .kill t u) :
    StepShape s l s' := by
  cases hs with
  | tick => exact .pass (Marked.refl s.k) .tick rfl
  | @yield t hc hp => exact .pass (Marked.refl s.k) (.yield t) (rtosYield_eq h.running)
  | @wait t hat i timeoutMs =>
    have hcases := rtosSemWait_cases h.running h.idle hat.current hat.ne_idle i timeoutMs
    generalize rtosSemWait s.k i timeoutMs = r at hcases ⊢
    cases hcases with
    | taken _ =>
      refine .settled (Settled.quiet hat (by simp) (by simp) (Quiet.setSem ?_) .user rfl) nofun
      rfl
    | refused _ _ =>
      exact .settled (Settled.quiet hat (by simp) (by simp) (Quiet.refl s.k) .user rfl) nofun
    | blocked _ _ _ =>
      have hm : Marked s.k (s.k.joins (.sem i) t) := Marked.joins hat.current hat.ne_idle (ha.live hat (by simp)) _
      exact .pass hm (.wait t i timeoutMs) (rtosYield_eq (hm.running.trans h.running))
  | waitReturn hat =>
    exact .settled (Settled.quiet hat (by simp) (by simp) (Quiet.refl s.k) .user rfl) nofun
  | @signal t hat i =>
    have hcases := rtosSemSignal_cases h.running h.idle (h.runs hat) h.waiting i
    rw [h.semHead i]
    generalize rtosSemSignal s.k i = r at hcases ⊢
    cases hcases with
    | @woken w rest hq _ =>
      have hw : w ∈ q (.sem i) := by
        rw [hq]
        exact List.mem_cons_self
      rw [hq]
      refine h.shape_leaves hat (Quiet.refl s.k) ((h.waiting.mem (.sem i) trivial w).mp hw).1 _
        fun k₂ n => ⟨fun hc => ?_, ?_⟩
      · cases hc with
        | signal hlt => exact ⟨rfl, rfl, hlt⟩
      · rintro ⟨rfl, rfl, hlt⟩
        exact .signal hlt
    | added hq _ =>
      rw [hq]
      refine .settled (Settled.quiet hat (by simp) (by simp) (Quiet.setSem ?_) .user
        hat.update_self) nofun
      rfl
    | dropped hq _ =>
      rw [hq]
      exact .settled (Settled.quiet hat (by simp) (by simp) (Quiet.refl s.k) .user
        hat.update_self) nofun
  | @lock t hat m timeoutMs =>
    have hcases := rtosMutexLock_cases h.running h.idle hat.current hat.ne_idle m timeoutMs
    generalize rtosMutexLock s.k m timeoutMs = r at hcases ⊢
    cases hcases with
    | taken _ =>
      refine .settled (Settled.quiet hat (by simp) (by simp) (Quiet.setMutex ?_) .user rfl) nofun
      rfl
    | again _ _ =>
      refine .settled (Settled.quiet hat (by simp) (by simp) (Quiet.setMutex ?_) .user rfl) nofun
      rfl
    | refused _ _ _ =>
      exact .settled (Settled.quiet hat (by simp) (by simp) (Quiet.refl s.k) .user rfl) nofun
    | blocked _ _ _ _ =>
      have hboost := Quiet.boost s.k t m
      have hlive : ((s.k.boost t m).taskTable t).state ≠ .terminated := by
        obtain ⟨p, hp⟩ := hboost.tasks t
        rw [hp]
        exact ha.live hat (by simp)
      have hm : Marked s.k ((s.k.boost t m).joins (.mutex m) t) :=
        Marked.quiet_trans hboost
          (Marked.joins (hboost.currentTask.trans hat.current) hat.ne_idle hlive _)
      exact .pass hm (.lock t m timeoutMs) (rtosYield_eq (hm.running.trans h.running))
  | lockReturn hat =>
    exact .settled (Settled.quiet hat (by simp) (by simp) (Quiet.refl s.k) .user rfl) nofun
  | @unlock t hat m =>
    have hcases := rtosMutexUnlock_cases h.running h.idle hat.current (h.runs hat) h.waiting m
    rw [h.mutexHead m]
    generalize rtosMutexUnlock s.k m = r at hcases ⊢
    cases hcases with
    | foreign hno =>
      rw [if_neg fun hrel => hno ⟨hrel.1, hrel.2.1⟩]
      exact .settled (Settled.quiet hat (by simp) (by simp) (Quiet.refl s.k) .user
        hat.update_self) nofun
    | inner _ _ hr =>
      rw [if_neg fun hrel => absurd hrel.2.2 (by omega)]
      refine .settled (Settled.quiet hat (by simp) (by simp) (Quiet.setMutex ?_) .user
        hat.update_self) nofun
      rfl
    | @handed hrel w rest hq _ =>
      have hw : w ∈ q (.mutex m) := by
        rw [hq]
        exact List.mem_cons_self
      rw [if_pos hrel, hq]
      refine h.shape_leaves hat (Quiet.handTo s.k t m w)
        ((h.waiting.mem (.mutex m) trivial w).mp hw).1 _ fun k₂ n => ⟨fun hc => ?_, ?_⟩
      · cases hc with
        | unlock hlt => exact ⟨rfl, rfl, hlt⟩
      · rintro ⟨rfl, rfl, hlt⟩
        exact .unlock hlt
    | freed hrel hq =>
      rw [if_pos hrel, hq]
      exact .settled (Settled.quiet hat (by simp) (by simp) (Quiet.setFree s.k t m) .user
        hat.update_self) nofun
  | eventWait hat =>
    refine .settled ?_ ?_
    · rcases hat with hat | hat
      · exact ha.shape_eventWait hat (by simp) (by simp)
      · exact ha.shape_eventWait hat (by simp) (by simp)
    · intro k₁ n hc
      cases hc
  | @eventReschedule t _ _ _ hat =>
    exact .pass (Marked.refl s.k) (.resched t) (rtosYield_eq h.running)
  | @eventSet t hat e mask =>
    have hfree : ∀ u, s.k.currentTask = some u → (s.k.taskTable u).state ≠ .blocked := by
      intro u hu
      cases hat.current.symm.trans hu
      exact h.free hat (by simp)
    refine .settled ⟨Marked.eventSet hfree e mask, t, .user, .resched, hat, by simp, by simp, rfl,
      Or.inl ?_⟩ ?_
    · dsimp only
      rw [rtosEventSet_task, if_neg fun hw => h.free hat (by simp) hw.2.1]
    · intro k₁ n hc
      cases hc
  | @eventClear t hat e mask =>
    exact .settled (Settled.quiet hat (by simp) (by simp) (Quiet.setEvent s.k e _) .user
      hat.update_self) nofun
  | delay hat ticks =>
    exact .settled (ha.shape_delay hat ticks) nofun
  | kill _ _ => exact absurd rfl (hl _ _)
  | @reschedule t hat => exact .pass (Marked.refl s.k) (.resched t) (rtosYield_eq h.running)

end

namespace Marked

variable {k k₁ : Rtos} (h : Marked k k₁)

include h

theorem terminated (u : Nat) :
    (k₁.taskTable u).state = .terminated ↔ (k.taskTable u).state = .terminated := by
  rcases h.states u with heq | ⟨_, _, hlive, hm⟩ | ⟨_, hb, hr⟩
  · rw [heq]
  · refine ⟨fun ht => ?_, fun ht => absurd ht hlive⟩
    rcases hm with hm | hm <;> simp [hm] at ht
  · simp [hb, hr]

theorem idle_runnable (hidle : (k.taskTable k.idleTask).Runnable) :
    (k₁.taskTable k₁.idleTask).Runnable := by
  rw [h.idleTask]
  unfold Task.Runnable
  rcases h.states k.idleTask with heq | ⟨_, hne, _⟩ | ⟨_, hb, _⟩
  · rw [heq]
    exact hidle
  · exact absurd rfl hne
  · exact absurd hb hidle.ne_blocked

end Marked

theorem rtosScheduleFromIsr_alive {k : Rtos} (hrun : k.schedulerRunning = true) (hidle : k.IdleOk)
    (hir : (k.taskTable k.idleTask).Runnable) (intNo : Nat) :
    (∀ u, ((rtosScheduleFromIsr k intNo).taskTable u).state = .terminated ↔
      (k.taskTable u).state = .terminated) ∧
    ((rtosScheduleFromIsr k intNo).taskTable (rtosScheduleFromIsr k intNo).idleTask).Runnable ∧
    ∃ c, (rtosScheduleFromIsr k intNo).currentTask = some c ∧
      ((rtosScheduleFromIsr k intNo).taskTable c).Runnable := by
  have hpass := rtosScheduleFromIsr_passTo hrun intNo hidle.bound hir
  have hframe := (dispatch_schedule hrun hidle intNo).toFrame
  have hentry : ∀ u, ((k.entry intNo).taskTable u).state = .terminated ↔
      (k.taskTable u).state = .terminated := by
    intro u
    rcases entry_state k intNo u with h | ⟨_, hs, _, hr⟩
    · rw [h]
    · simp [hs, hr]
  refine ⟨fun u => ?_, ?_, _, hpass.current, hpass.runnable_of hpass.runnable⟩
  · rw [← hentry]
    by_cases hu : ((k.entry intNo).taskTable u).Runnable
    · have hu' := hpass.runnable_of hu
      rcases hu with h | h <;> rcases hu' with h' | h' <;> simp [h, h']
    · rw [hpass.state_of_not hu]
  · rw [hframe.idleTask]
    refine hpass.runnable_of ?_
    unfold Task.Runnable
    rcases entry_state k intNo k.idleTask with h | ⟨_, _, _, hr⟩
    · rw [h]
      exact hir
    · exact Or.inl hr

theorem Inv.alive {s s' : Sys} {q : Obj → List Nat} {l : Label} (h : Inv s q) (ha : Alive s)
    (hs : Step s l s') (hl : ∀ t u, l ≠ .kill t u) :
    Alive s' ∧ ∀ u, (s'.k.taskTable u).state = .terminated ↔
      (s.k.taskTable u).state = .terminated := by
  cases h.shape ha hs hl with
  | @pass k₁ intNo hm _ heq =>
    have hrun : k₁.schedulerRunning = true := hm.running.trans h.running
    have hir := hm.idle_runnable ha.idle
    have hidle : k₁.IdleOk := by
      refine ⟨?_, hir.ne_blocked, hir.ne_unused⟩
      rw [hm.idleTask, hm.maxTasks]
      exact h.idle.bound
    obtain ⟨hterm, hidle', c, hc, hcr⟩ := rtosScheduleFromIsr_alive hrun hidle hir intNo
    rw [← heq] at hterm hidle' hc hcr
    refine ⟨⟨hidle', fun c' hc' => ?_⟩, fun u => (hterm u).trans (hm.terminated u)⟩
    cases hc.symm.trans hc'
    refine ⟨hcr.ne_unused, fun ht => ?_⟩
    rcases hcr with h | h <;> simp [h] at ht
  | settled hset _ =>
    obtain ⟨c, p, p', hat, hp, _, hpos, hstate⟩ := hset.self
    refine ⟨⟨hset.marked.idle_runnable ha.idle, fun c' hc' => ?_⟩, hset.marked.terminated⟩
    cases hat.current.symm.trans (hset.marked.current.symm.trans hc')
    have hlive := ha.live hat hp
    rcases hstate with h | ⟨h, _⟩ | ⟨h, _⟩
    · rw [h]
      exact ⟨(ha.current c hat.current).1, fun ht => absurd ht hlive⟩
    · simp [h]
    · simp [h]

/-! ### The kernel -/

/-- The system with the ids and the saved contexts of the tasks. -/
structure Kernel (Ctx : Type) extends Sys where
  id : Nat → Nat
  nextTaskId : Nat
  esp : Nat → Ctx

variable {Ctx : Type}

namespace Kernel

/-- `rtos_task_create`, with the register frame that it prepares. -/
def create (K : Kernel Ctx) (priority : Nat) (stack : Bool) (frame : Ctx) : Kernel Ctx × Option Nat :=
  match rtosTaskCreate K.k priority stack with
  | (k, some t) =>
    ({ k := k
       pos := update K.pos t .user
       id := update K.id t K.nextTaskId
       nextTaskId := u32 (K.nextTaskId + 1)
       esp := update K.esp t frame }, some t)
  | (k, none) => ({ K with k := k }, none)

/-- The slot that `rtos_task_kill` finds. -/
def findId (K : Kernel Ctx) (id : Nat) : Option Nat :=
  (List.range K.k.maxTasks).find? fun i => (K.k.taskTable i).state ≠ .unused ∧ K.id i = id

def kill (K : Kernel Ctx) (id : Nat) : Kernel Ctx :=
  match K.findId id with
  | some u => { K with k := killTask K.k u }
  | none => K

def exit (K : Kernel Ctx) (t : Nat) : Kernel Ctx := { K with k := killTask K.k t }

def move (K : Kernel Ctx) (t : Nat) (p : Pos) : Kernel Ctx :=
  { K with pos := update K.pos t p }

end Kernel

/-- The task that is switched out between two states. -/
def switchedOut (k k' : Rtos) : Option Nat :=
  if k'.currentTask = k.currentTask then none else k.currentTask

/-- `prev->esp = regs`. -/
def saveContext (esp : Nat → Ctx) (out : Option Nat) (regs : Ctx) : Nat → Ctx :=
  match out with
  | some p => update esp p regs
  | none => esp

inductive KLabel (Ctx : Type) where
  /-- A step of the system.  The interrupted context is `regs`, and `out` is the task that
      was switched out. -/
  | op (l : Label) (regs : Ctx) (out : Option Nat)
  /-- The slot of the new task and its first context. -/
  | create (t : Nat) (slot : Option Nat) (frame : Ctx)
  | kill (t id : Nat) (slot : Option Nat)
  | exit (t : Nat)

/-- The steps of the kernel.  The calls of `task.c` that succeed end with
    `rtos_reschedule`. -/
inductive KStep : Kernel Ctx → KLabel Ctx → Kernel Ctx → Prop
  | op {K : Kernel Ctx} {l : Label} {s : Sys} (hs : Step K.toSys l s) (hl : ∀ t u, l ≠ .kill t u)
      (regs : Ctx) :
      KStep K (.op l regs (switchedOut K.k s.k))
        { K with toSys := s, esp := saveContext K.esp (switchedOut K.k s.k) regs }
  | create {K : Kernel Ctx} {t : Nat} (h : K.At t .user) (priority : Nat) (stack : Bool)
      (frame : Ctx) :
      KStep K (.create t (K.create priority stack frame).2 frame)
        ((K.create priority stack frame).1.move t
          (if (K.create priority stack frame).2.isSome then .resched else .user))
  | kill {K : Kernel Ctx} {t : Nat} (h : K.At t .user) (id : Nat) :
      KStep K (.kill t id (K.findId id)) ((K.kill id).move t .resched)
  | exit {K : Kernel Ctx} {t : Nat} (h : K.At t .user) :
      KStep K (.exit t) ((K.exit t).move t .resched)

/-- The kernel when the scheduler has just been started: the task on the CPU is the only
    one that is `RUNNING`, and the idle task can run. -/
structure Kernel.Init (initial maxCount : Nat → Int) (K : Kernel Ctx) : Prop
    extends Sys.Init initial maxCount K.toSys where
  idleRunnable : (K.k.taskTable K.k.idleTask).Runnable
  onlyRunning : ∀ t, (K.k.taskTable t).state = .running ↔ K.k.currentTask = some t

/-- The states that a run leads to, with the steps it took.  Each step meets `ok`. -/
inductive KReach (init : Kernel Ctx → Prop) (ok : Kernel Ctx → KLabel Ctx → Prop) :
    Kernel Ctx → List (KLabel Ctx) → Prop
  | init {K : Kernel Ctx} (h : init K) : KReach init ok K []
  | step {K K' : Kernel Ctx} {tr : List (KLabel Ctx)} {l : KLabel Ctx} (h : KReach init ok K tr)
      (hok : ok K l) (hs : KStep K l K') : KReach init ok K' (tr ++ [l])

/-! ### The invariant -/

/-- No waiter and not the idle task is killed. -/
def killOk (K : Kernel Ctx) : KLabel Ctx → Prop
  | .kill _ _ (some u) => u ≠ K.k.idleTask ∧ ∀ o, o.Queued → ¬ (K.k.taskTable u).WaitsFor o
  | _ => True

def KLabel.queue (l : KLabel Ctx) (q : Obj → List Nat) : Obj → List Nat :=
  match l with
  | .op l _ _ => l.queue q
  | _ => q

theorem Waiting.renew {tab : Nat → Task} {queue : Obj → WaitQueue} {q : Obj → List Nat}
    (h : Waiting tab queue q) (hev : ∀ e, (queue (.event e)).waitHead = none) {t : Nat}
    (ht : (tab t).state ≠ .blocked) {task : Task} (hs : task.state ≠ .blocked) :
    Waiting (update tab t task) queue q where
  linked := by
    intro o
    refine (h.linked o).congr fun u hu => ?_
    have hut : u ≠ t := fun heq => h.not_mem hev ht o (heq ▸ hu)
    rw [update_of_ne hut]
  nodup := h.nodup
  mem := by
    intro o ho u
    rw [h.mem o ho]
    by_cases hut : u = t
    · subst hut
      rw [update_self]
      exact ⟨fun hw => absurd hw.1 ht, fun hw => absurd hw.1 hs⟩
    · rw [update_of_ne hut]

section

variable {K K' : Kernel Ctx} {l : KLabel Ctx} {q : Obj → List Nat} {t : Nat}

theorem Kernel.create_cases (K : Kernel Ctx) (priority : Nat) (stack : Bool) (frame : Ctx) :
    K.create priority stack frame = (K, none) ∨
      ∃ u p, K.k.freeSlot = some u ∧ K.create priority stack frame =
        ({ k := K.k.setTask u (newTask p), pos := update K.pos u .user,
           id := update K.id u K.nextTaskId, nextTaskId := u32 (K.nextTaskId + 1),
           esp := update K.esp u frame }, some u) := by
  unfold Kernel.create
  rcases rtosTaskCreate_cases K.k priority stack with heq | ⟨u, p, hfree, _, heq⟩
  · rw [heq]
    exact Or.inl rfl
  · rw [heq]
    exact Or.inr ⟨u, p, hfree, rfl⟩

theorem Alive.freeSlot (ha : Alive K.toSys) (hat : K.At t .user) {u : Nat}
    (hfree : K.k.freeSlot = some u) :
    u ≠ t ∧ u ≠ K.k.idleTask ∧ (K.k.taskTable u).state ≠ .blocked := by
  obtain ⟨_, hstate, _⟩ := freeSlot_some hfree
  refine ⟨fun heq => ?_, fun heq => ?_, fun hb => ?_⟩
  · rw [heq] at hstate
    rcases hstate with h | h
    · exact (ha.current t hat.current).1 h
    · exact ha.live hat (by simp) h
  · rw [heq] at hstate
    rcases hstate with h | h <;> rcases ha.idle with hi | hi <;> simp [h] at hi
  · rcases hstate with h | h <;> simp [h] at hb

theorem Inv.create (h : Inv K.toSys q) (ha : Alive K.toSys) (hat : K.At t .user) {u p : Nat}
    (hfree : K.k.freeSlot = some u) :
    Inv ⟨K.k.setTask u (newTask p),
        update (update K.pos u .user) t .resched⟩ q ∧
      Alive ⟨K.k.setTask u (newTask p),
        update (update K.pos u .user) t .resched⟩ := by
  obtain ⟨hut, hidle, hb⟩ := ha.freeSlot hat hfree
  have hother : ∀ v, v ≠ u → (K.k.setTask u (newTask p)).taskTable v = K.k.taskTable v :=
    fun v hv => update_of_ne hv _ _
  have hself : (K.k.setTask u (newTask p)).taskTable u = newTask p := update_self _ _ _
  have hnew : (newTask p).state ≠ .blocked := by simp [newTask]
  have hfreet := h.free hat (by simp)
  refine ⟨⟨⟨h.running, h.idle.congr rfl rfl ?_, fun v hv => ?_, ?_⟩, t, hat.current, h.bound hat,
    fun ht => ?_⟩, ?_, fun c hc => ?_⟩
  · rw [hother _ (Ne.symm hidle)]
  · by_cases hvu : v = u
    · rw [hvu, hself] at hv
      exact absurd hv hnew
    · rw [hother v hvu] at hv ⊢
      have hvt : v ≠ t := fun heq => hfreet (heq ▸ hv)
      dsimp only
      rw [update_of_ne hvt, update_of_ne hvu]
      exact h.place v hv
  · exact h.waiting.renew K.k.queue_event hb hnew
  · rw [hother t (Ne.symm hut)] at ht
    exact absurd ht hfreet
  · show ((K.k.setTask u (newTask p)).taskTable K.k.idleTask).Runnable
    rw [hother _ (Ne.symm hidle)]
    exact ha.idle
  · cases hat.current.symm.trans hc
    rw [hother t (Ne.symm hut)]
    exact ⟨(ha.current t hat.current).1, fun ht => absurd ht (ha.live hat (by simp))⟩

theorem Inv.kill (h : Inv K.toSys q) (ha : Alive K.toSys) (hat : K.At t .user) {u : Nat}
    (hidle : u ≠ K.k.idleTask) (hout : ∀ o, o.Queued → ¬ (K.k.taskTable u).WaitsFor o) :
    Inv ⟨killTask K.k u, update K.pos t .resched⟩ q ∧
      Alive ⟨killTask K.k u, update K.pos t .resched⟩ := by
  refine ⟨h.step_write hat hidle hout rfl (by simp), ?_, fun c hc => ?_⟩
  · dsimp only [killTask, Rtos.setTask]
    rw [update_of_ne (Ne.symm hidle)]
    exact ha.idle
  · cases hat.current.symm.trans hc
    dsimp only [killTask, Rtos.setTask]
    by_cases htu : t = u
    · rw [htu, update_self, update_self]
      exact ⟨by simp, fun _ => rfl⟩
    · rw [update_of_ne htu]
      exact ⟨(ha.current t hat.current).1, fun ht => absurd ht (ha.live hat (by simp))⟩

theorem KStep.inv (h : Inv K.toSys q) (ha : Alive K.toSys) (hok : killOk K l) (hs : KStep K l K') :
    Inv K'.toSys (l.queue q) ∧ Alive K'.toSys := by
  cases hs with
  | op hs hl regs => exact ⟨h.step hs, (h.alive ha hs hl).1⟩
  | @create t hat priority stack frame =>
    rcases K.create_cases priority stack frame with heq | ⟨u, p, hfree, heq⟩
    · rw [heq]
      dsimp only [Kernel.move, KLabel.queue, Option.isSome_none]
      rw [if_neg (by simp), ← hat.update_self]
      exact ⟨h, ha⟩
    · rw [heq]
      exact h.create ha hat hfree
  | @kill t hat id =>
    unfold Kernel.kill
    cases hfind : K.findId id with
    | none =>
      refine ⟨h.quiet hat (by simp) (Quiet.refl K.k) .resched, ha.idle, fun c hc => ?_⟩
      cases hat.current.symm.trans hc
      exact ⟨(ha.current t hat.current).1, fun ht => absurd ht (ha.live hat (by simp))⟩
    | some u =>
      rw [hfind] at hok
      exact h.kill ha hat hok.1 hok.2
  | exit hat =>
    exact h.kill ha hat hat.ne_idle fun o _ hw => h.free hat (by simp) hw.1

def KLabel.creates : KLabel Ctx → Option Nat
  | .create _ slot _ => slot
  | _ => none

theorem KStep.terminated (h : Inv K.toSys q) (ha : Alive K.toSys) (hs : KStep K l K') {u : Nat}
    (hu : (K.k.taskTable u).state = .terminated) :
    (K'.k.taskTable u).state = .terminated ∨ l.creates = some u := by
  have hkill : ∀ v, ((killTask K.k v).taskTable u).state = .terminated := by
    intro v
    dsimp only [killTask, Rtos.setTask]
    by_cases huv : u = v
    · rw [huv, update_self]
    · rw [update_of_ne huv]
      exact hu
  cases hs with
  | op hs hl regs => exact Or.inl (((h.alive ha hs hl).2 u).mpr hu)
  | @create t hat priority stack frame =>
    rcases K.create_cases priority stack frame with heq | ⟨v, p, hfree, heq⟩
    · rw [heq]
      exact Or.inl hu
    · rw [heq]
      dsimp only [Kernel.move, KLabel.creates, Rtos.setTask]
      by_cases huv : u = v
      · exact Or.inr (by rw [huv])
      · rw [update_of_ne huv]
        exact Or.inl hu
  | kill hat id =>
    unfold Kernel.kill
    cases K.findId id with
    | none => exact Or.inl hu
    | some v => exact Or.inl (hkill v)
  | exit hat => exact Or.inl (hkill _)

end

/-! ### Runs -/

def kwaiters (tr : List (KLabel Ctx)) : Obj → List Nat :=
  tr.foldl (fun q l => l.queue q) fun _ => []

theorem kwaiters_snoc (tr : List (KLabel Ctx)) (l : KLabel Ctx) :
    kwaiters (tr ++ [l]) = l.queue (kwaiters tr) := List.foldl_append

/-- The step of a system that a label stands for. -/
def KLabel.op? : KLabel Ctx → Option Label
  | .op l _ _ => some l
  | _ => none

/-- The task `t` started to wait for `o` in the run, and its slot has not got a new task
    since. -/
def Began (tr : List (KLabel Ctx)) (o : Obj) (t : Nat) : Prop :=
  ∃ tr₁ l tr₂, tr = tr₁ ++ l :: tr₂ ∧ (l.op?.bind (Label.arrives o)) = some t ∧
    ∀ l' ∈ tr₂, l'.creates ≠ some t

/-- The task that a permit or a mutex is given to with a step. -/
def Label.gives : Label → Option Nat
  | .wait t _ _ (.ret true) => some t
  | .signal _ _ waiter _ => waiter
  | .lock t _ _ (.ret true) => some t
  | .unlock _ _ waiter => waiter
  | _ => none

/-- The task is in the queue of `o`: one meets it from the head along the links. -/
def Rtos.InQueue (k : Rtos) (o : Obj) (t : Nat) : Prop :=
  LinkReach (fun u => (k.taskTable u).nextWait) (k.queue o).waitHead t

theorem Waiting.inQueue {k : Rtos} {q : Obj → List Nat} (h : Waiting k.taskTable k.queue q)
    {o : Obj} (ho : o.Queued) (t : Nat) : k.InQueue o t ↔ (k.taskTable t).WaitsFor o :=
  (h.linked o).linked.mem_iff.symm.trans (h.mem o ho t)

/-- Every queue holds the tasks that are blocked on its object, no other task and no task
    less, and each task is in one queue at most. -/
structure QueuesOk (k : Rtos) : Prop where
  blocked : ∀ o, o.Queued → ∀ t, k.InQueue o t → (k.taskTable t).WaitsFor o
  kept : ∀ o, o.Queued → ∀ t, (k.taskTable t).WaitsFor o → k.InQueue o t
  single : ∀ o o' t, o.Queued → o'.Queued → k.InQueue o t → k.InQueue o' t → o = o'

/-- What a step does to tasks that are terminated, and whom it gives a permit or a mutex. -/
structure LifeOk (tr : List (KLabel Ctx)) (K : Kernel Ctx) (l : KLabel Ctx) (K' : Kernel Ctx) :
    Prop where
  ready : ∀ u, (K.k.taskTable u).state = .terminated → (K'.k.taskTable u).state = .ready →
    l.creates = some u
  gives : ∀ w, l.op?.bind Label.gives = some w → (K.k.taskTable w).state ≠ .terminated
  wakes : ∀ o w, l.op?.bind (Label.wakes o) = some w →
    (K.k.taskTable w).WaitsFor o ∧ Began tr o w

theorem Waiting.queuesOk {k : Rtos} {q : Obj → List Nat} (h : Waiting k.taskTable k.queue q) :
    QueuesOk k := by
  refine ⟨fun o ho t => (h.inQueue ho t).mp, fun o ho t => (h.inQueue ho t).mpr,
    fun o o' t ho ho' hm hm' => ?_⟩
  have h₁ := (h.inQueue ho t).mp hm
  have h₂ := (h.inQueue ho' t).mp hm'
  exact Option.some.inj (h₁.2.symm.trans h₂.2)

theorem Label.wakes_queued {l : Label} {o : Obj} {w : Nat} (h : l.wakes o = some w) :
    o.Queued ∧ l.gives = some w := by
  unfold Label.wakes at h
  split at h
  · split at h
    · next ho =>
      cases h
      rw [ho]
      exact ⟨trivial, rfl⟩
    · cases h
  · split at h
    · next ho =>
      cases h
      rw [ho]
      exact ⟨trivial, rfl⟩
    · cases h
  · cases h

section

variable {K K' : Kernel Ctx} {l : KLabel Ctx} {q : Obj → List Nat} {tr : List (KLabel Ctx)}

theorem Step.gives_live {s s' : Sys} {l : Label} (hs : Step s l s') (h : Inv s q) (ha : Alive s)
    {w : Nat} (hw : l.gives = some w) : (s.k.taskTable w).state ≠ .terminated := by
  have hhead : ∀ o, o.Queued → (s.k.queue o).waitHead = some w →
      (s.k.taskTable w).state ≠ .terminated := by
    intro o ho hh
    have hb := (h.waiting.inQueue ho w).mp (.head hh)
    simp [hb.1]
  cases hs with
  | wait hat i timeoutMs =>
    generalize (rtosSemWait s.k i timeoutMs).2 = out at hw
    cases out with
    | ret b =>
      cases b with
      | false => cases hw
      | true =>
        cases hw
        exact ha.live hat (by simp)
    | block => cases hw
  | signal hat i => exact hhead (.sem i) trivial hw
  | lock hat m timeoutMs =>
    generalize (rtosMutexLock s.k m timeoutMs).2 = out at hw
    cases out with
    | ret b =>
      cases b with
      | false => cases hw
      | true =>
        cases hw
        exact ha.live hat (by simp)
    | block => cases hw
  | unlock hat m =>
    dsimp only [Label.gives] at hw
    split at hw
    · exact hhead (.mutex m) trivial hw
    · cases hw
  | _ => cases hw

theorem KStep.began (h : Inv K.toSys q) (ha : Alive K.toSys) (hs : KStep K l K')
    (hb : ∀ o t, o.Queued → t ∈ q o → Began tr o t) {o : Obj} {t : Nat} (ho : o.Queued)
    (ht : t ∈ l.queue q o) : Began (tr ++ [l]) o t := by
  -- a task that waited before keeps its slot
  have hold : t ∈ q o → Began (tr ++ [l]) o t := by
    intro hm
    obtain ⟨tr₁, l₁, tr₂, htr, harr, hnone⟩ := hb o t ho hm
    refine ⟨tr₁, l₁, tr₂ ++ [l], by rw [htr, List.append_assoc, List.cons_append], harr, ?_⟩
    intro l' hl'
    rcases List.mem_append.mp hl' with hl' | hl'
    · exact hnone l' hl'
    · cases List.mem_singleton.mp hl'
      have hblocked := ((h.waiting.mem o ho t).mp hm).1
      cases hs with
      | op _ _ _ => simp [KLabel.creates]
      | create hat priority stack frame =>
        rcases K.create_cases priority stack frame with heq | ⟨u, p, hfree, heq⟩
        · rw [heq]
          simp [KLabel.creates]
        · rw [heq]
          intro hu
          cases hu
          exact (ha.freeSlot hat hfree).2.2 hblocked
      | kill _ _ => simp [KLabel.creates]
      | exit _ => simp [KLabel.creates]
  cases l with
  | op l regs out =>
    dsimp only [KLabel.queue] at ht
    rw [Label.queue_apply, List.mem_append] at ht
    rcases ht with ht | ht
    · refine hold ?_
      split at ht
      · exact List.mem_of_mem_tail ht
      · exact ht
    · refine ⟨tr, .op l regs out, [], rfl, ?_, fun l' hl' => absurd hl' (by simp)⟩
      exact Option.mem_toList.mp ht
  | create _ _ _ => exact hold ht
  | kill _ _ _ => exact hold ht
  | exit _ => exact hold ht

end

theorem Kernel.Init.alive {initial maxCount : Nat → Int} {K : Kernel Ctx}
    (h : K.Init initial maxCount) : Alive K.toSys := by
  refine ⟨h.idleRunnable, fun c hc => ?_⟩
  have hrun := (h.onlyRunning c).mpr hc
  simp [hrun]

theorem KReach.inv {initial maxCount : Nat → Int} {ok : Kernel Ctx → KLabel Ctx → Prop}
    {K : Kernel Ctx} {tr : List (KLabel Ctx)} (hok : ∀ K l, ok K l → killOk K l)
    (h : KReach (Kernel.Init initial maxCount) ok K tr) :
    Inv K.toSys (kwaiters tr) ∧ Alive K.toSys ∧
      ∀ o t, o.Queued → t ∈ kwaiters tr o → Began tr o t := by
  induction h with
  | init h => exact ⟨h.toInit.inv, h.alive, fun o t _ ht => absurd ht (by simp [kwaiters])⟩
  | step _ hk hs ih =>
    obtain ⟨hinv, halive, hbegan⟩ := ih
    rw [kwaiters_snoc]
    obtain ⟨hinv', halive'⟩ := hs.inv hinv halive (hok _ _ hk)
    exact ⟨hinv', halive', fun o t ho ht => hs.began hinv halive hbegan ho ht⟩

/-- **Killing and exiting tasks** is safe for the queues in every run in which
    `rtos_task_kill` never hits a task that waits in a queue, nor the idle task. -/
theorem kill_safe {initial maxCount : Nat → Int} {K : Kernel Ctx} {tr : List (KLabel Ctx)}
    (h : KReach (Kernel.Init initial maxCount) killOk K tr) :
    QueuesOk K.k ∧ ∀ l K', KStep K l K' → LifeOk tr K l K' := by
  obtain ⟨hinv, halive, hbegan⟩ := h.inv fun _ _ h => h
  refine ⟨hinv.waiting.queuesOk, fun l K' hs => ⟨fun u hu hr => ?_, fun w hw => ?_,
    fun o w hw => ?_⟩⟩
  · rcases hs.terminated hinv halive hu with ht | hc
    · cases hr.symm.trans ht
    · exact hc
  · cases hs with
    | op hs hl regs => exact hs.gives_live hinv halive hw
    | create _ _ _ _ => cases hw
    | kill _ _ => cases hw
    | exit _ => cases hw
  · cases hs with
    | op hs hl regs =>
      have hq := (Label.wakes_queued hw).1
      have hm := List.mem_of_mem_head? (hinv.wakes_head hs hw)
      exact ⟨(hinv.waiting.mem o hq w).mp hm, hbegan o w hq hm⟩
    | create _ _ _ _ => cases hw
    | kill _ _ => cases hw
    | exit _ => cases hw

/-! ### Runs with a kill -/

/-- A kernel of `maxTasks` tasks that has just been started: task 0 is the idle task, task 1
    is on the CPU, and the task `t` has the priority `t` and the id `t + 1`. -/
def freshKernel (maxTasks : Nat) : Kernel Unit where
  toSys := freshSys maxTasks (fun t => t) (fun _ => 0) fun _ => 1
  id := fun t => t + 1
  nextTaskId := maxTasks + 1
  esp := fun _ => ()

theorem freshKernel_init {maxTasks : Nat} (h : 1 < maxTasks) :
    (freshKernel maxTasks).Init (fun _ => 0) fun _ => 1 := by
  refine ⟨freshSys_init h _ _ _, Or.inl ?_, fun t => ?_⟩
  · have hpos : 0 < maxTasks := by omega
    simp [freshKernel, freshSys, hpos]
  · dsimp only [freshKernel, freshSys]
    by_cases ht : t = 1
    · simp [ht, h]
    · have hne : ¬ 1 = t := fun heq => ht heq.symm
      simp only [ht, hne, if_false, Option.some.injEq, iff_false]
      split <;> simp

/-- Task 1 waits for a semaphore while task 3 kills task 2. -/
theorem kill_safe_bystander :
    ∃ (K : Kernel Unit) (tr : List (KLabel Unit)),
      KReach (Kernel.Init (fun _ => 0) fun _ => 1) killOk K tr ∧
        (K.k.taskTable 2).state = .terminated ∧ K.k.InQueue (.sem 0) 1 ∧ QueuesOk K.k := by
  have h₀ : KReach (Kernel.Init (fun _ => 0) fun _ => 1) killOk (freshKernel 4) [] :=
    .init (freshKernel_init (by decide))
  have h₁ := h₀.step ?_ (.op (.wait (t := 1) ⟨rfl, by decide, rfl⟩ 0 1) nofun ())
  · have h₂ := h₁.step ?_ (.kill (t := 3) ⟨by decide, by decide, by decide⟩ 3)
    · exact ⟨_, _, h₂, by decide, .head (by decide), (kill_safe h₂).1⟩
    · exact ⟨by decide, fun o _ hw => absurd hw.1 (by decide)⟩
  · trivial

/-- Task 2 kills task 1 while that waits for a semaphore, and then signals the semaphore. -/
theorem kill_waiter_ready :
    ∃ (K K' : Kernel Unit) (tr : List (KLabel Unit)) (l : KLabel Unit),
      KReach (Kernel.Init (fun _ => 0) fun _ => 1)
          (fun K l => ∀ t id u, l = .kill t id (some u) → u ≠ K.k.idleTask) K tr ∧
        KStep K l K' ∧ K.k.InQueue (.sem 0) 1 ∧ (K.k.taskTable 1).state = .terminated ∧
        (K'.k.taskTable 1).state = .ready ∧ l.creates = none := by
  have h₀ : KReach (Kernel.Init (fun _ => 0) fun _ => 1)
      (fun K l => ∀ t id u, l = .kill t id (some u) → u ≠ K.k.idleTask) (freshKernel 3) [] :=
    .init (freshKernel_init (by decide))
  have h₁ := h₀.step ?_ (.op (.wait (t := 1) ⟨rfl, by decide, rfl⟩ 0 1) nofun ())
  · have h₂ := h₁.step ?_ (.kill (t := 2) ⟨by decide, by decide, by decide⟩ 2)
    · have h₃ := h₂.step ?_ (.op (.reschedule (t := 2) ⟨by decide, by decide, by decide⟩) nofun ())
      · exact ⟨_, _, _, _, h₃, .op (.signal (t := 2) ⟨by decide, by decide, by decide⟩ 0) nofun (),
          .head (by decide), by decide, by decide, rfl⟩
      · rintro t id u ⟨⟩
    · intro t id u h
      cases h
      decide
  · rintro t id u ⟨⟩

end Gemios
