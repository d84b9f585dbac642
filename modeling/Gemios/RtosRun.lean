import Gemios.RtosCalls

/-!
# Runs of the system

One CPU runs the tasks of the table.  The critical sections between `irq_save` and
`irq_restore` are steps; between two steps a timer tick can come, and a tick or a yield
puts another task on the CPU.  `Inv` is the invariant of every run: who waits where, and
who can be on the CPU.
-/

namespace Gemios

open Function

/-! ### Steps -/

/-- Where a task is: outside of the calls, or in the middle of one. -/
inductive Pos where
  | user
  /-- Blocked in `rtos_sem_wait`, or about to return from it. -/
  | semWait (i : Nat)
  /-- Blocked in `rtos_mutex_lock`, or about to return from it. -/
  | mutexLock (m : Nat)
  /-- In the loop of `rtos_event_wait`, before `rtos_reschedule`. -/
  | eventMark (e : Nat) (mask : BitVec 32) (clearOnExit : Bool)
  /-- In the loop of `rtos_event_wait`, after `rtos_reschedule`. -/
  | eventLoop (e : Nat) (mask : BitVec 32) (clearOnExit : Bool)
  /-- Before the `rtos_reschedule` at the end of a call. -/
  | resched
deriving DecidableEq

/-- The object of the call that the task is in. -/
def Pos.object : Pos → Option Obj
  | .semWait i => some (.sem i)
  | .mutexLock m => some (.mutex m)
  | .eventMark e _ _ => some (.event e)
  | .eventLoop e _ _ => some (.event e)
  | .user => none
  | .resched => none

/-- The tasks, the objects, and where every task is. -/
structure Sys where
  k : Rtos
  pos : Nat → Pos

inductive Label where
  | tick
  | yield (t : Nat)
  | wait (t i timeoutMs : Nat) (out : Outcome)
  | waitReturn (t i : Nat)
  /-- The task that is woken, and whether the permit was kept. -/
  | signal (t i : Nat) (waiter : Option Nat) (kept : Bool)
  | lock (t m timeoutMs : Nat) (out : Outcome)
  | lockReturn (t m : Nat)
  /-- The task that the mutex is handed to. -/
  | unlock (t m : Nat) (waiter : Option Nat)
  | eventWait (t e : Nat) (mask : BitVec 32) (clearOnExit : Bool) (res : Option (BitVec 32))
  | eventSet (t e : Nat) (mask : BitVec 32)
  | eventClear (t e : Nat) (mask : BitVec 32)
  | delay (t ticks : Nat)
  | kill (t u : Nat)
  | resched (t : Nat)

/-- Where a task is after the first part of a call. -/
def Outcome.pos : Outcome → Pos → Pos
  | .ret _, _ => .user
  | .block, p => p

/-- Where a task is after a turn of the loop of `rtos_event_wait`. -/
def eventPos (e : Nat) (mask : BitVec 32) (clearOnExit : Bool) : Option (BitVec 32) → Pos
  | some _ => .user
  | none => .eventMark e mask clearOnExit

/-- `rtos_task_kill` and `rtos_task_exit`: the slot of `u` is marked. -/
def killTask (k : Rtos) (u : Nat) : Rtos := k.setTask u { k.taskTable u with state := .terminated }

/-- The task `t` is on the CPU at the place `p`, and it is not the idle task, which only
    yields. -/
structure Sys.At (s : Sys) (t : Nat) (p : Pos) : Prop where
  current : s.k.currentTask = some t
  ne_idle : t ≠ s.k.idleTask
  pos : s.pos t = p

/-- A task can be killed, or exit, when it owns no mutex and waits in no queue. -/
structure Sys.Killable (s : Sys) (u : Nat) : Prop where
  ne_idle : u ≠ s.k.idleTask
  inUse : (s.k.taskTable u).state ≠ .unused
  owns : ∀ m, (s.k.mutexes m).owner ≠ some u
  waits : ∀ o, o.Queued → ¬ (s.k.taskTable u).WaitsFor o

inductive Step : Sys → Label → Sys → Prop
  | tick (s : Sys) : Step s .tick ⟨rtosScheduleFromIsr s.k 32, s.pos⟩
  | yield {s : Sys} {t : Nat} (hc : s.k.currentTask = some t) (hp : s.pos t = .user) :
      Step s (.yield t) ⟨rtosYield s.k, s.pos⟩
  | wait {s : Sys} {t : Nat} (h : s.At t .user) (i timeoutMs : Nat) :
      Step s (.wait t i timeoutMs (rtosSemWait s.k i timeoutMs).2)
        ⟨(rtosSemWait s.k i timeoutMs).1,
          update s.pos t ((rtosSemWait s.k i timeoutMs).2.pos (.semWait i))⟩
  | waitReturn {s : Sys} {t i : Nat} (h : s.At t (.semWait i)) :
      Step s (.waitReturn t i) ⟨s.k, update s.pos t .user⟩
  | signal {s : Sys} {t : Nat} (h : s.At t .user) (i : Nat) :
      Step s
        (.signal t i (s.k.sems i).wait.waitHead
          ((s.k.sems i).wait.waitHead.isSome || decide ((s.k.sems i).count < (s.k.sems i).maxCount)))
        ⟨rtosSemSignal s.k i, s.pos⟩
  | lock {s : Sys} {t : Nat} (h : s.At t .user) (m timeoutMs : Nat) :
      Step s (.lock t m timeoutMs (rtosMutexLock s.k m timeoutMs).2)
        ⟨(rtosMutexLock s.k m timeoutMs).1,
          update s.pos t ((rtosMutexLock s.k m timeoutMs).2.pos (.mutexLock m))⟩
  | lockReturn {s : Sys} {t m : Nat} (h : s.At t (.mutexLock m)) :
      Step s (.lockReturn t m) ⟨s.k, update s.pos t .user⟩
  | unlock {s : Sys} {t : Nat} (h : s.At t .user) (m : Nat) :
      Step s
        (.unlock t m (if s.k.Releases t m then (s.k.mutexes m).wait.waitHead else none))
        ⟨rtosMutexUnlock s.k m, s.pos⟩
  | eventWait {s : Sys} {t e : Nat} {mask : BitVec 32} {clearOnExit : Bool}
      (h : s.At t .user ∨ s.At t (.eventLoop e mask clearOnExit)) :
      Step s (.eventWait t e mask clearOnExit (rtosEventWait s.k e mask clearOnExit).2)
        ⟨(rtosEventWait s.k e mask clearOnExit).1,
          update s.pos t
            (eventPos e mask clearOnExit (rtosEventWait s.k e mask clearOnExit).2)⟩
  | eventReschedule {s : Sys} {t e : Nat} {mask : BitVec 32} {clearOnExit : Bool}
      (h : s.At t (.eventMark e mask clearOnExit)) :
      Step s (.resched t) ⟨rtosYield s.k, update s.pos t (.eventLoop e mask clearOnExit)⟩
  | eventSet {s : Sys} {t : Nat} (h : s.At t .user) (e : Nat) (mask : BitVec 32) :
      Step s (.eventSet t e mask) ⟨rtosEventSet s.k e mask, update s.pos t .resched⟩
  | eventClear {s : Sys} {t : Nat} (h : s.At t .user) (e : Nat) (mask : BitVec 32) :
      Step s (.eventClear t e mask) ⟨rtosEventClear s.k e mask, s.pos⟩
  | delay {s : Sys} {t : Nat} (h : s.At t .user) (ticks : Nat) :
      Step s (.delay t ticks) ⟨rtosDelayTicks s.k ticks, update s.pos t .resched⟩
  | kill {s : Sys} {t u : Nat} (h : s.At t .user) (hu : s.Killable u) :
      Step s (.kill t u) ⟨killTask s.k u, update s.pos t .resched⟩
  | reschedule {s : Sys} {t : Nat} (h : s.At t .resched) :
      Step s (.resched t) ⟨rtosYield s.k, update s.pos t .user⟩

/-- The system when the scheduler has just been started: no task is blocked, none is in a
    call, and the objects are as their `init` functions leave them. -/
structure Sys.Init (initial maxCount : Nat → Int) (s : Sys) : Prop where
  running : s.k.schedulerRunning = true
  idle : s.k.IdleOk
  runs : s.k.Runs
  blocked : ∀ t, (s.k.taskTable t).state ≠ .blocked
  pos : ∀ t, s.pos t = .user
  sems : ∀ i, s.k.sems i = rtosSemInit (initial i) (maxCount i)
  mutexes : ∀ m, s.k.mutexes m = rtosMutexInit
  events : ∀ e, s.k.events e = rtosEventInit

/-- The states that a run leads to, with the steps it took.  Each step meets `ok`. -/
inductive Reach (init : Sys → Prop) (ok : Sys → Label → Prop) : Sys → List Label → Prop
  | init {s : Sys} (h : init s) : Reach init ok s []
  | step {s s' : Sys} {tr : List Label} {l : Label} (h : Reach init ok s tr) (hok : ok s l)
      (hs : Step s l s') : Reach init ok s' (tr ++ [l])

/-! ### The invariant -/

/-- Work on the objects' counters and on priorities, with no pass of the scheduler. -/
structure Quiet (k k' : Rtos) : Prop where
  maxTasks : k'.maxTasks = k.maxTasks
  idleTask : k'.idleTask = k.idleTask
  running : k'.schedulerRunning = k.schedulerRunning
  currentTask : k'.currentTask = k.currentTask
  queue : k'.queue = k.queue
  tasks : ∀ u, ∃ p, k'.taskTable u = { k.taskTable u with priority := p }

namespace Quiet

theorem refl (k : Rtos) : Quiet k k := ⟨rfl, rfl, rfl, rfl, rfl, fun _ => ⟨_, rfl⟩⟩

theorem setSem {k : Rtos} {i : Nat} {v : Sem} (h : v.wait = (k.sems i).wait) :
    Quiet k (k.setSem i v) :=
  ⟨rfl, rfl, rfl, rfl, Rtos.queue_setSem_same h, fun _ => ⟨_, rfl⟩⟩

theorem setMutex {k : Rtos} {m : Nat} {v : Mutex} (h : v.wait = (k.mutexes m).wait) :
    Quiet k (k.setMutex m v) :=
  ⟨rfl, rfl, rfl, rfl, Rtos.queue_setMutex_same h, fun _ => ⟨_, rfl⟩⟩

theorem setEvent (k : Rtos) (e : Nat) (v : Event) : Quiet k (k.setEvent e v) :=
  ⟨rfl, rfl, rfl, rfl, rfl, fun _ => ⟨_, rfl⟩⟩

theorem boost (k : Rtos) (c m : Nat) : Quiet k (k.boost c m) :=
  ⟨rfl, rfl, rfl, rfl, rfl, boostOwner_task k.taskTable (some c) (k.mutexes m).owner⟩

theorem handTo (k : Rtos) (c m t : Nat) : Quiet k (k.handTo c m t) :=
  ⟨rfl, rfl, rfl, rfl, Rtos.queue_setMutex_same rfl, restoreOwner_task k.taskTable c⟩

theorem setFree (k : Rtos) (c m : Nat) : Quiet k (k.setFree c m) :=
  ⟨rfl, rfl, rfl, rfl, Rtos.queue_setMutex_same rfl, restoreOwner_task k.taskTable c⟩

theorem eventTake (k : Rtos) (e : Nat) (mask : BitVec 32) (clear : Bool) :
    Quiet k (eventTake k e mask clear).1 := by
  unfold Gemios.eventTake
  dsimp only
  split
  · exact setEvent k e _
  · exact refl k

end Quiet

/-- What holds at every moment, also in the middle of a step. -/
structure Base (s : Sys) (q : Obj → List Nat) : Prop where
  running : s.k.schedulerRunning = true
  idle : s.k.IdleOk
  place : ∀ t, (s.k.taskTable t).state = .blocked → t < s.k.maxTasks ∧
    ∃ o, (s.k.taskTable t).waitObject = some o ∧ (s.pos t).object = some o
  waiting : Waiting s.k.taskTable s.k.queue q

structure Inv (s : Sys) (q : Obj → List Nat) : Prop extends Base s q where
  current : ∃ c, s.k.currentTask = some c ∧ c < s.k.maxTasks ∧
    ((s.k.taskTable c).state = .blocked → ∃ e mask clear, s.pos c = .eventMark e mask clear)

namespace Base

theorem semHead {s : Sys} {q : Obj → List Nat} (h : Base s q) (i : Nat) :
    (s.k.sems i).wait.waitHead = (q (.sem i)).head? := (h.waiting.linked (.sem i)).head_eq

theorem mutexHead {s : Sys} {q : Obj → List Nat} (h : Base s q) (m : Nat) :
    (s.k.mutexes m).wait.waitHead = (q (.mutex m)).head? := (h.waiting.linked (.mutex m)).head_eq

variable {k k' : Rtos} {pos : Nat → Pos} {q : Obj → List Nat} {o : Obj} {t : Nat} {p : Pos}

theorem frame (h : Base ⟨k, pos⟩ q) (hf : Frame k k') : Base ⟨k', pos⟩ q where
  running := hf.running.trans h.running
  idle := h.idle.of_frame hf
  place := by
    intro u hu
    obtain ⟨hlt, o, ho, hp⟩ := h.place u ((hf.kept u).blocked.mp hu)
    refine ⟨?_, o, (hf.kept u).waitObject.trans ho, hp⟩
    rw [hf.maxTasks]
    exact hlt
  waiting := h.waiting.frame hf

theorem dispatch (h : Base ⟨k, pos⟩ q) (hd : Dispatch k k') : Inv ⟨k', pos⟩ q := by
  refine ⟨h.frame hd.toFrame, ?_⟩
  obtain ⟨c, hc, hlt, hb⟩ := hd.runs
  exact ⟨c, hc, hlt, fun h => absurd h hb⟩

theorem move (h : Base ⟨k, pos⟩ q) (ht : (k.taskTable t).state ≠ .blocked) (p : Pos) :
    Base ⟨k, update pos t p⟩ q := by
  refine ⟨h.running, h.idle, fun u hu => ?_, h.waiting⟩
  have hut : u ≠ t := fun heq => ht (heq ▸ hu)
  dsimp only
  rw [update_of_ne hut]
  exact h.place u hu

theorem congr {pos' : Nat → Pos} (h : Base ⟨k, pos⟩ q)
    (hrun : k'.schedulerRunning = k.schedulerRunning) (hidle : k'.IdleOk)
    (hqueue : k'.queue = k.queue)
    (hnext : ∀ u, (k'.taskTable u).nextWait = (k.taskTable u).nextWait)
    (hwait : ∀ o, o.Queued → ∀ u, (k'.taskTable u).WaitsFor o ↔ (k.taskTable u).WaitsFor o)
    (hplace : ∀ u, (k'.taskTable u).state = .blocked → u < k'.maxTasks ∧
      ∃ o, (k'.taskTable u).waitObject = some o ∧ (pos' u).object = some o) :
    Base ⟨k', pos'⟩ q where
  running := hrun.trans h.running
  idle := hidle
  place := hplace
  waiting := by
    dsimp only
    rw [hqueue]
    exact h.waiting.congr hnext hwait

theorem quiet (h : Base ⟨k, pos⟩ q) (hs : Quiet k k') : Base ⟨k', pos⟩ q := by
  refine h.congr hs.running (h.idle.congr hs.maxTasks hs.idleTask ?_) hs.queue (fun u => ?_)
    (fun o _ u => ?_) fun u hu => ?_
  · obtain ⟨p, hp⟩ := hs.tasks k.idleTask
    rw [hp]
  · obtain ⟨p, hp⟩ := hs.tasks u
    rw [hp]
  · obtain ⟨p, hp⟩ := hs.tasks u
    rw [hp]
    exact Iff.rfl
  · obtain ⟨p, hp⟩ := hs.tasks u
    rw [hp] at hu ⊢
    rw [hs.maxTasks]
    exact h.place u hu

theorem write (h : Base ⟨k, pos⟩ q) (hidle : t ≠ k.idleTask)
    (hout : ∀ o, o.Queued → ¬ (k.taskTable t).WaitsFor o) {task : Task}
    (hnext : task.nextWait = (k.taskTable t).nextWait) (hstate : task.state ≠ .blocked) (p : Pos)
    {c : Nat} (hc : (k.taskTable c).state ≠ .blocked) :
    Base ⟨k.setTask t task, update pos c p⟩ q := by
  have hother : ∀ u, u ≠ t → (k.setTask t task).taskTable u = k.taskTable u :=
    fun u hu => update_of_ne hu _ _
  have hself : (k.setTask t task).taskTable t = task := update_self _ _ _
  refine h.congr rfl (h.idle.congr rfl rfl ?_) rfl (fun u => ?_) (fun o ho u => ?_) fun u hu => ?_
  · rw [hother _ (Ne.symm hidle)]
  · by_cases hut : u = t
    · subst hut
      rw [hself, hnext]
    · rw [hother u hut]
  · by_cases hut : u = t
    · subst hut
      rw [hself]
      exact ⟨fun hw => absurd hw.1 hstate, fun hw => absurd hw (hout o ho)⟩
    · rw [hother u hut]
  · by_cases hut : u = t
    · subst hut
      rw [hself] at hu
      exact absurd hu hstate
    · rw [hother u hut] at hu ⊢
      have huc : u ≠ c := fun heq => hc (heq ▸ hu)
      rw [update_of_ne huc]
      exact h.place u hu

theorem joins (h : Base ⟨k, pos⟩ q) (ho : o.Queued) (ht : (k.taskTable t).state ≠ .blocked)
    (hlt : t < k.maxTasks) (hidle : t ≠ k.idleTask) (hp : p.object = some o) :
    Base ⟨k.joins o t, update pos t p⟩ (update q o (q o ++ [t])) where
  running := (k.running_setQueue o _).trans h.running
  idle := by
    have hidle' : (k.joins o t).idleTask = k.idleTask := k.idleTask_setQueue o _
    obtain ⟨n, hn⟩ := k.joins_task o t (Ne.symm hidle)
    refine ⟨?_, ?_, ?_⟩
    · rw [hidle', show (k.joins o t).maxTasks = k.maxTasks from k.maxTasks_setQueue o _]
      exact h.idle.bound
    · rw [hidle', hn]
      exact h.idle.ne_blocked
    · rw [hidle', hn]
      exact h.idle.ne_unused
  place := by
    intro u hu
    have hmax : (k.joins o t).maxTasks = k.maxTasks := k.maxTasks_setQueue o _
    dsimp only at hu ⊢
    rw [hmax]
    by_cases hut : u = t
    · subst hut
      obtain ⟨n, hn⟩ := k.joins_self o u
      rw [update_self, hn]
      exact ⟨hlt, o, rfl, hp⟩
    · obtain ⟨n, hn⟩ := k.joins_task o t hut
      rw [hn] at hu ⊢
      rw [update_of_ne hut]
      exact h.place u hu
  waiting := by
    dsimp only
    rw [Rtos.queue_joins ho]
    exact h.waiting.block k.queue_event ho ht

theorem leaves (h : Base ⟨k, pos⟩ q) (ho : o.Queued) {rest : List Nat} (hq : q o = t :: rest) :
    Base ⟨k.leaves o t, pos⟩ (update q o rest) where
  running := (k.running_setQueue o _).trans h.running
  idle := by
    have hidle' : (k.leaves o t).idleTask = k.idleTask := k.idleTask_setQueue o _
    refine ⟨?_, ?_, ?_⟩
    · rw [hidle', show (k.leaves o t).maxTasks = k.maxTasks from k.maxTasks_setQueue o _]
      exact h.idle.bound
    · rw [hidle']
      by_cases hti : k.idleTask = t
      · rw [hti, Rtos.leaves_self]
        simp
      · rw [Rtos.leaves_task k o t hti]
        exact h.idle.ne_blocked
    · rw [hidle']
      by_cases hti : k.idleTask = t
      · rw [hti, Rtos.leaves_self]
        simp
      · rw [Rtos.leaves_task k o t hti]
        exact h.idle.ne_unused
  place := by
    intro u hu
    have hmax : (k.leaves o t).maxTasks = k.maxTasks := k.maxTasks_setQueue o _
    dsimp only at hu ⊢
    rw [hmax]
    by_cases hut : u = t
    · subst hut
      rw [Rtos.leaves_self] at hu
      cases hu
    · rw [Rtos.leaves_task k o t hut] at hu ⊢
      exact h.place u hu
  waiting := by
    dsimp only
    rw [Rtos.queue_leaves ho, Rtos.leaves_tab]
    exact h.waiting.wake k.queue_event ho hq (by simp)

end Base

/-! ### Every step keeps the invariant -/

def Label.queue (l : Label) (q : Obj → List Nat) : Obj → List Nat :=
  match l with
  | .wait t i _ .block => update q (.sem i) (q (.sem i) ++ [t])
  | .signal _ i (some _) _ => update q (.sem i) (q (.sem i)).tail
  | .lock t m _ .block => update q (.mutex m) (q (.mutex m) ++ [t])
  | .unlock _ m (some _) => update q (.mutex m) (q (.mutex m)).tail
  | _ => q

namespace Inv

variable {s s' : Sys} {q : Obj → List Nat} {t : Nat} {p : Pos} {l : Label}

theorem free (h : Inv s q) (hat : s.At t p) (hp : ∀ e mask clear, p ≠ .eventMark e mask clear) :
    (s.k.taskTable t).state ≠ .blocked := by
  intro hb
  obtain ⟨c, hc, _, hmark⟩ := h.current
  cases hc.symm.trans hat.current
  obtain ⟨e, mask, clear, hpos⟩ := hmark hb
  exact hp e mask clear (hat.pos.symm.trans hpos)

theorem bound (h : Inv s q) (hat : s.At t p) : t < s.k.maxTasks := by
  obtain ⟨c, hc, hlt, _⟩ := h.current
  cases hc.symm.trans hat.current
  exact hlt

theorem runs (h : Inv s q) (hat : s.At t .user) : s.k.Runs :=
  ⟨t, hat.current, h.bound hat, h.free hat (by simp)⟩

theorem quiet {k' : Rtos} (h : Inv s q) (hat : s.At t p)
    (hp : ∀ e mask clear, p ≠ .eventMark e mask clear) (hs : Quiet s.k k') (p' : Pos) :
    Inv ⟨k', update s.pos t p'⟩ q := by
  have hfree : (k'.taskTable t).state ≠ .blocked := by
    obtain ⟨pr, hpr⟩ := hs.tasks t
    rw [hpr]
    exact h.free hat hp
  refine ⟨(h.toBase.quiet hs).move hfree p', t, hs.currentTask.trans hat.current, ?_, ?_⟩
  · dsimp only
    rw [hs.maxTasks]
    exact h.bound hat
  · exact fun hb => absurd hb hfree

theorem quiet_user {k' : Rtos} (h : Inv s q) (hat : s.At t .user) (hs : Quiet s.k k') :
    Inv ⟨k', s.pos⟩ q := by
  have hinv := h.quiet hat (by simp) hs .user
  rw [← hat.pos, update_eq_self] at hinv
  exact hinv

theorem step_wait (h : Inv s q) (hat : s.At t .user) (i timeoutMs : Nat) :
    Inv ⟨(rtosSemWait s.k i timeoutMs).1,
        update s.pos t ((rtosSemWait s.k i timeoutMs).2.pos (.semWait i))⟩
      ((Label.wait t i timeoutMs (rtosSemWait s.k i timeoutMs).2).queue q) := by
  have hcases := rtosSemWait_cases h.running h.idle hat.current hat.ne_idle i timeoutMs
  generalize rtosSemWait s.k i timeoutMs = r at hcases ⊢
  cases hcases with
  | taken _ =>
    refine h.quiet hat (by simp) (Quiet.setSem ?_) .user
    rfl
  | refused _ _ => exact h.quiet hat (by simp) (Quiet.refl s.k) .user
  | blocked _ _ hd =>
    exact (h.toBase.joins (o := .sem i) trivial (h.free hat (by simp)) (h.bound hat)
      hat.ne_idle rfl).dispatch hd

theorem step_signal (h : Inv s q) (hat : s.At t .user) (i : Nat) (kept : Bool) :
    Inv ⟨rtosSemSignal s.k i, s.pos⟩
      ((Label.signal t i (s.k.sems i).wait.waitHead kept).queue q) := by
  have hcases := rtosSemSignal_cases h.running h.idle (h.runs hat) h.waiting i
  rw [h.semHead i]
  generalize rtosSemSignal s.k i = r at hcases ⊢
  cases hcases with
  | woken hq hd =>
    rw [hq]
    dsimp only [Label.queue, List.head?_cons]
    rw [hq, List.tail_cons]
    exact (h.toBase.leaves (o := .sem i) trivial hq).dispatch hd
  | added hq _ =>
    rw [hq]
    refine h.quiet_user hat (Quiet.setSem ?_)
    rfl
  | dropped hq _ =>
    rw [hq]
    exact h

theorem step_lock (h : Inv s q) (hat : s.At t .user) (m timeoutMs : Nat) :
    Inv ⟨(rtosMutexLock s.k m timeoutMs).1,
        update s.pos t ((rtosMutexLock s.k m timeoutMs).2.pos (.mutexLock m))⟩
      ((Label.lock t m timeoutMs (rtosMutexLock s.k m timeoutMs).2).queue q) := by
  have hcases := rtosMutexLock_cases h.running h.idle hat.current hat.ne_idle m timeoutMs
  generalize rtosMutexLock s.k m timeoutMs = r at hcases ⊢
  cases hcases with
  | taken _ =>
    refine h.quiet hat (by simp) (Quiet.setMutex ?_) .user
    rfl
  | again _ _ =>
    refine h.quiet hat (by simp) (Quiet.setMutex ?_) .user
    rfl
  | refused _ _ _ => exact h.quiet hat (by simp) (Quiet.refl s.k) .user
  | blocked _ _ _ hd =>
    have hboost := Quiet.boost s.k t m
    have hbase := h.toBase.quiet hboost
    refine (hbase.joins (o := .mutex m) trivial ?_ (h.bound hat) hat.ne_idle rfl).dispatch hd
    obtain ⟨p, hp⟩ := hboost.tasks t
    rw [hp]
    exact h.free hat (by simp)

theorem step_unlock (h : Inv s q) (hat : s.At t .user) (m : Nat) :
    Inv ⟨rtosMutexUnlock s.k m, s.pos⟩
      ((Label.unlock t m
        (if s.k.Releases t m then (s.k.mutexes m).wait.waitHead else none)).queue q) := by
  have hcases := rtosMutexUnlock_cases h.running h.idle hat.current (h.runs hat) h.waiting m
  rw [h.mutexHead m]
  generalize rtosMutexUnlock s.k m = r at hcases ⊢
  cases hcases with
  | foreign hno =>
    rw [if_neg fun hrel => hno ⟨hrel.1, hrel.2.1⟩]
    exact h
  | inner _ _ hr =>
    rw [if_neg fun hrel => absurd hrel.2.2 (by omega)]
    refine h.quiet_user hat (Quiet.setMutex ?_)
    rfl
  | @handed hrel w rest hq hd =>
    rw [if_pos hrel, hq]
    dsimp only [Label.queue, List.head?_cons]
    rw [hq, List.tail_cons]
    have hbase := h.toBase.quiet (Quiet.handTo s.k t m w)
    exact (hbase.leaves (o := .mutex m) trivial hq).dispatch hd
  | freed hrel hq =>
    rw [if_pos hrel, hq]
    exact h.quiet_user hat (Quiet.setFree s.k t m)

theorem step_eventWait {e : Nat} {mask : BitVec 32} {clear : Bool} (h : Inv s q)
    (hat : s.At t p) (hp : ∀ e mask clear, p ≠ .eventMark e mask clear) :
    Inv ⟨(rtosEventWait s.k e mask clear).1,
      update s.pos t (eventPos e mask clear (rtosEventWait s.k e mask clear).2)⟩ q := by
  have htake : Inv ⟨(eventTake s.k e mask clear).1, update s.pos t .user⟩ q :=
    h.quiet hat hp (Quiet.eventTake s.k e mask clear) .user
  have hfree := h.free hat hp
  have hcur := hat.current
  unfold rtosEventWait
  split
  · rw [hcur]
    dsimp only [eventPos]
    have hother : ∀ u, u ≠ t → (s.k.setTask t { s.k.taskTable t with
        waitObject := some (.event e), state := .blocked }).taskTable u = s.k.taskTable u :=
      fun u hu => update_of_ne hu _ _
    have hself : (s.k.setTask t { s.k.taskTable t with
        waitObject := some (.event e), state := .blocked }).taskTable t =
          { s.k.taskTable t with waitObject := some (.event e), state := .blocked } :=
      update_self _ _ _
    refine ⟨h.toBase.congr rfl (h.idle.congr rfl rfl ?_) rfl (fun u => ?_) (fun o ho u => ?_)
      (fun u hu => ?_), t, hcur, h.bound hat, fun _ => ⟨e, mask, clear, update_self _ _ _⟩⟩
    · rw [hother _ (Ne.symm hat.ne_idle)]
    · by_cases hut : u = t
      · subst hut
        rw [hself]
      · rw [hother u hut]
    · by_cases hut : u = t
      · subst hut
        rw [hself]
        refine ⟨fun hw => ?_, fun hw => absurd hw.1 hfree⟩
        cases Option.some.inj hw.2
        cases ho
      · rw [hother u hut]
    · by_cases hut : u = t
      · subst hut
        rw [hself, update_self]
        exact ⟨h.bound hat, .event e, rfl, rfl⟩
      · rw [hother u hut] at hu ⊢
        rw [update_of_ne hut]
        exact h.place u hu
  · exact htake

theorem step_eventSet (h : Inv s q) (hat : s.At t .user) (e : Nat) (mask : BitVec 32) :
    Inv ⟨rtosEventSet s.k e mask, update s.pos t .resched⟩ q := by
  have htab := rtosEventSet_task s.k e mask
  have hfree := h.free hat (by simp)
  -- a task is as before, or it waited for the event and is ready now
  have hor : ∀ u, (rtosEventSet s.k e mask).taskTable u = s.k.taskTable u ∨
      (s.k.taskTable u).WaitsFor (.event e) ∧
        (rtosEventSet s.k e mask).taskTable u = (s.k.taskTable u).woken := by
    intro u
    rw [htab u]
    split
    · next hw => exact Or.inr ⟨hw.2, rfl⟩
    · exact Or.inl rfl
  have hself : (rtosEventSet s.k e mask).taskTable t = s.k.taskTable t :=
    (hor t).resolve_right fun hw => hfree hw.1.1
  refine ⟨h.toBase.congr rfl (h.idle.congr rfl rfl ?_) rfl (fun u => ?_) (fun o ho u => ?_)
    (fun u hu => ?_), t, hat.current, h.bound hat, fun hb => ?_⟩
  · rcases hor s.k.idleTask with heq | ⟨hw, _⟩
    · rw [heq]
    · exact absurd hw.1 h.idle.ne_blocked
  · rcases hor u with heq | ⟨_, heq⟩
    · rw [heq]
    · rw [heq]
      rfl
  · rcases hor u with heq | ⟨hw, heq⟩
    · rw [heq]
    · rw [heq]
      refine ⟨fun hw' => absurd hw'.1 (by simp [Task.woken]), fun hw' => ?_⟩
      cases hw.2.symm.trans hw'.2
      cases ho
  · rcases hor u with heq | ⟨_, heq⟩
    · rw [heq] at hu ⊢
      have hut : u ≠ t := fun h => hfree (h ▸ hu)
      rw [update_of_ne hut]
      exact h.place u hu
    · rw [heq] at hu
      cases hu
  · dsimp only at hb
    rw [hself] at hb
    exact absurd hb hfree

theorem step_resched (h : Inv s q) (hat : s.At t p) {p' : Pos} (hp : p'.object = p.object) :
    Inv ⟨rtosYield s.k, update s.pos t p'⟩ q := by
  have hbase : Base ⟨s.k, update s.pos t p'⟩ q := by
    refine ⟨h.running, h.idle, fun u hu => ?_, h.waiting⟩
    obtain ⟨hlt, o, ho, hpos⟩ := h.place u hu
    refine ⟨hlt, o, ho, ?_⟩
    dsimp only
    by_cases hut : u = t
    · subst hut
      rw [update_self, hp, ← hat.pos]
      exact hpos
    · rw [update_of_ne hut]
      exact hpos
  exact hbase.dispatch (dispatch_yield h.running h.idle)

theorem step_write (h : Inv s q) (hat : s.At t .user) {u : Nat} (hidle : u ≠ s.k.idleTask)
    (hout : ∀ o, o.Queued → ¬ (s.k.taskTable u).WaitsFor o) {task : Task}
    (hnext : task.nextWait = (s.k.taskTable u).nextWait) (hstate : task.state ≠ .blocked) :
    Inv ⟨s.k.setTask u task, update s.pos t .resched⟩ q := by
  have hfree := h.free hat (by simp)
  refine ⟨h.toBase.write hidle hout hnext hstate .resched hfree, t, hat.current, h.bound hat,
    fun hb => ?_⟩
  by_cases htu : t = u
  · subst htu
    dsimp only [Rtos.setTask] at hb
    rw [update_self] at hb
    exact absurd hb hstate
  · dsimp only [Rtos.setTask] at hb
    rw [update_of_ne htu] at hb
    exact absurd hb hfree

theorem step_delay (h : Inv s q) (hat : s.At t .user) (ticks : Nat) :
    Inv ⟨rtosDelayTicks s.k ticks, update s.pos t .resched⟩ q := by
  unfold rtosDelayTicks
  split
  · exact h.quiet hat (by simp) (Quiet.refl s.k) .resched
  · rw [hat.current]
    refine h.step_write hat hat.ne_idle (fun o _ hw => h.free hat (by simp) hw.1) ?_ ?_
    · rfl
    · simp

theorem step (h : Inv s q) (hs : Step s l s') : Inv s' (l.queue q) := by
  cases hs with
  | tick => exact h.toBase.dispatch (dispatch_schedule h.running h.idle 32)
  | yield hc hp => exact h.toBase.dispatch (dispatch_yield h.running h.idle)
  | wait hat i timeoutMs => exact h.step_wait hat i timeoutMs
  | waitReturn hat => exact h.quiet hat (by simp) (Quiet.refl s.k) .user
  | signal hat i => exact h.step_signal hat i _
  | lock hat m timeoutMs => exact h.step_lock hat m timeoutMs
  | lockReturn hat => exact h.quiet hat (by simp) (Quiet.refl s.k) .user
  | unlock hat m => exact h.step_unlock hat m
  | eventWait hat =>
    rcases hat with hat | hat
    · exact h.step_eventWait hat (by simp)
    · exact h.step_eventWait hat (by simp)
  | eventReschedule hat =>
    refine h.step_resched hat ?_
    rfl
  | eventSet hat e mask => exact h.step_eventSet hat e mask
  | eventClear hat e mask => exact h.quiet_user hat (Quiet.setEvent s.k e _)
  | delay hat ticks => exact h.step_delay hat ticks
  | kill hat hu =>
    refine h.step_write hat hu.ne_idle hu.waits ?_ ?_
    · rfl
    · simp
  | reschedule hat =>
    refine h.step_resched hat ?_
    rfl

end Inv

/-! ### Runs -/

def waiters (tr : List Label) : Obj → List Nat := tr.foldl (fun q l => l.queue q) fun _ => []

theorem waiters_snoc (tr : List Label) (l : Label) : waiters (tr ++ [l]) = l.queue (waiters tr) :=
  List.foldl_append

/-- The task that starts to wait for `o` with a step. -/
def Label.arrives (o : Obj) : Label → Option Nat
  | .wait t i _ .block => if o = .sem i then some t else none
  | .lock t m _ .block => if o = .mutex m then some t else none
  | _ => none

/-- The task that is woken from its wait for `o` with a step. -/
def Label.wakes (o : Obj) : Label → Option Nat
  | .signal _ i (some w) _ => if o = .sem i then some w else none
  | .unlock _ m (some w) => if o = .mutex m then some w else none
  | _ => none

section

variable {init : Sys → Prop} {ok : Sys → Label → Prop} {s s' : Sys} {tr : List Label} {l : Label}

theorem Inv.wakes_head {q : Obj → List Nat} (h : Inv s q) (hs : Step s l s') {o : Obj} {w : Nat}
    (hw : l.wakes o = some w) : (q o).head? = some w := by
  cases hs with
  | signal hat i =>
    rw [h.semHead i] at hw
    cases hq : (q (.sem i)).head? with
    | none =>
      rw [hq] at hw
      cases hw
    | some v =>
      rw [hq] at hw
      dsimp only [Label.wakes] at hw
      split at hw
      · next ho =>
        cases hw
        rw [ho]
        exact hq
      · cases hw
  | unlock hat m =>
    rw [h.mutexHead m] at hw
    generalize hx : (if s.k.Releases _ m then (q (.mutex m)).head? else none) = x at hw
    cases x with
    | none => cases hw
    | some v =>
      dsimp only [Label.wakes] at hw
      split at hw
      · next ho =>
        cases hw
        rw [ho]
        split at hx
        · exact hx
        · cases hx
      · cases hw
  | _ => cases hw

theorem Label.queue_apply (l : Label) (q : Obj → List Nat) (o : Obj) :
    l.queue q o =
      (if (l.wakes o).isSome then (q o).tail else q o) ++ (l.arrives o).toList := by
  have hupd : ∀ (o' : Obj) (v : List Nat), update q o' v o = if o = o' then v else q o := by
    intro o' v
    by_cases ho : o = o'
    · subst ho
      rw [update_self, if_pos rfl]
    · rw [update_of_ne ho, if_neg ho]
  cases l with
  | wait t i timeoutMs out =>
    cases out with
    | ret b => simp [queue, wakes, arrives]
    | block =>
      dsimp only [queue, wakes, arrives]
      rw [hupd]
      split
      · next ho => simp [ho]
      · simp
  | lock t m timeoutMs out =>
    cases out with
    | ret b => simp [queue, wakes, arrives]
    | block =>
      dsimp only [queue, wakes, arrives]
      rw [hupd]
      split
      · next ho => simp [ho]
      · simp
  | signal t i waiter kept =>
    cases waiter with
    | none => simp [queue, wakes, arrives]
    | some w =>
      dsimp only [queue, wakes, arrives]
      rw [hupd]
      split
      · next ho => simp [ho]
      · simp
  | unlock t m waiter =>
    cases waiter with
    | none => simp [queue, wakes, arrives]
    | some w =>
      dsimp only [queue, wakes, arrives]
      rw [hupd]
      split
      · next ho => simp [ho]
      · simp
  | _ => simp [queue, wakes, arrives]

theorem Sys.Init.inv {initial maxCount : Nat → Int} (h : s.Init initial maxCount) :
    Inv s fun _ => [] := by
  have hqueue : ∀ o, s.k.queue o = ⟨none, none⟩ := by
    intro o
    cases o with
    | sem i =>
      dsimp only [Rtos.queue]
      rw [h.sems i]
      rfl
    | mutex m =>
      dsimp only [Rtos.queue]
      rw [h.mutexes m]
      rfl
    | event e => rfl
  refine ⟨⟨h.running, h.idle, fun t ht => absurd ht (h.blocked t), ?_⟩, ?_⟩
  · refine ⟨fun o => ?_, fun o => List.nodup_nil, fun o _ t => ?_⟩
    · rw [hqueue o]
      exact LinkedQueue.empty _
    · exact ⟨fun hm => absurd hm (by simp), fun hw => absurd hw.1 (h.blocked t)⟩
  · obtain ⟨c, hc, hlt, hb⟩ := h.runs
    exact ⟨c, hc, hlt, fun h => absurd h hb⟩

theorem Reach.mono {init' : Sys → Prop} {ok' : Sys → Label → Prop} (h : Reach init ok s tr)
    (hi : ∀ s, init s → init' s) (hok : ∀ s l, ok s l → ok' s l) : Reach init' ok' s tr := by
  induction h with
  | init h0 => exact .init (hi _ h0)
  | step _ hl hs ih => exact ih.step (hok _ _ hl) hs

theorem Reach.inv {initial maxCount : Nat → Int} (h : Reach (Sys.Init initial maxCount) ok s tr) :
    Inv s (waiters tr) := by
  induction h with
  | init hi => exact hi.inv
  | step _ _ hs ih =>
    rw [waiters_snoc]
    exact ih.step hs

theorem Reach.fifo {initial maxCount : Nat → Int} (h : Reach (Sys.Init initial maxCount) ok s tr)
    (o : Obj) : tr.filterMap (Label.arrives o) = tr.filterMap (Label.wakes o) ++ waiters tr o := by
  induction h with
  | init _ => rfl
  | @step s s' tr l hr _ hs ih =>
    rw [waiters_snoc, Label.queue_apply, List.filterMap_append, List.filterMap_append, ih]
    have hone : ∀ f : Label → Option Nat, [l].filterMap f = (f l).toList := by
      intro f
      cases hf : f l with
      | none => simp [hf]
      | some x => simp [hf]
    rw [hone, hone]
    cases hw : l.wakes o with
    | none => simp
    | some w =>
      have hhead := hr.inv.wakes_head hs hw
      obtain ⟨rest, hrest⟩ := List.head?_eq_some_iff.mp hhead
      rw [hrest]
      simp

/-- The task whose blocked call on `o` returns with a step. -/
def Label.returns (o : Obj) : Label → Option Nat
  | .waitReturn t i => if o = .sem i then some t else none
  | .lockReturn t m => if o = .mutex m then some t else none
  | _ => none

/-- Whether the task is in a call on `o`. -/
def Pos.inside (p : Pos) (o : Obj) : Nat := if p.object = some o then 1 else 0

theorem Pos.count_object {p : Pos} {o' : Obj} (hp : p.object = some o') (o : Obj) (c t : Nat) :
    (if o = o' then some c else none : Option Nat).toList.count t =
      if t = c then p.inside o else 0 := by
  simp only [Pos.inside, hp, Option.some.injEq]
  by_cases ho : o = o'
  · subst ho
    by_cases htc : t = c
    · simp [htc]
    · simp [htc, Ne.symm htc]
  · have ho' : ¬o' = o := fun h => ho h.symm
    simp [ho, ho']

/-- A task enters a blocking call with the step that blocks it and leaves it with the
    step that returns. -/
theorem Step.inside_eq (hs : Step s l s') {o : Obj} (ho : o.Queued) (t : Nat) :
    (l.arrives o).toList.count t + (s.pos t).inside o =
      (l.returns o).toList.count t + (s'.pos t).inside o := by
  -- the task `c` on the CPU moves from `p` to `p'`
  have hmove : ∀ {c : Nat} {p p' : Pos}, s.At c p →
      (l.arrives o).toList.count t + (if t = c then p.inside o else 0) =
        (l.returns o).toList.count t + (if t = c then p'.inside o else 0) →
      (l.arrives o).toList.count t + (s.pos t).inside o =
        (l.returns o).toList.count t + (update s.pos c p' t).inside o := by
    intro c p p' hat heq
    by_cases htc : t = c
    · subst htc
      rw [if_pos rfl, if_pos rfl] at heq
      rw [update_self, hat.pos]
      exact heq
    · rw [if_neg htc, if_neg htc] at heq
      rw [update_of_ne htc]
      omega
  have huser : ∀ c, (if t = c then Pos.user.inside o else 0) = 0 := fun c => by
    split <;> rfl
  -- `c` enters the call at `p`, and leaves it
  have hblock : ∀ {c : Nat} {p : Pos} {o' : Obj}, p.object = some o' →
      (if o = o' then some c else none : Option Nat).toList.count t +
        (if t = c then Pos.user.inside o else 0) = 0 + if t = c then p.inside o else 0 := by
    intro c p o' hp
    rw [Pos.count_object hp, huser, Nat.add_comm]
  have hreturn : ∀ {c : Nat} {p : Pos} {o' : Obj}, p.object = some o' →
      0 + (if t = c then p.inside o else 0) =
        (if o = o' then some c else none : Option Nat).toList.count t +
          if t = c then Pos.user.inside o else 0 := fun hp => (hblock hp).symm
  cases hs with
  | tick => rfl
  | yield _ _ => rfl
  | @wait c hat i timeoutMs =>
    refine hmove hat ?_
    cases (rtosSemWait s.k i timeoutMs).2 with
    | ret b => rfl
    | block => exact hblock rfl
  | @waitReturn c i hat => exact hmove hat (hreturn rfl)
  | signal _ i => rfl
  | @lock c hat m timeoutMs =>
    refine hmove hat ?_
    cases (rtosMutexLock s.k m timeoutMs).2 with
    | ret b => rfl
    | block => exact hblock rfl
  | @lockReturn c m hat => exact hmove hat (hreturn rfl)
  | unlock _ m => rfl
  | @eventWait c e mask clear hat =>
    have hev : ∀ p : Pos, (p = .user ∨ p = .eventLoop e mask clear) → p.inside o = 0 := by
      rintro p (rfl | rfl)
      · rfl
      · cases o with
        | event e' => cases ho
        | _ => simp [Pos.inside, Pos.object]
    have hev' : (eventPos e mask clear (rtosEventWait s.k e mask clear).2).inside o = 0 := by
      cases (rtosEventWait s.k e mask clear).2 with
      | some _ => rfl
      | none =>
        cases o with
        | event e' => cases ho
        | _ => simp [eventPos, Pos.inside, Pos.object]
    rcases hat with hat | hat
    · refine hmove hat ?_
      rw [hev _ (Or.inl rfl), hev']
      rfl
    · refine hmove hat ?_
      rw [hev _ (Or.inr rfl), hev']
      rfl
  | eventReschedule hat =>
    refine hmove hat ?_
    rfl
  | eventSet hat _ _ =>
    refine hmove hat ?_
    rfl
  | eventClear _ _ _ => rfl
  | delay hat _ =>
    refine hmove hat ?_
    rfl
  | kill hat _ =>
    refine hmove hat ?_
    rfl
  | reschedule hat =>
    refine hmove hat ?_
    rfl

theorem Reach.returned {initial maxCount : Nat → Int}
    (h : Reach (Sys.Init initial maxCount) ok s tr) {o : Obj} (ho : o.Queued) (t : Nat) :
    (tr.filterMap (Label.arrives o)).count t =
      (tr.filterMap (Label.returns o)).count t + (s.pos t).inside o := by
  induction h with
  | init hi =>
    rw [hi.pos t]
    rfl
  | @step s s' tr l _ _ hs ih =>
    have hone : ∀ f : Label → Option Nat, [l].filterMap f = (f l).toList := by
      intro f
      cases hf : f l with
      | none => simp [hf]
      | some x => simp [hf]
    have heq := hs.inside_eq ho t
    rw [List.filterMap_append, List.filterMap_append, List.count_append, List.count_append, hone,
      hone]
    omega

theorem Reach.woken {initial maxCount : Nat → Int}
    (h : Reach (Sys.Init initial maxCount) ok s tr) {o : Obj} (ho : o.Queued) (t : Nat) :
    (tr.filterMap (Label.wakes o)).count t =
      (tr.filterMap (Label.returns o)).count t +
        if (s.pos t).object = some o ∧ t ∉ waiters tr o then 1 else 0 := by
  have hret := h.returned ho t
  have hfifo := congrArg (List.count t) (h.fifo o)
  rw [List.count_append] at hfifo
  have hnd := h.inv.waiting.nodup o
  unfold Pos.inside at hret
  by_cases hm : t ∈ waiters tr o
  · have hb := (h.inv.waiting.mem o ho t).mp hm
    obtain ⟨_, o', ho', hpos⟩ := h.inv.place t hb.1
    have hpos : (s.pos t).object = some o := by
      rw [hpos, ← ho']
      exact hb.2
    have hcount := hnd.count (a := t)
    rw [if_pos hm] at hcount
    rw [if_pos hpos] at hret
    rw [if_neg fun h => h.2 hm]
    omega
  · have hcount := List.count_eq_zero_of_not_mem hm
    by_cases hpos : (s.pos t).object = some o
    · rw [if_pos hpos] at hret
      rw [if_pos ⟨hpos, hm⟩]
      omega
    · rw [if_neg hpos] at hret
      rw [if_neg fun h => hpos h.1]
      omega

end

/-! ### A system to start from -/

/-- A system of `maxTasks` tasks that has just been started: task 0 is the idle task and
    task 1 is on the CPU. -/
def freshSys (maxTasks : Nat) (priority : Nat → Nat) (initial maxCount : Nat → Int) : Sys where
  k :=
    { maxTasks := maxTasks
      taskTable := fun t =>
        { state := if t < maxTasks then (if t = 1 then .running else .ready) else .unused
          priority := priority t
          basePriority := priority t
          sleepTicks := 0
          runtimeTicks := 0
          waitObject := none
          nextWait := none }
      currentTask := some 1
      idleTask := 0
      schedulerRunning := true
      lastScheduledIdx := 0
      sems := fun i => rtosSemInit (initial i) (maxCount i)
      mutexes := fun _ => rtosMutexInit
      events := fun _ => rtosEventInit }
  pos := fun _ => .user

theorem freshSys_init {maxTasks : Nat} (h : 1 < maxTasks) (priority : Nat → Nat)
    (initial maxCount : Nat → Int) :
    (freshSys maxTasks priority initial maxCount).Init initial maxCount where
  running := rfl
  idle := by
    have hpos : 0 < maxTasks := by omega
    refine ⟨hpos, ?_, ?_⟩
    · simp [freshSys, hpos]
    · simp [freshSys, hpos]
  runs := by
    refine ⟨1, rfl, h, ?_⟩
    simp [freshSys, h]
  blocked := by
    intro t
    dsimp only [freshSys]
    split
    · split <;> simp
    · simp
  pos := fun _ => rfl
  sems := fun _ => rfl
  mutexes := fun _ => rfl
  events := fun _ => rfl

end Gemios
