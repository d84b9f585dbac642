import Gemios.RtosPass
import Gemios.RtosMutex

/-!
# Priority inheritance

`rtos_mutex_lock` raises the owner's priority to that of the task that starts to wait.
The rise lasts until the scheduler chooses the owner: then its priority is its base
priority again.  Inheritance holds in a run as long as the scheduler is never about to
choose an owner whose base priority is below that of a waiter, a mutex is handed to a
task of at least the priority of those that go on waiting, and a raised owner does not
itself wait behind a lower one.
-/

namespace Gemios

open Function

/-! ### Which task the scheduler chooses -/

/-- One of the tasks with the highest priority among those that can run. -/
structure Rtos.Chosen (k : Rtos) (t : Nat) : Prop where
  bound : t < k.maxTasks
  runnable : (k.taskTable t).Runnable
  highest : ∀ u, u < k.maxTasks → (k.taskTable u).Runnable →
    (k.taskTable u).priority ≤ (k.taskTable t).priority

/-- What a pass of the scheduler does to the priorities: they rise or stay, except that the
    chosen task gets its base priority. -/
structure Pass (k k' : Rtos) : Prop where
  priority : ∀ t, (k.taskTable t).priority ≤ (k'.taskTable t).priority ∨
    k.Chosen t ∧ (k'.taskTable t).priority = (k.taskTable t).basePriority
  current : ∀ c, k'.currentTask = some c → c ≠ k.idleTask →
    (k'.taskTable c).priority = (k.taskTable c).basePriority

theorem findNextReadyTask_priority (k : Rtos) :
    (∀ t, (k.taskTable t).priority ≤ ((findNextReadyTask k).1.taskTable t).priority ∨
      k.Chosen t ∧
        ((findNextReadyTask k).1.taskTable t).priority = (k.taskTable t).basePriority) ∧
    ((findNextReadyTask k).2 ≠ k.idleTask →
      ((findNextReadyTask k).1.taskTable (findNextReadyTask k).2).priority =
        (k.taskTable (findNextReadyTask k).2).basePriority) := by
  by_cases hex : ∃ u, u < k.maxTasks ∧ (k.taskTable u).Runnable
  · obtain ⟨u, hu, hrun⟩ := hex
    have h := findNextReadyTask_selected hu hrun
    refine ⟨fun t => ?_, fun _ => by rw [h.self]⟩
    by_cases ht : t = (findNextReadyTask k).2
    · refine Or.inr ⟨?_, ?_⟩
      · rw [ht]
        exact ⟨h.bound, h.runnable, h.maximal⟩
      · rw [ht, h.self]
    · rw [h.others t ht]
      refine Or.inl ?_
      split
      · exact Task.le_aged_priority _
      · exact Nat.le_refl _
  · rw [findNextReadyTask_none fun u hu hrun => hex ⟨u, hu, hrun⟩]
    exact ⟨fun t => Or.inl (Nat.le_refl _), fun h => absurd rfl h⟩

theorem chargeTick_task (k : Rtos) (t : Nat) :
    ∃ r, (chargeTick k).taskTable t = { k.taskTable t with runtimeTicks := r } := by
  unfold chargeTick
  split
  · next c _ =>
    dsimp only [Rtos.setTask]
    by_cases htc : t = c
    · subst htc
      exact ⟨_, update_self _ _ _⟩
    · exact ⟨(k.taskTable t).runtimeTicks, update_of_ne htc _ _⟩
  · exact ⟨(k.taskTable t).runtimeTicks, rfl⟩

theorem switchTask_priority (k : Rtos) (prev : Option Nat) (next t : Nat) :
    ((switchTask k prev next).taskTable t).priority = (k.taskTable t).priority := by
  have hset : ∀ (k : Rtos) (u : Nat) (st : TaskState),
      ((k.setTask u { k.taskTable u with state := st }).taskTable t).priority =
        (k.taskTable t).priority := by
    intro k u st
    dsimp only [Rtos.setTask]
    by_cases htu : t = u
    · subst htu
      rw [update_self]
    · rw [update_of_ne htu]
  unfold switchTask
  split
  · rfl
  · dsimp only
    refine (hset _ next .running).trans ?_
    cases prev with
    | none => rfl
    | some p =>
      dsimp only
      split
      · exact hset k p .ready
      · rfl

theorem pass_of_find (k : Rtos) :
    Pass k (switchTask (findNextReadyTask (chargeTick k)).1 (chargeTick k).currentTask
      (findNextReadyTask (chargeTick k)).2) := by
  obtain ⟨hprio, hbase⟩ := findNextReadyTask_priority (chargeTick k)
  have hsame : (chargeTick k).maxTasks = k.maxTasks ∧ (chargeTick k).idleTask = k.idleTask :=
    ⟨(chargeTick_frame k).maxTasks, (chargeTick_frame k).idleTask⟩
  refine ⟨fun t => ?_, fun c hc hne => ?_⟩
  · obtain ⟨r, hr⟩ := chargeTick_task k t
    rw [switchTask_priority]
    have hp := hprio t
    rw [hr] at hp
    refine hp.imp_right fun ⟨hch, heq⟩ => ⟨⟨?_, ?_, fun u hu hur => ?_⟩, heq⟩
    · exact hsame.1 ▸ hch.bound
    · have hrun := hch.runnable
      rw [hr] at hrun
      exact hrun
    · obtain ⟨r', hr'⟩ := chargeTick_task k u
      have hle := hch.highest u (hsame.1.symm ▸ hu) (by rw [hr']; exact hur)
      rw [hr, hr'] at hle
      exact hle
  · rw [switchTask_current _ _ _ (findNextReadyTask_current _)] at hc
    cases hc
    obtain ⟨r, hr⟩ := chargeTick_task k (findNextReadyTask (chargeTick k)).2
    have heq := hbase (by rw [hsame.2]; exact hne)
    rw [hr] at heq
    rw [switchTask_priority]
    exact heq

theorem pass_yield {k : Rtos} (hrun : k.schedulerRunning = true) : Pass k (rtosYield k) := by
  unfold rtosYield rtosScheduleFromIsr
  rw [if_pos hrun, if_pos hrun]
  exact pass_of_find k

theorem pass_tick {k : Rtos} (hrun : k.schedulerRunning = true) :
    Pass (tickTasks k) (rtosScheduleFromIsr k 32) := by
  unfold rtosScheduleFromIsr
  rw [if_pos hrun]
  exact pass_of_find (tickTasks k)

/-! ### Inheritance -/

/-- Whoever waits for a mutex has at most the priority of its owner. -/
def Rtos.Inherits (k : Rtos) : Prop :=
  ∀ w m o, (k.taskTable w).WaitsFor (.mutex m) → (k.mutexes m).owner = some o →
    (k.taskTable w).priority ≤ (k.taskTable o).priority

/-- No task that the scheduler may choose now owns a mutex with a waiter above its base
    priority. -/
def Rtos.PassOk (k : Rtos) : Prop :=
  ∀ t, k.Chosen t → ∀ w m, (k.taskTable w).WaitsFor (.mutex m) → (k.mutexes m).owner = some t →
    (k.taskTable w).priority ≤ (k.taskTable t).basePriority

/-- The task on the CPU has its base priority, except for the idle task. -/
def Rtos.AtBase (k : Rtos) : Prop :=
  ∀ c, k.currentTask = some c → c ≠ k.idleTask →
    (k.taskTable c).priority = (k.taskTable c).basePriority

section

variable {k k' : Rtos}

theorem Rtos.Inherits.mono (h : k.Inherits)
    (hwait : ∀ w m, (k'.taskTable w).WaitsFor (.mutex m) → (k.taskTable w).WaitsFor (.mutex m))
    (howner : ∀ m, (k'.mutexes m).owner = (k.mutexes m).owner)
    (hprio : ∀ t, (k'.taskTable t).priority = (k.taskTable t).priority) : k'.Inherits := by
  intro w m o hw ho
  rw [hprio, hprio]
  rw [howner] at ho
  exact h w m o (hwait w m hw) ho

theorem Rtos.Inherits.pass (h : k.Inherits) (hok : k.PassOk) (hf : Frame k k') (hp : Pass k k') :
    k'.Inherits := by
  intro w m o hw ho
  have hw' := (hf.kept w).waitsFor.mp hw
  rw [hf.mutexes] at ho
  rw [(hf.kept w).priority hw'.1]
  rcases hp.priority o with hle | ⟨hch, heq⟩
  · exact Nat.le_trans (h w m o hw' ho) hle
  · rw [heq]
    exact hok o hch w m hw' ho

theorem Pass.atBase (hf : Frame k k') (hp : Pass k k') : k'.AtBase := by
  intro c hc hne
  rw [(hf.kept c).basePriority]
  exact hp.current c hc fun heq => hne (heq.trans hf.idleTask.symm)

/-- A pass may follow when the task `w` is woken: it does if `w` is above the task on the
    CPU. -/
def Rtos.Yields (k : Rtos) (w : Nat) : Prop :=
  ∀ c, k.currentTask = some c → (k.taskTable c).priority < (k.taskTable w).priority

theorem unblock_cases (o : Obj) {w : Nat} (hrun : k.schedulerRunning = true) :
    (k.Yields w ∧ Pass (k.leaves o w) (rtosTaskUnblock (k.unqueued o w) w)) ∨
      rtosTaskUnblock (k.unqueued o w) w = k.leaves o w := by
  have hcur : (k.leaves o w).currentTask = k.currentTask := k.currentTask_setQueue o _
  have hprio : ∀ t, ((k.leaves o w).taskTable t).priority = (k.taskTable t).priority := by
    intro t
    by_cases htw : t = w
    · subst htw
      rw [Rtos.leaves_self]
    · rw [Rtos.leaves_task k o w htw]
  have hrun' : (k.leaves o w).schedulerRunning = true := (k.running_setQueue o _).trans hrun
  have hready : (k.unqueued o w).setTask w
      { (k.unqueued o w).taskTable w with state := .ready, waitObject := none } = k.leaves o w := rfl
  unfold rtosTaskUnblock
  dsimp only
  rw [hready]
  cases hc : (k.leaves o w).currentTask with
  | none => exact Or.inr rfl
  | some c =>
    dsimp only
    split
    · next hgt =>
      rw [hprio, hprio] at hgt
      refine Or.inl ⟨fun c' hc' => ?_, pass_yield hrun'⟩
      cases (hcur.symm.trans hc).symm.trans hc'
      exact hgt
    · exact Or.inr rfl

theorem Rtos.Inherits.joins_sem (h : k.Inherits) (i c : Nat) : (k.joins (.sem i) c).Inherits := by
  refine h.mono (fun w m hw => ?_)
    (fun m => (k.owner_setQueue (.sem i) (addWaiter k.taskTable (k.queue (.sem i)) c).2 m).2.2)
    fun t => ?_
  · by_cases hwc : w = c
    · subst hwc
      obtain ⟨n, hn⟩ := k.joins_self (.sem i) w
      rw [hn] at hw
      cases hw.2
    · obtain ⟨n, hn⟩ := k.joins_task (.sem i) c hwc
      rw [hn] at hw
      exact hw
  · by_cases htc : t = c
    · subst htc
      obtain ⟨n, hn⟩ := k.joins_self (.sem i) t
      rw [hn]
    · obtain ⟨n, hn⟩ := k.joins_task (.sem i) c htc
      rw [hn]

theorem Rtos.Inherits.joins_mutex (h : k.Inherits) {m c : Nat}
    (hown : ∀ o, (k.mutexes m).owner = some o →
      (k.taskTable c).priority ≤ (k.taskTable o).priority) :
    (k.joins (.mutex m) c).Inherits := by
  have hprio : ∀ t, ((k.joins (.mutex m) c).taskTable t).priority = (k.taskTable t).priority := by
    intro t
    by_cases htc : t = c
    · subst htc
      obtain ⟨n, hn⟩ := k.joins_self (.mutex m) t
      rw [hn]
    · obtain ⟨n, hn⟩ := k.joins_task (.mutex m) c htc
      rw [hn]
  intro w m' o hw ho
  have hown' : (k.mutexes m').owner = some o :=
    (k.owner_setQueue (.mutex m) _ m').2.2.symm.trans ho
  rw [hprio, hprio]
  by_cases hwc : w = c
  · subst hwc
    obtain ⟨n, hn⟩ := k.joins_self (.mutex m) w
    rw [hn] at hw
    cases Option.some.inj hw.2
    exact hown o hown'
  · obtain ⟨n, hn⟩ := k.joins_task (.mutex m) c hwc
    rw [hn] at hw
    exact h w m' o hw hown'

theorem Rtos.Inherits.leaves (h : k.Inherits) (o : Obj) (t : Nat) : (k.leaves o t).Inherits := by
  refine h.mono (fun w m hw => ?_) (fun m => (k.owner_setQueue o _ m).2.2) fun u => ?_
  · by_cases hwt : w = t
    · subst hwt
      rw [Rtos.leaves_self] at hw
      cases hw.1
    · rw [Rtos.leaves_task k o t hwt] at hw
      exact hw
  · by_cases hut : u = t
    · subst hut
      rw [Rtos.leaves_self]
    · rw [Rtos.leaves_task k o t hut]

theorem Rtos.AtBase.leaves (h : k.AtBase) (o : Obj) (w : Nat) : (k.leaves o w).AtBase := by
  have hcur : (k.leaves o w).currentTask = k.currentTask := k.currentTask_setQueue o _
  have hidle : (k.leaves o w).idleTask = k.idleTask := k.idleTask_setQueue o _
  intro c hc hne
  rw [hcur] at hc
  rw [hidle] at hne
  by_cases hcw : c = w
  · subst hcw
    rw [Rtos.leaves_self]
    exact h c hc hne
  · rw [Rtos.leaves_task k o w hcw]
    exact h c hc hne

/-- The owner of `m`, if the lock of `c` raises it, waits behind no task below `c`. -/
def Rtos.BoostOk (k : Rtos) (c m : Nat) : Prop :=
  ∀ o, (k.mutexes m).owner = some o → (k.taskTable o).priority < (k.taskTable c).priority →
    ∀ m' o', (k.taskTable o).WaitsFor (.mutex m') → (k.mutexes m').owner = some o' →
      (k.taskTable c).priority ≤ (k.taskTable o').priority

theorem Rtos.Inherits.boost (h : k.Inherits) {c m : Nat} (hok : k.BoostOk c m) :
    (k.boost c m).Inherits ∧ ∀ o, (k.mutexes m).owner = some o →
      ((k.boost c m).taskTable c).priority ≤ ((k.boost c m).taskTable o).priority := by
  have htab : (k.boost c m).taskTable = boostOwner k.taskTable (some c) (k.mutexes m).owner := rfl
  cases hown : (k.mutexes m).owner with
  | none =>
    rw [hown] at htab
    refine ⟨h.mono (fun w m' hw => ?_) (fun _ => rfl) fun t => ?_, fun o ho => by cases ho⟩
    · rw [htab] at hw
      exact hw
    · rw [htab]
      rfl
  | some o =>
    rw [hown] at htab
    by_cases hlt : (k.taskTable o).priority < (k.taskTable c).priority
    · have hboost : (k.boost c m).taskTable = update k.taskTable o
          { k.taskTable o with priority := (k.taskTable c).priority } := by
        rw [htab]
        exact if_pos hlt
      have hco : c ≠ o := fun heq => absurd hlt (by rw [heq]; exact Nat.lt_irrefl _)
      have hge : ∀ t, (k.taskTable t).priority ≤ ((k.boost c m).taskTable t).priority := by
        intro t
        rw [hboost]
        by_cases hto : t = o
        · subst hto
          rw [update_self]
          exact Nat.le_of_lt hlt
        · exact Nat.le_of_eq (by rw [update_of_ne hto])
      refine ⟨fun w m' o' hw ho' => ?_, fun o'' ho'' => ?_⟩
      · by_cases hwo : w = o
        · -- the raised owner itself waits
          subst hwo
          rw [hboost, update_self] at hw
          have hle := hok w hown hlt m' o' hw ho'
          have hpw : ((k.boost c m).taskTable w).priority = (k.taskTable c).priority := by
            rw [hboost, update_self]
          rw [hpw]
          exact Nat.le_trans hle (hge o')
        · rw [hboost, update_of_ne hwo] at hw
          have hpw : ((k.boost c m).taskTable w).priority = (k.taskTable w).priority := by
            rw [hboost, update_of_ne hwo]
          rw [hpw]
          exact Nat.le_trans (h w m' o' hw ho') (hge o')
      · cases ho''
        exact Nat.le_of_eq (by rw [hboost, update_self, update_of_ne hco])
    · have hsame : (k.boost c m).taskTable = k.taskTable := by
        rw [htab]
        exact if_neg hlt
      refine ⟨h.mono (fun w m' hw => ?_) (fun _ => rfl) fun t => by rw [hsame], fun o'' ho'' => ?_⟩
      · rw [hsame] at hw
        exact hw
      · cases ho''
        rw [hsame]
        omega

/-- The tasks that go on waiting for `m` are not above the task `w` it is handed to. -/
def Rtos.HandOk (k : Rtos) (m w : Nat) : Prop :=
  ∀ u, u ≠ w → (k.taskTable u).WaitsFor (.mutex m) →
    (k.taskTable u).priority ≤ (k.taskTable w).priority

theorem restoreOwner_eq {c : Nat} (hbase : (k.taskTable c).priority = (k.taskTable c).basePriority) :
    restoreOwner k.taskTable (some c) = k.taskTable := by
  have htask : { k.taskTable c with priority := (k.taskTable c).basePriority } = k.taskTable c := by
    rw [← hbase]
  unfold restoreOwner
  dsimp only
  rw [htask]
  exact update_eq_self c k.taskTable

theorem Rtos.Inherits.hand (h : k.Inherits) {c m w : Nat}
    (hbase : (k.taskTable c).priority = (k.taskTable c).basePriority) (hok : k.HandOk m w) :
    ((k.handTo c m w).leaves (.mutex m) w).Inherits := by
  have htab : (k.handTo c m w).taskTable = k.taskTable := restoreOwner_eq hbase
  have hprio : ∀ t, (((k.handTo c m w).leaves (.mutex m) w).taskTable t).priority =
      (k.taskTable t).priority := by
    intro t
    by_cases htw : t = w
    · subst htw
      rw [Rtos.leaves_self, htab]
    · rw [Rtos.leaves_task _ _ _ htw, htab]
  intro u m' o hu ho
  rw [hprio, hprio]
  have huw : u ≠ w := by
    rintro rfl
    rw [Rtos.leaves_self] at hu
    cases hu.1
  rw [Rtos.leaves_task _ _ _ huw, htab] at hu
  have ho' : ((k.handTo c m w).mutexes m').owner = some o :=
    ((k.handTo c m w).owner_setQueue (.mutex m) _ m').2.2.symm.trans ho
  by_cases hmm : m' = m
  · subst hmm
    have hnew : ((k.handTo c m' w).mutexes m').owner = some w := by
      dsimp only [Rtos.handTo, Rtos.setMutex]
      rw [update_self]
    cases hnew.symm.trans ho'
    exact hok u huw hu
  · have hsame : ((k.handTo c m w).mutexes m').owner = (k.mutexes m').owner := by
      dsimp only [Rtos.handTo, Rtos.setMutex]
      rw [update_of_ne hmm]
    exact h u m' o hu (hsame.symm.trans ho')

theorem Rtos.Inherits.setFree (h : k.Inherits) {c m : Nat}
    (hbase : (k.taskTable c).priority = (k.taskTable c).basePriority) :
    (k.setFree c m).Inherits := by
  have htab : (k.setFree c m).taskTable = k.taskTable := restoreOwner_eq hbase
  intro u m' o hu ho
  rw [htab] at hu ⊢
  by_cases hmm : m' = m
  · subst hmm
    dsimp only [Rtos.setFree, Rtos.setMutex] at ho
    rw [update_self] at ho
    cases ho
  · dsimp only [Rtos.setFree, Rtos.setMutex] at ho
    rw [update_of_ne hmm] at ho
    exact h u m' o hu ho

end

/-! ### Steps -/

/-- What a step has to meet for inheritance to last. -/
def inheritOk (s : Sys) : Label → Prop
  | .tick => (tickTasks s.k).PassOk
  | .yield _ => s.k.PassOk
  | .resched _ => s.k.PassOk
  | .wait t i _ .block => (s.k.joins (.sem i) t).PassOk
  | .signal _ i (some w) _ => s.k.Yields w → (s.k.leaves (.sem i) w).PassOk
  | .lock t m _ .block => s.k.BoostOk t m ∧ ((s.k.boost t m).joins (.mutex m) t).PassOk
  | .unlock t m (some w) =>
    s.k.HandOk m w ∧ (s.k.Yields w → ((s.k.handTo t m w).leaves (.mutex m) w).PassOk)
  | _ => True

structure PriorityInv (k : Rtos) : Prop where
  inherits : k.Inherits
  atBase : k.AtBase

section

variable {k k' k₁ : Rtos} {s s' : Sys} {q : Obj → List Nat} {l : Label}

theorem PriorityInv.pass (h : k.Inherits) (hok : k.PassOk) (hf : Frame k k') (hp : Pass k k') :
    PriorityInv k' :=
  ⟨h.pass hok hf hp, hp.atBase hf⟩

theorem PriorityInv.mono (h : PriorityInv k)
    (hwait : ∀ w m, (k'.taskTable w).WaitsFor (.mutex m) → (k.taskTable w).WaitsFor (.mutex m))
    (howner : ∀ m, (k'.mutexes m).owner = (k.mutexes m).owner)
    (hprio : ∀ t, (k'.taskTable t).priority = (k.taskTable t).priority ∧
      (k'.taskTable t).basePriority = (k.taskTable t).basePriority)
    (hcur : k'.currentTask = k.currentTask) (hidle : k'.idleTask = k.idleTask) : PriorityInv k' := by
  refine ⟨h.inherits.mono hwait howner fun t => (hprio t).1, fun c hc hne => ?_⟩
  rw [(hprio c).1, (hprio c).2]
  rw [hcur] at hc
  rw [hidle] at hne
  exact h.atBase c hc hne

theorem tickTurn_priority (maxTasks : Nat) (tab : Nat → Task) (i t : Nat) :
    (tickTurn maxTasks tab i t).priority = (tab t).priority := by
  unfold tickTurn
  cases rtosGetTaskByIndex maxTasks tab i with
  | none => rfl
  | some u =>
    dsimp only
    split
    · split
      · by_cases htu : t = u
        · subst htu
          rw [update_self]
        · rw [update_of_ne htu]
      · rfl
    · rfl

theorem tickTasks_priority (k : Rtos) (t : Nat) :
    ((tickTasks k).taskTable t).priority = (k.taskTable t).priority := by
  have hfold : ∀ (is : List Nat) (tab : Nat → Task),
      (is.foldl (tickTurn k.maxTasks) tab t).priority = (tab t).priority := by
    intro is
    induction is with
    | nil => exact fun _ => rfl
    | cons i is ih =>
      intro tab
      rw [List.foldl_cons, ih, tickTurn_priority]
  exact hfold _ k.taskTable

theorem PriorityInv.leaves {o : Obj} {w : Nat}
    (hin : (k₁.leaves o w).Inherits) (hb : (k₁.leaves o w).AtBase)
    (hrun : k₁.schedulerRunning = true)
    (hd : Dispatch (k₁.leaves o w) (rtosTaskUnblock (k₁.unqueued o w) w))
    (hok : k₁.Yields w → (k₁.leaves o w).PassOk) :
    PriorityInv (rtosTaskUnblock (k₁.unqueued o w) w) := by
  rcases unblock_cases o hrun with ⟨hy, hp⟩ | heq
  · exact PriorityInv.pass hin (hok hy) hd.toFrame hp
  · rw [heq]
    exact ⟨hin, hb⟩

theorem frame_tick (hrun : k.schedulerRunning = true) (hidle : k.IdleOk) :
    Frame (tickTasks k) (rtosScheduleFromIsr k 32) := by
  have hc := chargeTick_frame (tickTasks k)
  have hidle' := hidle.of_frame ((tickTasks_frame k).trans hc)
  unfold rtosScheduleFromIsr
  rw [if_pos hrun]
  exact hc.trans (dispatch_of_find hidle').toFrame

theorem PriorityInv.yield (h : PriorityInv k) (hrun : k.schedulerRunning = true)
    (hidle : k.IdleOk) (hok : k.PassOk) : PriorityInv (rtosYield k) :=
  PriorityInv.pass h.inherits hok (dispatch_yield hrun hidle).toFrame (pass_yield hrun)

theorem PriorityInv.write (h : PriorityInv k) {t : Nat} {task : Task}
    (hp : task.priority = (k.taskTable t).priority)
    (hb : task.basePriority = (k.taskTable t).basePriority)
    (hw : ∀ m, ¬ task.WaitsFor (.mutex m)) : PriorityInv (k.setTask t task) := by
  refine h.mono (fun w m hwait => ?_) (fun _ => rfl) (fun u => ?_) rfl rfl
  · dsimp only [Rtos.setTask] at hwait
    by_cases hwt : w = t
    · subst hwt
      rw [update_self] at hwait
      exact absurd hwait (hw m)
    · rw [update_of_ne hwt] at hwait
      exact hwait
  · dsimp only [Rtos.setTask]
    by_cases hut : u = t
    · subst hut
      rw [update_self]
      exact ⟨hp, hb⟩
    · rw [update_of_ne hut]
      exact ⟨rfl, rfl⟩

theorem PriorityInv.objects (h : PriorityInv k) (htab : k'.taskTable = k.taskTable)
    (hm : ∀ m, (k'.mutexes m).owner = (k.mutexes m).owner) (hc : k'.currentTask = k.currentTask)
    (hi : k'.idleTask = k.idleTask) : PriorityInv k' := by
  refine h.mono (fun w m hw => ?_) hm (fun t => ?_) hc hi
  · rw [htab] at hw
    exact hw
  · rw [htab]
    exact ⟨rfl, rfl⟩

theorem PriorityInv.setMutex_owner (h : PriorityInv k) {m : Nat} {mutex : Mutex}
    (hown : mutex.owner = (k.mutexes m).owner) : PriorityInv (k.setMutex m mutex) := by
  refine h.objects rfl (fun m' => ?_) rfl rfl
  dsimp only [Rtos.setMutex]
  by_cases hmm : m' = m
  · subst hmm
    rw [update_self]
    exact hown
  · rw [update_of_ne hmm]

theorem PriorityInv.step_lock (h : PriorityInv s.k) (hi : Inv s q) {t m timeoutMs : Nat}
    (hfree : (s.k.mutexes m).locked = false → q (.mutex m) = []) {r : Rtos × Outcome}
    (hcases : LockCases s.k t m timeoutMs r) (hok : inheritOk s (.lock t m timeoutMs r.2)) :
    PriorityInv r.1 := by
  cases hcases with
  | taken hl =>
    -- the new owner of a free mutex has no waiters yet
    refine ⟨fun w m' o hw ho => ?_, h.atBase⟩
    by_cases hmm : m' = m
    · subst hmm
      have hmem := (hi.waiting.mem (.mutex m') trivial w).mpr hw
      rw [hfree hl] at hmem
      cases hmem
    · dsimp only [Rtos.setMutex] at ho
      rw [update_of_ne hmm] at ho
      exact h.inherits w m' o hw ho
  | again _ _ =>
    refine h.setMutex_owner ?_
    rfl
  | refused _ _ _ => exact h
  | blocked _ _ _ hd =>
    obtain ⟨hboost, hown⟩ := h.inherits.boost hok.1
    refine PriorityInv.pass (hboost.joins_mutex hown) hok.2 hd.toFrame ?_
    exact pass_yield hi.running

theorem PriorityInv.step_unlock (h : PriorityInv s.k) (hi : Inv s q) {t m : Nat}
    (hat : s.At t .user) (hcases : UnlockCases s.k t m (q (.mutex m)) k')
    (hok : inheritOk s
      (.unlock t m (if s.k.Releases t m then (s.k.mutexes m).wait.waitHead else none))) :
    PriorityInv k' := by
  have hbase := h.atBase t hat.current hat.ne_idle
  cases hcases with
  | foreign _ => exact h
  | inner _ _ _ =>
    refine h.setMutex_owner ?_
    rfl
  | @handed hrel w rest hq hd =>
    rw [if_pos hrel, hi.mutexHead m, hq] at hok
    have htab : (s.k.handTo t m w).taskTable = s.k.taskTable := restoreOwner_eq hbase
    have hbase' : (s.k.handTo t m w).AtBase := by
      intro c hc hne
      rw [htab]
      exact h.atBase c hc hne
    refine PriorityInv.leaves (h.inherits.hand hbase hok.1) (hbase'.leaves (.mutex m) w) hi.running
      hd fun hy => hok.2 fun c hc => ?_
    have hlt := hy c hc
    rw [htab] at hlt
    exact hlt
  | freed _ _ =>
    have htab : (s.k.setFree t m).taskTable = s.k.taskTable := restoreOwner_eq hbase
    refine ⟨h.inherits.setFree hbase, fun c hc hne => ?_⟩
    rw [htab]
    exact h.atBase c hc hne

theorem PriorityInv.step_eventWait (h : PriorityInv k) (e : Nat) (mask : BitVec 32)
    (clear : Bool) : PriorityInv (rtosEventWait k e mask clear).1 := by
  have htake : PriorityInv (eventTake k e mask clear).1 := by
    unfold eventTake
    dsimp only
    split
    · exact h.objects rfl (fun _ => rfl) rfl rfl
    · exact h
  unfold rtosEventWait
  split
  · split
    · refine h.write ?_ ?_ ?_
      · rfl
      · rfl
      · exact fun m hw => by cases hw.2
    · exact htake
  · exact htake

theorem PriorityInv.step (h : PriorityInv s.k) (hi : Inv s q)
    (hfree : ∀ m, (s.k.mutexes m).locked = false → q (.mutex m) = []) (hs : Step s l s')
    (hok : inheritOk s l) : PriorityInv s'.k := by
  cases hs with
  | tick =>
    have htick : (tickTasks s.k).Inherits := by
      refine h.inherits.mono (fun w m hw => ?_) (fun _ => rfl) (tickTasks_priority s.k)
      exact ((tickTasks_frame s.k).kept w).waitsFor.mp hw
    exact PriorityInv.pass htick hok (frame_tick hi.running hi.idle) (pass_tick hi.running)
  | yield _ _ => exact h.yield hi.running hi.idle hok
  | wait hat i timeoutMs =>
    have hcases := rtosSemWait_cases hi.running hi.idle hat.current hat.ne_idle i timeoutMs
    generalize rtosSemWait s.k i timeoutMs = r at hcases hok ⊢
    cases hcases with
    | taken _ => exact h.objects rfl (fun _ => rfl) rfl rfl
    | refused _ _ => exact h
    | blocked _ _ hd =>
      refine PriorityInv.pass (h.inherits.joins_sem i _) hok hd.toFrame ?_
      exact pass_yield hi.running
  | waitReturn _ => exact h
  | signal hat i =>
    have hcases := rtosSemSignal_cases hi.running hi.idle (hi.runs hat) hi.waiting i
    rw [hi.semHead i] at hok
    generalize rtosSemSignal s.k i = r at hcases ⊢
    cases hcases with
    | @woken w rest hq hd =>
      rw [hq] at hok
      exact PriorityInv.leaves (h.inherits.leaves (.sem i) w) (h.atBase.leaves (.sem i) w)
        hi.running hd hok
    | added _ _ => exact h.objects rfl (fun _ => rfl) rfl rfl
    | dropped _ _ => exact h
  | lock hat m timeoutMs =>
    exact h.step_lock hi (hfree m)
      (rtosMutexLock_cases hi.running hi.idle hat.current hat.ne_idle m timeoutMs) hok
  | lockReturn _ => exact h
  | unlock hat m =>
    exact h.step_unlock hi hat
      (rtosMutexUnlock_cases hi.running hi.idle hat.current (hi.runs hat) hi.waiting m) hok
  | eventWait _ => exact h.step_eventWait _ _ _
  | eventReschedule _ => exact h.yield hi.running hi.idle hok
  | eventSet _ e mask =>
    have htask := rtosEventSet_task s.k e mask
    refine h.mono (fun w m hw => ?_) (fun _ => rfl) (fun t => ?_) rfl rfl
    · rw [htask] at hw
      split at hw
      · cases hw.1
      · exact hw
    · rw [htask]
      split
      · exact ⟨rfl, rfl⟩
      · exact ⟨rfl, rfl⟩
  | eventClear _ _ _ => exact h.objects rfl (fun _ => rfl) rfl rfl
  | delay hat ticks =>
    unfold rtosDelayTicks
    split
    · exact h
    · rw [hat.current]
      refine h.write ?_ ?_ ?_
      · rfl
      · rfl
      · exact fun m hw => by cases hw.1
  | kill _ _ =>
    refine h.write ?_ ?_ ?_
    · rfl
    · rfl
    · exact fun m hw => by cases hw.1
  | reschedule _ => exact h.yield hi.running hi.idle hok

end

/-! ### Whole runs -/

theorem Reach.priorityInv {initial maxCount : Nat → Int} {s : Sys} {tr : List Label}
    (h : Reach (fun s => s.Init initial maxCount ∧ s.k.AtBase) inheritOk s tr) :
    PriorityInv s.k := by
  induction h with
  | init hi =>
    refine ⟨fun w m o hw _ => ?_, hi.2⟩
    exact absurd hw.1 (hi.1.blocked w)
  | step hr hok hs ih =>
    have hr' := hr.mono (fun _ h => h.1) fun _ _ _ => trivial
    exact ih.step hr'.inv hr'.free hs hok

/-- **Priority inheritance** holds in every run whose steps meet `inheritOk`.  The task that
    `rtos_sched_start` puts on the CPU has its base priority. -/
theorem priority_inheritance {initial maxCount : Nat → Int} {s : Sys} {tr : List Label}
    (h : Reach (fun s => s.Init initial maxCount ∧ s.k.AtBase) inheritOk s tr) {w m o : Nat}
    (hw : (s.k.taskTable w).WaitsFor (.mutex m)) (ho : (s.k.mutexes m).owner = some o) :
    (s.k.taskTable w).priority ≤ (s.k.taskTable o).priority :=
  h.priorityInv.inherits w m o hw ho

theorem Rtos.PassOk.of_none {k : Rtos} (h : ∀ w m, ¬ (k.taskTable w).WaitsFor (.mutex m)) :
    k.PassOk := fun _ _ w m hw _ => absurd hw (h w m)

/-- Task 1 locks a mutex and sleeps, and task 2, of the same base priority, waits for it. -/
theorem priority_inheritance_waiting : ∃ s : Sys,
    (s.k.taskTable 2).WaitsFor (.mutex 0) ∧ (s.k.mutexes 0).owner = some 1 ∧
      (s.k.taskTable 2).priority ≤ (s.k.taskTable 1).priority := by
  have h0 : Reach (fun s => s.Init (fun _ => 0) (fun _ => 0) ∧ s.k.AtBase) inheritOk
      (freshSys 3 (fun _ => 6) (fun _ => 0) (fun _ => 0)) [] :=
    Reach.init ⟨freshSys_init (by decide) _ _ _, fun c _ _ => rfl⟩
  have h1 := h0.step (by exact trivial) (Step.lock (t := 1) ⟨rfl, by decide, rfl⟩ 0 0)
  have h2 := h1.step (by exact trivial) (Step.delay (t := 1) ⟨rfl, by decide, rfl⟩ 5)
  have hnone2 := fun w m => ((h2.mono (fun _ h => h.1) fun _ _ _ => trivial).inv.waiting.mem
    (.mutex m) trivial w)
  have h3 := h2.step (by exact Rtos.PassOk.of_none fun w m hw => by cases (hnone2 w m).mpr hw)
    (Step.reschedule (t := 1) ⟨rfl, by decide, rfl⟩)
  have hnone3 := fun w m => ((h3.mono (fun _ h => h.1) fun _ _ _ => trivial).inv.waiting.mem
    (.mutex m) trivial w)
  have h4 := h3.step (by
    refine ⟨fun o ho hlt => ?_, fun t ht w m hw ho => ?_⟩
    · cases ho
      exact absurd hlt (by decide)
    · -- only task 2 waits, and the owner sleeps
      by_cases hw2 : w = 2
      · subst hw2
        cases hw.2
        cases ho
        exact absurd ht.runnable (by decide)
      · obtain ⟨n, hn⟩ := Rtos.joins_task _ (.mutex 0) 2 hw2
        rw [hn] at hw
        cases (hnone3 w m).mpr hw) (Step.lock (t := 2) ⟨rfl, by decide, rfl⟩ 0 5)
  exact ⟨_, by decide, by decide, priority_inheritance h4 (m := 0) (by decide) (by decide)⟩

/-! ### Where it fails -/

/-- A task of low priority owns a mutex, a task of high priority starts to wait for it, and
    the scheduler gives the owner its base priority when it chooses it. -/
theorem priority_inversion :
    ¬ ∀ s tr, Reach (fun s => s.Init (fun _ => 0) (fun _ => 0) ∧ s.k.AtBase) (fun _ _ => True)
      s tr → s.k.Inherits := by
  intro h
  have h0 : Reach (fun s => s.Init (fun _ => 0) (fun _ => 0) ∧ s.k.AtBase) (fun _ _ => True)
      (freshSys 3 (fun t => 5 * t) (fun _ => 0) (fun _ => 0)) [] :=
    Reach.init ⟨freshSys_init (by decide) _ _ _, fun c _ _ => rfl⟩
  have h1 := h0.step trivial (Step.lock (t := 1) ⟨rfl, by decide, rfl⟩ 0 0)
  have h2 := h1.step trivial (Step.tick _)
  have h3 := h2.step trivial (Step.lock (t := 2) ⟨rfl, by decide, rfl⟩ 0 5)
  have hle := h _ _ h3 2 0 1 (by decide) (by decide)
  exact absurd hle (by decide)

end Gemios
