import Mathlib.Logic.Function.Basic
import Gemios.Bytes

/-!
# Tasks, the scheduler and the synchronisation objects

`src/src/rtos/sched.c`, the parts of `src/src/rtos/task.c` and `time.c` that they use,
and the semaphores, mutexes and event flags of `src/src/rtos/sync.c`.

A function that gives up the CPU in its middle is modelled up to that point, the switch
included; what it still does when its task runs again is only `irq_restore` and the
return of `true`, or nothing.  The stacks are not modelled: a switch is a change of
`currentTask`.
-/

namespace Gemios

open Function

/-! ### Data -/

inductive TaskState where
  | unused | ready | running | sleeping | blocked | terminated
deriving DecidableEq, Repr

/-- The objects that a `wait_object` can point at, one number for each object of a
    kind. -/
inductive Obj where
  | sem (i : Nat)
  | mutex (m : Nat)
  | event (e : Nat)
deriving DecidableEq, Repr

/-- `task_t`; a task is named by its index in `task_table`. -/
structure Task where
  state : TaskState
  priority : Nat
  basePriority : Nat
  sleepTicks : Nat
  runtimeTicks : Nat
  waitObject : Option Obj
  nextWait : Option Nat

/-- The two pointers `wait_head` and `wait_tail` of an object. -/
structure WaitQueue where
  waitHead : Option Nat
  waitTail : Option Nat

structure Sem where
  count : Int
  maxCount : Int
  wait : WaitQueue

structure Mutex where
  locked : Bool
  recursionCount : Nat
  owner : Option Nat
  wait : WaitQueue

/-- `rtos_event_t`; its `wait_head` is set to `NULL` and not used. -/
structure Event where
  flags : BitVec 32

/-- The static variables of `task.c` and `sched.c` and the objects of the system.
    `maxTasks` is `MAX_TASKS`, the length of `task_table`. -/
structure Rtos where
  maxTasks : Nat
  taskTable : Nat → Task
  currentTask : Option Nat
  idleTask : Nat
  schedulerRunning : Bool
  lastScheduledIdx : Nat
  sems : Nat → Sem
  mutexes : Nat → Mutex
  events : Nat → Event

namespace Rtos

def setTask (s : Rtos) (t : Nat) (task : Task) : Rtos :=
  { s with taskTable := update s.taskTable t task }

def setSem (s : Rtos) (i : Nat) (sem : Sem) : Rtos :=
  { s with sems := update s.sems i sem }

def setMutex (s : Rtos) (m : Nat) (mutex : Mutex) : Rtos :=
  { s with mutexes := update s.mutexes m mutex }

def setEvent (s : Rtos) (e : Nat) (ev : Event) : Rtos :=
  { s with events := update s.events e ev }

end Rtos

/-! ### `task.c` -/

def rtosGetTaskCount (maxTasks : Nat) (tab : Nat → Task) : Nat :=
  (List.range maxTasks).countP fun i => (tab i).state ≠ .unused

/-- The loop of `rtos_get_task_by_index` over the slots `is`. -/
def taskByIndexLoop (tab : Nat → Task) (index : Nat) : (is : List Nat) → (count : Nat) → Option Nat
  | [], _ => none
  | i :: is, count =>
    if (tab i).state ≠ .unused then
      if count = index then some i else taskByIndexLoop tab index is (count + 1)
    else taskByIndexLoop tab index is count

def rtosGetTaskByIndex (maxTasks : Nat) (tab : Nat → Task) (index : Nat) : Option Nat :=
  taskByIndexLoop tab index (List.range maxTasks) 0

/-! ### `sched.c` -/

/-- The local variables of `find_next_ready_task`, with the table that its loop changes. -/
structure Search where
  taskTable : Nat → Task
  bestTask : Option Nat
  highestPriority : Int
  bestIdx : Nat

/-- One turn of the loop of `find_next_ready_task`. -/
def findTurn (maxTasks count startIdx : Nat) (st : Search) (i : Nat) : Search :=
  let idx := (startIdx + i) % count
  match rtosGetTaskByIndex maxTasks st.taskTable idx with
  | none => st
  | some t =>
    let task := st.taskTable t
    if task.state = .ready ∨ task.state = .running then
      let st :=
        if (task.priority : Int) > st.highestPriority then
          { st with highestPriority := task.priority, bestTask := some t, bestIdx := idx }
        else st
      if task.priority < 15 then
        { st with
          taskTable := update st.taskTable t { task with priority := task.priority + 1 } }
      else st
    else st

def findNextReadyTask (s : Rtos) : Rtos × Nat :=
  let count := rtosGetTaskCount s.maxTasks s.taskTable
  if count = 0 then (s, s.idleTask)
  else
    let startIdx := (s.lastScheduledIdx + 1) % count
    let st := (List.range count).foldl (findTurn s.maxTasks count startIdx) ⟨s.taskTable, none, -1, 0⟩
    match st.bestTask with
    | some t =>
      let task := st.taskTable t
      ({ s with
          taskTable := update st.taskTable t { task with priority := task.basePriority }
          lastScheduledIdx := st.bestIdx }, t)
    | none => ({ s with taskTable := st.taskTable }, s.idleTask)

/-- One turn of the loop over the sleeping tasks. -/
def tickTurn (maxTasks : Nat) (tab : Nat → Task) (i : Nat) : Nat → Task :=
  match rtosGetTaskByIndex maxTasks tab i with
  | none => tab
  | some t =>
    let task := tab t
    if task.state = .sleeping then
      if task.sleepTicks > 0 then
        let left := task.sleepTicks - 1
        update tab t
          { task with sleepTicks := left, state := if left = 0 then .ready else task.state }
      else tab
    else tab

/-- The sleeping tasks are updated on a timer tick. -/
def tickTasks (s : Rtos) : Rtos :=
  let count := rtosGetTaskCount s.maxTasks s.taskTable
  { s with taskTable := (List.range count).foldl (tickTurn s.maxTasks) s.taskTable }

/-- `current_task->runtime_ticks++`. -/
def chargeTick (s : Rtos) : Rtos :=
  match s.currentTask with
  | some c => s.setTask c { s.taskTable c with runtimeTicks := u32 ((s.taskTable c).runtimeTicks + 1) }
  | none => s

/-- The switch from `prev` to `next`, when they differ. -/
def switchTask (s : Rtos) (prev : Option Nat) (next : Nat) : Rtos :=
  if prev = some next then s
  else
    let s : Rtos :=
      match prev with
      | some p =>
        if (s.taskTable p).state = .running then s.setTask p { s.taskTable p with state := .ready }
        else s
      | none => s
    { s.setTask next { s.taskTable next with state := .running } with currentTask := some next }

/-- `rtos_schedule_from_isr` for the interrupt `intNo`. -/
def rtosScheduleFromIsr (s : Rtos) (intNo : Nat) : Rtos :=
  if s.schedulerRunning then
    let s := if intNo = 32 then tickTasks s else s
    let s := chargeTick s
    let r := findNextReadyTask s
    switchTask r.1 s.currentTask r.2
  else s

/-- `rtos_yield`, also `rtos_reschedule`: `int $0x80`. -/
def rtosYield (s : Rtos) : Rtos := if s.schedulerRunning then rtosScheduleFromIsr s 128 else s

def rtosTaskBlock (s : Rtos) (task : Option Nat) (waitObj : Obj) : Rtos :=
  match task.or s.currentTask with
  | none => s
  | some t =>
    rtosYield (s.setTask t { s.taskTable t with state := .blocked, waitObject := some waitObj })

def rtosTaskUnblock (s : Rtos) (t : Nat) : Rtos :=
  let s := s.setTask t { s.taskTable t with state := .ready, waitObject := none }
  match s.currentTask with
  | some c => if (s.taskTable t).priority > (s.taskTable c).priority then rtosYield s else s
  | none => s

/-! ### Wait queues -/

def addWaiter (tab : Nat → Task) (w : WaitQueue) (task : Nat) : (Nat → Task) × WaitQueue :=
  let tab := update tab task { tab task with nextWait := none }
  match w.waitHead, w.waitTail with
  | some h, some l =>
    (update tab l { tab l with nextWait := some task }, ⟨some h, some task⟩)
  | some h, none => (tab, ⟨some h, some task⟩)
  | none, _ => (tab, ⟨some task, some task⟩)

def popWaiter (tab : Nat → Task) (w : WaitQueue) : Option Nat × (Nat → Task) × WaitQueue :=
  match w.waitHead with
  | none => (none, tab, w)
  | some task =>
    let head := (tab task).nextWait
    (some task, update tab task { tab task with nextWait := none },
      ⟨head, if head = none then none else w.waitTail⟩)

/-! ### Semaphores -/

/-- How a call that may wait ends its first part: it has returned, or its task is blocked
    and the call returns `true` once it runs again. -/
inductive Outcome where
  | ret (b : Bool)
  | block
deriving DecidableEq, Repr

def rtosSemInit (initialCount maxCount : Int) : Sem := ⟨initialCount, maxCount, ⟨none, none⟩⟩

def rtosSemWait (s : Rtos) (i : Nat) (timeoutMs : Nat) : Rtos × Outcome :=
  let sem := s.sems i
  if sem.count > 0 then (s.setSem i { sem with count := sem.count - 1 }, .ret true)
  else if timeoutMs = 0 then (s, .ret false)
  else
    match s.currentTask with
    | none => (s, .ret false)
    | some cur =>
      let r := addWaiter s.taskTable sem.wait cur
      (rtosTaskBlock ({ s with taskTable := r.1 }.setSem i { sem with wait := r.2 })
        (some cur) (.sem i), .block)

def rtosSemSignal (s : Rtos) (i : Nat) : Rtos :=
  let sem := s.sems i
  match popWaiter s.taskTable sem.wait with
  | (some waiter, tab, w) =>
    rtosTaskUnblock ({ s with taskTable := tab }.setSem i { sem with wait := w }) waiter
  | (none, _, _) =>
    if sem.count < sem.maxCount then s.setSem i { sem with count := sem.count + 1 } else s

/-! ### Mutexes -/

def rtosMutexInit : Mutex := ⟨false, 0, none, ⟨none, none⟩⟩

/-- Priority inheritance: the owner's priority is raised to that of the task `cur` that
    is about to wait. -/
def boostOwner (tab : Nat → Task) (cur owner : Option Nat) : Nat → Task :=
  match cur, owner with
  | some c, some o =>
    if (tab c).priority > (tab o).priority then
      update tab o { tab o with priority := (tab c).priority }
    else tab
  | _, _ => tab

def rtosMutexLock (s : Rtos) (m : Nat) (timeoutMs : Nat) : Rtos × Outcome :=
  if !s.schedulerRunning then (s, .ret true)
  else
    let mutex := s.mutexes m
    let cur := s.currentTask
    if !mutex.locked then
      (s.setMutex m { mutex with locked := true, recursionCount := 1, owner := cur }, .ret true)
    else if cur ≠ none ∧ mutex.owner = cur then
      (s.setMutex m { mutex with recursionCount := u32 (mutex.recursionCount + 1) }, .ret true)
    else if timeoutMs = 0 then (s, .ret false)
    else
      let tab := boostOwner s.taskTable cur mutex.owner
      match cur with
      | some c =>
        let r := addWaiter tab mutex.wait c
        (rtosTaskBlock ({ s with taskTable := r.1 }.setMutex m { mutex with wait := r.2 })
          (some c) (.mutex m), .block)
      | none => ({ s with taskTable := tab }, .ret true)

/-- The owner's priority goes back to its base. -/
def restoreOwner (tab : Nat → Task) (owner : Option Nat) : Nat → Task :=
  match owner with
  | some o => update tab o { tab o with priority := (tab o).basePriority }
  | none => tab

def rtosMutexUnlock (s : Rtos) (m : Nat) : Rtos :=
  if !s.schedulerRunning then s
  else
    let mutex := s.mutexes m
    let cur := s.currentTask
    if mutex.locked = false ∨ (cur ≠ none ∧ mutex.owner ≠ cur) then s
    else if mutex.recursionCount > 1 then
      s.setMutex m { mutex with recursionCount := mutex.recursionCount - 1 }
    else
      match popWaiter (restoreOwner s.taskTable mutex.owner) mutex.wait with
      | (some waiter, tab, w) =>
        rtosTaskUnblock
          ({ s with taskTable := tab }.setMutex m
            { mutex with owner := some waiter, recursionCount := 1, wait := w }) waiter
      | (none, tab, w) =>
        { s with taskTable := tab }.setMutex m
          { locked := false, recursionCount := 0, owner := none, wait := w }

/-! ### Event flags -/

def rtosEventInit : Event := ⟨0#32⟩

/-- The end of `rtos_event_wait`, after its loop: the result and the state after it. -/
def eventTake (s : Rtos) (e : Nat) (mask : BitVec 32) (clearOnExit : Bool) :
    Rtos × BitVec 32 :=
  let flags := (s.events e).flags
  (if clearOnExit then s.setEvent e ⟨flags &&& ~~~ mask⟩ else s, flags &&& mask)

/-- `rtos_event_wait` from the test of its loop on.  Either it returns the flags, or the
    task is marked as blocked, interrupts are on again and `rtos_reschedule` comes next;
    after that the loop is entered again. -/
def rtosEventWait (s : Rtos) (e : Nat) (mask : BitVec 32) (clearOnExit : Bool) :
    Rtos × Option (BitVec 32) :=
  if (s.events e).flags &&& mask = 0#32 then
    match s.currentTask with
    | some cur =>
      (s.setTask cur { s.taskTable cur with waitObject := some (.event e), state := .blocked }, none)
    | none => let r := eventTake s e mask clearOnExit; (r.1, some r.2)
  else let r := eventTake s e mask clearOnExit; (r.1, some r.2)

/-- One turn of the loop of `rtos_event_set`. -/
def eventWake (maxTasks e : Nat) (tab : Nat → Task) (i : Nat) : Nat → Task :=
  match rtosGetTaskByIndex maxTasks tab i with
  | none => tab
  | some t =>
    if (tab t).state = .blocked ∧ (tab t).waitObject = some (.event e) then
      update tab t { tab t with state := .ready, waitObject := none }
    else tab

/-- `rtos_event_set` up to its `irq_restore`; `rtos_reschedule` comes next. -/
def rtosEventSet (s : Rtos) (e : Nat) (mask : BitVec 32) : Rtos :=
  let s := s.setEvent e ⟨(s.events e).flags ||| mask⟩
  let count := rtosGetTaskCount s.maxTasks s.taskTable
  { s with taskTable := (List.range count).foldl (eventWake s.maxTasks e) s.taskTable }

def rtosEventClear (s : Rtos) (e : Nat) (mask : BitVec 32) : Rtos :=
  s.setEvent e ⟨(s.events e).flags &&& ~~~ mask⟩

/-! ### `time.c` -/

/-- `rtos_delay_ticks` of the current task up to its `irq_restore`; `rtos_reschedule`
    comes next. -/
def rtosDelayTicks (s : Rtos) (ticks : Nat) : Rtos :=
  if ticks = 0 then s
  else
    match s.currentTask with
    | some cur => s.setTask cur { s.taskTable cur with sleepTicks := ticks, state := .sleeping }
    | none => s

end Gemios
