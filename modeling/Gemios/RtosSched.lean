import Gemios.Rtos

/-!
# What the scheduler can do

A pass of the scheduler changes states between `READY`, `RUNNING` and `SLEEPING`,
priorities and counters.  It never blocks a task, never unblocks one, and it leaves a
task on the CPU that is not blocked.
-/

namespace Gemios

/-! ### The task table -/

/-- The slots in use, in the order of the table. -/
def usedTasks (maxTasks : Nat) (tab : Nat → Task) : List Nat :=
  (List.range maxTasks).filter fun i => (tab i).state ≠ .unused

theorem mem_usedTasks {maxTasks : Nat} {tab : Nat → Task} {t : Nat} :
    t ∈ usedTasks maxTasks tab ↔ t < maxTasks ∧ (tab t).state ≠ .unused := by
  simp [usedTasks]

theorem taskByIndexLoop_eq (tab : Nat → Task) (index : Nat) (is : List Nat) (count : Nat)
    (h : count ≤ index) :
    taskByIndexLoop tab index is count =
      (is.filter fun i => (tab i).state ≠ .unused)[index - count]? := by
  induction is generalizing count with
  | nil => rfl
  | cons i is ih =>
    rw [taskByIndexLoop]
    split
    · next hused =>
      rw [List.filter_cons_of_pos (by simpa using hused)]
      split
      · next heq => rw [heq, Nat.sub_self, List.getElem?_cons_zero]
      · next hne =>
        rw [ih (count + 1) (by omega), show index - count = index - (count + 1) + 1 by omega,
          List.getElem?_cons_succ]
    · next hunused =>
      rw [List.filter_cons_of_neg (by simpa using hunused)]
      exact ih count h

theorem rtosGetTaskByIndex_eq (maxTasks : Nat) (tab : Nat → Task) (index : Nat) :
    rtosGetTaskByIndex maxTasks tab index = (usedTasks maxTasks tab)[index]? :=
  taskByIndexLoop_eq tab index (List.range maxTasks) 0 (Nat.zero_le index)

theorem rtosGetTaskCount_eq (maxTasks : Nat) (tab : Nat → Task) :
    rtosGetTaskCount maxTasks tab = (usedTasks maxTasks tab).length :=
  List.countP_eq_length_filter

theorem usedTasks_congr {tab tab' : Nat → Task} (maxTasks : Nat)
    (h : ∀ t, (tab' t).state = .unused ↔ (tab t).state = .unused) :
    usedTasks maxTasks tab' = usedTasks maxTasks tab := by
  refine List.filter_congr fun t _ => ?_
  rw [decide_eq_decide]
  exact not_congr (h t)

theorem getTask_some {maxTasks : Nat} {tab : Nat → Task} {index t : Nat}
    (h : rtosGetTaskByIndex maxTasks tab index = some t) :
    t < maxTasks ∧ (tab t).state ≠ .unused := by
  rw [rtosGetTaskByIndex_eq] at h
  exact mem_usedTasks.mp (List.mem_of_getElem? h)

/-! ### What a pass leaves alone -/

/-- A task before and after some work of the scheduler. -/
structure Kept (a b : Task) : Prop where
  waitObject : b.waitObject = a.waitObject
  nextWait : b.nextWait = a.nextWait
  basePriority : b.basePriority = a.basePriority
  blocked : b.state = .blocked ↔ a.state = .blocked
  unused : b.state = .unused ↔ a.state = .unused
  priority : a.state = .blocked → b.priority = a.priority

namespace Kept

theorem refl (a : Task) : Kept a a := ⟨rfl, rfl, rfl, Iff.rfl, Iff.rfl, fun _ => rfl⟩

theorem trans {a b c : Task} (h₁ : Kept a b) (h₂ : Kept b c) : Kept a c where
  waitObject := h₂.waitObject.trans h₁.waitObject
  nextWait := h₂.nextWait.trans h₁.nextWait
  basePriority := h₂.basePriority.trans h₁.basePriority
  blocked := h₂.blocked.trans h₁.blocked
  unused := h₂.unused.trans h₁.unused
  priority := fun h => (h₂.priority (h₁.blocked.mpr h)).trans (h₁.priority h)

theorem of_free {a b : Task} (hw : b.waitObject = a.waitObject) (hn : b.nextWait = a.nextWait)
    (hb : b.basePriority = a.basePriority) (ha : a.state ≠ .blocked) (ha' : b.state ≠ .blocked)
    (hu : a.state ≠ .unused) (hu' : b.state ≠ .unused) : Kept a b where
  waitObject := hw
  nextWait := hn
  basePriority := hb
  blocked := ⟨fun h => absurd h ha', fun h => absurd h ha⟩
  unused := ⟨fun h => absurd h hu', fun h => absurd h hu⟩
  priority := fun h => absurd h ha

theorem update {tab : Nat → Task} {u : Nat} {v : Task} (h : Kept (tab u) v) (t : Nat) :
    Kept (tab t) (Function.update tab u v t) := by
  by_cases htu : t = u
  · subst htu
    rw [Function.update_self]
    exact h
  · rw [Function.update_of_ne htu]
    exact refl _

theorem foldl {σ : Type} {f : σ → Nat → σ} (tabOf : σ → Nat → Task)
    (hf : ∀ st i t, Kept (tabOf st t) (tabOf (f st i) t)) (is : List Nat) (st : σ) (t : Nat) :
    Kept (tabOf st t) (tabOf (is.foldl f st) t) := by
  induction is generalizing st with
  | nil => exact refl _
  | cons i is ih => exact (hf st i t).trans (ih (f st i))

end Kept

/-- Two states that differ in the scheduler's own data only. -/
structure Frame (s s' : Rtos) : Prop where
  maxTasks : s'.maxTasks = s.maxTasks
  idleTask : s'.idleTask = s.idleTask
  running : s'.schedulerRunning = s.schedulerRunning
  sems : s'.sems = s.sems
  mutexes : s'.mutexes = s.mutexes
  events : s'.events = s.events
  kept : ∀ t, Kept (s.taskTable t) (s'.taskTable t)

namespace Frame

theorem refl (s : Rtos) : Frame s s := ⟨rfl, rfl, rfl, rfl, rfl, rfl, fun _ => Kept.refl _⟩

theorem trans {s₁ s₂ s₃ : Rtos} (h₁ : Frame s₁ s₂) (h₂ : Frame s₂ s₃) : Frame s₁ s₃ where
  maxTasks := h₂.maxTasks.trans h₁.maxTasks
  idleTask := h₂.idleTask.trans h₁.idleTask
  running := h₂.running.trans h₁.running
  sems := h₂.sems.trans h₁.sems
  mutexes := h₂.mutexes.trans h₁.mutexes
  events := h₂.events.trans h₁.events
  kept := fun t => (h₁.kept t).trans (h₂.kept t)

theorem setTask {s : Rtos} {t : Nat} {v : Task} (h : Kept (s.taskTable t) v) :
    Frame s (s.setTask t v) :=
  ⟨rfl, rfl, rfl, rfl, rfl, rfl, fun u => Kept.update h u⟩

end Frame

/-! ### The parts of a pass -/

/-- `READY` or `RUNNING`: the scheduler can choose the task. -/
def Task.Runnable (task : Task) : Prop := task.state = .ready ∨ task.state = .running

instance (task : Task) : Decidable task.Runnable := inferInstanceAs (Decidable (_ ∨ _))

theorem Task.Runnable.ne_blocked {task : Task} (h : task.Runnable) : task.state ≠ .blocked := by
  rcases h with h | h <;> simp [h]

theorem Task.Runnable.ne_unused {task : Task} (h : task.Runnable) : task.state ≠ .unused := by
  rcases h with h | h <;> simp [h]

theorem tickTurn_kept (maxTasks : Nat) (tab : Nat → Task) (i t : Nat) :
    Kept (tab t) (tickTurn maxTasks tab i t) := by
  unfold tickTurn
  cases rtosGetTaskByIndex maxTasks tab i with
  | none => exact Kept.refl _
  | some u =>
    dsimp only
    by_cases hsleep : (tab u).state = .sleeping
    · rw [if_pos hsleep]
      by_cases hpos : (tab u).sleepTicks > 0
      · rw [if_pos hpos]
        refine Kept.update ?_ t
        refine Kept.of_free rfl rfl rfl ?_ ?_ ?_ ?_
        · simp [hsleep]
        · dsimp only
          split <;> simp [hsleep]
        · simp [hsleep]
        · dsimp only
          split <;> simp [hsleep]
      · rw [if_neg hpos]
        exact Kept.refl _
    · rw [if_neg hsleep]
      exact Kept.refl _

theorem tickTasks_frame (s : Rtos) : Frame s (tickTasks s) :=
  ⟨rfl, rfl, rfl, rfl, rfl, rfl,
    fun t => Kept.foldl (fun tab => tab) (tickTurn_kept s.maxTasks) _ s.taskTable t⟩

theorem chargeTick_frame (s : Rtos) : Frame s (chargeTick s) := by
  unfold chargeTick
  split
  · exact Frame.setTask ⟨rfl, rfl, rfl, Iff.rfl, Iff.rfl, fun _ => rfl⟩
  · exact Frame.refl s

theorem findTurn_kept (maxTasks count startIdx : Nat) (st : Search) (i t : Nat) :
    Kept (st.taskTable t) ((findTurn maxTasks count startIdx st i).taskTable t) := by
  unfold findTurn
  dsimp only
  split
  · exact Kept.refl _
  · next u _ =>
    split
    · next hrun =>
      have hup : Kept (st.taskTable u) { st.taskTable u with priority := (st.taskTable u).priority + 1 } :=
        Kept.of_free rfl rfl rfl (Task.Runnable.ne_blocked hrun) (Task.Runnable.ne_blocked hrun)
          (Task.Runnable.ne_unused hrun) (Task.Runnable.ne_unused hrun)
      split
      · split
        · exact Kept.update hup t
        · exact Kept.update hup t
      · split
        · exact Kept.refl _
        · exact Kept.refl _
    · exact Kept.refl _

/-- The task chosen so far is one that can be chosen. -/
def Search.Sound (maxTasks : Nat) (st : Search) : Prop :=
  ∀ t, st.bestTask = some t → t < maxTasks ∧ (st.taskTable t).Runnable

theorem findTurn_sound {maxTasks : Nat} (count startIdx : Nat) {st : Search}
    (h : st.Sound maxTasks) (i : Nat) : (findTurn maxTasks count startIdx st i).Sound maxTasks := by
  unfold findTurn
  dsimp only
  split
  · exact h
  · next u hu =>
    split
    · next hrun =>
      -- a rise of the priority of `u` leaves every state as it is
      have hstate : ∀ t, (Function.update st.taskTable u
          { st.taskTable u with priority := (st.taskTable u).priority + 1 } t).state =
            (st.taskTable t).state := by
        intro t
        by_cases htu : t = u
        · subst htu
          rw [Function.update_self]
        · rw [Function.update_of_ne htu]
      have hnew : ∀ t, some u = some t → t < maxTasks ∧ (st.taskTable t).Runnable := by
        intro t ht
        cases ht
        exact ⟨(getTask_some hu).1, hrun⟩
      split
      · split
        · intro t ht
          unfold Task.Runnable
          rw [hstate]
          exact hnew t ht
        · intro t ht
          unfold Task.Runnable
          rw [hstate]
          exact h t ht
      · split
        · exact hnew
        · exact h
    · exact h

theorem foldl_findTurn_sound {maxTasks : Nat} (count startIdx : Nat) (is : List Nat) {st : Search}
    (h : st.Sound maxTasks) : (is.foldl (findTurn maxTasks count startIdx) st).Sound maxTasks := by
  induction is generalizing st with
  | nil => exact h
  | cons i is ih => exact ih (findTurn_sound count startIdx h i)

/-- The idle task exists and is never blocked. -/
structure Rtos.IdleOk (s : Rtos) : Prop where
  bound : s.idleTask < s.maxTasks
  ne_blocked : (s.taskTable s.idleTask).state ≠ .blocked
  ne_unused : (s.taskTable s.idleTask).state ≠ .unused

theorem Rtos.IdleOk.of_frame {s s' : Rtos} (h : s.IdleOk) (hf : Frame s s') : s'.IdleOk := by
  refine ⟨?_, ?_, ?_⟩
  · rw [hf.idleTask, hf.maxTasks]
    exact h.bound
  · rw [hf.idleTask, ne_eq, (hf.kept _).blocked]
    exact h.ne_blocked
  · rw [hf.idleTask, ne_eq, (hf.kept _).unused]
    exact h.ne_unused

theorem findNextReadyTask_frame (s : Rtos) : Frame s (findNextReadyTask s).1 := by
  unfold findNextReadyTask
  dsimp only
  split
  · exact Frame.refl s
  · have hloop := Kept.foldl (fun st : Search => st.taskTable)
      (findTurn_kept s.maxTasks (rtosGetTaskCount s.maxTasks s.taskTable)
        ((s.lastScheduledIdx + 1) % rtosGetTaskCount s.maxTasks s.taskTable))
      (List.range (rtosGetTaskCount s.maxTasks s.taskTable)) ⟨s.taskTable, none, -1, 0⟩
    split
    · next t ht =>
      have hrun := (foldl_findTurn_sound _ _ _ (fun u hu => by cases hu) t ht).2
      refine ⟨rfl, rfl, rfl, rfl, rfl, rfl, fun u => (hloop u).trans (Kept.update ?_ u)⟩
      exact Kept.of_free rfl rfl rfl hrun.ne_blocked hrun.ne_blocked hrun.ne_unused hrun.ne_unused
    · exact ⟨rfl, rfl, rfl, rfl, rfl, rfl, hloop⟩

theorem findNextReadyTask_free {s : Rtos} (h : s.IdleOk) :
    (findNextReadyTask s).2 < s.maxTasks ∧
      (s.taskTable (findNextReadyTask s).2).state ≠ .blocked ∧
      (s.taskTable (findNextReadyTask s).2).state ≠ .unused := by
  unfold findNextReadyTask
  dsimp only
  split
  · exact ⟨h.bound, h.ne_blocked, h.ne_unused⟩
  · have hloop := Kept.foldl (fun st : Search => st.taskTable)
      (findTurn_kept s.maxTasks (rtosGetTaskCount s.maxTasks s.taskTable)
        ((s.lastScheduledIdx + 1) % rtosGetTaskCount s.maxTasks s.taskTable))
      (List.range (rtosGetTaskCount s.maxTasks s.taskTable)) ⟨s.taskTable, none, -1, 0⟩
    split
    · next t ht =>
      obtain ⟨hlt, hrun⟩ := foldl_findTurn_sound _ _ _ (fun u hu => by cases hu) t ht
      exact ⟨hlt, fun hb => hrun.ne_blocked ((hloop t).blocked.mpr hb),
        fun hu => hrun.ne_unused ((hloop t).unused.mpr hu)⟩
    · exact ⟨h.bound, h.ne_blocked, h.ne_unused⟩

theorem switchTask_frame {s : Rtos} {next : Nat} (prev : Option Nat)
    (hb : (s.taskTable next).state ≠ .blocked) (hu : (s.taskTable next).state ≠ .unused) :
    Frame s (switchTask s prev next) := by
  unfold switchTask
  split
  · exact Frame.refl s
  · have hrun : ∀ s₁ : Rtos, Frame s s₁ → Frame s { s₁.setTask next
        { s₁.taskTable next with state := .running } with currentTask := some next } := by
      intro s₁ hf
      have hset : Frame s₁ (s₁.setTask next { s₁.taskTable next with state := .running }) :=
        Frame.setTask (Kept.of_free rfl rfl rfl
          (fun h => hb ((hf.kept next).blocked.mp h)) (by simp)
          (fun h => hu ((hf.kept next).unused.mp h)) (by simp))
      obtain ⟨h1, h2, h3, h4, h5, h6, h7⟩ := hf.trans hset
      exact ⟨h1, h2, h3, h4, h5, h6, h7⟩
    dsimp only
    refine hrun _ ?_
    split
    · next p =>
      split
      · next hp =>
        exact Frame.setTask (Kept.of_free rfl rfl rfl (by simp [hp]) (by simp) (by simp [hp])
          (by simp))
      · exact Frame.refl s
    · exact Frame.refl s

theorem switchTask_current (s : Rtos) (prev : Option Nat) (next : Nat)
    (hprev : s.currentTask = prev) : (switchTask s prev next).currentTask = some next := by
  unfold switchTask
  split
  · next h => rw [hprev, h]
  · rfl

/-! ### A pass -/

/-- Some task that is not blocked is on the CPU. -/
def Rtos.Runs (s : Rtos) : Prop :=
  ∃ c, s.currentTask = some c ∧ c < s.maxTasks ∧ (s.taskTable c).state ≠ .blocked

structure Dispatch (s s' : Rtos) : Prop extends Frame s s' where
  runs : s'.Runs

theorem findNextReadyTask_current (s : Rtos) :
    (findNextReadyTask s).1.currentTask = s.currentTask := by
  unfold findNextReadyTask
  dsimp only
  split
  · rfl
  · split
    · rfl
    · rfl

theorem chargeTick_current (s : Rtos) : (chargeTick s).currentTask = s.currentTask := by
  unfold chargeTick
  split
  · rfl
  · rfl

theorem dispatch_of_find {s : Rtos} (hidle : s.IdleOk) :
    Dispatch s (switchTask (findNextReadyTask s).1 s.currentTask (findNextReadyTask s).2) := by
  obtain ⟨hlt, hb, hu⟩ := findNextReadyTask_free hidle
  have hfind := findNextReadyTask_frame s
  have hsw := switchTask_frame s.currentTask
    (fun h => hb ((hfind.kept _).blocked.mp h)) (fun h => hu ((hfind.kept _).unused.mp h))
  have hf := hfind.trans hsw
  refine ⟨hf, (findNextReadyTask s).2, switchTask_current _ _ _ (findNextReadyTask_current s), ?_, ?_⟩
  · rw [hf.maxTasks]
    exact hlt
  · exact fun h => hb ((hf.kept _).blocked.mp h)

theorem dispatch_schedule {s : Rtos} (hrun : s.schedulerRunning = true) (hidle : s.IdleOk)
    (intNo : Nat) : Dispatch s (rtosScheduleFromIsr s intNo) := by
  have hpass : ∀ s₁, Frame s s₁ → Dispatch s (switchTask (findNextReadyTask (chargeTick s₁)).1
      (chargeTick s₁).currentTask (findNextReadyTask (chargeTick s₁)).2) := by
    intro s₁ hf
    have hf' := hf.trans (chargeTick_frame s₁)
    have hd := dispatch_of_find (hidle.of_frame hf')
    exact ⟨hf'.trans hd.toFrame, hd.runs⟩
  unfold rtosScheduleFromIsr
  rw [if_pos hrun]
  dsimp only
  split
  · exact hpass _ (tickTasks_frame s)
  · exact hpass _ (Frame.refl s)

theorem dispatch_yield {s : Rtos} (hrun : s.schedulerRunning = true) (hidle : s.IdleOk) :
    Dispatch s (rtosYield s) := by
  unfold rtosYield
  rw [if_pos hrun]
  exact dispatch_schedule hrun hidle 128

theorem dispatch_block {s : Rtos} {t : Nat} {o : Obj} (hrun : s.schedulerRunning = true)
    (hidle : s.IdleOk) (ht : t ≠ s.idleTask) :
    Dispatch (s.setTask t { s.taskTable t with state := .blocked, waitObject := some o })
      (rtosTaskBlock s (some t) o) := by
  refine dispatch_yield hrun ⟨hidle.bound, ?_, ?_⟩
  · dsimp only [Rtos.setTask]
    rw [Function.update_of_ne (Ne.symm ht)]
    exact hidle.ne_blocked
  · dsimp only [Rtos.setTask]
    rw [Function.update_of_ne (Ne.symm ht)]
    exact hidle.ne_unused

theorem dispatch_unblock {s : Rtos} {t : Nat} (hrun : s.schedulerRunning = true)
    (hidle : s.IdleOk) (hruns : s.Runs) :
    Dispatch (s.setTask t { s.taskTable t with state := .ready, waitObject := none })
      (rtosTaskUnblock s t) := by
  have hruns' : (s.setTask t { s.taskTable t with state := .ready, waitObject := none }).Runs := by
    obtain ⟨c, hc, hlt, hb⟩ := hruns
    refine ⟨c, hc, hlt, ?_⟩
    dsimp only [Rtos.setTask]
    by_cases htc : c = t
    · subst htc
      rw [Function.update_self]
      simp
    · rw [Function.update_of_ne htc]
      exact hb
  have hidle' : (s.setTask t { s.taskTable t with state := .ready, waitObject := none }).IdleOk := by
    refine ⟨hidle.bound, ?_, ?_⟩
    · dsimp only [Rtos.setTask]
      by_cases hti : s.idleTask = t
      · rw [hti, Function.update_self]
        simp
      · rw [Function.update_of_ne hti]
        exact hidle.ne_blocked
    · dsimp only [Rtos.setTask]
      by_cases hti : s.idleTask = t
      · rw [hti, Function.update_self]
        simp
      · rw [Function.update_of_ne hti]
        exact hidle.ne_unused
  unfold rtosTaskUnblock
  dsimp only
  split
  · split
    · exact dispatch_yield hrun hidle'
    · exact ⟨Frame.refl _, hruns'⟩
  · exact ⟨Frame.refl _, hruns'⟩

end Gemios
