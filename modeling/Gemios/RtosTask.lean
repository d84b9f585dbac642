import Gemios.RtosRun

/-!
# The life of a task

`rtos_task_create`, `rtos_task_exit` and `rtos_task_kill` of `src/src/rtos/task.c`, each
up to its `irq_restore`; `rtos_reschedule` comes next.  `Kernel` adds to the scheduler's
data what these functions need: the ids, and the saved stack pointers.  A stack pointer
stands for the register frame that it points at.
-/

namespace Gemios

/-- The first slot of the table that is free. -/
def Rtos.freeSlot (k : Rtos) : Option Nat :=
  (List.range k.maxTasks).find? fun i =>
    (k.taskTable i).state = .unused ∨ (k.taskTable i).state = .terminated

/-- The fields of a task that `rtos_task_create` has filled in. -/
def newTask (priority : Nat) : Task where
  state := .ready
  priority := priority
  basePriority := priority
  sleepTicks := 0
  runtimeTicks := 0
  waitObject := none
  nextWait := none

/-- `rtos_task_create`: the table after it, and the slot of the task.  `stack` says whether
    the slot has a stack in the end, its own or one that `kmalloc_aligned` returned. -/
def rtosTaskCreate (k : Rtos) (priority : Nat) (stack : Bool) : Rtos × Option Nat :=
  let priority := if priority > 15 then 15 else priority
  match k.freeSlot with
  | none => (k, none)
  | some t => if stack then (k.setTask t (newTask priority), some t) else (k, none)

theorem freeSlot_some {k : Rtos} {t : Nat} (h : k.freeSlot = some t) :
    t < k.maxTasks ∧ ((k.taskTable t).state = .unused ∨ (k.taskTable t).state = .terminated) ∧
      ∀ u, u < t → (k.taskTable u).state ≠ .unused := by
  obtain ⟨hp, as, bs, hsplit, hbefore⟩ := List.find?_eq_some_iff_append.mp h
  have hlt : t < k.maxTasks := List.mem_range.mp (hsplit ▸ by simp)
  refine ⟨hlt, by simpa using hp, fun u hu hunused => ?_⟩
  have hmem : u ∈ as := by
    have hlen : as.length = t := by
      have hget : (List.range k.maxTasks)[as.length]? = some t := by
        rw [hsplit]
        simp
      obtain ⟨_, heq⟩ := List.getElem?_eq_some_iff.mp hget
      rw [List.getElem_range] at heq
      exact heq
    have hget : (List.range k.maxTasks)[u]? = some u :=
      List.getElem?_range (Nat.lt_trans hu hlt)
    rw [hsplit, List.getElem?_append_left (by omega)] at hget
    exact List.mem_of_getElem? hget
  have := hbefore u hmem
  simp [hunused] at this

theorem rtosTaskCreate_cases (k : Rtos) (priority : Nat) (stack : Bool) :
    rtosTaskCreate k priority stack = (k, none) ∨
      ∃ t p, k.freeSlot = some t ∧ p ≤ 15 ∧
        rtosTaskCreate k priority stack = (k.setTask t (newTask p), some t) := by
  unfold rtosTaskCreate
  dsimp only
  have hp : (if priority > 15 then 15 else priority) ≤ 15 := by
    split <;> omega
  cases k.freeSlot with
  | none => exact Or.inl rfl
  | some t =>
    cases stack with
    | false => exact Or.inl rfl
    | true => exact Or.inr ⟨t, _, rfl, hp, rfl⟩

end Gemios
