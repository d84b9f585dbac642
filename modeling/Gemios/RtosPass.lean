import Mathlib.Data.List.Rotate
import Mathlib.Data.List.Nodup
import Gemios.RtosSched

/-!
# What a pass of the scheduler does

`find_next_ready_task` goes once around the tasks of the table, from the one behind the
task that was chosen last.  It chooses the first task of the highest priority among those
that can run and raises the priority of all others that can run by one.
-/

namespace Gemios

open Function

/-! ### The tasks in the order of the search -/

/-- The tasks of the table in the order in which the search meets them. -/
def searchOrder (k : Rtos) : List Nat :=
  (usedTasks k.maxTasks k.taskTable).rotate
    ((k.lastScheduledIdx + 1) % (usedTasks k.maxTasks k.taskTable).length)

theorem nodup_usedTasks (maxTasks : Nat) (tab : Nat → Task) : (usedTasks maxTasks tab).Nodup :=
  List.nodup_range.filter _

theorem nodup_searchOrder (k : Rtos) : (searchOrder k).Nodup :=
  List.nodup_rotate.mpr (nodup_usedTasks _ _)

theorem length_searchOrder (k : Rtos) :
    (searchOrder k).length = (usedTasks k.maxTasks k.taskTable).length := List.length_rotate ..

theorem mem_searchOrder {k : Rtos} {t : Nat} :
    t ∈ searchOrder k ↔ t < k.maxTasks ∧ (k.taskTable t).state ≠ .unused := by
  rw [searchOrder, List.mem_rotate, mem_usedTasks]

def Task.aged (a : Task) : Task :=
  if a.Runnable ∧ a.priority < 15 then { a with priority := a.priority + 1 } else a

theorem Task.aged_of_idle {a : Task} (h : ¬ a.Runnable) : a.aged = a := if_neg fun hr => h hr.1

theorem Task.le_aged_priority (a : Task) : a.priority ≤ a.aged.priority := by
  unfold Task.aged
  split
  · exact Nat.le_succ _
  · exact Nat.le_refl _

theorem Task.aged_state (a : Task) : a.aged.state = a.state := by
  unfold Task.aged
  split <;> rfl

/-! ### The loop of the search -/

/-- The search after it has met the first `n` tasks of `R`. -/
structure Searched (tab : Nat → Task) (R : List Nat) (start n : Nat) (st : Search) : Prop where
  table : ∀ u, st.taskTable u = if u ∈ R.take n then (tab u).aged else tab u
  idle : st.bestTask = none → st.highestPriority = -1 ∧ ∀ u ∈ R.take n, ¬ (tab u).Runnable
  best : ∀ t, st.bestTask = some t → ∃ j, j < n ∧ R[j]? = some t ∧ (tab t).Runnable ∧
    st.bestIdx = (start + j) % R.length ∧ st.highestPriority = (tab t).priority ∧
    (∀ u ∈ R.take n, (tab u).Runnable → (tab u).priority ≤ (tab t).priority) ∧
    ∀ u ∈ R.take j, (tab u).Runnable → (tab u).priority < (tab t).priority

theorem searched_zero (tab : Nat → Task) (R : List Nat) (start : Nat) :
    Searched tab R start 0 ⟨tab, none, -1, 0⟩ where
  table := fun u => by simp
  idle := fun _ => ⟨rfl, by simp⟩
  best := fun t ht => by cases ht

theorem findTurn_of_get {maxTasks count start n t : Nat} {st : Search}
    (hget : rtosGetTaskByIndex maxTasks st.taskTable ((start + n) % count) = some t) :
    findTurn maxTasks count start st n =
      if (st.taskTable t).Runnable ∧ ((st.taskTable t).priority : Int) > st.highestPriority then
        ⟨update st.taskTable t (st.taskTable t).aged, some t, (st.taskTable t).priority,
          (start + n) % count⟩
      else
        ⟨update st.taskTable t (st.taskTable t).aged, st.bestTask, st.highestPriority,
          st.bestIdx⟩ := by
  unfold findTurn
  dsimp only
  rw [hget]
  dsimp only
  by_cases hrun : (st.taskTable t).Runnable
  · have hrun' : (st.taskTable t).state = .ready ∨ (st.taskTable t).state = .running := hrun
    by_cases hb : ((st.taskTable t).priority : Int) > st.highestPriority
    · by_cases hp : (st.taskTable t).priority < 15
      · simp only [Task.aged, hrun, hrun', hb, hp, and_self, if_true]
      · simp only [Task.aged, hrun, hrun', hb, hp, and_true, and_false, if_true, if_false,
          update_eq_self]
    · by_cases hp : (st.taskTable t).priority < 15
      · simp only [Task.aged, hrun, hrun', hb, hp, and_true, and_false, if_true, if_false]
      · simp only [Task.aged, hrun, hrun', hb, hp, and_false, if_true, if_false,
          update_eq_self]
  · have hrun' : ¬ ((st.taskTable t).state = .ready ∨ (st.taskTable t).state = .running) := hrun
    simp only [Task.aged, hrun, hrun', false_and, if_false, update_eq_self]

section

variable {maxTasks : Nat} {tab : Nat → Task} {R : List Nat} {start n : Nat} {st : Search}
  (h : Searched tab R start n st) (hnodup : R.Nodup) {t : Nat} (ht : R[n]? = some t)

include hnodup ht

theorem not_mem_take_of_nodup : t ∉ R.take n := by
  intro hmem
  obtain ⟨i, hi, heq⟩ := List.mem_take_iff_getElem.mp hmem
  obtain ⟨hn, hn'⟩ := List.getElem?_eq_some_iff.mp ht
  have := (List.Nodup.getElem_inj_iff hnodup (i := i) (j := n)).mp (heq.trans hn'.symm)
  omega

include h

theorem Searched.next {count : Nat} (hcount : R.length = count)
    (hget : rtosGetTaskByIndex maxTasks st.taskTable ((start + n) % count) = some t) :
    Searched tab R start (n + 1) (findTurn maxTasks count start st n) := by
  have hnot := not_mem_take_of_nodup hnodup ht
  have hsame : st.taskTable t = tab t := by rw [h.table, if_neg hnot]
  have hmem : ∀ u, u ∈ R.take (n + 1) ↔ u ∈ R.take n ∨ u = t := by
    intro u
    rw [List.take_add_one, ht, List.mem_append]
    simp
  have htable : ∀ u, update st.taskTable t (tab t).aged u =
      if u ∈ R.take (n + 1) then (tab u).aged else tab u := by
    intro u
    by_cases hut : u = t
    · subst hut
      rw [update_self, if_pos ((hmem u).mpr (Or.inr rfl))]
    · rw [update_of_ne hut, h.table]
      exact if_congr ((hmem u).trans (or_iff_left hut)).symm rfl rfl
  rw [findTurn_of_get hget, hsame]
  split
  · -- a new best task
    next hbest =>
    obtain ⟨hrun, hgt⟩ := hbest
    have hall : ∀ u ∈ R.take n, (tab u).Runnable → (tab u).priority < (tab t).priority := by
      intro u hu hur
      cases hb : st.bestTask with
      | none => exact absurd hur ((h.idle hb).2 u hu)
      | some b =>
        obtain ⟨_, _, _, _, _, hhigh, hmax, _⟩ := h.best b hb
        have := hmax u hu hur
        rw [hhigh] at hgt
        omega
    refine ⟨htable, fun hn => absurd hn (by simp), fun v hv => ?_⟩
    obtain rfl : t = v := Option.some.inj hv
    refine ⟨n, by omega, ht, hrun, by rw [hcount], rfl, fun u hu hur => ?_, hall⟩
    rcases (hmem u).mp hu with hu | rfl
    · exact Nat.le_of_lt (hall u hu hur)
    · exact Nat.le_refl _
  · next hbest =>
    refine ⟨htable, fun hn => ?_, fun v hv => ?_⟩
    · obtain ⟨hhigh, hall⟩ := h.idle hn
      refine ⟨hhigh, fun u hu hur => ?_⟩
      rcases (hmem u).mp hu with hu | rfl
      · exact hall u hu hur
      · refine hbest ⟨hur, ?_⟩
        rw [hhigh]
        omega
    · obtain ⟨j, hj, hjt, hrun, hidx, hhigh, hmax, hfirst⟩ := h.best v hv
      refine ⟨j, by omega, hjt, hrun, hidx, hhigh, fun u hu hur => ?_, hfirst⟩
      rcases (hmem u).mp hu with hu | rfl
      · exact hmax u hu hur
      · by_contra hlt
        refine hbest ⟨hur, ?_⟩
        rw [hhigh]
        omega

end

theorem searched_loop (k : Rtos) {n : Nat} (hn : n ≤ (searchOrder k).length) :
    Searched k.taskTable (searchOrder k)
      ((k.lastScheduledIdx + 1) % rtosGetTaskCount k.maxTasks k.taskTable) n
      ((List.range n).foldl (findTurn k.maxTasks (rtosGetTaskCount k.maxTasks k.taskTable)
        ((k.lastScheduledIdx + 1) % rtosGetTaskCount k.maxTasks k.taskTable))
        ⟨k.taskTable, none, -1, 0⟩) := by
  induction n with
  | zero => exact searched_zero _ _ _
  | succ n ih =>
    have h := ih (by omega)
    rw [List.range_succ, List.foldl_append, List.foldl_cons, List.foldl_nil]
    obtain ⟨t, ht⟩ : ∃ t, (searchOrder k)[n]? = some t :=
      ⟨_, List.getElem?_eq_getElem (by omega)⟩
    generalize hst : (List.range n).foldl _ _ = st at h ⊢
    have hcount : (searchOrder k).length = rtosGetTaskCount k.maxTasks k.taskTable := by
      rw [length_searchOrder, rtosGetTaskCount_eq]
    refine h.next (nodup_searchOrder k) ht hcount ?_
    -- the numbering of the tasks does not change
    have hused : usedTasks k.maxTasks st.taskTable = usedTasks k.maxTasks k.taskTable := by
      refine usedTasks_congr k.maxTasks fun u => ?_
      rw [h.table]
      split
      · rw [Task.aged_state]
      · exact Iff.rfl
    rw [rtosGetTaskByIndex_eq, hused]
    rw [searchOrder, List.getElem?_rotate (by rw [← length_searchOrder]; omega)] at ht
    rw [rtosGetTaskCount_eq, Nat.add_comm]
    exact ht

/-- **What `find_next_ready_task` chooses**, and what it leaves of the table, when some task
    can run. -/
structure Selected (k k' : Rtos) (t : Nat) : Prop where
  bound : t < k.maxTasks
  runnable : (k.taskTable t).Runnable
  place : ∃ j, (searchOrder k)[j]? = some t ∧
    k'.lastScheduledIdx = (k.lastScheduledIdx + 1 + j) % (searchOrder k).length ∧
    ∀ u ∈ (searchOrder k).take j, (k.taskTable u).Runnable →
      (k.taskTable u).priority < (k.taskTable t).priority
  maximal : ∀ u, u < k.maxTasks → (k.taskTable u).Runnable →
    (k.taskTable u).priority ≤ (k.taskTable t).priority
  self : k'.taskTable t = { k.taskTable t with priority := (k.taskTable t).basePriority }
  others : ∀ u, u ≠ t →
    k'.taskTable u = if u < k.maxTasks then (k.taskTable u).aged else k.taskTable u

theorem searched_table {k : Rtos} {start : Nat} {st : Search}
    (h : Searched k.taskTable (searchOrder k) start (searchOrder k).length st) (v : Nat) :
    st.taskTable v = if v < k.maxTasks then (k.taskTable v).aged else k.taskTable v := by
  rw [h.table, List.take_length]
  by_cases hv : v < k.maxTasks
  · rw [if_pos hv]
    by_cases hvu : (k.taskTable v).state = .unused
    · have hidle : ¬ (k.taskTable v).Runnable := fun hr => hr.ne_unused hvu
      rw [Task.aged_of_idle hidle, ite_self]
    · rw [if_pos (mem_searchOrder.mpr ⟨hv, hvu⟩)]
  · rw [if_neg hv, if_neg fun hm => hv (mem_searchOrder.mp hm).1]

theorem findNextReadyTask_none {k : Rtos}
    (hnone : ∀ u, u < k.maxTasks → ¬ (k.taskTable u).Runnable) :
    findNextReadyTask k = (k, k.idleTask) := by
  unfold findNextReadyTask
  dsimp only
  split
  · rfl
  · have hcount : (searchOrder k).length = rtosGetTaskCount k.maxTasks k.taskTable := by
      rw [length_searchOrder, rtosGetTaskCount_eq]
    have h := searched_loop k (Nat.le_refl (searchOrder k).length)
    rw [hcount] at h
    generalize (List.range _).foldl _ _ = st at h ⊢
    rw [← hcount] at h
    cases hb : st.bestTask with
    | none =>
      dsimp only
      have htab : st.taskTable = k.taskTable := by
        funext v
        rw [searched_table h]
        split
        · next hv => exact Task.aged_of_idle (hnone v hv)
        · rfl
      rw [htab]
    | some t =>
      obtain ⟨j, _, hjt, hrun, _⟩ := h.best t hb
      exact absurd hrun (hnone t (mem_searchOrder.mp (List.mem_of_getElem? hjt)).1)

theorem findNextReadyTask_selected {k : Rtos} {u : Nat} (hu : u < k.maxTasks)
    (hrun : (k.taskTable u).Runnable) :
    Selected k (findNextReadyTask k).1 (findNextReadyTask k).2 := by
  have hmem : u ∈ searchOrder k := mem_searchOrder.mpr ⟨hu, hrun.ne_unused⟩
  have hcount : (searchOrder k).length = rtosGetTaskCount k.maxTasks k.taskTable := by
    rw [length_searchOrder, rtosGetTaskCount_eq]
  have hpos : 0 < (searchOrder k).length := List.length_pos_of_mem hmem
  have h := searched_loop k (Nat.le_refl (searchOrder k).length)
  rw [hcount] at h
  unfold findNextReadyTask
  dsimp only
  rw [if_neg (by omega)]
  generalize hst : (List.range _).foldl _ _ = st at h ⊢
  rw [← hcount] at h
  have htable := searched_table h
  cases hb : st.bestTask with
  | none =>
    refine absurd hrun ((h.idle hb).2 u ?_)
    rw [List.take_length]
    exact hmem
  | some t =>
    obtain ⟨j, hj, hjt, htrun, hidx, _, hmax, hfirst⟩ := h.best t hb
    have hage : ({ st.taskTable t with priority := (st.taskTable t).basePriority } : Task) =
        { k.taskTable t with priority := (k.taskTable t).basePriority } := by
      rw [htable]
      split
      · unfold Task.aged
        split <;> rfl
      · rfl
    dsimp only
    refine ⟨(mem_searchOrder.mp (List.mem_of_getElem? hjt)).1, htrun, ⟨j, hjt, ?_, hfirst⟩, fun v hv hvr => ?_, ?_, fun v hv => ?_⟩
    · dsimp only
      rw [hidx, Nat.mod_add_mod]
    · refine hmax v ?_ hvr
      rw [List.take_length]
      exact mem_searchOrder.mpr ⟨hv, hvr.ne_unused⟩
    · dsimp only
      rw [update_self]
      exact hage
    · dsimp only
      rw [update_of_ne hv, htable]

/-! ### The timer tick -/

def Task.ticked (a : Task) : Task :=
  if a.state = .sleeping then
    if a.sleepTicks > 0 then
      { a with
        sleepTicks := a.sleepTicks - 1
        state := if a.sleepTicks - 1 = 0 then .ready else a.state }
    else a
  else a

theorem Task.ticked_of_awake {a : Task} (h : a.state ≠ .sleeping) : a.ticked = a := if_neg h

theorem Task.ticked_unused {a : Task} : a.ticked.state = .unused ↔ a.state = .unused := by
  unfold Task.ticked
  split
  · next h =>
    split
    · dsimp only
      split <;> simp [h]
    · exact Iff.rfl
  · exact Iff.rfl

theorem tickTurn_eq (maxTasks : Nat) (tab : Nat → Task) (i : Nat) :
    tickTurn maxTasks tab i =
      ((rtosGetTaskByIndex maxTasks tab i).toList).foldl
        (fun tab t => update tab t (tab t).ticked) tab := by
  unfold tickTurn
  cases rtosGetTaskByIndex maxTasks tab i with
  | none => rfl
  | some t =>
    dsimp only [Option.toList, List.foldl_cons, List.foldl_nil, Task.ticked]
    split
    · split
      · rfl
      · exact (update_eq_self t tab).symm
    · exact (update_eq_self t tab).symm

theorem foldl_update_nodup {α : Type} (f : α → α) {ts : List Nat} (hnd : ts.Nodup)
    (tab : Nat → α) (u : Nat) :
    ts.foldl (fun tab t => update tab t (f (tab t))) tab u =
      if u ∈ ts then f (tab u) else tab u := by
  induction ts generalizing tab with
  | nil => simp
  | cons t ts ih =>
    rw [List.nodup_cons] at hnd
    rw [List.foldl_cons, ih hnd.2]
    by_cases hu : u = t
    · subst hu
      rw [if_neg hnd.1, if_pos List.mem_cons_self, update_self]
    · rw [update_of_ne hu]
      exact if_congr (List.mem_cons.trans (or_iff_right hu)).symm rfl rfl

theorem foldl_tickTurn (maxTasks : Nat) (tab : Nat → Task) (n : Nat) :
    (List.range n).foldl (tickTurn maxTasks) tab =
      ((usedTasks maxTasks tab).take n).foldl
        (fun tab t => update tab t (tab t).ticked) tab := by
  induction n with
  | zero => rfl
  | succ n ih =>
    rw [List.range_succ, List.foldl_append, ih, List.take_add_one, List.foldl_append]
    have hnd : ((usedTasks maxTasks tab).take n).Nodup :=
      (nodup_usedTasks maxTasks tab).sublist (List.take_sublist _ _)
    have hused : usedTasks maxTasks (((usedTasks maxTasks tab).take n).foldl
        (fun tab t => update tab t (tab t).ticked) tab) = usedTasks maxTasks tab := by
      refine usedTasks_congr maxTasks fun t => ?_
      rw [foldl_update_nodup _ hnd]
      split
      · exact Task.ticked_unused
      · exact Iff.rfl
    rw [List.foldl_cons, List.foldl_nil, tickTurn_eq, rtosGetTaskByIndex_eq, hused]

theorem tickTasks_task (k : Rtos) (t : Nat) :
    (tickTasks k).taskTable t =
      if t < k.maxTasks then (k.taskTable t).ticked else k.taskTable t := by
  dsimp only [tickTasks]
  rw [foldl_tickTurn, rtosGetTaskCount_eq, List.take_length,
    foldl_update_nodup _ (nodup_usedTasks _ _)]
  by_cases ht : t < k.maxTasks
  · rw [if_pos ht]
    by_cases hu : (k.taskTable t).state = .unused
    · have hawake : (k.taskTable t).state ≠ .sleeping := by simp [hu]
      rw [Task.ticked_of_awake hawake, ite_self]
    · rw [if_pos (mem_usedTasks.mpr ⟨ht, hu⟩)]
  · rw [if_neg ht, if_neg fun hm => ht (mem_usedTasks.mp hm).1]

/-! ### The states after a pass -/

theorem chargeTick_state (k : Rtos) (t : Nat) :
    ((chargeTick k).taskTable t).state = (k.taskTable t).state := by
  unfold chargeTick
  split
  · next c _ =>
    dsimp only [Rtos.setTask]
    by_cases ht : t = c
    · rw [ht, update_self]
    · rw [update_of_ne ht]
  · rfl

theorem setTask_state (k : Rtos) (t u : Nat) (st : TaskState) :
    ((k.setTask t { k.taskTable t with state := st }).taskTable u).state =
      if u = t then st else (k.taskTable u).state := by
  dsimp only [Rtos.setTask]
  by_cases hu : u = t
  · rw [if_pos hu, hu, update_self]
  · rw [if_neg hu, update_of_ne hu]

theorem switchTask_state {k : Rtos} {prev : Option Nat} {next : Nat} (h : prev ≠ some next)
    (u : Nat) :
    ((switchTask k prev next).taskTable u).state =
      if u = next then .running
      else if prev = some u ∧ (k.taskTable u).state = .running then .ready
      else (k.taskTable u).state := by
  unfold switchTask
  rw [if_neg h]
  dsimp only
  refine (setTask_state _ next u .running).trans ?_
  by_cases hu : u = next
  · rw [if_pos hu, if_pos hu]
  · rw [if_neg hu, if_neg hu]
    cases prev with
    | none => rw [if_neg fun h => absurd h.1 (by simp)]
    | some p =>
      dsimp only
      by_cases hp : (k.taskTable p).state = .running
      · rw [if_pos hp, setTask_state]
        by_cases hup : u = p
        · rw [if_pos hup, if_pos ⟨by rw [hup], by rw [hup]; exact hp⟩]
        · rw [if_neg hup, if_neg fun h => hup (Option.some.inj h.1).symm]
      · rw [if_neg hp, if_neg]
        rintro ⟨hpu, hr⟩
        cases hpu
        exact hp hr

theorem findNextReadyTask_state {k : Rtos} {v : Nat} (hv : v < k.maxTasks)
    (hrun : (k.taskTable v).Runnable) (u : Nat) :
    ((findNextReadyTask k).1.taskTable u).state = (k.taskTable u).state := by
  have hsel := findNextReadyTask_selected hv hrun
  by_cases hu : u = (findNextReadyTask k).2
  · rw [hu, hsel.self]
  · rw [hsel.others u hu]
    split
    · exact Task.aged_state _
    · rfl

/-- What a pass does to the states: it puts a task `c` that can run on the CPU. -/
structure PassTo (k k' : Rtos) (c : Nat) : Prop where
  current : k'.currentTask = some c
  bound : c < k.maxTasks
  runnable : (k.taskTable c).Runnable
  stay : k.currentTask = some c → ∀ u, (k'.taskTable u).state = (k.taskTable u).state
  switch : k.currentTask ≠ some c → ∀ u, (k'.taskTable u).state =
    if u = c then .running
    else if k.currentTask = some u ∧ (k.taskTable u).state = .running then .ready
    else (k.taskTable u).state

theorem passTo_find {k : Rtos} {v : Nat} (hv : v < k.maxTasks) (hrun : (k.taskTable v).Runnable) :
    PassTo k (switchTask (findNextReadyTask k).1 k.currentTask (findNextReadyTask k).2)
      (findNextReadyTask k).2 := by
  have hsel := findNextReadyTask_selected hv hrun
  have hstate := findNextReadyTask_state hv hrun
  refine ⟨switchTask_current _ _ _ (findNextReadyTask_current k), hsel.bound, hsel.runnable,
    fun hc u => ?_, fun hc u => ?_⟩
  · unfold switchTask
    rw [if_pos hc]
    exact hstate u
  · rw [switchTask_state hc, hstate]

/-- The state in which `find_next_ready_task` is called. -/
def Rtos.entry (k : Rtos) (intNo : Nat) : Rtos := chargeTick (if intNo = 32 then tickTasks k else k)

theorem rtosScheduleFromIsr_passTo {k : Rtos} (hrunning : k.schedulerRunning = true) (intNo : Nat)
    {v : Nat} (hv : v < k.maxTasks) (hrun : (k.taskTable v).Runnable) :
    PassTo (k.entry intNo) (rtosScheduleFromIsr k intNo) (findNextReadyTask (k.entry intNo)).2 := by
  have hentry : v < (k.entry intNo).maxTasks ∧ ((k.entry intNo).taskTable v).Runnable := by
    unfold Rtos.entry Task.Runnable
    rw [(chargeTick_frame _).maxTasks, chargeTick_state]
    split
    · have hawake : (k.taskTable v).state ≠ .sleeping := by
        rcases hrun with h | h <;> simp [h]
      rw [(tickTasks_frame k).maxTasks, tickTasks_task, if_pos hv, Task.ticked_of_awake hawake]
      exact ⟨hv, hrun⟩
    · exact ⟨hv, hrun⟩
  have hpass := passTo_find hentry.1 hentry.2
  unfold rtosScheduleFromIsr
  rw [if_pos hrunning]
  exact hpass

theorem entry_state (k : Rtos) (intNo u : Nat) :
    ((k.entry intNo).taskTable u).state = (k.taskTable u).state ∨
      intNo = 32 ∧ (k.taskTable u).state = .sleeping ∧ (k.taskTable u).sleepTicks = 1 ∧
        ((k.entry intNo).taskTable u).state = .ready := by
  unfold Rtos.entry
  rw [chargeTick_state]
  split
  · next hint =>
    rw [tickTasks_task]
    split
    · unfold Task.ticked
      split
      · next hsleep =>
        split
        · next hpos =>
          dsimp only
          split
          · next hone => exact Or.inr ⟨hint, hsleep, by omega, rfl⟩
          · exact Or.inl rfl
        · exact Or.inl rfl
      · exact Or.inl rfl
    · exact Or.inl rfl
  · exact Or.inl rfl

theorem entry_current (k : Rtos) (intNo : Nat) : (k.entry intNo).currentTask = k.currentTask := by
  unfold Rtos.entry
  rw [chargeTick_current]
  split
  · rfl
  · rfl

namespace PassTo

variable {k k' : Rtos} {c u : Nat} (h : PassTo k k' c)

include h

theorem runnable_of (hu : (k.taskTable u).Runnable) : (k'.taskTable u).Runnable := by
  unfold Task.Runnable
  by_cases hc : k.currentTask = some c
  · rw [h.stay hc]
    exact hu
  · rw [h.switch hc]
    split
    · exact Or.inr rfl
    · split
      · exact Or.inl rfl
      · exact hu

theorem state_of_not (hu : ¬ (k.taskTable u).Runnable) :
    (k'.taskTable u).state = (k.taskTable u).state := by
  by_cases hc : k.currentTask = some c
  · exact h.stay hc u
  · rw [h.switch hc, if_neg, if_neg]
    · exact fun hr => hu (Or.inr hr.2)
    · exact fun huc => hu (huc ▸ h.runnable)

theorem running_iff (honly : ∀ v, (k.taskTable v).state = .running → k.currentTask = some v)
    (hcur : ∀ v, k.currentTask = some v → (k.taskTable v).state ≠ .ready) :
    (k'.taskTable u).state = .running ↔ u = c := by
  by_cases hc : k.currentTask = some c
  · rw [h.stay hc]
    refine ⟨fun hu => Option.some.inj ((honly u hu).symm.trans hc), fun hu => ?_⟩
    rw [hu]
    exact h.runnable.resolve_left (hcur c hc)
  · rw [h.switch hc]
    by_cases hu : u = c
    · rw [if_pos hu]
      exact ⟨fun _ => hu, fun _ => rfl⟩
    · rw [if_neg hu]
      refine ⟨fun hr => ?_, fun huc => absurd huc hu⟩
      split at hr
      · cases hr
      · next hno => exact absurd ⟨honly u hr, hr⟩ hno

end PassTo

end Gemios
