import Mathlib.Logic.Relation
import Gemios.RtosPass
import Gemios.RtosTask
import Gemios.RtosPriority

/-!
# No task starves

Every call of `find_next_ready_task` that passes over a task that can run raises its
priority by one, up to 15.  From then on only tasks behind the one chosen last and before
it can be chosen in its place, and each of them only once.
-/

namespace Gemios

open Function

/-! ### The task table -/

/-- What holds of every task table.  The slots in use are the first ones, because
    `rtos_task_create` takes the first free slot and no slot becomes `UNUSED` again. -/
structure Rtos.TableOk (k : Rtos) : Prop where
  packed : ∀ t u, t ≤ u → u < k.maxTasks → (k.taskTable u).state ≠ .unused →
    (k.taskTable t).state ≠ .unused
  priority : ∀ t, (k.taskTable t).priority ≤ 15
  base : ∀ t, (k.taskTable t).basePriority ≤ 15

theorem tableOk_empty {k : Rtos}
    (h : ∀ t, k.taskTable t = ⟨.unused, 0, 0, 0, 0, none, none⟩) : k.TableOk where
  packed := fun _ u _ _ hu => absurd (by rw [h u]) hu
  priority := fun t => by
    rw [h t]
    exact Nat.zero_le _
  base := fun t => by
    rw [h t]
    exact Nat.zero_le _

theorem filter_range_of_down {p : Nat → Bool} (n : Nat)
    (h : ∀ t u, t ≤ u → u < n → p u = true → p t = true) :
    (List.range n).filter p = List.range ((List.range n).filter p).length := by
  induction n with
  | zero => rfl
  | succ n ih =>
    rw [List.range_succ, List.filter_append]
    by_cases hp : p n = true
    · have hall : (List.range n).filter p = List.range n := by
        refine List.filter_eq_self.mpr fun t ht => ?_
        exact h t n (Nat.le_of_lt (List.mem_range.mp ht)) (Nat.lt_succ_self n) hp
      rw [hall, List.filter_cons_of_pos hp, List.filter_nil, ← List.range_succ, List.length_range]
    · rw [List.filter_cons_of_neg hp, List.filter_nil, List.append_nil]
      exact ih fun t u htu hu => h t u htu (Nat.lt_succ_of_lt hu)

theorem rtosGetTaskCount_le (k : Rtos) :
    rtosGetTaskCount k.maxTasks k.taskTable ≤ k.maxTasks := by
  rw [rtosGetTaskCount_eq]
  exact (List.length_filter_le _ _).trans (Nat.le_of_eq List.length_range)

namespace Rtos.TableOk

variable {k : Rtos} (h : k.TableOk)

include h

theorem usedTasks_eq : usedTasks k.maxTasks k.taskTable =
    List.range (rtosGetTaskCount k.maxTasks k.taskTable) := by
  rw [rtosGetTaskCount_eq]
  refine filter_range_of_down k.maxTasks fun t u htu hu hp => ?_
  rw [decide_eq_true_iff] at hp ⊢
  exact h.packed t u htu hu hp

theorem lt_count {t : Nat} (ht : t < k.maxTasks) (hu : (k.taskTable t).state ≠ .unused) :
    t < rtosGetTaskCount k.maxTasks k.taskTable := by
  have hmem := mem_usedTasks.mpr ⟨ht, hu⟩
  rw [h.usedTasks_eq] at hmem
  exact List.mem_range.mp hmem

theorem used_of_lt {t : Nat} (ht : t < rtosGetTaskCount k.maxTasks k.taskTable) :
    t < k.maxTasks ∧ (k.taskTable t).state ≠ .unused := by
  have hmem := List.mem_range.mpr ht
  rw [← h.usedTasks_eq] at hmem
  exact mem_usedTasks.mp hmem

theorem searchOrder_get {j : Nat} (hj : j < rtosGetTaskCount k.maxTasks k.taskTable) :
    (searchOrder k)[j]? =
      some ((k.lastScheduledIdx + 1 + j) % rtosGetTaskCount k.maxTasks k.taskTable) := by
  rw [searchOrder, h.usedTasks_eq, List.length_range, List.getElem?_rotate (by simpa using hj),
    List.length_range, Nat.add_mod_mod, Nat.add_comm j]
  exact List.getElem?_range (Nat.mod_lt _ (Nat.zero_lt_of_lt hj))

end Rtos.TableOk

/-! ### What the other tasks can do between two calls -/

/-- One thing that happens between two calls of `find_next_ready_task` while the task `T`
    is not on the CPU.  A slot that is written to is in use, and `T` is not killed. -/
inductive Change (T : Nat) : Rtos → Rtos → Prop
  | create (k : Rtos) (priority : Nat) (stack : Bool)
      (h : (rtosTaskCreate k priority stack).2 ≠ some T) :
      Change T k (rtosTaskCreate k priority stack).1
  | terminate (k : Rtos) {u : Nat} (hu : (k.taskTable u).state ≠ .unused) (h : u ≠ T) :
      Change T k (killTask k u)
  /-- The first part of `rtos_task_block`, also in `rtos_event_wait`. -/
  | block (k : Rtos) {u : Nat} (o : Obj) (hu : (k.taskTable u).state ≠ .unused) :
      Change T k (k.setTask u { k.taskTable u with state := .blocked, waitObject := some o })
  /-- The first part of `rtos_task_unblock`. -/
  | unblock (k : Rtos) {u : Nat} (hu : (k.taskTable u).state ≠ .unused) :
      Change T k (k.setTask u { k.taskTable u with state := .ready, waitObject := none })
  | delay (k : Rtos) (ticks : Nat)
      (hu : ∀ c, k.currentTask = some c → (k.taskTable c).state ≠ .unused) :
      Change T k (rtosDelayTicks k ticks)
  | eventSet (k : Rtos) (e : Nat) (mask : BitVec 32) : Change T k (rtosEventSet k e mask)
  | addWaiter (k : Rtos) (w : WaitQueue) (u : Nat) :
      Change T k { k with taskTable := (addWaiter k.taskTable w u).1 }
  | popWaiter (k : Rtos) (w : WaitQueue) :
      Change T k { k with taskTable := (popWaiter k.taskTable w).2.1 }
  /-- Priority inheritance in `rtos_mutex_lock`. -/
  | boost (k : Rtos) (cur owner : Option Nat) :
      Change T k { k with taskTable := boostOwner k.taskTable cur owner }
  /-- `rtos_mutex_unlock` of a mutex that another task owns. -/
  | restore (k : Rtos) {owner : Option Nat} (h : owner ≠ some T) :
      Change T k { k with taskTable := restoreOwner k.taskTable owner }
  | objects (k : Rtos) (sems : Nat → Sem) (mutexes : Nat → Mutex) (events : Nat → Event) :
      Change T k { k with sems := sems, mutexes := mutexes, events := events }
  | tick (k : Rtos) : Change T k (tickTasks k)
  | charge (k : Rtos) : Change T k (chargeTick k)
  | switch (k : Rtos) (prev : Option Nat) {next : Nat}
      (hu : (k.taskTable next).state ≠ .unused) : Change T k (switchTask k prev next)

/-- What the other tasks do between two calls. -/
def Between (T : Nat) : Rtos → Rtos → Prop := Relation.ReflTransGen (Change T)

/-- What follows from it for the task `T`. -/
structure Aside (T : Nat) (k k' : Rtos) : Prop where
  maxTasks : k'.maxTasks = k.maxTasks
  last : k'.lastScheduledIdx = k.lastScheduledIdx
  used : ∀ u, (k.taskTable u).state ≠ .unused → (k'.taskTable u).state ≠ .unused
  table : k.TableOk → k'.TableOk
  priority : (k.taskTable T).priority ≤ (k'.taskTable T).priority

namespace Aside

variable {T : Nat} {k k' k₁ k₂ k₃ : Rtos}

theorem refl (T : Nat) (k : Rtos) : Aside T k k :=
  ⟨rfl, rfl, fun _ h => h, fun h => h, Nat.le_refl _⟩

theorem trans (h₁ : Aside T k₁ k₂) (h₂ : Aside T k₂ k₃) : Aside T k₁ k₃ where
  maxTasks := h₂.maxTasks.trans h₁.maxTasks
  last := h₂.last.trans h₁.last
  used := fun u hu => h₂.used u (h₁.used u hu)
  table := fun h => h₂.table (h₁.table h)
  priority := h₁.priority.trans h₂.priority

theorem of_tasks (hmax : k'.maxTasks = k.maxTasks) (hlast : k'.lastScheduledIdx = k.lastScheduledIdx)
    (hused : ∀ u, (k'.taskTable u).state = .unused ↔ (k.taskTable u).state = .unused)
    (hbase : ∀ u, (k'.taskTable u).basePriority = (k.taskTable u).basePriority)
    (hprio : k.TableOk → ∀ u, (k'.taskTable u).priority ≤ 15)
    (hT : (k.taskTable T).priority ≤ (k'.taskTable T).priority) : Aside T k k' where
  maxTasks := hmax
  last := hlast
  used := fun u hu h => hu ((hused u).mp h)
  table := by
    intro h
    refine ⟨fun t u htu hu hne => ?_, hprio h, fun t => ?_⟩
    · rw [hmax] at hu
      rw [ne_eq, hused] at hne ⊢
      exact h.packed t u htu hu hne
    · rw [hbase]
      exact h.base t
  priority := hT

theorem of_same (hmax : k'.maxTasks = k.maxTasks) (hlast : k'.lastScheduledIdx = k.lastScheduledIdx)
    (h : ∀ u, ((k'.taskTable u).state = .unused ↔ (k.taskTable u).state = .unused) ∧
      (k'.taskTable u).basePriority = (k.taskTable u).basePriority ∧
      (k'.taskTable u).priority = (k.taskTable u).priority) : Aside T k k' := by
  refine of_tasks hmax hlast (fun u => (h u).1) (fun u => (h u).2.1) (fun hk u => ?_) ?_
  · rw [(h u).2.2]
    exact hk.priority u
  · rw [(h T).2.2]

theorem of_mark {u : Nat} {task : Task} (hu : (k.taskTable u).state ≠ .unused)
    (hstate : task.state ≠ .unused) (hbase : task.basePriority = (k.taskTable u).basePriority)
    (hprio : task.priority = (k.taskTable u).priority) : Aside T k (k.setTask u task) := by
  refine of_same rfl rfl fun v => ?_
  dsimp only [Rtos.setTask]
  by_cases hv : v = u
  · subst hv
    rw [update_self]
    exact ⟨⟨fun h => absurd h hstate, fun h => absurd h hu⟩, hbase, hprio⟩
  · rw [update_of_ne hv]
    exact ⟨Iff.rfl, rfl, rfl⟩

theorem create {priority : Nat} {stack : Bool} (h : (rtosTaskCreate k priority stack).2 ≠ some T) :
    Aside T k (rtosTaskCreate k priority stack).1 := by
  rcases rtosTaskCreate_cases k priority stack with heq | ⟨t, p, hfree, hp, heq⟩
  · rw [heq]
    exact refl T k
  · have hT : T ≠ t := fun hTt => h (by rw [heq, hTt])
    obtain ⟨_, _, hbefore⟩ := freeSlot_some hfree
    have hself : (k.setTask t (newTask p)).taskTable t = newTask p := update_self _ _ _
    have hother : ∀ u, u ≠ t → (k.setTask t (newTask p)).taskTable u = k.taskTable u :=
      fun u hu => update_of_ne hu _ _
    have hused : ∀ u, (k.taskTable u).state ≠ .unused →
        ((k.setTask t (newTask p)).taskTable u).state ≠ .unused := by
      intro u hu
      by_cases hut : u = t
      · rw [hut, hself]
        simp [newTask]
      · rw [hother u hut]
        exact hu
    rw [heq]
    refine ⟨rfl, rfl, hused, fun hk => ⟨fun u v huv hv hvu => ?_, fun u => ?_, fun u => ?_⟩, ?_⟩
    · -- the slots before the new task are in use
      by_cases hvt : v = t
      · by_cases hut : u = t
        · rw [hut]
          rw [hvt] at hvu
          exact hvu
        · exact hused u (hbefore u (by omega))
      · rw [hother v hvt] at hvu
        exact hused u (hk.packed u v huv hv hvu)
    · by_cases hut : u = t
      · rw [hut, hself]
        exact hp
      · rw [hother u hut]
        exact hk.priority u
    · by_cases hut : u = t
      · rw [hut, hself]
        exact hp
      · rw [hother u hut]
        exact hk.base u
    · rw [hother T hT]

theorem eventSet (e : Nat) (mask : BitVec 32) : Aside T k (rtosEventSet k e mask) := by
  refine of_same rfl rfl fun u => ?_
  rw [rtosEventSet_task]
  split
  · next h => exact ⟨by simp [Task.woken, h.2.1], rfl, rfl⟩
  · exact ⟨Iff.rfl, rfl, rfl⟩

theorem addWaiter (w : WaitQueue) (u : Nat) :
    Aside T k { k with taskTable := (addWaiter k.taskTable w u).1 } := by
  refine of_same rfl rfl fun v => ?_
  dsimp only
  rw [Waiting.addWaiter_same]
  exact ⟨Iff.rfl, rfl, rfl⟩

theorem popWaiter (w : WaitQueue) :
    Aside T k { k with taskTable := (popWaiter k.taskTable w).2.1 } := by
  refine of_same rfl rfl fun v => ?_
  unfold Gemios.popWaiter
  cases w.waitHead with
  | none => exact ⟨Iff.rfl, rfl, rfl⟩
  | some u =>
    dsimp only
    by_cases hv : v = u
    · rw [hv, update_self]
      exact ⟨Iff.rfl, rfl, rfl⟩
    · rw [update_of_ne hv]
      exact ⟨Iff.rfl, rfl, rfl⟩

theorem of_priority {o p : Nat} (hT : (k.taskTable o).priority ≤ p ∨ o ≠ T) (hp : k.TableOk → p ≤ 15) :
    Aside T k (k.setTask o { k.taskTable o with priority := p }) := by
  have hother : ∀ u, u ≠ o → (k.setTask o { k.taskTable o with priority := p }).taskTable u =
      k.taskTable u := fun u hu => update_of_ne hu _ _
  have hself : (k.setTask o { k.taskTable o with priority := p }).taskTable o =
      { k.taskTable o with priority := p } := update_self _ _ _
  refine of_tasks rfl rfl (fun u => ?_) (fun u => ?_) (fun hk u => ?_) ?_
  · by_cases hu : u = o
    · rw [hu, hself]
    · rw [hother u hu]
  · by_cases hu : u = o
    · rw [hu, hself]
    · rw [hother u hu]
  · by_cases hu : u = o
    · rw [hu, hself]
      exact hp hk
    · rw [hother u hu]
      exact hk.priority u
  · by_cases hu : T = o
    · rw [hu, hself]
      exact hT.resolve_right fun h => h hu.symm
    · rw [hother T hu]

theorem boost (cur owner : Option Nat) :
    Aside T k { k with taskTable := boostOwner k.taskTable cur owner } := by
  cases cur with
  | none => exact refl T k
  | some c =>
    cases owner with
    | none => exact refl T k
    | some o =>
      dsimp only [boostOwner]
      split
      · next hgt => exact of_priority (Or.inl (Nat.le_of_lt hgt)) fun hk => hk.priority c
      · exact refl T k

theorem restore {owner : Option Nat} (h : owner ≠ some T) :
    Aside T k { k with taskTable := restoreOwner k.taskTable owner } := by
  cases owner with
  | none => exact refl T k
  | some o => exact of_priority (Or.inr fun ho => h (by rw [ho])) fun hk => hk.base o

theorem delay {ticks : Nat} (hu : ∀ c, k.currentTask = some c → (k.taskTable c).state ≠ .unused) :
    Aside T k (rtosDelayTicks k ticks) := by
  unfold rtosDelayTicks
  split
  · exact refl T k
  · cases hc : k.currentTask with
    | none => exact refl T k
    | some c =>
      refine of_mark (hu c hc) ?_ rfl rfl
      simp

theorem of_frame (hf : Frame k k') (hlast : k'.lastScheduledIdx = k.lastScheduledIdx)
    (hprio : ∀ u, (k'.taskTable u).priority = (k.taskTable u).priority) : Aside T k k' :=
  of_same hf.maxTasks hlast fun u => ⟨(hf.kept u).unused, (hf.kept u).basePriority, hprio u⟩

theorem charge : Aside T k (chargeTick k) := by
  refine of_frame (chargeTick_frame k) ?_ fun u => ?_
  · unfold chargeTick
    split <;> rfl
  · obtain ⟨r, hr⟩ := chargeTick_task k u
    rw [hr]

theorem switch (prev : Option Nat) {next : Nat} (hu : (k.taskTable next).state ≠ .unused) :
    Aside T k (switchTask k prev next) := by
  have hrun : ∀ k₁ : Rtos, Aside T k k₁ → Aside T k { k₁.setTask next
      { k₁.taskTable next with state := .running } with currentTask := some next } := by
    intro k₁ h₁
    have h₂ : Aside T k₁ (k₁.setTask next { k₁.taskTable next with state := .running }) :=
      of_mark (h₁.used next hu) (by simp) rfl rfl
    have h := h₁.trans h₂
    refine ⟨h.maxTasks, h.last, h.used, fun hk => ?_, h.priority⟩
    exact ⟨(h.table hk).packed, (h.table hk).priority, (h.table hk).base⟩
  unfold switchTask
  split
  · exact refl T k
  · refine hrun _ ?_
    cases prev with
    | none => exact refl T k
    | some p =>
      dsimp only
      split
      · next hp => exact of_mark (by simp [hp]) (by simp) rfl rfl
      · exact refl T k

end Aside

theorem Change.aside {T : Nat} {k k' : Rtos} (h : Change T k k') : Aside T k k' := by
  cases h with
  | create priority stack h => exact Aside.create h
  | terminate hu h =>
    refine Aside.of_mark hu ?_ rfl rfl
    simp
  | block o hu =>
    refine Aside.of_mark hu ?_ rfl rfl
    simp
  | unblock hu =>
    refine Aside.of_mark hu ?_ rfl rfl
    simp
  | delay ticks hu => exact Aside.delay hu
  | eventSet e mask => exact Aside.eventSet e mask
  | addWaiter w u => exact Aside.addWaiter w u
  | popWaiter w => exact Aside.popWaiter w
  | boost cur owner => exact Aside.boost cur owner
  | restore h => exact Aside.restore h
  | objects sems mutexes events => exact Aside.of_same rfl rfl fun u => ⟨Iff.rfl, rfl, rfl⟩
  | tick => exact Aside.of_frame (tickTasks_frame k) rfl (tickTasks_priority k)
  | charge => exact Aside.charge
  | switch prev hu => exact Aside.switch prev hu

theorem Between.aside {T : Nat} {k k' : Rtos} (h : Between T k k') : Aside T k k' := by
  induction h with
  | refl => exact Aside.refl T k
  | tail _ hc ih => exact ih.trans hc.aside

/-! ### The tasks that the search meets before another -/

/-- How many of `n` slots come before the slot `t` when one starts at `start` and goes
    around. -/
def ahead (n start t : Nat) : Nat := if start ≤ t then t - start else t + n - start

section

variable {n n' start j t last : Nat}

theorem add_mod_cases (hs : start < n) (hj : j < n) :
    start + j < n ∧ (start + j) % n = start + j ∨
      n ≤ start + j ∧ (start + j) % n = start + j - n := by
  rcases Nat.lt_or_ge (start + j) n with h | h
  · exact Or.inl ⟨h, Nat.mod_eq_of_lt h⟩
  · refine Or.inr ⟨h, ?_⟩
    rw [Nat.mod_eq_sub_mod h]
    exact Nat.mod_eq_of_lt (by omega)

theorem ahead_lt (hs : start < n) (ht : t < n) : ahead n start t < n := by
  unfold ahead
  split <;> omega

theorem add_ahead (hs : start < n) (ht : t < n) : (start + ahead n start t) % n = t := by
  have hlt := ahead_lt hs ht
  have hcases : ahead n start t = t - start ∧ start ≤ t ∨ ahead n start t = t + n - start ∧ t < start := by
    unfold ahead
    split <;> omega
  rcases add_mod_cases hs hlt with ⟨hc, h⟩ | ⟨hc, h⟩
  · rw [h]
    omega
  · rw [h]
    omega

theorem ahead_step (hs : start < n) (ht : t < n) (hj : j < ahead n start t) :
    ahead n (((start + j) % n + 1) % n) t < ahead n start t := by
  have hlt := ahead_lt hs ht
  have hmod : ((start + j) % n + 1) % n = (start + (j + 1)) % n := by
    rw [Nat.mod_add_mod, Nat.add_assoc]
  rw [hmod]
  rcases add_mod_cases hs (show j + 1 < n by omega) with ⟨hc, h⟩ | ⟨hc, h⟩
  · rw [h]
    unfold ahead at hj ⊢
    split at hj <;> split <;> omega
  · rw [h]
    unfold ahead at hj ⊢
    split at hj <;> split <;> omega

theorem ahead_grow (hlast : last < n) (ht : t < n) (hn : n ≤ n') :
    ahead n' ((last + 1) % n') t + n ≤ ahead n ((last + 1) % n) t + n' := by
  rcases Nat.eq_or_lt_of_le hn with rfl | hlt
  · exact Nat.le_refl _
  · rw [Nat.mod_eq_of_lt (show last + 1 < n' by omega)]
    rcases Nat.eq_or_lt_of_le (show last + 1 ≤ n from hlast) with heq | hlt'
    · rw [heq, Nat.mod_self]
      unfold ahead
      split <;> split <;> omega
    · rw [Nat.mod_eq_of_lt hlt']
      unfold ahead
      split <;> omega

end

/-! ### One call -/

/-- The task `t` is one with the highest priority among those that can run, the first in
    the order of the table behind the task that was chosen last. -/
structure Rtos.FirstBest (k : Rtos) (t : Nat) : Prop where
  bound : t < k.maxTasks
  runnable : (k.taskTable t).state = .ready ∨ (k.taskTable t).state = .running
  highest : ∀ u, u < k.maxTasks → (k.taskTable u).Runnable →
    (k.taskTable u).priority ≤ (k.taskTable t).priority
  first : ∃ j, j < rtosGetTaskCount k.maxTasks k.taskTable ∧
    rtosGetTaskByIndex k.maxTasks k.taskTable
      ((k.lastScheduledIdx + 1 + j) % rtosGetTaskCount k.maxTasks k.taskTable) = some t ∧
    ∀ i u, i < j → rtosGetTaskByIndex k.maxTasks k.taskTable
        ((k.lastScheduledIdx + 1 + i) % rtosGetTaskCount k.maxTasks k.taskTable) = some u →
      (k.taskTable u).Runnable → (k.taskTable u).priority < (k.taskTable t).priority

theorem searchOrder_getElem? (k : Rtos) {j : Nat}
    (hj : j < rtosGetTaskCount k.maxTasks k.taskTable) :
    (searchOrder k)[j]? = rtosGetTaskByIndex k.maxTasks k.taskTable
      ((k.lastScheduledIdx + 1 + j) % rtosGetTaskCount k.maxTasks k.taskTable) := by
  rw [rtosGetTaskCount_eq] at hj ⊢
  rw [searchOrder, List.getElem?_rotate hj, rtosGetTaskByIndex_eq, Nat.add_mod_mod, Nat.add_comm j]

theorem Selected.firstBest {k k' : Rtos} {t : Nat} (h : Selected k k' t) :
    k.FirstBest t ∧
      rtosGetTaskByIndex k.maxTasks k.taskTable k'.lastScheduledIdx = some t := by
  obtain ⟨j, hget, hlast, hfirst⟩ := h.place
  have hcount : (searchOrder k).length = rtosGetTaskCount k.maxTasks k.taskTable := by
    rw [length_searchOrder, rtosGetTaskCount_eq]
  have hj : j < rtosGetTaskCount k.maxTasks k.taskTable := by
    rw [← hcount]
    exact (List.getElem?_eq_some_iff.mp hget).1
  rw [searchOrder_getElem? k hj] at hget
  refine ⟨⟨h.bound, h.runnable, h.maximal, j, hj, hget, fun i u hi hu => ?_⟩, ?_⟩
  · refine hfirst u ?_
    rw [← searchOrder_getElem? k (Nat.lt_trans hi hj)] at hu
    obtain ⟨hlt, heq⟩ := List.getElem?_eq_some_iff.mp hu
    exact List.mem_take_iff_getElem.mpr ⟨i, by omega, heq⟩
  · rw [hlast, hcount]
    exact hget

namespace Rtos.TableOk

variable {k : Rtos} {T : Nat} (h : k.TableOk) (hT : T < k.maxTasks)

include h hT

theorem call (hrun : (k.taskTable T).Runnable) : (findNextReadyTask k).1.TableOk := by
  have hsel := findNextReadyTask_selected hT hrun
  have hf := findNextReadyTask_frame k
  have hprio : ∀ u, ((findNextReadyTask k).1.taskTable u).priority ≤ 15 := by
    intro u
    by_cases hu : u = (findNextReadyTask k).2
    · rw [hu, hsel.self]
      exact h.base _
    · rw [hsel.others u hu]
      split
      · unfold Task.aged
        split
        · next hlow => exact hlow.2
        · exact h.priority u
      · exact h.priority u
  refine ⟨fun t u htu hu hne => ?_, hprio, fun t => ?_⟩
  · rw [hf.maxTasks] at hu
    rw [ne_eq, (hf.kept _).unused] at hne ⊢
    exact h.packed t u htu hu hne
  · rw [(hf.kept t).basePriority]
    exact h.base t

variable (hready : (k.taskTable T).state = .ready)

include hready

omit h in
theorem call_priority (hne : (findNextReadyTask k).2 ≠ T) :
    min ((k.taskTable T).priority + 1) 15 ≤
      ((findNextReadyTask k).1.taskTable T).priority := by
  have hsel := findNextReadyTask_selected hT (Or.inl hready)
  rw [hsel.others T (Ne.symm hne), if_pos hT, Task.aged]
  split
  · exact Nat.min_le_left _ _
  · next hhigh =>
    have h15 : ¬ (k.taskTable T).priority < 15 := fun hlow => hhigh ⟨Or.inl hready, hlow⟩
    omega

theorem call_ahead (hprio : (k.taskTable T).priority = 15) (hne : (findNextReadyTask k).2 ≠ T) :
    (findNextReadyTask k).1.lastScheduledIdx < rtosGetTaskCount k.maxTasks k.taskTable ∧
      ahead (rtosGetTaskCount k.maxTasks k.taskTable)
          (((findNextReadyTask k).1.lastScheduledIdx + 1) %
            rtosGetTaskCount k.maxTasks k.taskTable) T <
        ahead (rtosGetTaskCount k.maxTasks k.taskTable)
          ((k.lastScheduledIdx + 1) % rtosGetTaskCount k.maxTasks k.taskTable) T := by
  have hsel := findNextReadyTask_selected hT (Or.inl hready)
  obtain ⟨j, hget, hlast, hfirst⟩ := hsel.place
  rw [length_searchOrder, ← rtosGetTaskCount_eq] at hlast
  have hTn := h.lt_count hT (by simp [hready])
  have hj : j < rtosGetTaskCount k.maxTasks k.taskTable := by
    rw [rtosGetTaskCount_eq, ← length_searchOrder]
    exact (List.getElem?_eq_some_iff.mp hget).1
  generalize hn : rtosGetTaskCount k.maxTasks k.taskTable = n at *
  have hpos : 0 < n := Nat.zero_lt_of_lt hTn
  have hstart : (k.lastScheduledIdx + 1) % n < n := Nat.mod_lt _ hpos
  have hTget : (searchOrder k)[ahead n ((k.lastScheduledIdx + 1) % n) T]? = some T := by
    rw [h.searchOrder_get (by rw [hn]; exact ahead_lt hstart hTn), hn, ← Nat.mod_add_mod,
      add_ahead hstart hTn]
  have hlt : j < ahead n ((k.lastScheduledIdx + 1) % n) T := by
    refine Nat.lt_of_not_le fun hle => ?_
    rcases Nat.eq_or_lt_of_le hle with heq | hlt
    · rw [heq] at hTget
      exact hne (Option.some.inj (hget.symm.trans hTget))
    · -- then the chosen task would have a priority above 15
      obtain ⟨hlen, heq⟩ := List.getElem?_eq_some_iff.mp hTget
      have hmem : T ∈ (searchOrder k).take j := List.mem_take_iff_getElem.mpr ⟨_, by omega, heq⟩
      have habove := hfirst T hmem (Or.inl hready)
      have hle15 := h.priority (findNextReadyTask k).2
      omega
  refine ⟨?_, ?_⟩
  · rw [hlast]
    exact Nat.mod_lt _ hpos
  · rw [hlast, ← Nat.mod_add_mod (k.lastScheduledIdx + 1)]
    exact ahead_step hstart hTn hlt

end Rtos.TableOk

/-- The tables that the code can build: from the empty one, by what the tasks do and by calls
    of `find_next_ready_task`. -/
inductive Built : Rtos → Prop
  | boot {k : Rtos} (h : ∀ t, k.taskTable t = ⟨.unused, 0, 0, 0, 0, none, none⟩) : Built k
  | change {T : Nat} {k k' : Rtos} (h : Built k) (hc : Change T k k') : Built k'
  | call {k : Rtos} (h : Built k) : Built (findNextReadyTask k).1

theorem Built.tableOk {k : Rtos} (h : Built k) : k.TableOk := by
  induction h with
  | boot h => exact tableOk_empty h
  | change _ hc ih => exact hc.aside.table ih
  | @call k _ ih =>
    by_cases hex : ∃ u, u < k.maxTasks ∧ (k.taskTable u).Runnable
    · obtain ⟨u, hu, hrun⟩ := hex
      exact ih.call hu hrun
    · rw [findNextReadyTask_none fun u hu hrun => hex ⟨u, hu, hrun⟩]
      exact ih

/-! ### A sequence of calls -/

/-- The tasks that come before `T` in the next search, and the slots that are not in use yet:
    each can be chosen in the place of `T` only once. -/
def Rtos.slack (k : Rtos) (T : Nat) : Nat :=
  ahead (rtosGetTaskCount k.maxTasks k.taskTable)
      ((k.lastScheduledIdx + 1) % rtosGetTaskCount k.maxTasks k.taskTable) T +
    (k.maxTasks - rtosGetTaskCount k.maxTasks k.taskTable)

/-- The state at call `i` when no call before it has chosen `T`. -/
structure Passed (T : Nat) (k₀ k : Rtos) (i : Nat) : Prop where
  table : k.TableOk
  maxTasks : k.maxTasks = k₀.maxTasks
  priority : min i 15 ≤ (k.taskTable T).priority
  slack : 15 ≤ i → k.slack T + (i - 15) < k.maxTasks

theorem Rtos.TableOk.slack_lt {k : Rtos} {T : Nat} (h : k.TableOk) (hT : T < k.maxTasks)
    (hready : (k.taskTable T).state = .ready) : k.slack T < k.maxTasks := by
  have hTn := h.lt_count hT (by simp [hready])
  have hlt := ahead_lt (Nat.mod_lt (k.lastScheduledIdx + 1) (Nat.zero_lt_of_lt hTn)) hTn
  have hle := rtosGetTaskCount_le k
  unfold Rtos.slack
  omega

theorem Passed.next {T : Nat} {k₀ k k' : Rtos} {i : Nat} (h : Passed T k₀ k i)
    (hT : T < k₀.maxTasks) (hready : (k.taskTable T).state = .ready)
    (hready' : (k'.taskTable T).state = .ready) (hne : (findNextReadyTask k).2 ≠ T)
    (hb : Between T (findNextReadyTask k).1 k') : Passed T k₀ k' (i + 1) := by
  have hTk : T < k.maxTasks := by
    rw [h.maxTasks]
    exact hT
  have haside := hb.aside
  have hf := findNextReadyTask_frame k
  have hmax : k'.maxTasks = k.maxTasks := haside.maxTasks.trans hf.maxTasks
  have htable := haside.table (h.table.call hTk (Or.inl hready))
  have hTk' : T < k'.maxTasks := by
    rw [hmax]
    exact hTk
  refine ⟨htable, hmax.trans h.maxTasks, ?_, fun hi => ?_⟩
  · have hrise := Rtos.TableOk.call_priority hTk hready hne
    have hprio := h.priority
    have hkeep := haside.priority
    omega
  · rcases Nat.lt_or_ge i 15 with hlow | hhigh
    · have := htable.slack_lt hTk' hready'
      omega
    · have h15 : (k.taskTable T).priority = 15 := by
        have hle := h.table.priority T
        have hge := h.priority
        omega
      obtain ⟨hlast, hahead⟩ := h.table.call_ahead hTk hready h15 hne
      have hTn := h.table.lt_count hTk (by simp [hready])
      -- no slot that was in use is free after it
      have hgrow : rtosGetTaskCount k.maxTasks k.taskTable ≤
          rtosGetTaskCount k'.maxTasks k'.taskTable := by
        refine Nat.le_of_not_lt fun hlt => ?_
        obtain ⟨hb, hu⟩ := h.table.used_of_lt hlt
        have hused := haside.used _ fun hn => hu ((hf.kept _).unused.mp hn)
        exact Nat.lt_irrefl _ (htable.lt_count (Nat.lt_of_lt_of_eq hb hmax.symm) hused)
      have hstep := ahead_grow hlast hTn hgrow
      have hcount := rtosGetTaskCount_le k'
      have hslack := h.slack hhigh
      rw [← haside.last] at hstep hahead
      unfold Rtos.slack at hslack ⊢
      omega

/-- **No task starves.**  A task that is ready at 15 + `MAX_TASKS` calls of
    `find_next_ready_task` in a row is chosen by one of them, whatever the other tasks do
    in between; and each call chooses the first task of the highest priority behind the
    one chosen last. -/
theorem find_next_ready_task_no_starvation {T : Nat} {ks : Nat → Rtos} (htable : (ks 0).TableOk)
    (hT : T < (ks 0).maxTasks)
    (hready : ∀ i, i < 15 + (ks 0).maxTasks → ((ks i).taskTable T).state = .ready)
    (hbetween : ∀ i, i + 1 < 15 + (ks 0).maxTasks → (findNextReadyTask (ks i)).2 ≠ T →
      Between T (findNextReadyTask (ks i)).1 (ks (i + 1))) :
    (∃ i, i < 15 + (ks 0).maxTasks ∧ (findNextReadyTask (ks i)).2 = T) ∧
      ∀ (k : Rtos) (u : Nat), u < k.maxTasks → (k.taskTable u).Runnable →
        k.FirstBest (findNextReadyTask k).2 ∧
        rtosGetTaskByIndex k.maxTasks k.taskTable (findNextReadyTask k).1.lastScheduledIdx =
          some (findNextReadyTask k).2 := by
  refine ⟨?_, fun k u hu hrun => (findNextReadyTask_selected hu hrun).firstBest⟩
  by_contra hnever
  have hne : ∀ i, i < 15 + (ks 0).maxTasks → (findNextReadyTask (ks i)).2 ≠ T :=
    fun i hi heq => hnever ⟨i, hi, heq⟩
  have hall : ∀ i, i < 15 + (ks 0).maxTasks → Passed T (ks 0) (ks i) i := by
    intro i
    induction i with
    | zero =>
      intro _
      exact ⟨htable, rfl, Nat.zero_le _, fun h => absurd h (by omega)⟩
    | succ i ih =>
      intro hi
      have hi' : i < 15 + (ks 0).maxTasks := by omega
      exact (ih hi').next hT (hready i hi') (hready (i + 1) hi) (hne i hi')
        (hbetween i hi (hne i hi'))
  -- at the last call nothing comes before `T`, and its priority is 15
  have hlast : 14 + (ks 0).maxTasks < 15 + (ks 0).maxTasks := by omega
  have hp := hall _ hlast
  have hready' := hready _ hlast
  have hT' : T < (ks (14 + (ks 0).maxTasks)).maxTasks := by
    rw [hp.maxTasks]
    exact hT
  have h15 : ((ks (14 + (ks 0).maxTasks)).taskTable T).priority = 15 := by
    have hle := hp.table.priority T
    have hge := hp.priority
    omega
  have hstep := (hp.table.call_ahead hT' hready' h15 (hne _ hlast)).2
  have hslack := hp.slack (by omega)
  have hmax := hp.maxTasks
  unfold Rtos.slack at hslack
  omega

/-- The task 1, of priority 15, is on the CPU, and the task 0, of priority 0, is ready. -/
def lowTask : Rtos := (freshSys 2 (fun t => if t = 0 then 0 else 15) (fun _ => 0) fun _ => 0).k

theorem lowTask_tableOk : lowTask.TableOk where
  packed := by
    intro t u htu hu _
    have hlt : t < 2 := Nat.lt_of_le_of_lt htu hu
    dsimp only [lowTask, freshSys]
    rw [if_pos hlt]
    split <;> simp
  priority := by
    intro t
    dsimp only [lowTask, freshSys]
    split <;> omega
  base := by
    intro t
    dsimp only [lowTask, freshSys]
    split <;> omega

theorem findNextReadyTask_ready {k : Rtos} {t : Nat} (ht : t < k.maxTasks)
    (hr : (k.taskTable t).state = .ready) :
    t < (findNextReadyTask k).1.maxTasks ∧ ((findNextReadyTask k).1.taskTable t).state = .ready := by
  have hsel := findNextReadyTask_selected ht (Or.inl hr)
  refine ⟨(findNextReadyTask_frame k).maxTasks ▸ ht, ?_⟩
  by_cases h : t = (findNextReadyTask k).2
  · rw [h] at hr ⊢
    rw [hsel.self]
    exact hr
  · rw [hsel.others t h, if_pos ht, Task.aged_state]
    exact hr

/-- The task 1 never gives up the CPU, and the task 0 is chosen all the same. -/
theorem find_next_ready_task_no_starvation_low :
    (findNextReadyTask lowTask).2 = 1 ∧
      ∃ i, i < 17 ∧ (findNextReadyTask ((fun k => (findNextReadyTask k).1)^[i] lowTask)).2 = 0 := by
  refine ⟨by decide, ?_⟩
  have hready : ∀ i, 0 < ((fun k => (findNextReadyTask k).1)^[i] lowTask).maxTasks ∧
      (((fun k => (findNextReadyTask k).1)^[i] lowTask).taskTable 0).state = .ready := by
    intro i
    induction i with
    | zero => exact ⟨by decide, by decide⟩
    | succ i ih =>
      rw [Function.iterate_succ_apply']
      exact findNextReadyTask_ready ih.1 ih.2
  have h := @find_next_ready_task_no_starvation 0
    (fun i => (fun k => (findNextReadyTask k).1)^[i] lowTask) lowTask_tableOk (by decide)
    (fun i _ => (hready i).2) ?_
  · exact h.1
  · intro i _ _
    rw [Function.iterate_succ_apply']
    exact Relation.ReflTransGen.refl

end Gemios
