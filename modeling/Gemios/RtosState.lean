import Gemios.RtosLife

/-!
# The task on the CPU

What holds when `rtos_schedule_from_isr` returns: the task on the CPU is `RUNNING`, it is
the only one, and the contexts of the others are those of the moment when they were
switched out.  A task that has marked itself as asleep for one tick and is interrupted by
that tick before it gives the CPU up breaks this: it is `READY` when it is chosen, and a
task that is chosen again is not marked.
-/

namespace Gemios

open Function

variable {Ctx : Type}

/-! ### The invariant -/

/-- Only the task on the CPU is `RUNNING`, and it is unless it has marked itself and is about
    to give the CPU up. -/
structure OnCpu (s : Sys) : Prop where
  only : ∀ u, (s.k.taskTable u).state = .running → s.k.currentTask = some u
  current : ∀ c, s.k.currentTask = some c → (s.k.taskTable c).state = .running ∨
    ((s.k.taskTable c).state = .sleeping ∨ (s.k.taskTable c).state = .terminated) ∧
      s.pos c = .resched ∨
    (s.k.taskTable c).state = .blocked ∧ ∃ e mask clear, s.pos c = .eventMark e mask clear

/-- The tick does not find the task on the CPU asleep with one tick left. -/
def tickOk (K : Kernel Ctx) : KLabel Ctx → Prop
  | .op .tick _ _ => ∀ c, K.k.currentTask = some c →
      ¬ ((K.k.taskTable c).state = .sleeping ∧ (K.k.taskTable c).sleepTicks = 1)
  | _ => True

namespace OnCpu

variable {s s' : Sys} {l : Label} {c : Nat} {p : Pos}

theorem running (h : OnCpu s) (hat : s.At c p) (hr : p ≠ .resched)
    (hp : ∀ e mask clear, p ≠ .eventMark e mask clear) : (s.k.taskTable c).state = .running := by
  rcases h.current c hat.current with hrun | ⟨_, hpos⟩ | ⟨_, e, mask, clear, hpos⟩
  · exact hrun
  · exact absurd (hat.pos.symm.trans hpos) hr
  · exact absurd (hat.pos.symm.trans hpos) (hp e mask clear)

theorem not_ready (h : OnCpu s) (hc : s.k.currentTask = some c) :
    (s.k.taskTable c).state ≠ .ready := by
  rcases h.current c hc with hs | ⟨hs | hs, _⟩ | ⟨hs, _⟩ <;> simp [hs]

theorem settled (h : OnCpu s) (hset : Settled s s') : OnCpu s' := by
  obtain ⟨c, p, p', hat, hr, hp, hpos, hstate⟩ := hset.self
  refine ⟨fun u hu => ?_, fun u hu => ?_⟩
  · rw [hset.marked.current]
    refine h.only u ?_
    rcases hset.marked.states u with heq | ⟨_, _, _, hm⟩ | ⟨_, _, hm⟩
    · exact heq.symm.trans hu
    · rcases hm with hm | hm <;> cases hm.symm.trans hu
    · cases hm.symm.trans hu
  · cases hat.current.symm.trans (hset.marked.current.symm.trans hu)
    rw [hpos, update_self]
    rcases hstate with hs | ⟨hs, hp'⟩ | ⟨hs, e, mask, clear, hp'⟩
    · exact Or.inl (hs.trans (h.running hat hr hp))
    · exact Or.inr (Or.inl ⟨Or.inl hs, hp'⟩)
    · exact Or.inr (Or.inr ⟨hs, e, mask, clear, hp'⟩)

theorem entry (h : OnCpu s) {k₁ : Rtos} {intNo : Nat} (hm : Marked s.k k₁)
    (hcalls : Calls s.k l k₁ intNo)
    (hok : l = .tick → ∀ c, s.k.currentTask = some c →
      ¬ ((s.k.taskTable c).state = .sleeping ∧ (s.k.taskTable c).sleepTicks = 1)) :
    (∀ v, ((k₁.entry intNo).taskTable v).state = .running →
      (k₁.entry intNo).currentTask = some v) ∧
    ∀ v, (k₁.entry intNo).currentTask = some v →
      ((k₁.entry intNo).taskTable v).state ≠ .ready := by
  refine ⟨fun v hv => ?_, fun v hv => ?_⟩
  · rw [entry_current, hm.current]
    refine h.only v ?_
    rcases entry_state k₁ intNo v with heq | ⟨_, _, _, hr⟩
    · rw [heq] at hv
      rcases hm.states v with heq | ⟨_, _, _, hs⟩ | ⟨_, _, hs⟩
      · exact heq.symm.trans hv
      · rcases hs with hs | hs <;> cases hs.symm.trans hv
      · cases hs.symm.trans hv
    · cases hr.symm.trans hv
  · rw [entry_current, hm.current] at hv
    rcases entry_state k₁ intNo v with heq | ⟨hint, hsleep, hone, _⟩
    · rw [heq]
      rcases hm.states v with heq | ⟨_, _, _, hs⟩ | ⟨hne, _⟩
      · rw [heq]
        exact h.not_ready hv
      · rcases hs with hs | hs <;> simp [hs]
      · exact absurd hv hne
    · -- only the tick is interrupt 32
      exfalso
      cases hcalls with
      | tick => exact hok rfl v hv ⟨hsleep, hone⟩
      | _ => cases hint

end OnCpu

/-- What holds when `rtos_schedule_from_isr`, called in the state `k₁` for the interrupt
    `intNo`, has left the state `k'`. -/
structure ScheduleOk (k₁ : Rtos) (intNo : Nat) (k' : Rtos) (c : Nat) : Prop where
  returned : k' = rtosScheduleFromIsr k₁ intNo
  current : k'.currentTask = some c
  running : ∀ u, (k'.taskTable u).state = .running ↔ u = c
  /-- The state of the task when `find_next_ready_task` chose it. -/
  runnable : ((k₁.entry intNo).taskTable c).state = .ready ∨
    ((k₁.entry intNo).taskTable c).state = .running

section

variable {s s' : Sys} {q : Obj → List Nat} {l : Label}

theorem Inv.schedule (h : Inv s q) (ha : Alive s) (ho : OnCpu s) (hs : Step s l s')
    (hl : ∀ t u, l ≠ .kill t u)
    (hok : l = .tick → ∀ c, s.k.currentTask = some c →
      ¬ ((s.k.taskTable c).state = .sleeping ∧ (s.k.taskTable c).sleepTicks = 1)) :
    OnCpu s' ∧ ∀ k₁ intNo, Calls s.k l k₁ intNo → ∃ c, ScheduleOk k₁ intNo s'.k c := by
  cases h.shape ha hs hl with
  | @pass k₁ intNo hm hcalls heq =>
    have hir := hm.idle_runnable ha.idle
    have hbound : k₁.idleTask < k₁.maxTasks := by
      rw [hm.idleTask, hm.maxTasks]
      exact h.idle.bound
    have hpass := rtosScheduleFromIsr_passTo (hm.running.trans h.running) intNo hbound hir
    rw [← heq] at hpass
    obtain ⟨honly, hcur⟩ := ho.entry hm hcalls hok
    have hiff := fun u => hpass.running_iff (u := u) honly hcur
    refine ⟨⟨fun u hu => ?_, fun u hu => Or.inl ?_⟩, fun k₂ n hc => ?_⟩
    · rw [(hiff u).mp hu]
      exact hpass.current
    · exact (hiff u).mpr (Option.some.inj (hu.symm.trans hpass.current))
    · obtain ⟨rfl, rfl⟩ := hcalls.unique hc
      exact ⟨_, heq, hpass.current, hiff, hpass.runnable⟩
  | settled hset hno => exact ⟨ho.settled hset, fun k₁ n hc => absurd hc (hno k₁ n)⟩

end

section

variable {K K' : Kernel Ctx} {l : KLabel Ctx} {q : Obj → List Nat} {t : Nat}

theorem OnCpu.write (h : OnCpu K.toSys) (hat : K.At t .user) {u : Nat} {task : Task}
    (hstate : task.state ≠ .running) (hself : u = t → task.state = .terminated)
    {pos' : Nat → Pos} (hpos : pos' t = .resched) : OnCpu ⟨K.k.setTask u task, pos'⟩ := by
  refine ⟨fun v hv => ?_, fun c hc => ?_⟩
  · dsimp only [Rtos.setTask] at hv
    by_cases hvu : v = u
    · rw [hvu, update_self] at hv
      exact absurd hv hstate
    · rw [update_of_ne hvu] at hv
      exact h.only v hv
  · cases hat.current.symm.trans hc
    dsimp only [Rtos.setTask]
    by_cases htu : t = u
    · rw [htu, update_self, ← htu]
      exact Or.inr (Or.inl ⟨Or.inr (hself htu.symm), hpos⟩)
    · rw [update_of_ne htu]
      exact Or.inl (h.running hat (by simp) (by simp))

theorem OnCpu.move (h : OnCpu K.toSys) (hat : K.At t .user) (p : Pos) :
    OnCpu ⟨K.k, update K.pos t p⟩ := by
  refine ⟨h.only, fun c hc => Or.inl ?_⟩
  cases hat.current.symm.trans hc
  exact h.running hat (by simp) (by simp)

theorem KStep.onCpu (h : Inv K.toSys q) (ha : Alive K.toSys) (ho : OnCpu K.toSys)
    (hok : tickOk K l) (hs : KStep K l K') : OnCpu K'.toSys := by
  cases hs with
  | op hs hl regs =>
    refine (h.schedule ha ho hs hl fun htick => ?_).1
    rw [htick] at hok
    exact hok
  | @create t hat priority stack frame =>
    rcases K.create_cases priority stack frame with heq | ⟨u, p, hfree, heq⟩
    · rw [heq]
      exact ho.move hat _
    · rw [heq]
      have hut := (ha.freeSlot hat hfree).1
      refine ho.write hat ?_ (fun h => absurd h hut) ?_
      · simp [newTask]
      · exact update_self _ _ _
  | @kill t hat id =>
    unfold Kernel.kill
    cases K.findId id with
    | none => exact ho.move hat _
    | some u =>
      refine ho.write hat ?_ (fun _ => rfl) ?_
      · simp
      · exact update_self _ _ _
  | @exit t hat =>
    refine ho.write hat ?_ (fun _ => rfl) ?_
    · simp
    · exact update_self _ _ _

end

/-! ### The saved contexts -/

/-- The context that is stored for the task `u` with a step: when it is switched out, and
    when it is created. -/
def KLabel.saves (u : Nat) : KLabel Ctx → Option Ctx
  | .op _ regs (some p) => if p = u then some regs else none
  | .create _ (some t) frame => if t = u then some frame else none
  | _ => none

/-- The context that was stored last for the task `u`. -/
def lastSaved (esp₀ : Nat → Ctx) (tr : List (KLabel Ctx)) (u : Nat) : Ctx :=
  (tr.filterMap (KLabel.saves u)).getLast?.getD (esp₀ u)

theorem lastSaved_snoc (esp₀ : Nat → Ctx) (tr : List (KLabel Ctx)) (l : KLabel Ctx) (u : Nat) :
    lastSaved esp₀ (tr ++ [l]) u = (l.saves u).getD (lastSaved esp₀ tr u) := by
  unfold lastSaved
  rw [List.filterMap_append]
  cases hs : l.saves u with
  | none => simp [hs]
  | some x => simp [hs]

theorem KStep.esp {K K' : Kernel Ctx} {l : KLabel Ctx} (hs : KStep K l K') (u : Nat) :
    K'.esp u = (l.saves u).getD (K.esp u) := by
  have hupdate : ∀ (t : Nat) (x : Ctx), update K.esp t x u =
      (if t = u then some x else none).getD (K.esp u) := by
    intro t x
    by_cases htu : t = u
    · rw [htu, update_self, if_pos rfl]
      rfl
    · rw [update_of_ne (Ne.symm htu), if_neg htu]
      rfl
  cases hs with
  | @op _ s' hs hl regs =>
    dsimp only
    cases switchedOut K.k s'.k with
    | none => rfl
    | some p => exact hupdate p regs
  | create hat priority stack frame =>
    rcases K.create_cases priority stack frame with heq | ⟨t, p, _, heq⟩
    · rw [heq]
      rfl
    · rw [heq]
      exact hupdate t frame
  | kill hat id =>
    unfold Kernel.kill
    cases K.findId id with
    | none => rfl
    | some v => rfl
  | exit hat => rfl

/-! ### Runs -/

/-- The steps in which neither of the two things happens: the tick that ends the sleep of the
    task on the CPU, and the kill of a waiter or of the idle task. -/
def scheduleOk (K : Kernel Ctx) (l : KLabel Ctx) : Prop := killOk K l ∧ tickOk K l

/-- The kernel when the scheduler has just been started, with the contexts `esp₀`. -/
def startedWith (initial maxCount : Nat → Int) (esp₀ : Nat → Ctx) (K : Kernel Ctx) : Prop :=
  K.Init initial maxCount ∧ K.esp = esp₀

theorem Kernel.Init.onCpu {initial maxCount : Nat → Int} {K : Kernel Ctx}
    (h : K.Init initial maxCount) : OnCpu K.toSys :=
  ⟨fun u hu => (h.onlyRunning u).mp hu, fun c hc => Or.inl ((h.onlyRunning c).mpr hc)⟩

theorem KReach.mono {init init' : Kernel Ctx → Prop} {ok ok' : Kernel Ctx → KLabel Ctx → Prop}
    {K : Kernel Ctx} {tr : List (KLabel Ctx)} (h : KReach init ok K tr)
    (hi : ∀ K, init K → init' K) (hok : ∀ K l, ok K l → ok' K l) : KReach init' ok' K tr := by
  induction h with
  | init h => exact .init (hi _ h)
  | step _ hk hs ih => exact ih.step (hok _ _ hk) hs

section

variable {initial maxCount : Nat → Int} {esp₀ : Nat → Ctx} {K : Kernel Ctx}
  {tr : List (KLabel Ctx)}

theorem KReach.onCpu (h : KReach (startedWith initial maxCount esp₀) scheduleOk K tr) :
    OnCpu K.toSys := by
  induction h with
  | init h => exact h.1.onCpu
  | step hr hok hs ih =>
    obtain ⟨hinv, halive, _⟩ := KReach.inv (fun _ _ h => h)
      (hr.mono (fun _ h => h.1) fun _ _ h => h.1)
    exact hs.onCpu hinv halive ih hok.2

theorem KReach.esp {ok : Kernel Ctx → KLabel Ctx → Prop}
    (h : KReach (startedWith initial maxCount esp₀) ok K tr) (u : Nat) :
    K.esp u = lastSaved esp₀ tr u := by
  induction h with
  | init h =>
    rw [h.2]
    rfl
  | step _ _ hs ih => rw [lastSaved_snoc, hs.esp, ih]

/-- **The task on the CPU.**  In every run in which no tick finds the task on the CPU asleep
    with one tick left and no waiter is killed, whenever `rtos_schedule_from_isr` returns,
    the task on the CPU is the only one that is `RUNNING`, it was `READY` or `RUNNING` when
    it was chosen, and the context of every other task is the one of its last switch. -/
theorem schedule_invariant (h : KReach (startedWith initial maxCount esp₀) scheduleOk K tr)
    {l : Label} {regs : Ctx} {out : Option Nat} {K' : Kernel Ctx} {k₁ : Rtos} {intNo : Nat}
    (hok : scheduleOk K (.op l regs out)) (hs : KStep K (.op l regs out) K')
    (hcalls : Calls K.k l k₁ intNo) :
    ∃ c, ScheduleOk k₁ intNo K'.k c ∧ out = switchedOut K.k K'.k ∧
      ∀ u, u ≠ c → (K'.k.taskTable u).state ≠ .unused → (K'.k.taskTable u).state ≠ .terminated →
        K'.esp u = lastSaved esp₀ (tr ++ [.op l regs out]) u := by
  obtain ⟨hinv, halive, _⟩ := KReach.inv (fun _ _ h => h)
    (h.mono (fun _ h => h.1) fun _ _ h => h.1)
  have hesp := (h.step hok hs).esp
  cases hs with
  | op hs hl regs =>
    obtain ⟨c, hc⟩ := (hinv.schedule halive h.onCpu hs hl fun htick => by
      rw [htick] at hok
      exact hok.2).2 k₁ intNo hcalls
    exact ⟨c, hc, rfl, fun u _ _ _ => hesp u⟩

end

/-! ### A tick before a sleeping task gives the CPU up -/

/-- Task 1 has marked itself as asleep and is still on the CPU. -/
def sleepyKernel (ticks : Nat) : Kernel Unit :=
  { freshKernel 2 with
    toSys := ⟨rtosDelayTicks (freshKernel 2).k ticks, update (freshKernel 2).pos 1 .resched⟩ }

theorem sleepyKernel_reach (ticks : Nat) :
    KReach (startedWith (fun _ => 0) (fun _ => 1) fun _ => ()) scheduleOk (sleepyKernel ticks)
      [.op (.delay 1 ticks) () none] := by
  have h₀ : KReach (startedWith (fun _ => 0) (fun _ => 1) fun _ => ()) scheduleOk
      (freshKernel 2) [] := .init ⟨freshKernel_init (by decide), rfl⟩
  have h₁ := h₀.step ⟨by trivial, by trivial⟩
    (.op (.delay (t := 1) ⟨rfl, by decide, rfl⟩ ticks) nofun ())
  have hout : switchedOut (freshKernel 2).k (rtosDelayTicks (freshKernel 2).k ticks) = none := by
    refine if_pos ?_
    unfold rtosDelayTicks
    split
    · rfl
    · rfl
  dsimp only at h₁
  rw [hout] at h₁
  exact h₁

theorem KStep.tick (K : Kernel Ctx) (regs : Ctx) :
    KStep K (.op .tick regs (switchedOut K.k (rtosScheduleFromIsr K.k 32)))
      { K with
        k := rtosScheduleFromIsr K.k 32
        esp := saveContext K.esp (switchedOut K.k (rtosScheduleFromIsr K.k 32)) regs } :=
  .op (.tick K.toSys) nofun regs

/-- Two ticks are left: the idle task gets the CPU. -/
theorem schedule_invariant_two_ticks :
    (∃ c, ScheduleOk (sleepyKernel 2).k 32 (rtosScheduleFromIsr (sleepyKernel 2).k 32) c) ∧
      (rtosScheduleFromIsr (sleepyKernel 2).k 32).currentTask = some 0 := by
  have hok : scheduleOk (sleepyKernel 2) (.op .tick ()
      (switchedOut (sleepyKernel 2).k (rtosScheduleFromIsr (sleepyKernel 2).k 32))) := by
    refine ⟨trivial, fun c hc hsleep => ?_⟩
    cases hc
    exact absurd hsleep.2 (by decide)
  obtain ⟨c, hc, _⟩ := schedule_invariant (sleepyKernel_reach 2) hok
    (KStep.tick (sleepyKernel 2) ()) .tick
  exact ⟨⟨c, hc⟩, by decide⟩

/-- One tick is left: task 1 is chosen again and stays `READY` on the CPU. -/
theorem ready_on_cpu :
    KReach (startedWith (fun _ => 0) (fun _ => 1) fun _ => ()) (fun _ _ => True) (sleepyKernel 1)
        [.op (.delay 1 1) () none] ∧
      Calls (sleepyKernel 1).k .tick (sleepyKernel 1).k 32 ∧
      (rtosScheduleFromIsr (sleepyKernel 1).k 32).currentTask = some 1 ∧
      ((rtosScheduleFromIsr (sleepyKernel 1).k 32).taskTable 1).state = .ready ∧
      ¬ ∃ c, ScheduleOk (sleepyKernel 1).k 32 (rtosScheduleFromIsr (sleepyKernel 1).k 32) c := by
  refine ⟨(sleepyKernel_reach 1).mono (fun _ h => h) fun _ _ _ => trivial, .tick, by decide,
    by decide, ?_⟩
  rintro ⟨c, hc⟩
  have hcur : some 1 = some c := hc.current
  cases hcur
  have hrun := (hc.running 1).mpr rfl
  exact absurd hrun (by decide)

end Gemios
