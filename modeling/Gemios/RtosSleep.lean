import Gemios.RtosLife

/-!
# How long a task sleeps

`rtos_sleep_ms` and the conversions of `src/src/rtos/time.c`.  The count of a sleeping task
goes down with the timer ticks only, whatever other tasks do, so a task sleeps for as many
ticks as it was given.  What it was given is a product of 32 bits: from 4294968 ms on the
sleep is shorter than it was asked to be.
-/

namespace Gemios

open Function

/-! ### `time.c` -/

def pitFrequency : Nat := 1000

def rtosMsToTicks (ms : Nat) : Nat := u32 (ms * pitFrequency) / 1000

def rtosTicksToMs (ticks : Nat) : Nat := u32 (ticks * 1000) / pitFrequency

/-- `rtos_sleep_ms` up to the `irq_restore` of `rtos_delay_ticks`; `rtos_reschedule` comes
    next.  Before the scheduler runs the delay is one of the hardware. -/
def rtosSleepMs (s : Rtos) (ms : Nat) : Rtos :=
  if ms = 0 then rtosYield s
  else if !s.schedulerRunning then s
  else
    let ticks := rtosMsToTicks ms
    let ticks := if ticks = 0 then 1 else ticks
    rtosDelayTicks s ticks

/-! ### What leaves the counts alone -/

/-- The task `t` has as many ticks to sleep in both states. -/
def SameTicks (k k' : Rtos) (t : Nat) : Prop :=
  (k'.taskTable t).sleepTicks = (k.taskTable t).sleepTicks

namespace SameTicks

variable {k k₁ k₂ : Rtos} {t : Nat}

theorem trans (h₁ : SameTicks k k₁ t) (h₂ : SameTicks k₁ k₂ t) : SameTicks k k₂ t :=
  Eq.trans h₂ h₁

theorem of_quiet (h : Quiet k k₁) (t : Nat) : SameTicks k k₁ t := by
  obtain ⟨p, hp⟩ := h.tasks t
  unfold SameTicks
  rw [hp]

theorem setTask (k : Rtos) (t u : Nat) {task : Task}
    (h : task.sleepTicks = (k.taskTable u).sleepTicks) : SameTicks k (k.setTask u task) t := by
  unfold SameTicks
  dsimp only [Rtos.setTask]
  by_cases htu : t = u
  · rw [htu, update_self]
    exact h
  · rw [update_of_ne htu]

theorem joins (k : Rtos) (o : Obj) (c t : Nat) : SameTicks k (k.joins o c) t := by
  unfold SameTicks
  by_cases htc : t = c
  · obtain ⟨n, hn⟩ := k.joins_self o c
    rw [htc, hn]
  · obtain ⟨n, hn⟩ := k.joins_task o c htc
    rw [hn]

theorem leaves (k : Rtos) (o : Obj) (w t : Nat) : SameTicks k (k.leaves o w) t := by
  unfold SameTicks
  by_cases htw : t = w
  · rw [htw, k.leaves_self]
  · rw [k.leaves_task o w htw]

theorem chargeTick (k : Rtos) (t : Nat) : SameTicks k (chargeTick k) t := by
  unfold Gemios.chargeTick
  split
  · exact setTask k t _ rfl
  · rfl

theorem findNextReadyTask (k : Rtos) (t : Nat) : SameTicks k (findNextReadyTask k).1 t := by
  by_cases hrun : ∃ u, u < k.maxTasks ∧ (k.taskTable u).Runnable
  · obtain ⟨u, hu, hur⟩ := hrun
    have hsel := findNextReadyTask_selected hu hur
    unfold SameTicks
    by_cases ht : t = (Gemios.findNextReadyTask k).2
    · rw [ht, hsel.self]
    · rw [hsel.others t ht]
      unfold Task.aged
      split
      · split <;> rfl
      · rfl
  · rw [findNextReadyTask_none fun u hu hur => hrun ⟨u, hu, hur⟩]
    rfl

theorem switchTask (k : Rtos) (prev : Option Nat) (next t : Nat) :
    SameTicks k (switchTask k prev next) t := by
  unfold Gemios.switchTask
  split
  · rfl
  · have hrun : ∀ k₁ : Rtos, SameTicks k k₁ t → SameTicks k { k₁.setTask next
        { k₁.taskTable next with state := .running } with currentTask := some next } t :=
      fun k₁ h => h.trans (setTask k₁ t next rfl)
    dsimp only
    refine hrun _ ?_
    split
    · split
      · exact setTask k t _ rfl
      · rfl
    · rfl

theorem find (hrun : k.schedulerRunning = true) (intNo t : Nat) :
    SameTicks (k.entry intNo) (rtosScheduleFromIsr k intNo) t := by
  unfold rtosScheduleFromIsr
  rw [if_pos hrun]
  exact (findNextReadyTask _ t).trans (switchTask _ _ _ t)

theorem schedule (k : Rtos) {intNo : Nat} (h : intNo ≠ 32) (t : Nat) :
    SameTicks k (rtosScheduleFromIsr k intNo) t := by
  by_cases hrun : k.schedulerRunning = true
  · have hentry : SameTicks k (k.entry intNo) t := by
      unfold Rtos.entry
      rw [if_neg h]
      exact chargeTick k t
    exact hentry.trans (find hrun intNo t)
  · unfold rtosScheduleFromIsr
    rw [if_neg hrun]
    rfl

theorem yield (k : Rtos) (t : Nat) : SameTicks k (rtosYield k) t := by
  unfold rtosYield
  split
  · exact schedule k (by decide) t
  · rfl

theorem unblock (k : Rtos) (o : Obj) (w t : Nat) :
    SameTicks k (rtosTaskUnblock (k.unqueued o w) w) t := by
  have hleaves := leaves k o w t
  unfold rtosTaskUnblock
  dsimp only
  split
  · split
    · exact hleaves.trans (yield _ t)
    · exact hleaves
  · exact hleaves

theorem eventSet (k : Rtos) (e : Nat) (mask : BitVec 32) (t : Nat) :
    SameTicks k (rtosEventSet k e mask) t := by
  unfold SameTicks
  rw [rtosEventSet_task]
  split <;> rfl

theorem eventWait (k : Rtos) (e : Nat) (mask : BitVec 32) (clear : Bool) (t : Nat) :
    SameTicks k (rtosEventWait k e mask clear).1 t := by
  have htake := of_quiet (Quiet.eventTake k e mask clear) t
  unfold rtosEventWait
  split
  · split
    · exact setTask k t _ rfl
    · exact htake
  · exact htake

theorem delay (k : Rtos) {c : Nat} (hc : k.currentTask = some c) (ticks : Nat) (ht : t ≠ c) :
    SameTicks k (rtosDelayTicks k ticks) t := by
  unfold rtosDelayTicks
  split
  · rfl
  · rw [hc]
    unfold SameTicks
    dsimp only [Rtos.setTask]
    rw [update_of_ne ht]

end SameTicks

section

variable {s s' : Sys} {q : Obj → List Nat} {l : Label} {t : Nat}

theorem Inv.sameTicks (h : Inv s q) (hs : Step s l s') (htick : l ≠ .tick)
    (hself : ∀ n, l ≠ .delay t n) : SameTicks s.k s'.k t := by
  cases hs with
  | tick => exact absurd rfl htick
  | yield _ _ => exact SameTicks.yield s.k t
  | wait hat i timeoutMs =>
    have hcases := rtosSemWait_cases h.running h.idle hat.current hat.ne_idle i timeoutMs
    generalize rtosSemWait s.k i timeoutMs = r at hcases ⊢
    cases hcases with
    | taken _ => rfl
    | refused _ _ => rfl
    | blocked _ _ _ => exact (SameTicks.joins s.k _ _ t).trans (SameTicks.yield _ t)
  | waitReturn _ => rfl
  | signal hat i =>
    have hcases := rtosSemSignal_cases h.running h.idle (h.runs hat) h.waiting i
    dsimp only
    generalize rtosSemSignal s.k i = r at hcases ⊢
    cases hcases with
    | woken _ _ => exact SameTicks.unblock s.k _ _ t
    | added _ _ => rfl
    | dropped _ _ => rfl
  | @lock c hat m timeoutMs =>
    have hcases := rtosMutexLock_cases h.running h.idle hat.current hat.ne_idle m timeoutMs
    generalize rtosMutexLock s.k m timeoutMs = r at hcases ⊢
    cases hcases with
    | taken _ => rfl
    | again _ _ => rfl
    | refused _ _ _ => rfl
    | blocked _ _ _ _ =>
      have hboost := SameTicks.of_quiet (Quiet.boost s.k c m) t
      exact (hboost.trans (SameTicks.joins _ _ _ t)).trans (SameTicks.yield _ t)
  | lockReturn _ => rfl
  | @unlock c hat m =>
    have hcases := rtosMutexUnlock_cases h.running h.idle hat.current (h.runs hat) h.waiting m
    dsimp only
    generalize rtosMutexUnlock s.k m = r at hcases ⊢
    cases hcases with
    | foreign _ => rfl
    | inner _ _ _ => rfl
    | @handed _ w _ _ _ =>
      have hhand := SameTicks.of_quiet (Quiet.handTo s.k c m w) t
      exact hhand.trans (SameTicks.unblock _ _ _ t)
    | freed _ _ => exact SameTicks.of_quiet (Quiet.setFree s.k _ m) t
  | eventWait _ => exact SameTicks.eventWait s.k _ _ _ t
  | eventReschedule _ => exact SameTicks.yield s.k t
  | eventSet _ e mask => exact SameTicks.eventSet s.k e mask t
  | eventClear _ _ _ => rfl
  | @delay c hat ticks =>
    refine SameTicks.delay s.k hat.current ticks fun htc => ?_
    exact hself ticks (by rw [htc])
  | @kill _ u _ _ =>
    refine SameTicks.setTask s.k t u ?_
    rfl
  | reschedule _ => exact SameTicks.yield s.k t

end

/-! ### A task that sleeps -/

/-- The task `t` sleeps for `n` more ticks.  While it is still on the CPU, it is about to
    give it up. -/
structure Sleeps (s : Sys) (t n : Nat) : Prop where
  state : (s.k.taskTable t).state = .sleeping
  left : (s.k.taskTable t).sleepTicks = n
  bound : t < s.k.maxTasks
  about : s.k.currentTask = some t → s.pos t = .resched

namespace Sleeps

variable {s s' : Sys} {q : Obj → List Nat} {l : Label} {t n : Nat}

theorem ne_at (h : Sleeps s t n) {c : Nat} {p : Pos} (hat : s.At c p) (hp : p ≠ .resched) :
    t ≠ c := by
  intro htc
  rw [htc] at h
  exact hp (hat.pos.symm.trans (h.about hat.current))

theorem Step.caller (hs : Step s l s') {k₁ : Rtos} {intNo : Nat} (hc : Calls s.k l k₁ intNo) :
    k₁ = s.k ∨ ∃ c, s.At c .user := by
  cases hs with
  | wait hat _ _ => exact Or.inr ⟨_, hat⟩
  | signal hat _ => exact Or.inr ⟨_, hat⟩
  | lock hat _ _ => exact Or.inr ⟨_, hat⟩
  | unlock hat _ => exact Or.inr ⟨_, hat⟩
  | _ => cases hc <;> exact Or.inl rfl

theorem marked (h : Sleeps s t n) (hs : Step s l s') {k₁ : Rtos} {intNo : Nat}
    (hm : Marked s.k k₁) (hc : Calls s.k l k₁ intNo) : (k₁.taskTable t).state = .sleeping := by
  rcases hm.states t with heq | ⟨hcur, _⟩ | ⟨_, hb, _⟩
  · exact heq.trans h.state
  · rcases Step.caller hs hc with heq | ⟨c, hat⟩
    · rw [heq]
      exact h.state
    · exact absurd (Option.some.inj (hcur.symm.trans hat.current)) (h.ne_at hat (by simp))
  · cases h.state.symm.trans hb

theorem entry (h : Sleeps s t n) (hs : Step s l s') (htick : l ≠ .tick) {k₁ : Rtos} {intNo : Nat}
    (hm : Marked s.k k₁) (hc : Calls s.k l k₁ intNo) :
    ((k₁.entry intNo).taskTable t).state = .sleeping := by
  rcases entry_state k₁ intNo t with heq | ⟨hint, _⟩
  · exact heq.trans (h.marked hs hm hc)
  · -- only the tick is interrupt 32
    cases hc with
    | tick => exact absurd rfl htick
    | _ => cases hint

theorem pass {k k' : Rtos} {c : Nat} (hp : PassTo k k' c) (ht : (k.taskTable t).state = .sleeping) :
    (k'.taskTable t).state = .sleeping ∧ k'.currentTask ≠ some t := by
  have hnot : ¬ (k.taskTable t).Runnable := by
    unfold Task.Runnable
    simp [ht]
  refine ⟨(hp.state_of_not hnot).trans ht, fun hc => hnot ?_⟩
  have htc := Option.some.inj (hc.symm.trans hp.current)
  rw [htc]
  exact hp.runnable

theorem step (h : Sleeps s t n) (hi : Inv s q) (ha : Alive s) (hs : Step s l s')
    (hl : ∀ t u, l ≠ .kill t u) (htick : l ≠ .tick) : Sleeps s' t n := by
  have hself : ∀ m, l ≠ .delay t m := by
    intro m heq
    rw [heq] at hs
    cases hs with
    | delay hat _ => exact h.ne_at hat (by simp) rfl
  have hsame : SameTicks s.k s'.k t := hi.sameTicks hs htick hself
  have hleft : (s'.k.taskTable t).sleepTicks = n := Eq.trans hsame h.left
  cases hi.shape ha hs hl with
  | @pass k₁ intNo hm hc heq =>
    have hrun := hm.running.trans hi.running
    have hir := hm.idle_runnable ha.idle
    have hbound : k₁.idleTask < k₁.maxTasks := by
      rw [hm.idleTask, hm.maxTasks]
      exact hi.idle.bound
    have hpass := rtosScheduleFromIsr_passTo hrun intNo hbound hir
    have hmax := (dispatch_schedule hrun ⟨hbound, hir.ne_blocked, hir.ne_unused⟩ intNo).maxTasks
    rw [← heq] at hpass hmax
    obtain ⟨hstate, hne⟩ := Sleeps.pass hpass (h.entry hs htick hm hc)
    refine ⟨hstate, hleft, ?_, fun hcur => absurd hcur hne⟩
    rw [hmax, hm.maxTasks]
    exact h.bound
  | settled hset _ =>
    obtain ⟨c, p, p', hat, hp, _, hpos, _⟩ := hset.self
    have htc := h.ne_at hat hp
    refine ⟨?_, hleft, ?_, fun hcur => ?_⟩
    · rcases hset.marked.states t with heq | ⟨hcur, _⟩ | ⟨_, hb, _⟩
      · exact heq.trans h.state
      · exact absurd (Option.some.inj (hcur.symm.trans hat.current)) htc
      · cases h.state.symm.trans hb
    · rw [hset.marked.maxTasks]
      exact h.bound
    · rw [hset.marked.current] at hcur
      rw [hpos, update_of_ne htc]
      exact h.about hcur

theorem ticked (h : Sleeps s t (n + 1)) :
    ((s.k.entry 32).taskTable t).state = (if n = 0 then .ready else .sleeping) ∧
      ((s.k.entry 32).taskTable t).sleepTicks = n := by
  have hcharge : ((s.k.entry 32).taskTable t).sleepTicks =
      ((tickTasks s.k).taskTable t).sleepTicks := SameTicks.chargeTick (tickTasks s.k) t
  have htask : (tickTasks s.k).taskTable t = (s.k.taskTable t).ticked := by
    rw [tickTasks_task, if_pos h.bound]
  have hpos : (s.k.taskTable t).sleepTicks > 0 := by
    rw [h.left]
    omega
  rw [hcharge]
  unfold Rtos.entry
  rw [chargeTick_state, if_pos rfl, htask]
  unfold Task.ticked
  rw [if_pos h.state, if_pos hpos, h.left]
  exact ⟨by rw [h.state, Nat.add_sub_cancel], by rw [Nat.add_sub_cancel]⟩

theorem tick (h : Sleeps s t (n + 1)) (hi : Inv s q) (ha : Alive s) :
    (n = 0 → ((rtosScheduleFromIsr s.k 32).taskTable t).Runnable) ∧
      (n ≠ 0 → Sleeps ⟨rtosScheduleFromIsr s.k 32, s.pos⟩ t n) := by
  have hpass := rtosScheduleFromIsr_passTo hi.running 32 hi.idle.bound ha.idle
  have hmax := (dispatch_schedule hi.running hi.idle 32).maxTasks
  have hfind : ((rtosScheduleFromIsr s.k 32).taskTable t).sleepTicks =
      ((s.k.entry 32).taskTable t).sleepTicks := SameTicks.find hi.running 32 t
  obtain ⟨hstate, hleft⟩ := h.ticked
  refine ⟨fun hn => ?_, fun hn => ?_⟩
  · rw [if_pos hn] at hstate
    exact hpass.runnable_of (Or.inl hstate)
  · rw [if_neg hn] at hstate
    obtain ⟨hsleep, hne⟩ := Sleeps.pass hpass hstate
    refine ⟨hsleep, hfind.trans hleft, ?_, fun hcur => absurd hcur hne⟩
    rw [hmax]
    exact h.bound

end Sleeps

/-! ### Steps of the kernel -/

variable {Ctx : Type}

def KLabel.isTick : KLabel Ctx → Bool
  | .op .tick _ _ => true
  | _ => false

def ticks (tr : List (KLabel Ctx)) : Nat := tr.countP KLabel.isTick

theorem ticks_snoc (tr : List (KLabel Ctx)) (l : KLabel Ctx) :
    ticks (tr ++ [l]) = ticks tr + if l.isTick then 1 else 0 := by
  unfold ticks
  rw [List.countP_append, List.countP_singleton]

/-- No waiter, not the idle task and not the task `t` is killed. -/
def sleepOk (t : Nat) (K : Kernel Ctx) (l : KLabel Ctx) : Prop :=
  killOk K l ∧ ∀ c id, l ≠ .kill c id (some t)

theorem sleepOk_tick (t : Nat) (K : Kernel Ctx) (regs : Ctx) (out : Option Nat) :
    sleepOk t K (.op .tick regs out) := ⟨trivial, nofun⟩

section

variable {K K' : Kernel Ctx} {l : KLabel Ctx} {q : Obj → List Nat} {t n : Nat}

theorem Sleeps.write (h : Sleeps K.toSys t n) {c u : Nat} (hat : K.At c .user) (hu : u ≠ t)
    (task : Task) (pos' : Nat → Pos) :
    Sleeps ⟨K.k.setTask u task, update pos' c .resched⟩ t n := by
  have htc := h.ne_at hat (by simp)
  have htask : (K.k.setTask u task).taskTable t = K.k.taskTable t :=
    update_of_ne (Ne.symm hu) _ _
  refine ⟨?_, ?_, h.bound, fun hcur => absurd (Option.some.inj (hcur.symm.trans hat.current)) htc⟩
  · dsimp only
    rw [htask]
    exact h.state
  · dsimp only
    rw [htask]
    exact h.left

theorem KStep.sleeps (hs : KStep K l K') (hi : Inv K.toSys q) (ha : Alive K.toSys)
    (hok : sleepOk t K l) (h : Sleeps K.toSys t n) (htick : l.isTick = false) :
    Sleeps K'.toSys t n := by
  have hmove : ∀ {c : Nat}, K.At c .user → ∀ p, Sleeps (K.move c p).toSys t n := by
    intro c hat p
    have htc := h.ne_at hat (by simp)
    refine ⟨h.state, h.left, h.bound, fun hcur => ?_⟩
    exact absurd (Option.some.inj (hcur.symm.trans hat.current)) htc
  cases hs with
  | op hs hl regs =>
    refine h.step hi ha hs hl fun heq => ?_
    rw [heq] at htick
    cases htick
  | @create c hat priority stack frame =>
    rcases K.create_cases priority stack frame with heq | ⟨u, p, hfree, heq⟩
    · rw [heq]
      exact hmove hat _
    · rw [heq]
      have hut : u ≠ t := by
        intro hut
        obtain ⟨_, hstate, _⟩ := freeSlot_some hfree
        rw [hut, h.state] at hstate
        simp at hstate
      exact h.write hat hut _ _
  | @kill c hat id =>
    unfold Kernel.kill
    cases hfind : K.findId id with
    | none => exact hmove hat _
    | some u =>
      refine h.write hat (fun hut => hok.2 c id ?_) _ _
      rw [hfind, hut]
  | @exit c hat => exact h.write hat (Ne.symm (h.ne_at hat (by simp))) _ _

end

/-! ### Runs -/

/-- From the state `K₁` on, the task `t` stays `SLEEPING` until the `n`-th timer tick, and is
    `READY` when the scheduler, called by that tick, looks for the next task. -/
def SleepsFor (K₁ : Kernel Ctx) (t n : Nat) : Prop :=
  ∀ K tr, KReach (fun K => K = K₁) (sleepOk t) K tr →
    (ticks tr < n → (K.k.taskTable t).state = .sleeping) ∧
    (ticks tr + 1 = n → ∀ K' regs out, KStep K (.op .tick regs out) K' →
      ((K.k.entry 32).taskTable t).state = .ready ∧ (K'.k.taskTable t).Runnable)

section

variable {K₁ K : Kernel Ctx} {q : Obj → List Nat} {tr : List (KLabel Ctx)} {t m n : Nat}

theorem Sleeps.run (h : Sleeps K₁.toSys t n) (hi : Inv K₁.toSys q) (ha : Alive K₁.toSys)
    (hr : KReach (fun K => K = K₁) (sleepOk t) K tr) :
    (∃ q', Inv K.toSys q') ∧ Alive K.toSys ∧
      (ticks tr < n → Sleeps K.toSys t (n - ticks tr)) := by
  induction hr with
  | init heq =>
    rw [heq]
    exact ⟨⟨q, hi⟩, ha, fun _ => h⟩
  | @step K K' tr l _ hok hs ih =>
    obtain ⟨⟨q', hinv⟩, halive, hsleeps⟩ := ih
    obtain ⟨hinv', halive'⟩ := hs.inv hinv halive hok.1
    refine ⟨⟨_, hinv'⟩, halive', fun hlt => ?_⟩
    rw [ticks_snoc] at hlt ⊢
    cases htick : l.isTick with
    | false =>
      rw [htick] at hlt
      exact hs.sleeps hinv halive hok (hsleeps hlt) htick
    | true =>
      rw [htick, if_pos rfl] at hlt
      rw [if_pos rfl]
      have hone := hsleeps (by omega)
      obtain ⟨left, hleft⟩ : ∃ left, n - ticks tr = left + 1 := ⟨n - ticks tr - 1, by omega⟩
      have hless : n - (ticks tr + 1) = left := by omega
      rw [hleft] at hone
      rw [hless]
      cases hs with
      | op hs hl regs =>
        cases hs with
        | tick => exact (hone.tick hinv halive).2 (by omega)
        | _ => cases htick
      | create _ _ _ _ => cases htick
      | kill _ _ => cases htick
      | exit _ => cases htick

theorem Sleeps.sleepsFor (h : Sleeps K₁.toSys t n) (hi : Inv K₁.toSys q) (ha : Alive K₁.toSys) :
    SleepsFor K₁ t n := by
  intro K tr hr
  obtain ⟨⟨q', hinv⟩, halive, hsleeps⟩ := h.run hi ha hr
  refine ⟨fun hlt => (hsleeps hlt).state, fun hlast K' regs out hs => ?_⟩
  have hone := hsleeps (by omega)
  have hleft : n - ticks tr = 0 + 1 := by omega
  rw [hleft] at hone
  refine ⟨hone.ticked.1, ?_⟩
  cases hs with
  | op hs hl regs =>
    cases hs with
    | tick => exact (hone.tick hinv halive).1 rfl

theorem exists_run_ticks (K₁ : Kernel Ctx) (t n : Nat) :
    ∃ K tr, KReach (fun K => K = K₁) (sleepOk t) K tr ∧ ticks tr = n := by
  induction n with
  | zero => exact ⟨K₁, [], .init rfl, rfl⟩
  | succ n ih =>
    obtain ⟨K, tr, hr, hn⟩ := ih
    have hs := KStep.op (.tick K.toSys) nofun (K.esp 0)
    refine ⟨_, _, hr.step (sleepOk_tick t K _ _) hs, ?_⟩
    rw [ticks_snoc, hn]
    rfl

theorem SleepsFor.not_lt (hm : SleepsFor K₁ t m) (hn : SleepsFor K₁ t n) (hpos : 0 < m) :
    ¬ m < n := by
  intro hlt
  obtain ⟨K, tr, hr, hticks⟩ := exists_run_ticks K₁ t (m - 1)
  have hs := KStep.op (.tick K.toSys) nofun (K.esp 0)
  have hready := ((hm K tr hr).2 (by omega) _ _ _ hs).2
  have hsleep := (hn _ _ (hr.step (sleepOk_tick t K _ _) hs)).1
  rw [ticks_snoc, hticks] at hsleep
  have hstate := hsleep (by simp [KLabel.isTick]; omega)
  rcases hready with hready | hready <;> cases hstate.symm.trans hready

theorem SleepsFor.unique (hm : SleepsFor K₁ t m) (hn : SleepsFor K₁ t n) (hmp : 0 < m)
    (hnp : 0 < n) : m = n :=
  Nat.le_antisymm (Nat.not_lt.mp (hn.not_lt hm hnp)) (Nat.not_lt.mp (hm.not_lt hn hmp))

end

/-! ### `rtos_sleep_ms` -/

/-- The kernel when the task `t` on the CPU has called `rtos_sleep_ms`. -/
def Kernel.sleepMs (K : Kernel Ctx) (t ms : Nat) : Kernel Ctx :=
  { K with k := rtosSleepMs K.k ms, pos := update K.pos t .resched }

theorem rtosSleepMs_eq {k : Rtos} (hrun : k.schedulerRunning = true) {ms : Nat} (hms : 0 < ms) :
    rtosSleepMs k ms = rtosDelayTicks k (max 1 (rtosMsToTicks ms)) := by
  have hmax : (if rtosMsToTicks ms = 0 then 1 else rtosMsToTicks ms) = max 1 (rtosMsToTicks ms) := by
    split <;> omega
  unfold rtosSleepMs
  rw [if_neg (by omega), if_neg (by simp [hrun])]
  dsimp only
  rw [hmax]

section

variable {K : Kernel Ctx} {q : Obj → List Nat} {t ms : Nat}

theorem Kernel.sleepMs_step (hrun : K.k.schedulerRunning = true) (hat : K.At t .user)
    (hms : 0 < ms) (regs : Ctx) :
    KStep K (.op (.delay t (max 1 (rtosMsToTicks ms))) regs none) (K.sleepMs t ms) := by
  have hs : Step K.toSys _ _ := .delay hat (max 1 (rtosMsToTicks ms))
  have hcur : (rtosDelayTicks K.k (max 1 (rtosMsToTicks ms))).currentTask = K.k.currentTask := by
    unfold rtosDelayTicks
    split
    · rfl
    · split <;> rfl
  have hout : switchedOut K.k (rtosDelayTicks K.k (max 1 (rtosMsToTicks ms))) = none := if_pos hcur
  have hop := KStep.op hs nofun regs
  dsimp only at hop
  rw [hout] at hop
  unfold Kernel.sleepMs
  rw [rtosSleepMs_eq hrun hms]
  exact hop

theorem Kernel.sleepMs_sleepsFor (hi : Inv K.toSys q) (ha : Alive K.toSys) (hat : K.At t .user)
    (hms : 0 < ms) : SleepsFor (K.sleepMs t ms) t (max 1 (rtosMsToTicks ms)) := by
  have hs := K.sleepMs_step hi.running hat hms (K.esp 0)
  have hok : killOk K (.op (.delay t (max 1 (rtosMsToTicks ms))) (K.esp 0) none) := trivial
  obtain ⟨hinv, halive⟩ := hs.inv hi ha hok
  refine Sleeps.sleepsFor ?_ hinv halive
  have htask : (rtosSleepMs K.k ms).taskTable t =
      { K.k.taskTable t with sleepTicks := max 1 (rtosMsToTicks ms), state := .sleeping } := by
    rw [rtosSleepMs_eq hi.running hms]
    unfold rtosDelayTicks
    rw [if_neg (by omega), hat.current]
    exact update_self _ _ _
  have hmax : (rtosSleepMs K.k ms).maxTasks = K.k.maxTasks := by
    rw [rtosSleepMs_eq hi.running hms]
    unfold rtosDelayTicks
    rw [if_neg (by omega), hat.current]
    rfl
  refine ⟨?_, ?_, ?_, fun _ => update_self _ _ _⟩
  · dsimp only [Kernel.sleepMs]
    rw [htask]
  · dsimp only [Kernel.sleepMs]
    rw [htask]
  · dsimp only [Kernel.sleepMs]
    rw [hmax]
    exact hi.bound hat

end

theorem rtosMsToTicks_eq {ms : Nat} (h : ms ≤ 4294967) :
    rtosMsToTicks ms = ms * pitFrequency / 1000 := by
  unfold rtosMsToTicks u32 pitFrequency
  omega

theorem rtosMsToTicks_le (ms : Nat) : rtosMsToTicks ms ≤ 4294967 := by
  unfold rtosMsToTicks u32
  omega

theorem rtosTicksToMs_msToTicks_iff (ms : Nat) :
    rtosTicksToMs (rtosMsToTicks ms) = ms ↔ ms ≤ 4294967 := by
  have hle : ∀ n, rtosTicksToMs n ≤ 4294967 := by
    intro n
    unfold rtosTicksToMs u32 pitFrequency
    omega
  refine ⟨fun h => ?_, fun h => ?_⟩
  · rw [← h]
    exact hle _
  · rw [rtosMsToTicks_eq h]
    unfold rtosTicksToMs u32 pitFrequency
    omega

/-- **How long `rtos_sleep_ms` sleeps.**  In every run that kills no waiter, a task that calls
    `rtos_sleep_ms(ms)` sleeps for as many ticks as `ms` milliseconds have, and the
    conversions are inverse to each other, exactly for `ms` up to 4294967. -/
theorem sleep_ms_exact_iff {initial maxCount : Nat → Int} {K : Kernel Ctx}
    {tr : List (KLabel Ctx)} (h : KReach (Kernel.Init initial maxCount) killOk K tr) {t : Nat}
    (hat : K.At t .user) {ms : Nat} (hpos : 0 < ms) (hlt : ms < 4294967296) :
    (SleepsFor (K.sleepMs t ms) t (max 1 (ms * pitFrequency / 1000)) ↔ ms ≤ 4294967) ∧
      (rtosTicksToMs (rtosMsToTicks ms) = ms ↔ ms ≤ 4294967) := by
  obtain ⟨hinv, halive, _⟩ := h.inv fun _ _ h => h
  have hsleeps := Kernel.sleepMs_sleepsFor hinv halive hat hpos
  refine ⟨⟨fun hms => ?_, fun hms => ?_⟩, rtosTicksToMs_msToTicks_iff ms⟩
  · have heq := hms.unique hsleeps (by omega) (by omega)
    have hle := rtosMsToTicks_le ms
    have hexact : ms * pitFrequency / 1000 = ms := Nat.mul_div_cancel ms (by decide)
    omega
  · rw [rtosMsToTicks_eq hms] at hsleeps
    exact hsleeps

/-- Task 1 of two sleeps for 5 ms. -/
theorem sleep_ms_exact_five :
    (SleepsFor ((freshKernel 2).sleepMs 1 5) 1 (max 1 (5 * pitFrequency / 1000)) ↔ 5 ≤ 4294967) ∧
      (rtosTicksToMs (rtosMsToTicks 5) = 5 ↔ 5 ≤ 4294967) :=
  sleep_ms_exact_iff (.init (freshKernel_init (by decide))) ⟨rfl, by decide, rfl⟩ (by decide)
    (by decide)

/-- Task 1 asks for 4294968 ms, over 71 minutes, and is ready after one tick. -/
theorem sleep_ms_wraps :
    ∃ (K : Kernel Unit) (tr : List (KLabel Unit)),
      KReach (Kernel.Init (fun _ => 0) fun _ => 1) killOk K tr ∧ K.At 1 .user ∧
        ¬ SleepsFor (K.sleepMs 1 4294968) 1 (max 1 (4294968 * pitFrequency / 1000)) ∧
        rtosTicksToMs (rtosMsToTicks 4294968) ≠ 4294968 := by
  refine ⟨freshKernel 2, [], .init (freshKernel_init (by decide)), ⟨rfl, by decide, rfl⟩,
    fun h => ?_, by decide⟩
  have hs := KStep.op (.tick ((freshKernel 2).sleepMs 1 4294968).toSys) nofun ()
  have h₀ : KReach (fun K => K = (freshKernel 2).sleepMs 1 4294968) (sleepOk 1) _ [] := .init rfl
  have hr := h₀.step (sleepOk_tick 1 _ _ _) hs
  exact absurd ((h _ _ hr).1 (by decide)) (by decide +kernel)

end Gemios
