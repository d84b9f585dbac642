import Gemios.RtosRun

/-!
# Event flags lose no wake-up

A task marks itself as blocked in the same critical section in which it has found its
flags clear, and every later write to the flags either clears some or wakes all that
wait.  So nobody sleeps on a flag that is set.
-/

namespace Gemios

open Function

/-- The event and the mask that a task in `rtos_event_wait` looks at. -/
def Pos.eventMask : Pos → Option (Nat × BitVec 32)
  | .eventMark e mask _ => some (e, mask)
  | .eventLoop e mask _ => some (e, mask)
  | _ => none

theorem Pos.eventMask_of_object {p : Pos} {e : Nat} (h : p.object = some (.event e)) :
    ∃ mask, p.eventMask = some (e, mask) := by
  cases p with
  | eventMark e' mask clear =>
    cases h
    exact ⟨mask, rfl⟩
  | eventLoop e' mask clear =>
    cases h
    exact ⟨mask, rfl⟩
  | _ => cases h

/-- No task that waits for an event finds one of its flags set. -/
def EventInv (s : Sys) : Prop :=
  ∀ t e mask, (s.k.taskTable t).WaitsFor (.event e) → (s.pos t).eventMask = some (e, mask) →
    (s.k.events e).flags &&& mask = 0#32

section

variable {s s' : Sys} {q : Obj → List Nat} {t : Nat} {p : Pos} {l : Label}

theorem EventInv.mono {s' : Sys} (h : EventInv s)
    (hwait : ∀ t e, (s'.k.taskTable t).WaitsFor (.event e) →
      (s.k.taskTable t).WaitsFor (.event e) ∧ (s'.pos t).eventMask = (s.pos t).eventMask)
    (hflags : ∀ e mask, (s.k.events e).flags &&& mask = 0#32 →
      (s'.k.events e).flags &&& mask = 0#32) : EventInv s' := by
  intro t e mask hw hp
  obtain ⟨hw', hp'⟩ := hwait t e hw
  exact hflags e mask (h t e mask hw' (hp'.symm.trans hp))

theorem update_pos_eventMask {pos : Nat → Pos} {c : Nat} (p : Pos) (h : t ≠ c) :
    (update pos c p t).eventMask = (pos t).eventMask := by
  rw [update_of_ne h]

theorem EventInv.dispatch {k' : Rtos} {pos' : Nat → Pos} (h : EventInv s) (hd : Dispatch s.k k')
    (hpos : ∀ t, (pos' t).eventMask = (s.pos t).eventMask) : EventInv ⟨k', pos'⟩ := by
  refine h.mono (fun t e hw => ⟨(hd.kept t).waitsFor.mp hw, hpos t⟩) fun e mask hf => ?_
  dsimp only
  rw [hd.events]
  exact hf

theorem EventInv.step_resched {p p' : Pos} (h : EventInv s) (hi : Inv s q) (hat : s.At t p)
    (hp : p'.eventMask = p.eventMask) :
    EventInv ⟨rtosYield s.k, update s.pos t p'⟩ := by
  refine h.dispatch (dispatch_yield hi.running hi.idle) fun u => ?_
  by_cases hut : u = t
  · subst hut
    rw [update_self, hat.pos]
    exact hp
  · exact update_pos_eventMask _ hut

theorem EventInv.quiet {k' : Rtos} (h : EventInv s) (ht : (s.k.taskTable t).state ≠ .blocked)
    (hs : Quiet s.k k')
    (hflags : ∀ e mask, (s.k.events e).flags &&& mask = 0#32 →
      (k'.events e).flags &&& mask = 0#32) (p : Pos) :
    EventInv ⟨k', update s.pos t p⟩ := by
  refine h.mono (fun u e hw => ?_) hflags
  obtain ⟨pr, hpr⟩ := hs.tasks u
  dsimp only at hw
  rw [hpr] at hw
  have hut : u ≠ t := fun heq => ht (heq ▸ hw.1)
  exact ⟨hw, update_pos_eventMask p hut⟩

theorem EventInv.joins {k' : Rtos} {o : Obj} (ho : o.Queued) (h : EventInv s)
    (hd : Dispatch (s.k.joins o t) k') (p : Pos) : EventInv ⟨k', update s.pos t p⟩ := by
  refine h.mono (fun u e hw => ?_) fun e mask hf => ?_
  · have hw := (hd.kept u).waitsFor.mp hw
    by_cases hut : u = t
    · subst hut
      obtain ⟨n, hn⟩ := s.k.joins_self o u
      rw [hn] at hw
      cases Option.some.inj hw.2
      cases ho
    · obtain ⟨n, hn⟩ := s.k.joins_task o t hut
      rw [hn] at hw
      exact ⟨hw, update_pos_eventMask p hut⟩
  · have hev : k'.events = s.k.events := hd.events.trans (s.k.events_setQueue o _)
    dsimp only
    rw [hev]
    exact hf

theorem EventInv.leaves {k' : Rtos} {o : Obj} (h : EventInv s)
    (hd : Dispatch (s.k.leaves o t) k') : EventInv ⟨k', s.pos⟩ := by
  refine h.mono (fun u e hw => ?_) fun e mask hf => ?_
  · have hw := (hd.kept u).waitsFor.mp hw
    by_cases hut : u = t
    · subst hut
      rw [Rtos.leaves_self] at hw
      cases hw.1
    · rw [Rtos.leaves_task s.k o t hut] at hw
      exact ⟨hw, rfl⟩
  · have hev : k'.events = s.k.events := hd.events.trans (s.k.events_setQueue o _)
    dsimp only
    rw [hev]
    exact hf

theorem EventInv.quiet_user {k' : Rtos} (h : EventInv s) (hat : s.At t .user)
    (ht : (s.k.taskTable t).state ≠ .blocked) (hs : Quiet s.k k')
    (hflags : ∀ e mask, (s.k.events e).flags &&& mask = 0#32 →
      (k'.events e).flags &&& mask = 0#32) : EventInv ⟨k', s.pos⟩ := by
  have hinv := h.quiet ht hs hflags .user
  rw [← hat.pos, update_eq_self] at hinv
  exact hinv

theorem clear_flags {flags m mask : BitVec 32} (h : flags &&& mask = 0#32) :
    flags &&& ~~~ m &&& mask = 0#32 := by
  rw [BitVec.and_assoc, BitVec.and_comm (~~~ m), ← BitVec.and_assoc, h, BitVec.zero_and]

theorem setEvent_clear {k : Rtos} {e' : Nat} {m : BitVec 32} (e : Nat) (mask : BitVec 32)
    (h : (k.events e).flags &&& mask = 0#32) :
    ((k.setEvent e' ⟨(k.events e').flags &&& ~~~ m⟩).events e).flags &&& mask = 0#32 := by
  dsimp only [Rtos.setEvent]
  by_cases he : e = e'
  · subst he
    rw [update_self]
    exact clear_flags h
  · rw [update_of_ne he]
    exact h

theorem eventTake_flags {k : Rtos} {e' : Nat} {m : BitVec 32} {clear : Bool} (e : Nat)
    (mask : BitVec 32) (h : (k.events e).flags &&& mask = 0#32) :
    ((eventTake k e' m clear).1.events e).flags &&& mask = 0#32 := by
  unfold eventTake
  dsimp only
  split
  · exact setEvent_clear e mask h
  · exact h

theorem EventInv.step_eventWait {e : Nat} {mask : BitVec 32} {clear : Bool} (h : EventInv s)
    (hi : Inv s q) (hat : s.At t p) (hp : ∀ e mask clear, p ≠ .eventMark e mask clear) :
    EventInv ⟨(rtosEventWait s.k e mask clear).1,
      update s.pos t (eventPos e mask clear (rtosEventWait s.k e mask clear).2)⟩ := by
  have hfree := hi.free hat hp
  have htake : EventInv ⟨(eventTake s.k e mask clear).1, update s.pos t .user⟩ :=
    h.quiet hfree (Quiet.eventTake s.k e mask clear) (fun e' m hf => eventTake_flags e' m hf) .user
  have hcur := hat.current
  unfold rtosEventWait
  split
  · next hclear =>
    rw [hcur]
    dsimp only [eventPos]
    intro u e' mask' hw hm
    by_cases hut : u = t
    · -- the task has just found its flags clear
      subst hut
      dsimp only at hm
      rw [update_self] at hm
      cases hm
      exact hclear
    · dsimp only [Rtos.setTask] at hw hm
      rw [update_of_ne hut] at hw
      rw [update_pos_eventMask _ hut] at hm
      exact h u e' mask' hw hm
  · exact htake

theorem EventInv.step_eventSet (h : EventInv s) (hi : Inv s q) (hat : s.At t .user) (e : Nat)
    (mask : BitVec 32) :
    EventInv ⟨rtosEventSet s.k e mask, update s.pos t .resched⟩ := by
  intro u e' mask' hw hm
  have htask := rtosEventSet_task s.k e mask u
  dsimp only at hw hm
  rw [htask] at hw
  split at hw
  · cases hw.1
  · next hno =>
    have hbound := (hi.place u hw.1).1
    have hne : e' ≠ e := by
      rintro rfl
      exact hno ⟨hbound, hw⟩
    have hut : u ≠ t := fun heq => hi.free hat (by simp) (heq ▸ hw.1)
    rw [update_pos_eventMask _ hut] at hm
    dsimp only [rtosEventSet, Rtos.setEvent]
    rw [update_of_ne hne]
    exact h u e' mask' hw hm

theorem EventInv.step_write (h : EventInv s) (hi : Inv s q) (hat : s.At t .user) {u : Nat}
    {task : Task} (hstate : task.state ≠ .blocked) :
    EventInv ⟨s.k.setTask u task, update s.pos t .resched⟩ := by
  refine h.mono (fun v e hw => ?_) fun e mask hf => hf
  dsimp only [Rtos.setTask] at hw ⊢
  by_cases hvu : v = u
  · subst hvu
    rw [update_self] at hw
    exact absurd hw.1 hstate
  · rw [update_of_ne hvu] at hw
    have hvt : v ≠ t := fun heq => hi.free hat (by simp) (heq ▸ hw.1)
    exact ⟨hw, update_pos_eventMask _ hvt⟩

theorem EventInv.step (h : EventInv s) (hi : Inv s q) (hs : Step s l s') : EventInv s' := by
  have hkeep : ∀ e mask, (s.k.events e).flags &&& mask = 0#32 →
      (s.k.events e).flags &&& mask = 0#32 := fun _ _ hf => hf
  cases hs with
  | tick => exact h.dispatch (dispatch_schedule hi.running hi.idle 32) fun _ => rfl
  | yield _ _ => exact h.dispatch (dispatch_yield hi.running hi.idle) fun _ => rfl
  | wait hat i timeoutMs =>
    have hfree := hi.free hat (by simp)
    have hcases := rtosSemWait_cases hi.running hi.idle hat.current hat.ne_idle i timeoutMs
    generalize rtosSemWait s.k i timeoutMs = r at hcases ⊢
    cases hcases with
    | taken _ =>
      refine h.quiet hfree (Quiet.setSem ?_) hkeep .user
      rfl
    | refused _ _ => exact h.quiet hfree (Quiet.refl s.k) hkeep .user
    | blocked _ _ hd => exact EventInv.joins (o := .sem i) trivial h hd _
  | waitReturn hat => exact h.quiet (hi.free hat (by simp)) (Quiet.refl s.k) hkeep .user
  | signal hat i =>
    have hcases := rtosSemSignal_cases hi.running hi.idle (hi.runs hat) hi.waiting i
    generalize rtosSemSignal s.k i = r at hcases ⊢
    cases hcases with
    | woken _ hd => exact h.leaves hd
    | added _ _ =>
      refine h.quiet_user hat (hi.free hat (by simp)) (Quiet.setSem ?_) hkeep
      rfl
    | dropped _ _ => exact h
  | @lock c hat m timeoutMs =>
    have hfree := hi.free hat (by simp)
    have hcases := rtosMutexLock_cases hi.running hi.idle hat.current hat.ne_idle m timeoutMs
    generalize rtosMutexLock s.k m timeoutMs = r at hcases ⊢
    cases hcases with
    | taken _ =>
      refine h.quiet hfree (Quiet.setMutex ?_) hkeep .user
      rfl
    | again _ _ =>
      refine h.quiet hfree (Quiet.setMutex ?_) hkeep .user
      rfl
    | refused _ _ _ => exact h.quiet hfree (Quiet.refl s.k) hkeep .user
    | blocked _ _ _ hd =>
      have hboost : EventInv ⟨s.k.boost c m, s.pos⟩ :=
        h.quiet_user hat hfree (Quiet.boost s.k c m) hkeep
      exact EventInv.joins (o := .mutex m) trivial hboost hd _
  | lockReturn hat => exact h.quiet (hi.free hat (by simp)) (Quiet.refl s.k) hkeep .user
  | @unlock c hat m =>
    have hfree := hi.free hat (by simp)
    have hcases := rtosMutexUnlock_cases hi.running hi.idle hat.current (hi.runs hat) hi.waiting m
    generalize rtosMutexUnlock s.k m = r at hcases ⊢
    cases hcases with
    | foreign _ => exact h
    | inner _ _ _ =>
      refine h.quiet_user hat hfree (Quiet.setMutex ?_) hkeep
      rfl
    | @handed _ w rest _ hd =>
      have hhand : EventInv ⟨s.k.handTo c m w, s.pos⟩ :=
        h.quiet_user hat hfree (Quiet.handTo s.k c m w) hkeep
      have hleft := EventInv.leaves hhand hd
      exact hleft
    | freed _ _ => exact h.quiet_user hat hfree (Quiet.setFree s.k c m) hkeep
  | eventWait hat =>
    rcases hat with hat | hat
    · exact h.step_eventWait hi hat (by simp)
    · exact h.step_eventWait hi hat (by simp)
  | eventReschedule hat =>
    refine h.step_resched hi hat ?_
    rfl
  | eventSet hat e mask => exact h.step_eventSet hi hat e mask
  | eventClear hat e mask =>
    exact h.quiet_user hat (hi.free hat (by simp)) (Quiet.setEvent s.k e _)
      fun e' m hf => setEvent_clear e' m hf
  | delay hat ticks =>
    unfold rtosDelayTicks
    split
    · exact h.quiet (hi.free hat (by simp)) (Quiet.refl s.k) hkeep .resched
    · rw [hat.current]
      refine h.step_write hi hat ?_
      simp
  | kill hat hu =>
    refine h.step_write hi hat ?_
    simp
  | reschedule hat =>
    refine h.step_resched hi hat ?_
    rfl

end

theorem Reach.eventInv {ok : Sys → Label → Prop} {initial maxCount : Nat → Int} {s : Sys}
    {tr : List Label} (h : Reach (Sys.Init initial maxCount) ok s tr) : EventInv s := by
  induction h with
  | init hi => exact fun t e mask hw _ => absurd hw.1 (hi.blocked t)
  | step hr _ hs ih => exact ih.step hr.inv hs

theorem Step.event_result {s s' : Sys} {t e : Nat} {mask res : BitVec 32} {clear : Bool}
    (hs : Step s (.eventWait t e mask clear (some res)) s') :
    res ≠ 0#32 ∧ res &&& ~~~ mask = 0#32 ∧ res = (s.k.events e).flags &&& mask := by
  have hcur : s.k.currentTask = some t ∧ (rtosEventWait s.k e mask clear).2 = some res := by
    generalize hl : Label.eventWait t e mask clear (some res) = l at hs
    cases hs with
    | eventWait hat =>
      injection hl with h1 h2 h3 h4 h5
      subst h1 h2 h3 h4
      rcases hat with hat | hat
      · exact ⟨hat.current, h5.symm⟩
      · exact ⟨hat.current, h5.symm⟩
    | _ => cases hl
  obtain ⟨hcur, hres⟩ := hcur
  unfold rtosEventWait at hres
  split at hres
  · rw [hcur] at hres
    cases hres
  · next hne =>
    cases hres
    refine ⟨hne, ?_, rfl⟩
    dsimp only [eventTake]
    rw [BitVec.and_assoc, BitVec.and_not_self]
    exact BitVec.and_zero

/-- **No wake-up is lost.**  In every state of every run a task that is blocked on an event
    has none of its flags set, and a call that returns has found some. -/
theorem event_no_lost_wakeup {initial maxCount : Nat → Int} {s : Sys} {tr : List Label}
    (h : Reach (Sys.Init initial maxCount) (fun _ _ => True) s tr) :
    (∀ t e, (s.k.taskTable t).WaitsFor (.event e) →
      ∃ mask, (s.pos t).eventMask = some (e, mask) ∧ (s.k.events e).flags &&& mask = 0#32) ∧
    ∀ t e mask clear res s', Step s (.eventWait t e mask clear (some res)) s' →
      res ≠ 0#32 ∧ res &&& ~~~ mask = 0#32 ∧ res = (s.k.events e).flags &&& mask := by
  refine ⟨fun t e hw => ?_, fun t e mask clear res s' hs => hs.event_result⟩
  obtain ⟨_, o, ho, hp⟩ := h.inv.place t hw.1
  cases ho.symm.trans hw.2
  obtain ⟨mask, hmask⟩ := Pos.eventMask_of_object hp
  exact ⟨mask, hmask, h.eventInv t e mask hw hmask⟩

/-- Task 1 waits for flag 0 of an event and is blocked. -/
theorem event_no_lost_wakeup_blocked :
    ∃ s : Sys, (s.k.taskTable 1).WaitsFor (.event 0) ∧ (s.k.events 0).flags &&& 1#32 = 0#32 ∧
      ∃ mask, (s.pos 1).eventMask = some (0, mask) ∧ (s.k.events 0).flags &&& mask = 0#32 := by
  have hinit : Reach (Sys.Init (fun _ => 0) (fun _ => 0)) (fun _ _ => True)
      (freshSys 2 (fun _ => 6) (fun _ => 0) (fun _ => 0)) [] :=
    Reach.init (freshSys_init (by decide) _ _ _)
  have h1 := hinit.step trivial
    (Step.eventWait (t := 1) (e := 0) (.inl ⟨rfl, by decide, rfl⟩) : Step _
      (.eventWait 1 0 1#32 true _) _)
  have hw : ((rtosEventWait (freshSys 2 (fun _ => 6) (fun _ => 0) (fun _ => 0)).k 0 1#32 true).1.taskTable
      1).WaitsFor (.event 0) := by decide
  exact ⟨_, hw, by decide, (event_no_lost_wakeup h1).1 1 0 hw⟩

end Gemios
