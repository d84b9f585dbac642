import Gemios.RtosRun

/-!
# Mutexes exclude

A task holds a mutex from a successful `rtos_mutex_lock` to the matching
`rtos_mutex_unlock`.  The owner, the nesting depth and the wait queue of a mutex agree
with who holds it, as long as no task nests its locks deeper than `recursion_count` can
say.
-/

namespace Gemios

open Function

/-! ### Who holds a mutex -/

def Label.mutexOf : Label → Option Nat
  | .lock _ m _ _ => some m
  | .lockReturn _ m => some m
  | .unlock _ m _ => some m
  | _ => none

/-- How often `t` holds `m` after a step, from how often it did before. -/
def Label.holds (t m : Nat) (n : Nat) : Label → Nat
  | .lock u j _ (.ret true) => if u = t ∧ j = m then n + 1 else n
  | .lockReturn u j => if u = t ∧ j = m then n + 1 else n
  | .unlock u j _ => if u = t ∧ j = m then n - 1 else n
  | _ => n

/-- How many successful locks of `m` by `t` have no matching unlock yet. -/
def held (tr : List Label) (t m : Nat) : Nat := tr.foldl (fun n l => l.holds t m n) 0

theorem held_snoc (tr : List Label) (l : Label) (t m : Nat) :
    held (tr ++ [l]) t m = l.holds t m (held tr t m) := List.foldl_append

theorem Label.holds_other {l : Label} {m : Nat} (h : l.mutexOf ≠ some m) (t n : Nat) :
    l.holds t m n = n := by
  have hne : ∀ {j : Nat}, some j ≠ some m → ∀ {u : Nat}, ¬ (u = t ∧ j = m) :=
    fun hj _ heq => hj (by rw [heq.2])
  cases l with
  | lock u j timeoutMs out =>
    cases out with
    | ret b =>
      cases b with
      | false => rfl
      | true => exact if_neg (hne h)
    | block => rfl
  | lockReturn u j => exact if_neg (hne h)
  | unlock u j w => exact if_neg (hne h)
  | _ => rfl

theorem Label.arrives_other {l : Label} {m : Nat} (h : l.mutexOf ≠ some m) :
    l.arrives (.mutex m) = none ∧ l.returns (.mutex m) = none ∧ l.wakes (.mutex m) = none := by
  have hne : ∀ {j : Nat}, some j ≠ some m → ¬ (Obj.mutex m = Obj.mutex j) := by
    intro j hj heq
    cases heq
    exact hj rfl
  cases l with
  | wait u i timeoutMs out =>
    cases out with
    | ret b => exact ⟨rfl, rfl, rfl⟩
    | block => exact ⟨rfl, rfl, rfl⟩
  | waitReturn u i => exact ⟨rfl, rfl, rfl⟩
  | signal u i w kept =>
    cases w with
    | none => exact ⟨rfl, rfl, rfl⟩
    | some w => exact ⟨rfl, rfl, rfl⟩
  | lock u j timeoutMs out =>
    cases out with
    | ret b => exact ⟨rfl, rfl, rfl⟩
    | block => exact ⟨if_neg (hne h), rfl, rfl⟩
  | lockReturn u j => exact ⟨rfl, if_neg (hne h), rfl⟩
  | unlock u j w =>
    cases w with
    | none => exact ⟨rfl, rfl, rfl⟩
    | some w => exact ⟨rfl, rfl, if_neg (hne h)⟩
  | _ => exact ⟨rfl, rfl, rfl⟩

/-! ### One step -/

/-- The mutex has the same owner and depth in two states. -/
def SameMutex (m : Nat) (k k' : Rtos) : Prop :=
  (k'.mutexes m).locked = (k.mutexes m).locked ∧
  (k'.mutexes m).recursionCount = (k.mutexes m).recursionCount ∧
  (k'.mutexes m).owner = (k.mutexes m).owner

section

variable {k k' : Rtos} {m : Nat} {s s' : Sys} {q : Obj → List Nat} {t : Nat} {l : Label}
  {tr : List Label}

theorem SameMutex.of_eq (h : k'.mutexes = k.mutexes) : SameMutex m k k' := by
  unfold SameMutex
  rw [h]
  exact ⟨rfl, rfl, rfl⟩

theorem SameMutex.joins {o : Obj} (hd : Dispatch (k.joins o t) k') : SameMutex m k k' := by
  unfold SameMutex
  rw [hd.mutexes]
  exact k.owner_setQueue o _ m

theorem SameMutex.leaves {o : Obj} (hd : Dispatch (k.leaves o t) k') : SameMutex m k k' := by
  unfold SameMutex
  rw [hd.mutexes]
  exact k.owner_setQueue o _ m

theorem SameMutex.setMutex {j : Nat} {v : Mutex} (h : j ≠ m) : SameMutex m k (k.setMutex j v) := by
  unfold SameMutex Rtos.setMutex
  dsimp only
  rw [update_of_ne (Ne.symm h)]
  exact ⟨rfl, rfl, rfl⟩

theorem SameMutex.trans {k₁ k₂ k₃ : Rtos} (h₁ : SameMutex m k₁ k₂) (h₂ : SameMutex m k₂ k₃) :
    SameMutex m k₁ k₃ :=
  ⟨h₂.1.trans h₁.1, h₂.2.1.trans h₁.2.1, h₂.2.2.trans h₁.2.2⟩

theorem rtosEventWait_mutexes (k : Rtos) (e : Nat) (mask : BitVec 32) (clear : Bool) :
    (rtosEventWait k e mask clear).1.mutexes = k.mutexes := by
  have htake : (eventTake k e mask clear).1.mutexes = k.mutexes := by
    unfold eventTake
    dsimp only
    split
    · rfl
    · rfl
  unfold rtosEventWait
  split
  · split
    · rfl
    · exact htake
  · exact htake

theorem rtosDelayTicks_mutexes (k : Rtos) (ticks : Nat) :
    (rtosDelayTicks k ticks).mutexes = k.mutexes := by
  unfold rtosDelayTicks
  split
  · rfl
  · split
    · rfl
    · rfl

theorem Inv.sameMutex (h : Inv s q) (hs : Step s l s') (hl : l.mutexOf ≠ some m) :
    SameMutex m s.k s'.k := by
  cases hs with
  | tick => exact .of_eq (dispatch_schedule h.running h.idle 32).mutexes
  | yield _ _ => exact .of_eq (dispatch_yield h.running h.idle).mutexes
  | wait hat i timeoutMs =>
    have hcases := rtosSemWait_cases h.running h.idle hat.current hat.ne_idle i timeoutMs
    generalize rtosSemWait s.k i timeoutMs = r at hcases ⊢
    cases hcases with
    | taken _ => exact .of_eq rfl
    | refused _ _ => exact .of_eq rfl
    | blocked _ _ hd => exact .joins hd
  | waitReturn _ => exact .of_eq rfl
  | signal hat i =>
    have hcases := rtosSemSignal_cases h.running h.idle (h.runs hat) h.waiting i
    generalize rtosSemSignal s.k i = r at hcases ⊢
    cases hcases with
    | woken _ hd => exact .leaves hd
    | added _ _ => exact .of_eq rfl
    | dropped _ _ => exact .of_eq rfl
  | lock hat j timeoutMs =>
    have hjm : j ≠ m := fun heq => hl (by rw [heq]; rfl)
    have hcases := rtosMutexLock_cases h.running h.idle hat.current hat.ne_idle j timeoutMs
    generalize rtosMutexLock s.k j timeoutMs = r at hcases ⊢
    cases hcases with
    | taken _ => exact .setMutex hjm
    | again _ _ => exact .setMutex hjm
    | refused _ _ _ => exact .of_eq rfl
    | blocked _ _ _ hd =>
      have hjoin := SameMutex.joins (m := m) hd
      exact hjoin
  | lockReturn _ => exact .of_eq rfl
  | @unlock c hat j =>
    have hjm : j ≠ m := fun heq => hl (by rw [heq]; rfl)
    have hcases := rtosMutexUnlock_cases h.running h.idle hat.current (h.runs hat) h.waiting j
    generalize rtosMutexUnlock s.k j = r at hcases ⊢
    cases hcases with
    | foreign _ => exact .of_eq rfl
    | inner _ _ _ => exact .setMutex hjm
    | @handed _ w rest _ hd =>
      have hset : SameMutex m s.k (s.k.handTo c j w) := .setMutex hjm
      exact hset.trans (.leaves hd)
    | freed _ _ => exact .setMutex hjm
  | eventWait _ => exact .of_eq (rtosEventWait_mutexes s.k _ _ _)
  | eventReschedule _ => exact .of_eq (dispatch_yield h.running h.idle).mutexes
  | eventSet _ _ _ => exact .of_eq rfl
  | eventClear _ _ _ => exact .of_eq rfl
  | delay _ ticks => exact .of_eq (rtosDelayTicks_mutexes s.k ticks)
  | kill _ _ => exact .of_eq rfl
  | reschedule _ => exact .of_eq (dispatch_yield h.running h.idle).mutexes

/-- A free mutex has no waiters, in every run: it becomes free when its queue is empty, and
    nobody joins the queue of a free one. -/
theorem Inv.free_step (h : Inv s q)
    (hfree : ∀ m, (s.k.mutexes m).locked = false → q (.mutex m) = []) (hs : Step s l s') (m : Nat)
    (hl' : (s'.k.mutexes m).locked = false) : l.queue q (.mutex m) = [] := by
  have hquiet : l.wakes (.mutex m) = none → l.arrives (.mutex m) = none →
      (s.k.mutexes m).locked = false → l.queue q (.mutex m) = [] := by
    intro hw ha hl
    rw [Label.queue_apply, hw, ha, hfree m hl]
    rfl
  by_cases hl : l.mutexOf = some m
  · cases hs with
    | lock hat j timeoutMs =>
      cases hl
      have hcases := rtosMutexLock_cases h.running h.idle hat.current hat.ne_idle m timeoutMs
      generalize rtosMutexLock s.k m timeoutMs = r at hcases hl' hquiet ⊢
      cases hcases with
      | taken _ =>
        dsimp only [Rtos.setMutex] at hl'
        rw [update_self] at hl'
        cases hl'
      | again hlock _ =>
        dsimp only [Rtos.setMutex] at hl'
        rw [update_self] at hl'
        cases hlock.symm.trans hl'
      | refused hlock _ _ => cases hlock.symm.trans hl'
      | blocked hlock _ _ hd =>
        have hsame := SameMutex.joins (m := m) hd
        cases hlock.symm.trans (hsame.1.symm.trans hl')
    | lockReturn hat => exact hquiet rfl rfl hl'
    | unlock hat j =>
      cases hl
      have hcases := rtosMutexUnlock_cases h.running h.idle hat.current (h.runs hat) h.waiting m
      generalize rtosMutexUnlock s.k m = r at hcases hl' ⊢
      cases hcases with
      | foreign hno =>
        rw [if_neg fun hrel => hno ⟨hrel.1, hrel.2.1⟩] at hquiet ⊢
        exact hquiet rfl rfl hl'
      | inner hlock _ _ =>
        dsimp only [Rtos.setMutex] at hl'
        rw [update_self] at hl'
        cases hlock.symm.trans hl'
      | @handed hrel w rest _ hd =>
        have hsame := (SameMutex.leaves (m := m) hd).1
        dsimp only [Rtos.handTo, Rtos.setMutex] at hsame
        rw [update_self] at hsame
        cases hrel.1.symm.trans (hsame.symm.trans hl')
      | freed hrel hq =>
        rw [h.mutexHead m, if_pos hrel, hq]
        exact hq
    | _ => cases hl
  · obtain ⟨ha, _, hw⟩ := Label.arrives_other hl
    exact hquiet hw ha ((h.sameMutex hs hl).1.symm.trans hl')

/-- The mutex `m` between the steps: the owner is the task that holds it, or the one it
    was handed to and that has not run since. -/
structure MutexInv (m : Nat) (s : Sys) (tr : List Label) : Prop where
  free : (s.k.mutexes m).locked = false →
    (s.k.mutexes m).owner = none ∧ waiters tr (.mutex m) = []
  owned : (s.k.mutexes m).locked = true → ∃ o, (s.k.mutexes m).owner = some o ∧
    0 < (s.k.mutexes m).recursionCount ∧
    (s.k.mutexes m).recursionCount = held tr o m + (s.pos o).inside (.mutex m)
  holder : ∀ t, 0 < held tr t m → (s.k.mutexes m).owner = some t
  inside : ∀ t, (s.pos t).inside (.mutex m) ≠ 0 →
    t ∈ waiters tr (.mutex m) ∨ (s.k.mutexes m).owner = some t

theorem Pos.inside_mutexLock (m : Nat) : (Pos.mutexLock m).inside (.mutex m) = 1 := if_pos rfl

theorem MutexInv.held_eq_zero (h : MutexInv m s tr) (ht : (s.k.mutexes m).owner ≠ some t) :
    held tr t m = 0 := by
  by_contra hne
  exact ht (h.holder t (Nat.pos_of_ne_zero hne))

theorem MutexInv.other (h : MutexInv m s tr) (hsame : SameMutex m s.k s'.k) (hs : Step s l s')
    (hl : l.mutexOf ≠ some m) : MutexInv m s' (tr ++ [l]) := by
  obtain ⟨hlock, hrec, hown⟩ := hsame
  obtain ⟨harr, hret, hwake⟩ := Label.arrives_other hl
  have hq : waiters (tr ++ [l]) (.mutex m) = waiters tr (.mutex m) := by
    rw [waiters_snoc, Label.queue_apply, hwake, harr]
    exact List.append_nil _
  have hheld : ∀ t, held (tr ++ [l]) t m = held tr t m :=
    fun t => (held_snoc tr l t m).trans (Label.holds_other hl t _)
  have hpos : ∀ t, (s'.pos t).inside (.mutex m) = (s.pos t).inside (.mutex m) := by
    intro t
    have heq := hs.inside_eq (o := .mutex m) trivial t
    rw [harr, hret] at heq
    simpa using heq.symm
  refine ⟨?_, ?_, ?_, ?_⟩
  · rw [hlock, hown, hq]
    exact h.free
  · rw [hlock, hown, hrec]
    intro hl
    obtain ⟨o, ho, hp, heq⟩ := h.owned hl
    exact ⟨o, ho, hp, by rw [hheld, hpos]; exact heq⟩
  · intro t ht
    rw [hheld] at ht
    rw [hown]
    exact h.holder t ht
  · intro t ht
    rw [hpos] at ht
    rw [hq, hown]
    exact h.inside t ht

/-- No lock makes `recursion_count` wrap around. -/
def noOverflow (s : Sys) : Label → Prop
  | .lock t m _ _ => (s.k.mutexes m).owner = some t → (s.k.mutexes m).recursionCount < 4294967295
  | _ => True

theorem waiters_of_quiet (hw : l.wakes (.mutex m) = none) (ha : l.arrives (.mutex m) = none) :
    waiters (tr ++ [l]) (.mutex m) = waiters tr (.mutex m) := by
  rw [waiters_snoc, Label.queue_apply, hw, ha]
  exact List.append_nil _

theorem MutexInv.idle (h : MutexInv m s tr) (hw : l.wakes (.mutex m) = none)
    (ha : l.arrives (.mutex m) = none) (hheld : ∀ t, held (tr ++ [l]) t m = held tr t m) :
    MutexInv m s (tr ++ [l]) := by
  have hq : waiters (tr ++ [l]) (.mutex m) = waiters tr (.mutex m) := waiters_of_quiet hw ha
  refine ⟨?_, ?_, ?_, ?_⟩
  · rw [hq]
    exact h.free
  · intro hl
    obtain ⟨o, ho, hp, heq⟩ := h.owned hl
    exact ⟨o, ho, hp, by rw [hheld]; exact heq⟩
  · intro t ht
    rw [hheld] at ht
    exact h.holder t ht
  · rw [hq]
    exact h.inside

theorem MutexInv.own (h : MutexInv m s tr) {c : Nat} (hc : (s.pos c).inside (.mutex m) = 0)
    {pos' : Nat → Pos}
    (hpos : ∀ t, (pos' t).inside (.mutex m) = (s.pos t).inside (.mutex m)) {k' : Rtos}
    (hw : l.wakes (.mutex m) = none) (ha : l.arrives (.mutex m) = none)
    (hcore : (k'.mutexes m).locked = true ∧ (k'.mutexes m).owner = some c ∧
      0 < (k'.mutexes m).recursionCount ∧
      (k'.mutexes m).recursionCount = held (tr ++ [l]) c m)
    (hothers : ∀ t, t ≠ c → held (tr ++ [l]) t m = held tr t m)
    (hown : ∀ t, (s.k.mutexes m).owner = some t → t = c) :
    MutexInv m ⟨k', pos'⟩ (tr ++ [l]) := by
  obtain ⟨hlock, howner, hpos0, hrec⟩ := hcore
  refine ⟨fun hl => absurd (hlock.symm.trans hl) (by simp), fun _ => ⟨c, howner, hpos0, ?_⟩,
    fun t ht => ?_, fun t ht => ?_⟩
  · rw [hpos c, hc]
    exact hrec
  · by_cases htc : t = c
    · rw [htc]
      exact howner
    · rw [hothers t htc] at ht
      exact absurd (hown t (h.holder t ht)) htc
  · rw [hpos t] at ht
    rw [waiters_of_quiet hw ha]
    rcases h.inside t ht with hm | ho
    · exact Or.inl hm
    · right
      rw [hown t ho]
      exact howner

theorem update_user_inside {pos : Nat → Pos} {c : Nat} (hc : pos c = .user) {o : Obj} (t : Nat) :
    (update pos c .user t).inside o = (pos t).inside o := by
  by_cases htc : t = c
  · rw [htc, update_self, hc]
  · rw [update_of_ne htc]

theorem MutexInv.step_lock (h : MutexInv m s tr) (hat : s.At t .user) {timeoutMs : Nat}
    {r : Rtos × Outcome} (hcases : LockCases s.k t m timeoutMs r)
    (hok : (s.k.mutexes m).owner = some t → (s.k.mutexes m).recursionCount < 4294967295) :
    MutexInv m ⟨r.1, update s.pos t (r.2.pos (.mutexLock m))⟩
      (tr ++ [.lock t m timeoutMs r.2]) := by
  have hin : (s.pos t).inside (.mutex m) = 0 := by
    rw [hat.pos]
    rfl
  have hmut : ∀ v : Mutex, (s.k.setMutex m v).mutexes m = v := fun v => update_self _ _ _
  cases hcases with
  | taken hlock =>
    obtain ⟨hnone, _⟩ := h.free hlock
    have hzero : ∀ u, held tr u m = 0 := fun u => h.held_eq_zero (by simp [hnone])
    refine h.own (l := .lock t m timeoutMs (.ret true)) hin (update_user_inside hat.pos) rfl rfl ?_
      (fun u hu => ?_) (fun u hu => ?_)
    · dsimp only
      rw [hmut]
      refine ⟨rfl, rfl, Nat.one_pos, ?_⟩
      rw [held_snoc, hzero]
      simp [Label.holds]
    · rw [held_snoc]
      exact if_neg fun heq => hu heq.1.symm
    · rw [hnone] at hu
      cases hu
  | again hlock hown =>
    obtain ⟨o, ho, hp, heq⟩ := h.owned hlock
    cases hown.symm.trans ho
    rw [hin] at heq
    have hlt := hok hown
    refine h.own (l := .lock t m timeoutMs (.ret true)) hin (update_user_inside hat.pos) rfl rfl ?_
      (fun u hu => ?_) (fun u hu => ?_)
    · dsimp only
      rw [hmut]
      dsimp only
      rw [u32_of_lt (by omega)]
      refine ⟨hlock, hown, Nat.succ_pos _, ?_⟩
      rw [held_snoc, heq]
      simp [Label.holds]
    · rw [held_snoc]
      exact if_neg fun heq => hu heq.1.symm
    · exact (Option.some.inj (hown.symm.trans hu)).symm
  | refused _ _ _ =>
    have hpos : update s.pos t .user = s.pos := by
      rw [← hat.pos, update_eq_self]
    dsimp only [Outcome.pos]
    rw [hpos]
    exact h.idle rfl rfl fun u => held_snoc _ _ _ _
  | blocked hlock hown ht hd =>
    have hsnoc : ∀ u, held (tr ++ [.lock t m timeoutMs .block]) u m = held tr u m :=
      fun u => held_snoc _ _ _ _
    have hq : waiters (tr ++ [.lock t m timeoutMs .block]) (.mutex m) =
        waiters tr (.mutex m) ++ [t] := by
      rw [waiters_snoc, Label.queue_apply]
      simp [Label.wakes, Label.arrives]
    have hjoin := SameMutex.joins (m := m) hd
    obtain ⟨h1, h2, h3⟩ := hjoin
    dsimp only [Rtos.boost] at h1 h2 h3 ⊢
    refine ⟨fun hl => ?_, fun _ => ?_, fun u hu => ?_, fun u hu => ?_⟩
    · rw [h1, hlock] at hl
      cases hl
    · obtain ⟨o, ho, hp, heq⟩ := h.owned hlock
      have hot : o ≠ t := fun heq => hown (heq ▸ ho)
      dsimp only
      rw [h2, h3]
      refine ⟨o, ho, hp, ?_⟩
      rw [hsnoc, update_of_ne hot]
      exact heq
    · rw [hsnoc] at hu
      rw [h3]
      exact h.holder u hu
    · rw [hq, h3]
      by_cases hut : u = t
      · subst hut
        exact Or.inl (List.mem_append_right _ List.mem_cons_self)
      · dsimp only at hu
        rw [update_of_ne hut] at hu
        exact (h.inside u hu).imp_left (List.mem_append_left [t])

theorem MutexInv.owner_of_inside (h : MutexInv m s tr) (hi : Inv s (waiters tr))
    (hat : s.At t (.mutexLock m)) : (s.k.mutexes m).owner = some t := by
  have hfree := hi.free hat (by simp)
  refine (h.inside t ?_).resolve_left ?_
  · rw [hat.pos, Pos.inside_mutexLock]
    exact Nat.one_ne_zero
  · exact hi.waiting.not_mem s.k.queue_event hfree (.mutex m)

theorem MutexInv.locked_of_owner (h : MutexInv m s tr) (ho : (s.k.mutexes m).owner = some t) :
    (s.k.mutexes m).locked = true ∧ 0 < (s.k.mutexes m).recursionCount ∧
      (s.k.mutexes m).recursionCount = held tr t m + (s.pos t).inside (.mutex m) := by
  cases hl : (s.k.mutexes m).locked with
  | false =>
    rw [(h.free hl).1] at ho
    cases ho
  | true =>
    obtain ⟨o, ho', hp, heq⟩ := h.owned hl
    cases ho.symm.trans ho'
    exact ⟨rfl, hp, heq⟩

theorem MutexInv.step_lockReturn (h : MutexInv m s tr) (hi : Inv s (waiters tr))
    (hat : s.At t (.mutexLock m)) :
    MutexInv m ⟨s.k, update s.pos t .user⟩ (tr ++ [.lockReturn t m]) := by
  have hown := h.owner_of_inside hi hat
  obtain ⟨hlock, hp, heq⟩ := h.locked_of_owner hown
  rw [hat.pos, Pos.inside_mutexLock] at heq
  have hq : waiters (tr ++ [.lockReturn t m]) (.mutex m) = waiters tr (.mutex m) :=
    waiters_of_quiet rfl rfl
  refine ⟨fun hl => absurd (hlock.symm.trans hl) (by simp), fun _ => ⟨t, hown, hp, ?_⟩,
    fun u hu => ?_, fun u hu => ?_⟩
  · dsimp only
    rw [held_snoc, update_self, heq]
    simp [Label.holds, Pos.inside, Pos.object]
  · by_cases hut : u = t
    · rw [hut]
      exact hown
    · rw [held_snoc, Label.holds, if_neg fun heq => hut heq.1.symm] at hu
      exact h.holder u hu
  · rw [hq]
    dsimp only at hu ⊢
    by_cases hut : u = t
    · rw [hut]
      exact Or.inr hown
    · rw [update_of_ne hut] at hu
      exact h.inside u hu

theorem MutexInv.held_released (h : MutexInv m s tr) (hat : s.At t .user) (hrel : s.k.Releases t m)
    (w : Option Nat) (u : Nat) : held (tr ++ [.unlock t m w]) u m = 0 := by
  obtain ⟨_, hp, heq⟩ := h.locked_of_owner hrel.2.1
  have hin : (s.pos t).inside (.mutex m) = 0 := by
    rw [hat.pos]
    rfl
  have hle := hrel.2.2
  rw [held_snoc, Label.holds]
  by_cases hut : u = t
  · rw [hut, if_pos ⟨rfl, rfl⟩]
    omega
  · rw [if_neg fun heq => hut heq.1.symm]
    exact h.held_eq_zero fun hu => hut (Option.some.inj (hu.symm.trans hrel.2.1))

theorem MutexInv.step_unlock (h : MutexInv m s tr) (hi : Inv s (waiters tr)) (hat : s.At t .user)
    {k' : Rtos} (hcases : UnlockCases s.k t m (waiters tr (.mutex m)) k') :
    MutexInv m ⟨k', s.pos⟩
      (tr ++ [.unlock t m (if s.k.Releases t m then (s.k.mutexes m).wait.waitHead else none)]) := by
  have hfree := hi.free hat (by simp)
  have hin : (s.pos t).inside (.mutex m) = 0 := by
    rw [hat.pos]
    rfl
  have hmut : ∀ v : Mutex, (s.k.setMutex m v).mutexes m = v := fun v => update_self _ _ _
  rw [hi.mutexHead m]
  cases hcases with
  | foreign hno =>
    have hown : (s.k.mutexes m).owner ≠ some t := fun ho => hno ⟨(h.locked_of_owner ho).1, ho⟩
    rw [if_neg fun hrel => hown hrel.2.1]
    refine h.idle rfl rfl fun u => ?_
    rw [held_snoc, Label.holds]
    split
    · next heq =>
      rw [← heq.1, h.held_eq_zero hown]
    · rfl
  | inner hlock hown hr =>
    obtain ⟨_, _, heq⟩ := h.locked_of_owner hown
    rw [if_neg fun hrel => absurd hrel.2.2 (by omega)]
    refine h.own hin (fun _ => rfl) rfl rfl ?_ (fun u hu => ?_) (fun u hu => ?_)
    · rw [hmut]
      refine ⟨hlock, hown, by dsimp only; omega, ?_⟩
      rw [held_snoc, Label.holds, if_pos ⟨rfl, rfl⟩]
      dsimp only
      omega
    · rw [held_snoc, Label.holds, if_neg fun heq => hu heq.1.symm]
    · exact (Option.some.inj (hown.symm.trans hu)).symm
  | @handed hrel w rest hq hd =>
    rw [if_pos hrel, hq, List.head?_cons]
    have hzero := h.held_released hat hrel (some w)
    have hmem : w ∈ waiters tr (.mutex m) := by
      rw [hq]
      exact List.mem_cons_self
    have hpos : (s.pos w).inside (.mutex m) = 1 := by
      have hb := (hi.waiting.mem (.mutex m) trivial w).mp hmem
      obtain ⟨_, o, ho, hp⟩ := hi.place w hb.1
      cases ho.symm.trans hb.2
      exact if_pos hp
    have hwait : waiters (tr ++ [.unlock t m (some w)]) (.mutex m) = rest := by
      rw [waiters_snoc, Label.queue_apply, hq]
      simp [Label.wakes, Label.arrives]
    have hcore := SameMutex.leaves (m := m) hd
    have hnew : (s.k.handTo t m w).mutexes m =
        { s.k.mutexes m with owner := some w, recursionCount := 1 } := update_self _ _ _
    obtain ⟨h1, h2, h3⟩ := hcore
    rw [hnew] at h1 h2 h3
    refine ⟨fun hl => ?_, fun _ => ⟨w, h3, ?_, ?_⟩, fun u hu => ?_, fun u hu => ?_⟩
    · exact absurd ((h1.trans hrel.1).symm.trans hl) (by simp)
    · exact h2.symm ▸ Nat.one_pos
    · rw [hzero, hpos]
      exact h2
    · rw [hzero u] at hu
      exact absurd hu (Nat.lt_irrefl 0)
    · rw [hwait]
      rcases h.inside u hu with hm | ho
      · rw [hq] at hm
        rcases List.mem_cons.mp hm with rfl | hm
        · exact Or.inr h3
        · exact Or.inl hm
      · cases hrel.2.1.symm.trans ho
        exact absurd hin hu
  | freed hrel hq =>
    rw [if_pos hrel, hq, List.head?_nil]
    have hzero := h.held_released hat hrel none
    have hwait : waiters (tr ++ [.unlock t m none]) (.mutex m) = [] :=
      (waiters_of_quiet rfl rfl).trans hq
    have hnew : ((s.k.setFree t m).mutexes m).locked = false ∧
        ((s.k.setFree t m).mutexes m).owner = none := by
      have hself : (s.k.setFree t m).mutexes m =
          ⟨false, 0, none, (s.k.mutexes m).wait⟩ := update_self _ _ _
      rw [hself]
      exact ⟨rfl, rfl⟩
    refine ⟨fun _ => ⟨hnew.2, hwait⟩, fun hl => ?_, fun u hu => ?_, fun u hu => ?_⟩
    · exact absurd (hnew.1.symm.trans hl) (by simp)
    · rw [hzero u] at hu
      exact absurd hu (Nat.lt_irrefl 0)
    · rcases h.inside u hu with hm | ho
      · rw [hq] at hm
        cases hm
      · cases hrel.2.1.symm.trans ho
        exact absurd hin hu

theorem MutexInv.step (h : MutexInv m s tr) (hi : Inv s (waiters tr)) (hs : Step s l s')
    (hok : l.mutexOf = some m → noOverflow s l) : MutexInv m s' (tr ++ [l]) := by
  by_cases hl : l.mutexOf = some m
  · cases hs with
    | lock hat j timeoutMs =>
      cases hl
      exact h.step_lock hat
        (rtosMutexLock_cases hi.running hi.idle hat.current hat.ne_idle m timeoutMs) (hok rfl)
    | lockReturn hat =>
      cases hl
      exact h.step_lockReturn hi hat
    | unlock hat j =>
      cases hl
      exact h.step_unlock hi hat
        (rtosMutexUnlock_cases hi.running hi.idle hat.current (hi.runs hat) hi.waiting m)
    | _ => cases hl
  · exact h.other (hi.sameMutex hs hl) hs hl

/-- The owner of a mutex changes with an unlock of the owner that balances its locks. -/
theorem MutexInv.released (h : MutexInv m s tr) (hi : Inv s (waiters tr)) (hs : Step s l s')
    {o : Nat} (ho : (s.k.mutexes m).owner = some o) (ho' : (s'.k.mutexes m).owner ≠ some o) :
    (∃ w, l = .unlock o m w) ∧ held (tr ++ [l]) o m = 0 := by
  by_cases hl : l.mutexOf = some m
  · cases hs with
    | lock hat j timeoutMs =>
      cases hl
      have hcases := rtosMutexLock_cases hi.running hi.idle hat.current hat.ne_idle m timeoutMs
      generalize rtosMutexLock s.k m timeoutMs = r at hcases ho' ⊢
      cases hcases with
      | taken hlock => exact absurd ((h.locked_of_owner ho).1.symm.trans hlock) (by simp)
      | again _ _ =>
        refine absurd ?_ ho'
        dsimp only [Rtos.setMutex]
        rw [update_self]
        exact ho
      | refused _ _ _ => exact absurd ho ho'
      | blocked _ _ _ hd =>
        have hsame := SameMutex.joins (m := m) hd
        exact absurd (hsame.2.2.trans ho) ho'
    | lockReturn hat => exact absurd ho ho'
    | @unlock c hat j =>
      cases hl
      have hcases := rtosMutexUnlock_cases hi.running hi.idle hat.current (hi.runs hat) hi.waiting m
      generalize rtosMutexUnlock s.k m = r at hcases ho' ⊢
      cases hcases with
      | foreign _ => exact absurd ho ho'
      | inner _ _ _ =>
        refine absurd ?_ ho'
        dsimp only [Rtos.setMutex]
        rw [update_self]
        exact ho
      | handed hrel _ _ =>
        cases ho.symm.trans hrel.2.1
        exact ⟨⟨_, rfl⟩, h.held_released hat hrel _ _⟩
      | freed hrel _ =>
        cases ho.symm.trans hrel.2.1
        exact ⟨⟨_, rfl⟩, h.held_released hat hrel _ _⟩
    | _ => cases hl
  · exact absurd ((hi.sameMutex hs hl).2.2.trans ho) ho'

theorem Inv.owner_of_lock (hi : Inv s q) {timeoutMs : Nat}
    (hs : Step s (.lock t m timeoutMs (.ret true)) s') : (s'.k.mutexes m).owner = some t := by
  generalize hl : Label.lock t m timeoutMs (.ret true) = l at hs
  cases hs with
  | lock hat j timeoutMs' =>
    injection hl with h1 h2 h3 h4
    subst h1 h2 h3
    have hcases := rtosMutexLock_cases hi.running hi.idle hat.current hat.ne_idle m timeoutMs
    generalize rtosMutexLock s.k m timeoutMs = r at hcases h4 ⊢
    cases hcases with
    | taken _ =>
      dsimp only [Rtos.setMutex]
      rw [update_self]
    | again _ ho =>
      dsimp only [Rtos.setMutex]
      rw [update_self]
      exact ho
    | refused _ _ _ => cases h4
    | blocked _ _ _ _ => cases h4
  | _ => cases hl

theorem Inv.owner_of_unlock (hi : Inv s q) {w : Option Nat} (hs : Step s (.unlock t m w) s')
    (hrel : s.k.Releases t m) : (s'.k.mutexes m).owner = (q (.mutex m)).head? := by
  generalize hl : Label.unlock t m w = l at hs
  cases hs with
  | unlock hat j =>
    injection hl with h1 h2 h3
    subst h1 h2
    have hcases := rtosMutexUnlock_cases hi.running hi.idle hat.current (hi.runs hat) hi.waiting m
    generalize rtosMutexUnlock s.k m = r at hcases ⊢
    cases hcases with
    | foreign hno => exact absurd ⟨hrel.1, hrel.2.1⟩ hno
    | inner _ _ hr => exact absurd hrel.2.2 (by omega)
    | @handed _ w' rest hq hd =>
      have hsame := SameMutex.leaves (m := m) hd
      have hnew : ((s.k.handTo t m w').mutexes m).owner = some w' := by
        dsimp only [Rtos.handTo, Rtos.setMutex]
        rw [update_self]
      rw [hq]
      exact hsame.2.2.trans hnew
    | freed _ hq =>
      dsimp only [Rtos.setFree, Rtos.setMutex]
      rw [update_self, hq]
      rfl
  | _ => cases hl

end

/-! ### Whole runs -/

theorem Reach.free {ok : Sys → Label → Prop} {initial maxCount : Nat → Int} {s : Sys}
    {tr : List Label} (h : Reach (Sys.Init initial maxCount) ok s tr) :
    ∀ m, (s.k.mutexes m).locked = false → waiters tr (.mutex m) = [] := by
  induction h with
  | init _ => exact fun _ _ => rfl
  | step hr _ hs ih =>
    rw [waiters_snoc]
    exact hr.inv.free_step ih hs

theorem Sys.Init.mutexInv {initial maxCount : Nat → Int} {s : Sys} (h : s.Init initial maxCount)
    (m : Nat) : MutexInv m s [] := by
  have hm := h.mutexes m
  refine ⟨fun _ => ⟨by rw [hm]; rfl, rfl⟩, fun hl => ?_, fun t ht => absurd ht (by simp [held]),
    fun t ht => ?_⟩
  · rw [hm] at hl
    cases hl
  · rw [h.pos t] at ht
    exact absurd rfl ht

theorem Reach.mutexInv {initial maxCount : Nat → Int} {s : Sys} {tr : List Label}
    (h : Reach (Sys.Init initial maxCount) noOverflow s tr) (m : Nat) : MutexInv m s tr := by
  induction h with
  | init hi => exact hi.mutexInv m
  | step hr hok hs ih => exact ih.step hr.inv hs fun _ => hok

/-- What a run guarantees about the mutex `m`. -/
structure MutexOk (m : Nat) (s : Sys) (tr : List Label) : Prop where
  exclusive : ∀ t u, 0 < held tr t m → 0 < held tr u m → t = u
  /-- A lock that returns `true`, at once or after it blocked, leaves its caller the owner. -/
  locks : ∀ t l s', Step s l s' →
    ((∃ timeoutMs, l = .lock t m timeoutMs (.ret true)) ∨ l = .lockReturn t m) →
    (s'.k.mutexes m).owner = some t
  released : ∀ o l s', Step s l s' → (s.k.mutexes m).owner = some o →
    (s'.k.mutexes m).owner ≠ some o → (∃ w, l = .unlock o m w) ∧ held (tr ++ [l]) o m = 0
  queue : LinkedQueue (fun t => (s.k.taskTable t).nextWait) (s.k.mutexes m).wait.waitHead
    (s.k.mutexes m).wait.waitTail (waiters tr (.mutex m))
  nodup : (waiters tr (.mutex m)).Nodup
  members : ∀ t, t ∈ waiters tr (.mutex m) ↔ (s.k.taskTable t).WaitsFor (.mutex m)
  order : tr.filterMap (Label.arrives (.mutex m)) =
    tr.filterMap (Label.wakes (.mutex m)) ++ waiters tr (.mutex m)
  handover : ∀ t w s', Step s (.unlock t m w) s' → s.k.Releases t m →
    (s'.k.mutexes m).owner = (waiters tr (.mutex m)).head?
  owned : ∀ t, (s.k.taskTable t).WaitsFor (.mutex m) → ∃ o, (s.k.mutexes m).owner = some o

/-- **Mutexes exclude**, in every run in which no task locks a mutex that it holds
    2^32 - 1 times already. -/
theorem mutex_safety {initial maxCount : Nat → Int} {s : Sys} {tr : List Label}
    (h : Reach (Sys.Init initial maxCount) noOverflow s tr) (m : Nat) : MutexOk m s tr := by
  have hi := h.inv
  have hm := h.mutexInv m
  refine ⟨fun t u ht hu => ?_, fun t l s' hs hl => ?_, fun o l s' hs ho ho' => hm.released hi hs ho ho',
    hi.waiting.linked (.mutex m), hi.waiting.nodup (.mutex m), hi.waiting.mem (.mutex m) trivial,
    h.fifo (.mutex m), fun t w s' hs hrel => hi.owner_of_unlock hs hrel, fun t ht => ?_⟩
  · exact Option.some.inj ((hm.holder t ht).symm.trans (hm.holder u hu))
  · rcases hl with ⟨timeoutMs, rfl⟩ | rfl
    · exact hi.owner_of_lock hs
    · generalize hl : Label.lockReturn t m = l at hs
      cases hs with
      | lockReturn hat =>
        cases hl
        exact hm.owner_of_inside hi hat
      | _ => cases hl
  · have hmem := (hi.waiting.mem (.mutex m) trivial t).mpr ht
    cases hl : (s.k.mutexes m).locked with
    | false =>
      rw [(hm.free hl).2] at hmem
      cases hmem
    | true =>
      obtain ⟨o, ho, _⟩ := hm.owned hl
      exact ⟨o, ho⟩

/-- Task 2 waits for the mutex that task 1 holds, and is handed it. -/
theorem mutex_safety_handed :
    ∃ s tr, MutexOk 0 s tr ∧ held tr 1 0 = 0 ∧ (s.k.mutexes 0).owner = some 2 := by
  have hinit : Reach (Sys.Init (fun _ => 0) (fun _ => 0)) noOverflow
      (freshSys 3 (fun t => if t = 0 then 0 else 6) (fun _ => 0) (fun _ => 0)) [] :=
    Reach.init (freshSys_init (by decide) _ _ _)
  have h1 := hinit.step (l := .lock 1 0 0 (.ret true)) (fun ho => by cases ho)
    (Step.lock (t := 1) ⟨rfl, by decide, rfl⟩ 0 0)
  have h2 := (h1.step (l := .yield 1) trivial (Step.yield rfl rfl)).step (l := .yield 1) trivial
    (Step.yield rfl rfl)
  have h3 := h2.step (l := .lock 2 0 10 .block) (fun ho => by cases ho)
    (Step.lock (t := 2) ⟨rfl, by decide, rfl⟩ 0 10)
  have h4 := h3.step (l := .unlock 1 0 (some 2)) trivial
    (Step.unlock (t := 1) ⟨rfl, by decide, rfl⟩ 0)
  exact ⟨_, _, mutex_safety h4 0, by decide, by rfl⟩

/-! ### Where it fails -/

/-- Task 1 has locked mutex 0 `n` times. -/
def nestedSys (n : Nat) : Sys :=
  { freshSys 2 (fun _ => 6) (fun _ => 0) (fun _ => 0) with
    k := (freshSys 2 (fun _ => 6) (fun _ => 0) (fun _ => 0)).k.setMutex 0
      { locked := true, recursionCount := u32 n, owner := some 1, wait := ⟨none, none⟩ } }

theorem nestedSys_lock (n : Nat) :
    Step (nestedSys n) (.lock 1 0 0 (.ret true)) (nestedSys (n + 1)) := by
  have hstep := Step.lock (s := nestedSys n) (t := 1) ⟨rfl, Nat.one_ne_zero, rfl⟩ 0 0
  have hlock : rtosMutexLock (nestedSys n).k 0 0 = ((nestedSys (n + 1)).k, .ret true) := by
    have hk : (nestedSys n).k.mutexes 0 =
        { locked := true, recursionCount := u32 n, owner := some 1, wait := ⟨none, none⟩ } := rfl
    have hset : (nestedSys n).k.setMutex 0 { (nestedSys n).k.mutexes 0 with
        recursionCount := u32 (u32 n + 1) } = (nestedSys (n + 1)).k := by
      rw [u32_u32_add]
      dsimp only [nestedSys, Rtos.setMutex]
      rw [update_idem]
      rfl
    unfold rtosMutexLock
    rw [hk]
    exact Prod.ext hset rfl
  rw [hlock] at hstep
  have hpos : update (nestedSys n).pos 1 .user = (nestedSys n).pos :=
    update_eq_self 1 (nestedSys n).pos
  have hpos' : Outcome.pos (.ret true) (.mutexLock 0) = .user := rfl
  dsimp only at hstep
  rw [hpos', hpos] at hstep
  exact hstep

theorem nestedSys_reach (n : Nat) :
    Reach (Sys.Init (fun _ => 0) (fun _ => 0)) (fun _ _ => True) (nestedSys (n + 1))
      (List.replicate (n + 1) (.lock 1 0 0 (.ret true))) := by
  induction n with
  | zero =>
    have hinit : Reach (Sys.Init (fun _ => 0) (fun _ => 0)) (fun _ _ => True)
        (freshSys 2 (fun _ => 6) (fun _ => 0) (fun _ => 0)) [] :=
      Reach.init (freshSys_init (by decide) _ _ _)
    have h1 := hinit.step trivial (Step.lock (t := 1) ⟨rfl, by decide, rfl⟩ 0 0)
    have hpos : update (nestedSys 1).pos 1 .user = (nestedSys 1).pos :=
      update_eq_self 1 (nestedSys 1).pos
    have hstate : (⟨(nestedSys 1).k, update (nestedSys 1).pos 1 .user⟩ : Sys) =
        nestedSys 1 := by
      rw [hpos]
    exact hstate ▸ h1
  | succ n ih =>
    have hstep := ih.step trivial (nestedSys_lock (n + 1))
    rw [List.replicate_succ']
    exact hstep

theorem held_replicate (n : Nat) : held (List.replicate n (.lock 1 0 0 (.ret true))) 1 0 = n := by
  induction n with
  | zero => rfl
  | succ n ih =>
    rw [List.replicate_succ', held_snoc, ih]
    rfl

/-- After 2^32 nested locks `recursion_count` is 0 again, and the first unlock gives the
    mutex up, which its owner still holds 2^32 - 1 times. -/
theorem mutex_released_while_held :
    ¬ ∀ s tr, Reach (Sys.Init (fun _ => 0) (fun _ => 0)) (fun _ _ => True) s tr →
      MutexOk 0 s tr := by
  intro h
  have hreach := nestedSys_reach 4294967295
  have hrec : u32 (4294967295 + 1) = 0 := rfl
  generalize hN : 4294967295 + 1 = N at hreach hrec
  have hstep := Step.unlock (s := nestedSys N) (t := 1) ⟨rfl, Nat.one_ne_zero, rfl⟩ 0
  have hfree : ((rtosMutexUnlock (nestedSys N).k 0).mutexes 0).owner ≠ some 1 := by
    have hmut : (nestedSys N).k.mutexes 0 = ⟨true, u32 N, some 1, ⟨none, none⟩⟩ := rfl
    unfold rtosMutexUnlock
    rw [hmut, hrec]
    simp [nestedSys, freshSys, Rtos.setMutex, popWaiter]
  have hheld := ((h _ _ hreach).released 1 _ _ hstep rfl hfree).2
  rw [held_snoc, held_replicate, Label.holds, if_pos ⟨rfl, rfl⟩] at hheld
  omega

end Gemios
