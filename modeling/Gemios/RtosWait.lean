import Gemios.LinkedQueue
import Gemios.RtosSched

/-!
# The wait queues

Every semaphore and every mutex has a wait queue, and all of them run through the one
field `next_wait` of the tasks.  `Waiting` says that the queues hold exactly the blocked
tasks: a task is in the queue of the object it waits for, and in no other.
-/

namespace Gemios

open Function

/-- The objects with a wait queue; tasks that wait for an event are found through the
    task table. -/
def Obj.Queued : Obj → Prop
  | .sem _ => True
  | .mutex _ => True
  | .event _ => False

def Rtos.queue (k : Rtos) : Obj → WaitQueue
  | .sem i => (k.sems i).wait
  | .mutex m => (k.mutexes m).wait
  | .event _ => ⟨none, none⟩

theorem Rtos.queue_setSem (k : Rtos) (i : Nat) (v : Sem) :
    (k.setSem i v).queue = update k.queue (.sem i) v.wait := by
  funext o
  by_cases ho : o = .sem i
  · subst ho
    simp [queue, setSem]
  · rw [update_of_ne ho]
    cases o with
    | sem j =>
      have hj : j ≠ i := fun h => ho (by rw [h])
      simp [queue, setSem, update_of_ne hj]
    | mutex m => rfl
    | event e => rfl

theorem Rtos.queue_setMutex (k : Rtos) (m : Nat) (v : Mutex) :
    (k.setMutex m v).queue = update k.queue (.mutex m) v.wait := by
  funext o
  by_cases ho : o = .mutex m
  · subst ho
    simp [queue, setMutex]
  · rw [update_of_ne ho]
    cases o with
    | sem i => rfl
    | mutex j =>
      have hj : j ≠ m := fun h => ho (by rw [h])
      simp [queue, setMutex, update_of_ne hj]
    | event e => rfl

theorem Rtos.queue_setSem_same {k : Rtos} {i : Nat} {v : Sem} (h : v.wait = (k.sems i).wait) :
    (k.setSem i v).queue = k.queue := by
  rw [queue_setSem, h]
  exact update_eq_self (.sem i) k.queue

theorem Rtos.queue_setMutex_same {k : Rtos} {m : Nat} {v : Mutex}
    (h : v.wait = (k.mutexes m).wait) : (k.setMutex m v).queue = k.queue := by
  rw [queue_setMutex, h]
  exact update_eq_self (.mutex m) k.queue

theorem Frame.queue_eq {s s' : Rtos} (h : Frame s s') : s'.queue = s.queue := by
  funext o
  cases o with
  | sem i => simp only [Rtos.queue, h.sems]
  | mutex m => simp only [Rtos.queue, h.mutexes]
  | event e => rfl

def Task.WaitsFor (task : Task) (o : Obj) : Prop :=
  task.state = .blocked ∧ task.waitObject = some o

theorem Kept.waitsFor {a b : Task} (h : Kept a b) {o : Obj} : b.WaitsFor o ↔ a.WaitsFor o := by
  unfold Task.WaitsFor
  rw [h.blocked, h.waitObject]

/-- The queues of the objects hold the tasks that wait for them, as listed by `q`. -/
structure Waiting (tab : Nat → Task) (queue : Obj → WaitQueue) (q : Obj → List Nat) : Prop where
  linked : ∀ o, LinkedQueue (fun t => (tab t).nextWait) (queue o).waitHead (queue o).waitTail (q o)
  nodup : ∀ o, (q o).Nodup
  mem : ∀ o, o.Queued → ∀ t, t ∈ q o ↔ (tab t).WaitsFor o

namespace Waiting

variable {tab tab' : Nat → Task} {queue : Obj → WaitQueue} {q : Obj → List Nat} {o : Obj} {t : Nat}

theorem event_nil {e : Nat} (h : Waiting tab queue q) (hw : (queue (.event e)).waitHead = none) :
    q (.event e) = [] := by
  have hhead := (h.linked (.event e)).head_eq
  rw [hw] at hhead
  exact List.head?_eq_none_iff.mp hhead.symm

theorem congr (h : Waiting tab queue q) (hnext : ∀ t, (tab' t).nextWait = (tab t).nextWait)
    (hwait : ∀ o, o.Queued → ∀ t, (tab' t).WaitsFor o ↔ (tab t).WaitsFor o) :
    Waiting tab' queue q where
  linked := fun o => (h.linked o).congr fun t _ => hnext t
  nodup := h.nodup
  mem := fun o ho t => (h.mem o ho t).trans (hwait o ho t).symm

theorem kept (h : Waiting tab queue q) (hk : ∀ t, Kept (tab t) (tab' t)) :
    Waiting tab' queue q :=
  h.congr (fun t => (hk t).nextWait) fun _ _ t => (hk t).waitsFor

theorem frame {s s' : Rtos} (h : Waiting s.taskTable s.queue q) (hf : Frame s s') :
    Waiting s'.taskTable s'.queue q := by
  rw [hf.queue_eq]
  exact h.kept hf.kept

theorem disjoint (h : Waiting tab queue q) {o' : Obj} (ho : o.Queued) (ho' : o'.Queued)
    (hm : t ∈ q o) (hm' : t ∈ q o') : o = o' := by
  have h1 := ((h.mem o ho t).mp hm).2
  have h2 := ((h.mem o' ho' t).mp hm').2
  rw [h1] at h2
  exact Option.some.inj h2

theorem not_mem (h : Waiting tab queue q) (hev : ∀ e, (queue (.event e)).waitHead = none)
    (ht : (tab t).state ≠ .blocked) (o : Obj) : t ∉ q o := by
  intro hm
  cases o with
  | sem i => exact ht ((h.mem (.sem i) trivial t).mp hm).1
  | mutex m => exact ht ((h.mem (.mutex m) trivial t).mp hm).1
  | event e =>
    rw [h.event_nil (hev e)] at hm
    cases hm

theorem addWaiter_next (tab : Nat → Task) (w : WaitQueue) (t : Nat) :
    (fun u => ((addWaiter tab w t).1 u).nextWait) =
      match w.waitHead, w.waitTail with
      | some _, some l =>
        update (update (fun u => (tab u).nextWait) t none) l (some t)
      | _, _ => update (fun u => (tab u).nextWait) t none := by
  have hset : ∀ (tb : Nat → Task) (x : Nat) (v : Option Nat),
      (fun u => (update tb x { tb x with nextWait := v } u).nextWait) =
        update (fun u => (tb u).nextWait) x v := by
    intro tb x v
    funext u
    by_cases hu : u = x
    · subst hu
      simp
    · simp [update_of_ne hu]
  unfold addWaiter
  cases hh : w.waitHead with
  | none => exact hset tab t none
  | some x =>
    cases hl : w.waitTail with
    | none => exact hset tab t none
    | some l =>
      refine (hset _ l (some t)).trans ?_
      rw [hset tab t none]

theorem addWaiter_same (tab : Nat → Task) (w : WaitQueue) (t u : Nat) :
    ((addWaiter tab w t).1 u) = { tab u with nextWait := ((addWaiter tab w t).1 u).nextWait } := by
  have hset : ∀ (tb : Nat → Task) (x : Nat) (v : Option Nat), ∃ n,
      update tb x { tb x with nextWait := v } u = { tb u with nextWait := n } := by
    intro tb x v
    by_cases hu : u = x
    · subst hu
      exact ⟨v, by rw [update_self]⟩
    · exact ⟨(tb u).nextWait, by rw [update_of_ne hu]⟩
  have hex : ∃ n, (addWaiter tab w t).1 u = { tab u with nextWait := n } := by
    obtain ⟨n, hn⟩ := hset tab t none
    unfold addWaiter
    cases w.waitHead with
    | none => exact ⟨n, hn⟩
    | some x =>
      cases w.waitTail with
      | none => exact ⟨n, hn⟩
      | some l =>
        obtain ⟨n', hn'⟩ := hset (update tab t { tab t with nextWait := none }) l (some t)
        exact ⟨n', hn'.trans (by rw [hn])⟩
  obtain ⟨n, hn⟩ := hex
  rw [hn]

theorem addWaiter_queue (h : Waiting tab queue q) (ht : t ∉ q o) :
    LinkedQueue (fun u => ((addWaiter tab (queue o) t).1 u).nextWait)
      (addWaiter tab (queue o) t).2.waitHead (addWaiter tab (queue o) t).2.waitTail
      (q o ++ [t]) := by
  have hq := h.linked o
  rw [addWaiter_next]
  unfold addWaiter
  generalize queue o = w at hq
  obtain ⟨head, tail⟩ := w
  dsimp only at hq
  cases hlist : q o with
  | nil =>
    rw [hlist] at hq
    have hh : head = none := hq.head_eq
    subst hh
    exact LinkedQueue.single (fun u => (tab u).nextWait) t
  | cons a l =>
    rw [hlist] at hq
    have hh : head = some a := hq.head_eq
    obtain ⟨b, hb⟩ : ∃ b, tail = some b := ⟨_, hq.tail_eq.trans (List.getLast?_cons ..)⟩
    subst hh hb
    refine hq.snoc ?_ ?_
    · rw [← hlist]
      exact h.nodup o
    · rw [← hlist]
      exact ht

theorem addWaiter_other (h : Waiting tab queue q) {o' : Obj} (ht : t ∉ q o')
    (hdis : ∀ u, u ∈ q o → u ∉ q o') :
    LinkedQueue (fun u => ((addWaiter tab (queue o) t).1 u).nextWait)
      (queue o').waitHead (queue o').waitTail (q o') := by
  refine (h.linked o').congr fun u hu => ?_
  have hut : u ≠ t := fun heq => ht (heq ▸ hu)
  have hnext := congrFun (addWaiter_next tab (queue o) t) u
  rw [hnext]
  have hq := h.linked o
  generalize queue o = w at hq
  obtain ⟨head, tail⟩ := w
  dsimp only at hq ⊢
  cases head with
  | none => exact update_of_ne hut _ _
  | some a =>
    cases tail with
    | none => exact update_of_ne hut _ _
    | some b =>
      have hb : b ∈ q o := List.mem_of_getLast? hq.tail_eq.symm
      have hub : u ≠ b := fun heq => hdis b hb (heq ▸ hu)
      dsimp only
      rw [update_of_ne hub, update_of_ne hut]

theorem block (h : Waiting tab queue q) (hev : ∀ e, (queue (.event e)).waitHead = none)
    (ho : o.Queued) (ht : (tab t).state ≠ .blocked) :
    Waiting
      (update (addWaiter tab (queue o) t).1 t
        { (addWaiter tab (queue o) t).1 t with state := .blocked, waitObject := some o })
      (update queue o (addWaiter tab (queue o) t).2)
      (update q o (q o ++ [t])) := by
  have hout := h.not_mem hev ht
  have hnext : (fun u => (update (addWaiter tab (queue o) t).1 t
      { (addWaiter tab (queue o) t).1 t with state := .blocked, waitObject := some o } u).nextWait) =
        fun u => ((addWaiter tab (queue o) t).1 u).nextWait := by
    funext u
    by_cases hu : u = t
    · subst hu
      rw [update_self]
    · rw [update_of_ne hu]
  refine ⟨fun o' => ?_, fun o' => ?_, fun o' ho' u => ?_⟩
  · rw [hnext]
    by_cases hoo : o' = o
    · subst hoo
      rw [update_self, update_self]
      exact h.addWaiter_queue (hout o')
    · rw [update_of_ne hoo, update_of_ne hoo]
      refine h.addWaiter_other (hout o') fun u hu hu' => ?_
      cases o' with
      | sem i => exact hoo (h.disjoint trivial ho hu' hu)
      | mutex m => exact hoo (h.disjoint trivial ho hu' hu)
      | event e =>
        rw [h.event_nil (hev e)] at hu'
        cases hu'
  · by_cases hoo : o' = o
    · subst hoo
      rw [update_self]
      exact List.nodup_append.mpr ⟨h.nodup o', by simp, fun a ha b hb hab => by
        rw [List.mem_singleton.mp hb] at hab
        exact hout o' (hab ▸ ha)⟩
    · rw [update_of_ne hoo]
      exact h.nodup o'
  · by_cases hu : u = t
    · subst hu
      rw [update_self]
      constructor
      · intro hm
        by_cases hoo : o' = o
        · rw [hoo]
          exact ⟨rfl, rfl⟩
        · rw [update_of_ne hoo] at hm
          exact absurd hm (hout o')
      · intro hw
        have hoo : o = o' := Option.some.inj hw.2
        subst hoo
        rw [update_self]
        exact List.mem_append_right _ List.mem_cons_self
    · rw [update_of_ne hu, addWaiter_same]
      refine Iff.trans ?_ (h.mem o' ho' u)
      by_cases hoo : o' = o
      · subst hoo
        rw [update_self, List.mem_append, List.mem_singleton]
        exact ⟨fun h => h.resolve_right hu, Or.inl⟩
      · rw [update_of_ne hoo]

theorem popWaiter_nil (h : Waiting tab queue q) (hq : q o = []) :
    popWaiter tab (queue o) = (none, tab, queue o) := by
  have hh := (h.linked o).head_eq
  rw [hq] at hh
  unfold popWaiter
  rw [hh]
  rfl

theorem popWaiter_cons (h : Waiting tab queue q) {rest : List Nat} (hq : q o = t :: rest) :
    popWaiter tab (queue o) =
      (some t, update tab t { tab t with nextWait := none },
        ⟨(tab t).nextWait, if (tab t).nextWait = none then none else (queue o).waitTail⟩) := by
  have hh := (h.linked o).head_eq
  rw [hq] at hh
  unfold popWaiter
  rw [hh]
  rfl

theorem wake (h : Waiting tab queue q) (hev : ∀ e, (queue (.event e)).waitHead = none)
    (ho : o.Queued) {rest : List Nat} (hq : q o = t :: rest) {task : Task}
    (hstate : task.state ≠ .blocked) :
    Waiting (update tab t task)
      (update queue o
        ⟨(tab t).nextWait, if (tab t).nextWait = none then none else (queue o).waitTail⟩)
      (update q o rest) := by
  have hnd := h.nodup o
  rw [hq, List.nodup_cons] at hnd
  have htq : t ∈ q o := by
    rw [hq]
    exact List.mem_cons_self
  have hnext : ∀ u, u ≠ t → (update tab t task u).nextWait = (tab u).nextWait := by
    intro u hu
    rw [update_of_ne hu]
  refine ⟨fun o' => ?_, fun o' => ?_, fun o' ho' u => ?_⟩
  · by_cases hoo : o' = o
    · subst hoo
      rw [update_self, update_self]
      have hq' := h.linked o'
      rw [hq] at hq'
      refine hq'.tail_of_cons.congr fun u hu => hnext u ?_
      exact fun heq => hnd.1 (heq ▸ hu)
    · rw [update_of_ne hoo, update_of_ne hoo]
      refine (h.linked o').congr fun u hu => hnext u fun heq => ?_
      subst heq
      cases o' with
      | sem i => exact hoo (h.disjoint trivial ho hu htq)
      | mutex m => exact hoo (h.disjoint trivial ho hu htq)
      | event e =>
        rw [h.event_nil (hev e)] at hu
        cases hu
  · by_cases hoo : o' = o
    · subst hoo
      rw [update_self]
      exact hnd.2
    · rw [update_of_ne hoo]
      exact h.nodup o'
  · by_cases hu : u = t
    · subst hu
      rw [update_self]
      constructor
      · intro hm
        by_cases hoo : o' = o
        · subst hoo
          rw [update_self] at hm
          exact absurd hm hnd.1
        · rw [update_of_ne hoo] at hm
          exact absurd (h.disjoint ho' ho hm htq) hoo
      · exact fun hw => absurd hw.1 hstate
    · rw [update_of_ne hu]
      refine Iff.trans ?_ (h.mem o' ho' u)
      by_cases hoo : o' = o
      · subst hoo
        rw [update_self, hq, List.mem_cons]
        exact ⟨Or.inr, fun h => h.resolve_left hu⟩
      · rw [update_of_ne hoo]

end Waiting

end Gemios
