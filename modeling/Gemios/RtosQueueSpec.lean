import Mathlib.Data.List.Perm.Subperm
import Gemios.RtosQueue

/-!
# The permits of a queue

The permits of the two semaphores bound the number of items from above and below, and the
mutex gives the ring to one task at a time.  Both are read off the places of the tasks in
the two calls.
-/

namespace Gemios

open Function

/-! ### Counting permits -/

/-- The task whose `rtos_sem_wait` on `i` returns `true`. -/
def Label.passes (i : Nat) : Label → Option Nat
  | .wait t j _ (.ret true) => if i = j then some t else none
  | .waitReturn t j => if i = j then some t else none
  | _ => none

def Label.signals (i : Nat) : Label → Option Nat
  | .signal t j _ _ => if i = j then some t else none
  | _ => none

def Label.grantee (i : Nat) : Label → Option Nat
  | .wait t j _ (.ret true) => if i = j then some t else none
  | .signal _ j (some w) _ => if i = j then some w else none
  | _ => none

theorem Label.grants_eq (i : Nat) (l : Label) : l.grants i = (l.grantee i).isSome := by
  cases l with
  | wait t j timeoutMs out =>
    cases out with
    | ret b =>
      cases b with
      | false => rfl
      | true =>
        by_cases hij : i = j
        · simp [grants, grantee, hij]
        · simp [grants, grantee, hij]
    | block => rfl
  | signal t j w kept =>
    cases w with
    | none => rfl
    | some w =>
      by_cases hij : i = j
      · simp [grants, grantee, hij]
      · simp [grants, grantee, hij]
  | _ => rfl

theorem length_filterMap_eq_countP (f : Label → Option Nat) (tr : List Label) :
    (tr.filterMap f).length = tr.countP fun l => (f l).isSome := by
  induction tr with
  | nil => rfl
  | cons l tr ih =>
    cases hf : f l with
    | none => simp [hf, ih]
    | some x => simp [hf, ih]

theorem length_le_of_count {l₁ l₂ : List Nat} (h : ∀ t, l₁.count t ≤ l₂.count t) :
    l₁.length ≤ l₂.length :=
  (List.subperm_ext_iff.mpr fun t _ => h t).length_le

theorem length_lt_of_count {l₁ l₂ : List Nat} {c : Nat}
    (h : ∀ t, l₁.count t + (if t = c then 1 else 0) ≤ l₂.count t) : l₁.length < l₂.length := by
  have hle : (c :: l₁).length ≤ l₂.length := by
    refine length_le_of_count fun t => ?_
    have ht := h t
    rw [List.count_cons]
    by_cases htc : t = c
    · rw [if_pos htc] at ht
      simpa [htc] using ht
    · rw [if_neg htc] at ht
      have hct : ¬ c = t := fun heq => htc heq.symm
      simpa [hct] using ht
  exact hle

section

variable {ok : Sys → Label → Prop} {initial maxCount : Nat → Int} {s : Sys} {tr : List Label}

theorem count_passes (tr : List Label) (i t : Nat) :
    (tr.filterMap (Label.passes i)).count t + (tr.filterMap (Label.wakes (.sem i))).count t =
      (tr.filterMap (Label.grantee i)).count t +
        (tr.filterMap (Label.returns (.sem i))).count t := by
  induction tr with
  | nil => rfl
  | cons l tr ih =>
    have hcons : ∀ f : Label → Option Nat,
        ((l :: tr).filterMap f).count t = (f l).toList.count t + (tr.filterMap f).count t := by
      intro f
      cases hf : f l with
      | none => simp [hf]
      | some x =>
        simp only [List.filterMap_cons, hf, Option.toList_some, List.count_cons, List.count_nil]
        omega
    have hone : (l.passes i).toList.count t + (l.wakes (.sem i)).toList.count t =
        (l.grantee i).toList.count t + (l.returns (.sem i)).toList.count t := by
      cases l with
      | wait t j timeoutMs out =>
        cases out with
        | ret b => cases b <;> simp [Label.passes, Label.wakes, Label.grantee, Label.returns]
        | block => rfl
      | waitReturn t j => simp [Label.passes, Label.wakes, Label.grantee, Label.returns]
      | signal t j w kept =>
        cases w <;> simp [Label.passes, Label.wakes, Label.grantee, Label.returns]
      | lock t m timeoutMs out => cases out <;> rfl
      | lockReturn t m => simp [Label.passes, Label.wakes, Label.grantee, Label.returns]
      | unlock t m w => cases w <;> simp [Label.passes, Label.wakes, Label.grantee, Label.returns]
      | _ => rfl
    rw [hcons, hcons, hcons, hcons]
    omega

theorem Reach.passes_le (h : Reach (Sys.Init initial maxCount) ok s tr) (i : Nat) :
    (tr.filterMap (Label.passes i)).length ≤ tr.countP (Label.grants i) := by
  have hgrant : tr.countP (Label.grants i) = (tr.filterMap (Label.grantee i)).length := by
    rw [length_filterMap_eq_countP]
    exact List.countP_congr fun l _ => by rw [Label.grants_eq]
  rw [hgrant]
  refine length_le_of_count fun t => ?_
  have hcount := count_passes tr i t
  have hwoken := h.woken (o := .sem i) trivial t
  omega

theorem keeps_le_signals (tr : List Label) (i : Nat) :
    tr.countP (Label.keeps i) ≤ (tr.filterMap (Label.signals i)).length := by
  rw [length_filterMap_eq_countP]
  refine List.countP_mono_left fun l _ hk => ?_
  cases l with
  | signal t j w kept =>
    cases kept with
    | false => cases hk
    | true =>
      have hij : i = j := by simpa [Label.keeps] using hk
      simp [Label.signals, hij]
  | _ => cases hk

theorem Reach.passes_le_signals (h : Reach (Sys.Init initial maxCount) ok s tr) (i : Nat) :
    ((tr.filterMap (Label.passes i)).length : Int) ≤
      max (initial i) 0 + (tr.filterMap (Label.signals i)).length := by
  have h1 := h.passes_le i
  have h2 := h.grants_le i
  have h3 := keeps_le_signals tr i
  omega

end

/-! ### Permits in flight -/

namespace QPlace

/-- Whether a task at this place holds the lock of the queue. -/
def holds : QPlace → Nat
  | .copying _ _ _ => 1
  | .moved _ => 1
  | .counted _ => 1
  | _ => 0

/-- Whether a task at this place has taken a permit and not moved the index yet. -/
def pending (side : Side) : QPlace → Nat
  | .passed d _ => if d = side then 1 else 0
  | .locking d _ => if d = side then 1 else 0
  | .copying d _ _ => if d = side then 1 else 0
  | _ => 0

/-- Whether a task at this place has moved the index and not given the permit back yet. -/
def owes (side : Side) : QPlace → Nat
  | .moved d => if d = side then 1 else 0
  | .counted d => if d = side then 1 else 0
  | .unlocked d => if d = side then 1 else 0
  | _ => 0

end QPlace

/-- The permits that have been taken and given, task by task, follow from the items copied
    and the places of the tasks. -/
structure Permits (s : QSys) (tr : List Label) : Prop where
  held : ∀ t, held tr t s.q.lock = (s.place t).holds
  taken : ∀ side t, (tr.filterMap (Label.passes (s.q.takes side))).count t =
    ((s.log side).map Prod.fst).count t + (s.place t).pending side
  given : ∀ side t, ((s.log side).map Prod.fst).count t =
    (tr.filterMap (Label.signals (s.q.gives side))).count t + (s.place t).owes side

theorem Label.passes_other {l : Label} {i : Nat} (h : l.semOf ≠ some i) :
    l.passes i = none ∧ l.signals i = none := by
  have hne : ∀ {j : Nat}, some j ≠ some i → ¬ i = j := fun hj heq => hj (by rw [heq])
  cases l with
  | wait t j timeoutMs out =>
    cases out with
    | ret b =>
      cases b with
      | false => exact ⟨rfl, rfl⟩
      | true => exact ⟨if_neg (hne h), rfl⟩
    | block => exact ⟨rfl, rfl⟩
  | waitReturn t j => exact ⟨if_neg (hne h), rfl⟩
  | signal t j w kept => exact ⟨rfl, if_neg (hne h)⟩
  | _ => exact ⟨rfl, rfl⟩

theorem filterMap_one (f : Label → Option Nat) (l : Label) : [l].filterMap f = (f l).toList := by
  cases hf : f l with
  | none => simp [hf]
  | some x => simp [hf]

theorem Label.of_task {l : Label} {t u : Nat} (h : l.task = some t) (hu : u ≠ t) (i n : Nat) :
    l.holds u i n = n ∧ (l.passes i).toList.count u = 0 ∧ (l.signals i).toList.count u = 0 := by
  have hut : ¬ t = u := fun heq => hu heq.symm
  cases l with
  | wait c j timeoutMs out =>
    cases h
    cases out with
    | ret b => cases b <;> by_cases hij : i = j <;> simp [holds, passes, signals, hij, hut]
    | block => exact ⟨rfl, rfl, rfl⟩
  | waitReturn c j =>
    cases h
    by_cases hij : i = j <;> simp [holds, passes, signals, hij, hut]
  | signal c j w kept =>
    cases h
    by_cases hij : i = j <;> simp [holds, passes, signals, hij, hut]
  | lock c j timeoutMs out =>
    cases h
    cases out with
    | ret b => cases b <;> simp [holds, passes, signals, hut]
    | block => exact ⟨rfl, rfl, rfl⟩
  | lockReturn c j =>
    cases h
    simp [holds, passes, signals, hut]
  | unlock c j w =>
    cases h
    simp [holds, passes, signals, hut]
  | _ => exact ⟨rfl, rfl, rfl⟩

section

variable {s s' : QSys} {a : QAct} {tr ls : List Label}

theorem Permits.move (h : Permits s tr) {l : Label} {t : Nat} {p : QPlace} {sys : Sys}
    (hl : l.task = some t) (hheld : l.holds t s.q.lock (s.place t).holds = p.holds)
    (htaken : ∀ side, (s.place t).pending side + (l.passes (s.q.takes side)).toList.count t =
      p.pending side)
    (hgiven : ∀ side, (s.place t).owes side =
      (l.signals (s.q.gives side)).toList.count t + p.owes side) :
    Permits (s.go sys t p) (tr ++ [l]) := by
  have hplace : (s.go sys t p).place = update s.place t p := rfl
  have hq : (s.go sys t p).q = s.q := rfl
  have hlog : (s.go sys t p).log = s.log := rfl
  refine ⟨fun u => ?_, fun side u => ?_, fun side u => ?_⟩
  · rw [held_snoc, hplace, hq, h.held u]
    by_cases hut : u = t
    · rw [hut, update_self]
      exact hheld
    · rw [update_of_ne hut]
      exact (Label.of_task hl hut _ _).1
  · rw [hplace, hq, hlog, List.filterMap_append, filterMap_one, List.count_append, h.taken side u]
    by_cases hut : u = t
    · rw [hut, update_self, ← htaken side]
      omega
    · rw [update_of_ne hut, (Label.of_task hl hut _ 0).2.1]
      rfl
  · rw [hplace, hq, hlog, List.filterMap_append, filterMap_one, List.count_append, h.given side u]
    by_cases hut : u = t
    · rw [hut, update_self, hgiven side]
      omega
    · rw [update_of_ne hut, (Label.of_task hl hut _ 0).2.2]
      rfl

theorem Permits.silent (h : Permits s tr) {t : Nat} {p : QPlace} {q : Queue}
    (hlock : q.lock = s.q.lock) (htakes : ∀ side, q.takes side = s.q.takes side)
    (hgives : ∀ side, q.gives side = s.q.gives side) (hheld : (s.place t).holds = p.holds)
    (htaken : ∀ side, (s.place t).pending side = p.pending side)
    (hgiven : ∀ side, (s.place t).owes side = p.owes side) :
    Permits { s.go s.sys t p with q := q } tr := by
  have hsame : ∀ (f : QPlace → Nat), f (s.place t) = f p →
      ∀ u, f (update s.place t p u) = f (s.place u) := by
    intro f hf u
    by_cases hut : u = t
    · rw [hut, update_self, hf]
    · rw [update_of_ne hut]
  refine ⟨fun u => ?_, fun side u => ?_, fun side u => ?_⟩
  · refine Eq.trans ?_ (hsame QPlace.holds hheld u).symm
    rw [← h.held u]
    exact congrArg _ hlock
  · have heq := hsame (QPlace.pending side) (htaken side) u
    dsimp only [QSys.go]
    rw [heq, htakes, h.taken side u]
  · have heq := hsame (QPlace.owes side) (hgiven side) u
    dsimp only [QSys.go]
    rw [heq, hgives, h.given side u]

theorem Permits.copied (h : Permits s tr) {t : Nat} {d : Side} {x : List UInt8} {q : Queue}
    (hlock : q.lock = s.q.lock) (htakes : ∀ side, q.takes side = s.q.takes side)
    (hgives : ∀ side, q.gives side = s.q.gives side) (hheld : (s.place t).holds = 1)
    (htaken : ∀ side, (s.place t).pending side = if d = side then 1 else 0)
    (hgiven : ∀ side, (s.place t).owes side = 0) :
    Permits { s.go s.sys t (.moved d) with
      q := q, log := update s.log d (s.log d ++ [(t, x)]) } tr := by
  have hcount : ∀ side u, ((update s.log d (s.log d ++ [(t, x)]) side).map
      Prod.fst).count u = ((s.log side).map Prod.fst).count u +
        if d = side ∧ t = u then 1 else 0 := by
    intro side u
    by_cases hd : side = d
    · by_cases htu : t = u
      · simp [hd, htu]
      · simp [hd, htu]
    · have hd' : ¬ d = side := fun heq => hd heq.symm
      simp [hd, hd']
  have hplace : ∀ u, u ≠ t → update s.place t (.moved d) u = s.place u :=
    fun u hu => update_of_ne hu _ _
  refine ⟨fun u => ?_, fun side u => ?_, fun side u => ?_⟩
  · dsimp only [QSys.go]
    rw [hlock, h.held u]
    by_cases hut : u = t
    · rw [hut, update_self, hheld]
      rfl
    · rw [hplace u hut]
  · dsimp only [QSys.go]
    rw [hcount, htakes, h.taken side u]
    by_cases hut : u = t
    · rw [hut, update_self, htaken]
      simp [QPlace.pending]
    · have htu : ¬ t = u := fun heq => hut heq.symm
      rw [hplace u hut]
      simp [htu]
  · dsimp only [QSys.go]
    rw [hcount, hgives, h.given side u]
    by_cases hut : u = t
    · rw [hut, update_self, hgiven]
      simp [QPlace.owes]
    · have htu : ¬ t = u := fun heq => hut heq.symm
      rw [hplace u hut]
      simp [htu]

theorem Inv.lock_out {y y' : Sys} {q : Obj → List Nat} (hi : Inv y q) {t m : Nat} {out : Outcome}
    (hs : Step y (.lock t m 0xFFFFFFFF out) y') : out = .ret true ∨ out = .block := by
  generalize hl : Label.lock t m 0xFFFFFFFF out = l at hs
  cases hs with
  | lock hat j timeoutMs =>
    injection hl with h1 h2 h3 h4
    subst h1 h2 h3
    have hcases := rtosMutexLock_cases hi.running hi.idle hat.current hat.ne_idle m 0xFFFFFFFF
    generalize rtosMutexLock y.k m 0xFFFFFFFF = r at hcases h4
    cases hcases with
    | taken _ => exact Or.inl h4
    | again _ _ => exact Or.inl h4
    | refused _ _ ht => cases ht
    | blocked _ _ _ _ => exact Or.inr h4
  | _ => cases hl

theorem Queue.changeCount_eq (q : Queue) (side : Side) :
    ∃ n, q.changeCount side = { q with count := n } := by
  cases side with
  | send => exact ⟨_, rfl⟩
  | receive => exact ⟨_, rfl⟩

theorem Queue.takes_injective {q : Queue} (hne : q.semItems ≠ q.semSpaces) {d side : Side} :
    q.takes side = q.takes d ↔ d = side := by
  cases side <;> cases d <;> simp [Queue.takes, hne, Ne.symm hne]

theorem Queue.gives_injective {q : Queue} (hne : q.semItems ≠ q.semSpaces) {d side : Side} :
    q.gives side = q.gives d ↔ d = side := by
  cases side <;> cases d <;> simp [Queue.gives, hne, Ne.symm hne]

theorem Permits.step (h : Permits s tr) (hne : s.q.semItems ≠ s.q.semSpaces)
    {w : Obj → List Nat} (hi : Inv s.sys w) (hs : QStep s a ls s') : Permits s' (tr ++ ls) := by
  cases hs with
  | @other l sys ho _ =>
    refine ⟨fun u => ?_, fun side u => ?_, fun side u => ?_⟩
    · rw [held_snoc, Label.holds_other ho.mutex, h.held u]
    · have hnone := (Label.passes_other (ho.sems side)).1
      rw [List.filterMap_append, filterMap_one, List.count_append, hnone]
      exact h.taken side u
    · have hnone : l.signals (s.q.gives side) = none := by
        cases side with
        | send => exact (Label.passes_other (ho.sems .receive)).2
        | receive => exact (Label.passes_other (ho.sems .send)).2
      rw [List.filterMap_append, filterMap_one, List.count_append, hnone, Option.toList_none,
        List.count_nil]
      exact h.given side u
  | outside _ _ =>
    rw [List.append_nil]
    refine ⟨h.held, fun side => ?_, fun side => ?_⟩
    · cases side with
      | send => exact h.taken .send
      | receive => exact h.taken .receive
    · cases side with
      | send => exact h.given .send
      | receive => exact h.given .receive
  | null _ _ _ =>
    rw [List.append_nil]
    exact h
  | @enter t timeoutMs out sys hp side item _ =>
    have hside := @Queue.takes_injective s.q hne side
    refine h.move rfl ?_ (fun d => ?_) (fun d => ?_)
    · rw [hp]
      cases out with
      | ret b => cases b <;> rfl
      | block => rfl
    · rw [hp]
      cases out with
      | ret b =>
        cases b with
        | false => rfl
        | true =>
          by_cases hd : side = d <;> simp [QPlace.pending, Label.passes, Outcome.passes, hside, hd]
      | block => rfl
    · rw [hp]
      cases out with
      | ret b => cases b <;> rfl
      | block => rfl
  | @wake t side item sys hp _ =>
    have hside := @Queue.takes_injective s.q hne side
    refine h.move rfl ?_ (fun d => ?_) (fun d => ?_)
    · rw [hp]
      rfl
    · rw [hp]
      by_cases hd : side = d <;> simp [QPlace.pending, Label.passes, hside, hd]
    · rw [hp]
      rfl
  | @lock t side item out sys hp hstep =>
    rcases hi.lock_out hstep with rfl | rfl
    · refine h.move rfl ?_ (fun d => ?_) (fun d => ?_)
      · rw [hp]
        simp [QPlace.holds, Label.holds, Outcome.locks]
      · rw [hp]
        rfl
      · rw [hp]
        rfl
    · refine h.move rfl ?_ (fun d => ?_) (fun d => ?_)
      · rw [hp]
        rfl
      · rw [hp]
        rfl
      · rw [hp]
        rfl
  | @locked t side item sys hp _ =>
    refine h.move rfl ?_ (fun d => ?_) (fun d => ?_)
    · rw [hp]
      simp [QPlace.holds, Label.holds]
    · rw [hp]
      rfl
    · rw [hp]
      rfl
  | @copy t n side item _ hp _ =>
    rw [List.append_nil]
    refine h.silent ?_ (fun d => ?_) (fun d => ?_) ?_ (fun d => ?_) (fun d => ?_)
    · cases side <;> rfl
    · cases side <;> cases d <;> rfl
    · cases side <;> cases d <;> rfl
    · rw [hp]
      rfl
    · rw [hp]
      rfl
    · rw [hp]
      rfl
  | @move t n side item _ hp _ =>
    rw [List.append_nil]
    refine h.copied ?_ (fun d => ?_) (fun d => ?_) ?_ (fun d => ?_) (fun d => ?_)
    · cases side <;> rfl
    · cases side <;> cases d <;> rfl
    · cases side <;> cases d <;> rfl
    · rw [hp]
      rfl
    · rw [hp]
      rfl
    · rw [hp]
      rfl
  | @count t side _ hp =>
    obtain ⟨n, hn⟩ := s.q.changeCount_eq side
    rw [List.append_nil, hn]
    refine h.silent ?_ (fun d => ?_) (fun d => ?_) ?_ (fun d => ?_) (fun d => ?_)
    · rfl
    · cases d <;> rfl
    · cases d <;> rfl
    · rw [hp]
      rfl
    · rw [hp]
      rfl
    · rw [hp]
      rfl
  | @unlock t side w sys hp _ =>
    refine h.move rfl ?_ (fun d => ?_) (fun d => ?_)
    · rw [hp]
      simp [QPlace.holds, Label.holds]
    · rw [hp]
      rfl
    · rw [hp]
      exact (Nat.zero_add _).symm
  | @signal t side w kept sys hp _ =>
    have hside := @Queue.gives_injective s.q hne side
    refine h.move rfl ?_ (fun d => ?_) (fun d => ?_)
    · rw [hp]
      rfl
    · rw [hp]
      rfl
    · rw [hp]
      by_cases hd : side = d <;> simp [QPlace.owes, Label.signals, hside, hd]

end

/-! ### Whole runs -/

/-- What stays of `rtos_queue_create` and of the semaphores it initialises. -/
structure Queue.Created (initial : Nat → Int) (q : Queue) : Prop where
  itemSize_pos : 0 < q.itemSize
  capacity_pos : 0 < q.capacity
  capacity_lt : q.capacity < 4294967296
  ne : q.semItems ≠ q.semSpaces
  items : initial q.semItems = 0
  spaces : initial q.semSpaces = i32 q.capacity
  bufferSize_ge : bufferRequest q.itemSize q.capacity ≤ q.bufferSize

/-- The permits that a semaphore starts with. -/
def Queue.room (q : Queue) : Side → Nat
  | .send => q.capacity
  | .receive => 0

def Side.flip : Side → Side
  | .send => .receive
  | .receive => .send

theorem Queue.Created.initial_le {initial : Nat → Int} {q : Queue} (h : q.Created initial)
    (side : Side) : max (initial (q.takes side)) 0 ≤ (q.room side : Int) := by
  cases side with
  | send =>
    dsimp only [Queue.takes, Queue.room]
    rw [h.spaces, i32]
    split <;> omega
  | receive =>
    dsimp only [Queue.takes, Queue.room]
    rw [h.items]
    simp

section

variable {initial maxCount : Nat → Int} {s s' : QSys} {a : QAct} {tr ls : List Label}

theorem QStep.queue (hs : QStep s a ls s') : ∃ buffer count head tail,
    s'.q = { s.q with buffer := buffer, count := count, head := head, tail := tail } := by
  cases hs with
  | @copy t n side item _ _ _ => cases side <;> exact ⟨_, _, _, _, rfl⟩
  | @move t n side item _ _ _ => cases side <;> exact ⟨_, _, _, _, rfl⟩
  | @count t side _ _ =>
    obtain ⟨n, hn⟩ := s.q.changeCount_eq side
    exact ⟨_, _, _, _, hn⟩
  | _ => exact ⟨_, _, _, _, rfl⟩

theorem Queue.Created.step (h : s.q.Created initial) (hs : QStep s a ls s') :
    s'.q.Created initial := by
  obtain ⟨buffer, count, head, tail, hq⟩ := hs.queue
  rw [hq]
  exact ⟨h.itemSize_pos, h.capacity_pos, h.capacity_lt, h.ne, h.items, h.spaces, h.bufferSize_ge⟩

theorem QStep.sys (hs : QStep s a ls s') : ls = [] ∧ s'.sys = s.sys ∨
    ∃ l, ls = [l] ∧ Step s.sys l s'.sys ∧
      ∀ t timeoutMs out, l = .lock t s.q.lock timeoutMs out → (s.place t).holds = 0 := by
  cases hs with
  | other ho hstep =>
    exact Or.inr ⟨_, rfl, hstep, fun t timeoutMs out hl => absurd (by rw [hl]; rfl) ho.mutex⟩
  | outside _ _ => exact Or.inl ⟨rfl, rfl⟩
  | null _ _ _ => exact Or.inl ⟨rfl, rfl⟩
  | enter _ _ _ hstep => exact Or.inr ⟨_, rfl, hstep, fun t timeoutMs out hl => by cases hl⟩
  | wake _ hstep => exact Or.inr ⟨_, rfl, hstep, fun t timeoutMs out hl => by cases hl⟩
  | lock hp hstep =>
    refine Or.inr ⟨_, rfl, hstep, fun t timeoutMs out hl => ?_⟩
    injection hl with ht
    rw [← ht, hp]
    rfl
  | locked _ hstep => exact Or.inr ⟨_, rfl, hstep, fun t timeoutMs out hl => by cases hl⟩
  | copy _ _ _ => exact Or.inl ⟨rfl, rfl⟩
  | move _ _ _ => exact Or.inl ⟨rfl, rfl⟩
  | count _ _ => exact Or.inl ⟨rfl, rfl⟩
  | unlock _ hstep => exact Or.inr ⟨_, rfl, hstep, fun t timeoutMs out hl => by cases hl⟩
  | signal _ hstep => exact Or.inr ⟨_, rfl, hstep, fun t timeoutMs out hl => by cases hl⟩

theorem QReach.reach (h : QReach (QSys.Init initial maxCount) s tr) :
    Reach (Sys.Init initial maxCount) (fun _ _ => True) s.sys tr := by
  induction h with
  | init hi => exact Reach.init hi.sys
  | step _ hs ih =>
    rcases hs.sys with ⟨rfl, hsys⟩ | ⟨l, rfl, hstep, _⟩
    · rw [List.append_nil, hsys]
      exact ih
    · exact ih.step trivial hstep

/-- The books of the queue and of its mutex in every state of a run. -/
structure Ledger (initial : Nat → Int) (s : QSys) (tr : List Label) : Prop where
  created : s.q.Created initial
  permits : Permits s tr
  mutex : MutexInv s.q.lock s.sys tr

theorem QSys.Init.ledger (h : s.Init initial maxCount) : Ledger initial s [] := by
  obtain ⟨itemSize, capacity, buffer, bufferSize, semItems, semSpaces, lock, hitem, hcap, _, hlt, hsize,
    hq, hne, h0, _, h1, _⟩ := h.created
  refine ⟨?_, ⟨fun t => ?_, fun side t => ?_, fun side t => ?_⟩, h.sys.mutexInv _⟩
  · rw [hq]
    exact ⟨hitem, hcap, hlt, hne, h0, h1, hsize⟩
  · rw [h.place t]
    rfl
  · rw [h.place t, h.log side]
    rfl
  · rw [h.place t, h.log side]
    rfl

theorem Ledger.noOverflow (h : Ledger initial s tr) {l : Label} {y : Sys} (hs : Step s.sys l y)
    (hout : ∀ t timeoutMs out, l = .lock t s.q.lock timeoutMs out → (s.place t).holds = 0)
    (hl : l.mutexOf = some s.q.lock) : noOverflow s.sys l := by
  cases hs with
  | @lock t hat m timeoutMs =>
    cases hl
    intro howner
    obtain ⟨_, hpos, hrec⟩ := h.mutex.locked_of_owner howner
    rw [h.permits.held t, hout t _ _ rfl, hat.pos] at hrec
    exact absurd hrec (Nat.ne_of_gt hpos)
  | _ => exact trivial

theorem Ledger.step (h : Ledger initial s tr) (hi : Inv s.sys (waiters tr))
    (hs : QStep s a ls s') : Ledger initial s' (tr ++ ls) := by
  refine ⟨h.created.step hs, h.permits.step h.created.ne hi hs, ?_⟩
  have hlock : s'.q.lock = s.q.lock := by
    obtain ⟨buffer, count, head, tail, hq⟩ := hs.queue
    rw [hq]
  rw [hlock]
  rcases hs.sys with ⟨rfl, hsys⟩ | ⟨l, rfl, hstep, hout⟩
  · rw [List.append_nil, hsys]
    exact h.mutex
  · exact h.mutex.step hi hstep (h.noOverflow hstep hout)

theorem QReach.ledger (h : QReach (QSys.Init initial maxCount) s tr) : Ledger initial s tr := by
  induction h with
  | init hi => exact hi.ledger
  | step hr hs ih => exact ih.step hr.reach.inv hs

theorem Ledger.exclusive (h : Ledger initial s tr) {t u : Nat} (ht : (s.place t).holds = 1)
    (hu : (s.place u).holds = 1) : t = u := by
  have howner : ∀ {x : Nat}, (s.place x).holds = 1 → (s.sys.k.mutexes s.q.lock).owner = some x := by
    intro x hx
    refine h.mutex.holder x ?_
    rw [h.permits.held x, hx]
    exact Nat.one_pos
  exact Option.some.inj ((howner ht).symm.trans (howner hu))

theorem QPlace.pending_le (side : Side) (p : QPlace) : p.pending side = 0 ∨ p.pending side = 1 := by
  cases p with
  | passed d item => by_cases hd : d = side <;> simp [pending, hd]
  | locking d item => by_cases hd : d = side <;> simp [pending, hd]
  | copying d item n => by_cases hd : d = side <;> simp [pending, hd]
  | _ => exact Or.inl rfl

theorem QPlace.owes_le (side : Side) (p : QPlace) : p.owes side = 0 ∨ p.owes side = 1 := by
  cases p with
  | moved d => by_cases hd : d = side <;> simp [owes, hd]
  | counted d => by_cases hd : d = side <;> simp [owes, hd]
  | unlocked d => by_cases hd : d = side <;> simp [owes, hd]
  | _ => exact Or.inl rfl

theorem length_add_le_of_count {l₁ l₂ : List Nat} {f : Nat → Nat} (t : Nat)
    (hf : f t = 0 ∨ f t = 1) (h : ∀ u, l₁.count u + f u ≤ l₂.count u) :
    l₁.length + f t ≤ l₂.length := by
  rcases hf with h0 | h1
  · rw [h0]
    refine length_le_of_count fun u => ?_
    have hu := h u
    omega
  · rw [h1]
    refine length_lt_of_count (c := t) fun u => ?_
    have hu := h u
    by_cases hut : u = t
    · rw [if_pos hut]
      rw [hut, h1] at hu
      rw [hut]
      exact hu
    · rw [if_neg hut]
      omega

theorem Ledger.length_le (h : Ledger initial s tr)
    (hr : Reach (Sys.Init initial maxCount) (fun _ _ => True) s.sys tr) (side : Side) (t u : Nat) :
    (s.log side).length + (s.place t).pending side + (s.place u).owes side.flip ≤
      s.q.room side + (s.log side.flip).length := by
  have hpass : (s.log side).length + (s.place t).pending side ≤
      (tr.filterMap (Label.passes (s.q.takes side))).length := by
    have hle := length_add_le_of_count (f := fun x => (s.place x).pending side) t
      (QPlace.pending_le side _) (fun x => Nat.le_of_eq (h.permits.taken side x).symm)
    rwa [List.length_map] at hle
  have hgive : (tr.filterMap (Label.signals (s.q.takes side))).length +
      (s.place u).owes side.flip ≤ (s.log side.flip).length := by
    have hle := length_add_le_of_count (f := fun x => (s.place x).owes side.flip) u
      (QPlace.owes_le side.flip _) (fun x => Nat.le_of_eq (h.permits.given side.flip x).symm)
    rw [List.length_map] at hle
    have hname : s.q.gives side.flip = s.q.takes side := by
      cases side <;> rfl
    rwa [hname] at hle
  have hsem := hr.passes_le_signals (s.q.takes side)
  have hroom := h.created.initial_le side
  omega

end

end Gemios
