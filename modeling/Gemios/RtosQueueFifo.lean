import Gemios.RtosQueueSpec

/-!
# The queue is a bounded first-in first-out buffer

The indices follow the number of items sent and received, and a slot keeps its item from
the send that fills it to the receive that empties it.  All of it needs slots that do not
overlap and lie in the block of the buffer: `item_size * capacity`, rounded up to 8 bytes, must not
wrap around.
-/

namespace Gemios

open Function

/-! ### Slots -/

namespace Queue

/-- The bytes of the slot `index`. -/
def slot (q : Queue) (index : Nat) : Buf := fun n => q.buffer (q.addr index n)

/-- The size of the buffer that `rtos_queue_create` asks for does not wrap around, nor when
    `kmalloc` rounds it up. -/
def Fits (q : Queue) : Prop := q.itemSize * q.capacity ≤ 4294967288

theorem Fits.addr_eq {q : Queue} (h : q.Fits) {index n : Nat} (hi : index < q.capacity)
    (hn : n < q.itemSize) : q.addr index n = index * q.itemSize + n := by
  have hle : (index + 1) * q.itemSize ≤ q.capacity * q.itemSize := Nat.mul_le_mul_right _ hi
  have hfits : q.capacity * q.itemSize ≤ 4294967288 := by
    rw [Nat.mul_comm]
    exact h
  rw [Nat.add_mul, Nat.one_mul] at hle
  unfold addr
  rw [u32_u32_add, u32_of_lt]
  omega

theorem Fits.addr_lt {initial : Nat → Int} {q : Queue} (h : q.Fits) (hcreated : q.Created initial)
    {index n : Nat} (hi : index < q.capacity) (hn : n < q.itemSize) : q.addr index n < q.bufferSize := by
  have hle : (index + 1) * q.itemSize ≤ q.capacity * q.itemSize := Nat.mul_le_mul_right _ hi
  have hroom : q.itemSize * q.capacity ≤ bufferRequest q.itemSize q.capacity := by
    unfold Fits at h
    rw [bufferRequest, u32_of_lt (by omega)]
    exact le_alignUp (k := 3) (by decide) (by omega)
  have hsize := hcreated.bufferSize_ge
  rw [Nat.add_mul, Nat.one_mul, Nat.mul_comm q.capacity] at hle
  rw [h.addr_eq hi hn]
  omega

theorem Fits.addr_inj {q : Queue} (h : q.Fits) {i j n m : Nat} (hi : i < q.capacity)
    (hj : j < q.capacity) (hn : n < q.itemSize) (hm : m < q.itemSize)
    (heq : q.addr i n = q.addr j m) : i = j ∧ n = m := by
  rw [h.addr_eq hi hn, h.addr_eq hj hm] at heq
  have hdiv : ∀ {k x : Nat}, x < q.itemSize → (k * q.itemSize + x) / q.itemSize = k := by
    intro k x hx
    rw [Nat.add_comm, Nat.mul_comm, Nat.add_mul_div_left _ _ (Nat.zero_lt_of_lt hx),
      Nat.div_eq_of_lt hx, Nat.zero_add]
  have hij : i = j := by
    rw [← hdiv (k := i) hn, ← hdiv (k := j) hm, heq]
  refine ⟨hij, ?_⟩
  rw [hij] at heq
  exact Nat.add_left_cancel heq

end Queue

theorem itemBytes_congr {size : Nat} {x y : Buf} (h : ∀ n < size, x n = y n) :
    itemBytes size x = itemBytes size y := by
  refine List.map_congr_left fun n hn => ?_
  exact h n (List.mem_range.mp hn)

/-! ### The ring -/

/-- What holds of the ring in every state of a run. -/
structure Ring (s : QSys) : Prop where
  tail : s.q.tail = (s.log .send).length % s.q.capacity
  head : s.q.head = (s.log .receive).length % s.q.capacity
  received : (s.log .receive).map Prod.snd =
    ((s.log .send).map Prod.snd).take (s.log .receive).length
  slots : ∀ i x, (s.log .receive).length ≤ i → (s.log .send)[i]? = some x →
    itemBytes s.q.itemSize (s.q.slot (i % s.q.capacity)) = x.2
  sending : ∀ t item n, s.place t = .copying .send item n →
    n ≤ s.q.itemSize ∧ ∀ j < n, s.q.slot s.q.tail j = item j
  receiving : ∀ t item n, s.place t = .copying .receive item n →
    n ≤ s.q.itemSize ∧ ∀ j < n, item j = s.q.slot s.q.head j
  settled : (∀ t side, s.place t ≠ .moved side) →
    s.q.count + (s.log .receive).length = (s.log .send).length
  sent : ∀ t, s.place t = .moved .send →
    s.q.count + 1 + (s.log .receive).length = (s.log .send).length
  taken : ∀ t, s.place t = .moved .receive →
    s.q.count + (s.log .receive).length = (s.log .send).length + 1

section

variable {initial maxCount : Nat → Int} {s s' : QSys} {a : QAct} {tr ls : List Label}

theorem QSys.Init.ring (h : s.Init initial maxCount) : Ring s := by
  obtain ⟨itemSize, capacity, buffer, bufferSize, semItems, semSpaces, lock, _, _, _, _, _, hq, _⟩ :=
    h.created
  have hsend := h.log .send
  have hreceive := h.log .receive
  have hout : ∀ {t p}, s.place t = p → p = .out := fun hp => hp.symm.trans (h.place _)
  constructor
  · rw [hq, hsend]
    exact (Nat.zero_mod _).symm
  · rw [hq, hreceive]
    exact (Nat.zero_mod _).symm
  · rw [hsend, hreceive]
    rfl
  · intro i x _ hx
    rw [hsend] at hx
    cases hx
  · intro t item n hp
    cases hout hp
  · intro t item n hp
    cases hout hp
  · intro _
    rw [hq, hsend, hreceive]
    rfl
  · intro t hp
    cases hout hp
  · intro t hp
    cases hout hp

theorem Ring.go (h : Ring s) {t : Nat} {p : QPlace} (sys : Sys)
    (hold : ∀ side, s.place t ≠ .moved side) (hmoved : ∀ side, p ≠ .moved side)
    (hcopy : ∀ side item n, p = .copying side item n → n = 0) : Ring (s.go sys t p) := by
  have hother : ∀ {u q}, (s.go sys t p).place u = q → u ≠ t → s.place u = q :=
    fun hq hu => (update_of_ne hu _ _).symm.trans hq
  have hself : ∀ {q}, (s.go sys t p).place t = q → p = q := by
    intro q hq
    rw [← hq]
    exact (update_self t p s.place).symm
  refine ⟨h.tail, h.head, h.received, h.slots, fun u item n hp => ?_, fun u item n hp => ?_,
    fun hno => ?_, fun u hp => ?_, fun u hp => ?_⟩
  · by_cases hut : u = t
    · subst hut
      rw [hcopy _ _ _ (hself hp)]
      exact ⟨Nat.zero_le _, fun j hj => absurd hj (Nat.not_lt_zero j)⟩
    · exact h.sending u item n (hother hp hut)
  · by_cases hut : u = t
    · subst hut
      rw [hcopy _ _ _ (hself hp)]
      exact ⟨Nat.zero_le _, fun j hj => absurd hj (Nat.not_lt_zero j)⟩
    · exact h.receiving u item n (hother hp hut)
  · refine h.settled fun u side hu => ?_
    by_cases hut : u = t
    · rw [hut] at hu
      exact hold side hu
    · exact hno u side ((update_of_ne hut _ _).trans hu)
  · by_cases hut : u = t
    · subst hut
      exact absurd (hself hp) (hmoved _)
    · exact h.sent u (hother hp hut)
  · by_cases hut : u = t
    · subst hut
      exact absurd (hself hp) (hmoved _)
    · exact h.taken u (hother hp hut)

theorem Ring.outside (h : Ring s) (hcreated : s.q.Created initial) (hfits : s.q.Fits) {i : Nat}
    (hi : s.q.bufferSize ≤ i) (b : UInt8) :
    Ring { s with q := { s.q with buffer := update s.q.buffer i b } } := by
  have hslot : ∀ k j, k < s.q.capacity → j < s.q.itemSize →
      update s.q.buffer i b (s.q.addr k j) = s.q.buffer (s.q.addr k j) := by
    intro k j hk hj
    have hlt := hfits.addr_lt hcreated hk hj
    exact update_of_ne (by omega) _ _
  have hmod : ∀ n, n % s.q.capacity < s.q.capacity := fun n => Nat.mod_lt n hcreated.capacity_pos
  have htail : s.q.tail < s.q.capacity := h.tail ▸ hmod _
  have hhead : s.q.head < s.q.capacity := h.head ▸ hmod _
  refine ⟨h.tail, h.head, h.received, fun k x hk hx => ?_, fun t item n hp => ?_, fun t item n hp => ?_,
    h.settled, h.sent, h.taken⟩
  · rw [← h.slots k x hk hx]
    exact itemBytes_congr fun j hj => hslot _ j (hmod k) hj
  · obtain ⟨hle, hdone⟩ := h.sending t item n hp
    exact ⟨hle, fun j hj => (hslot _ j htail (Nat.lt_of_lt_of_le hj hle)).trans (hdone j hj)⟩
  · obtain ⟨hle, hdone⟩ := h.receiving t item n hp
    exact ⟨hle, fun j hj => (hdone j hj).trans (hslot _ j hhead (Nat.lt_of_lt_of_le hj hle)).symm⟩

/-- While `t` is in the critical section, what is said of the tasks there is said of `t`. -/
theorem Ring.of_inside {t : Nat} {p : QPlace} (hx : ∀ u, (s.place u).holds = 1 → u = t)
    (hp : s.place t = p)
    (htail : s.q.tail = (s.log .send).length % s.q.capacity)
    (hhead : s.q.head = (s.log .receive).length % s.q.capacity)
    (hreceived : (s.log .receive).map Prod.snd =
      ((s.log .send).map Prod.snd).take (s.log .receive).length)
    (hslots : ∀ i x, (s.log .receive).length ≤ i → (s.log .send)[i]? = some x →
      itemBytes s.q.itemSize (s.q.slot (i % s.q.capacity)) = x.2)
    (hsending : ∀ item n, p = .copying .send item n →
      n ≤ s.q.itemSize ∧ ∀ j < n, s.q.slot s.q.tail j = item j)
    (hreceiving : ∀ item n, p = .copying .receive item n →
      n ≤ s.q.itemSize ∧ ∀ j < n, item j = s.q.slot s.q.head j)
    (hsettled : (∀ side, p ≠ .moved side) →
      s.q.count + (s.log .receive).length = (s.log .send).length)
    (hsent : p = .moved .send →
      s.q.count + 1 + (s.log .receive).length = (s.log .send).length)
    (htaken : p = .moved .receive →
      s.q.count + (s.log .receive).length = (s.log .send).length + 1) : Ring s := by
  have hin : ∀ {u p'}, s.place u = p' → p'.holds = 1 → p = p' := by
    intro u p' hu hh
    rw [← hu] at hh
    rw [← hp, ← hu, hx u hh]
  refine ⟨htail, hhead, hreceived, hslots, fun u item n hu => hsending item n (hin hu rfl),
    fun u item n hu => hreceiving item n (hin hu rfl), fun hno => hsettled fun side hs => ?_,
    fun u hu => hsent (hin hu rfl), fun u hu => htaken (hin hu rfl)⟩
  exact hno t side (hp.trans hs)

theorem slot_ne_tail {i r n c : Nat} (hri : r ≤ i) (hin : i < n) (hnc : n < c + r) :
    i % c ≠ n % c := by
  intro heq
  have hdvd : c ∣ n - i := Nat.dvd_of_mod_eq_zero (Nat.sub_mod_eq_zero_of_mod_eq heq.symm)
  have hle := Nat.le_of_dvd (by omega) hdvd
  omega

theorem QSys.alone_update {t : Nat} {p : QPlace} (hx : ∀ u, (s.place u).holds = 1 → u = t) (u : Nat)
    (hu : (update s.place t p u).holds = 1) : u = t := by
  by_contra hut
  rw [update_of_ne hut] at hu
  exact hut (hx u hu)

theorem Ring.count_copying (h : Ring s) {t n : Nat} {side : Side} {item : Buf}
    (hx : ∀ u, (s.place u).holds = 1 → u = t) (hp : s.place t = .copying side item n) :
    s.q.count + (s.log .receive).length = (s.log .send).length := by
  refine h.settled fun u d hu => ?_
  have hut : u = t := hx u (by rw [hu]; rfl)
  rw [hut, hp] at hu
  cases hu

section

variable {t n : Nat} {item : Buf} (h : Ring s) (hfits : s.q.Fits)
  (hx : ∀ u, (s.place u).holds = 1 → u = t)

include h hfits hx

theorem Ring.copy_send (hcap : 0 < s.q.capacity) (hp : s.place t = .copying .send item n)
    (hn : n < s.q.itemSize) (hroom : (s.log .send).length < s.q.capacity + (s.log .receive).length) :
    Ring { s.go s.sys t (.copying .send (s.q.copyByte .send item n).2 (n + 1)) with
      q := (s.q.copyByte .send item n).1 } := by
  have htail : s.q.tail < s.q.capacity := by
    rw [h.tail]
    exact Nat.mod_lt _ hcap
  -- The byte is written into the slot at `tail`.
  have hslot : ∀ i j, i < s.q.capacity → j < s.q.itemSize → (i = s.q.tail → j ≠ n) →
      (s.q.copyByte .send item n).1.slot i j = s.q.slot i j := by
    intro i j hi hj hne
    refine update_of_ne (fun heq => ?_) _ _
    obtain ⟨hit, hjn⟩ := hfits.addr_inj hi htail hj hn heq
    exact hne hit hjn
  refine Ring.of_inside (QSys.alone_update hx) (update_self _ _ _) h.tail h.head h.received (fun i x hri hix => ?_)
    (fun item' n' hp' => ?_) (fun item' n' hp' => ?_) (fun _ => h.count_copying hx hp)
    (fun hp' => ?_) (fun hp' => ?_)
  · have hlt : i < (s.log .send).length := (List.getElem?_eq_some_iff.mp hix).1
    have hold := h.slots i x hri hix
    rw [← hold]
    refine itemBytes_congr fun j hj => hslot _ j (Nat.mod_lt _ hcap) hj fun heq => ?_
    rw [h.tail] at heq
    exact absurd heq (slot_ne_tail hri hlt hroom)
  · cases hp'
    obtain ⟨_, hdone⟩ := h.sending t item n hp
    refine ⟨hn, fun j hj => ?_⟩
    by_cases hjn : j = n
    · rw [hjn]
      exact update_self _ _ _
    · exact (hslot _ j htail (by omega) fun _ => hjn).trans (hdone j (by omega))
  · cases hp'
  · cases hp'
  · cases hp'

end

theorem Ring.copy_receive {t n : Nat} {item : Buf} (h : Ring s)
    (hx : ∀ u, (s.place u).holds = 1 → u = t) (hp : s.place t = .copying .receive item n)
    (hn : n < s.q.itemSize) :
    Ring { s.go s.sys t (.copying .receive (s.q.copyByte .receive item n).2 (n + 1)) with
      q := (s.q.copyByte .receive item n).1 } := by
  refine Ring.of_inside (QSys.alone_update hx) (update_self _ _ _) h.tail h.head h.received h.slots
    (fun item' n' hp' => ?_) (fun item' n' hp' => ?_) (fun _ => h.count_copying hx hp)
    (fun hp' => ?_) (fun hp' => ?_)
  · cases hp'
  · cases hp'
    obtain ⟨_, hdone⟩ := h.receiving t item n hp
    refine ⟨hn, fun j hj => ?_⟩
    by_cases hjn : j = n
    · rw [hjn]
      exact update_self _ _ _
    · exact (update_of_ne hjn _ _).trans (hdone j (by omega))
  · cases hp'
  · cases hp'

theorem moveIndex_eq {k c : Nat} (hpos : 0 < c) (hc : c < 4294967296) :
    u32 (k % c + 1) % c = (k + 1) % c := by
  have hlt := Nat.mod_lt k hpos
  rw [u32_of_lt (by omega), Nat.mod_add_mod]

theorem Ring.move_send {t n : Nat} {item : Buf} (h : Ring s) (hcreated : s.q.Created initial)
    (hx : ∀ u, (s.place u).holds = 1 → u = t) (hp : s.place t = .copying .send item n)
    (hn : n = s.q.itemSize) (hle : (s.log .receive).length ≤ (s.log .send).length) :
    Ring { s.go s.sys t (.moved .send) with
      q := s.q.moveIndex .send
      log := update s.log .send
        (s.log .send ++ [(t, itemBytes s.q.itemSize item)]) } := by
  have hcount := h.count_copying hx hp
  have hsend : update s.log .send (s.log .send ++ [(t, itemBytes s.q.itemSize item)])
      .send = s.log .send ++ [(t, itemBytes s.q.itemSize item)] := update_self _ _ _
  have hrecv : update s.log .send (s.log .send ++ [(t, itemBytes s.q.itemSize item)])
      .receive = s.log .receive := update_of_ne (by decide) _ _
  refine Ring.of_inside (QSys.alone_update hx) (update_self _ _ _) ?_ ?_ ?_ (fun i x hri hix => ?_)
    (fun item' n' hp' => ?_) (fun item' n' hp' => ?_) (fun hno => ?_) (fun hp' => ?_)
    (fun hp' => ?_)
  · dsimp only [Queue.moveIndex]
    rw [hsend, h.tail, List.length_append]
    exact moveIndex_eq hcreated.capacity_pos hcreated.capacity_lt
  · dsimp only [Queue.moveIndex]
    rw [hrecv]
    exact h.head
  · dsimp only
    rw [hsend, hrecv, h.received, List.map_append, List.take_append_of_le_length (by simpa using hle)]
  · dsimp only at hri hix ⊢
    rw [hsend] at hix
    rw [hrecv] at hri
    by_cases hi : i < (s.log .send).length
    · rw [List.getElem?_append_left hi] at hix
      exact h.slots i x hri hix
    · have hlt := (List.getElem?_eq_some_iff.mp hix).1
      rw [List.length_append, List.length_singleton] at hlt
      have heq : i = (s.log .send).length := by omega
      rw [heq, List.getElem?_concat_length] at hix
      cases hix
      obtain ⟨_, hdone⟩ := h.sending t item n hp
      rw [hn] at hdone
      refine itemBytes_congr fun j hj => ?_
      rw [heq, ← hdone j hj, h.tail]
      rfl
  · cases hp'
  · cases hp'
  · exact absurd rfl (hno .send)
  · dsimp only [Queue.moveIndex]
    rw [hsend, hrecv, List.length_append, List.length_singleton]
    omega
  · cases hp'

theorem Ring.move_receive {t n : Nat} {item : Buf} (h : Ring s) (hcreated : s.q.Created initial)
    (hx : ∀ u, (s.place u).holds = 1 → u = t) (hp : s.place t = .copying .receive item n)
    (hn : n = s.q.itemSize) (hlt : (s.log .receive).length < (s.log .send).length) :
    Ring { s.go s.sys t (.moved .receive) with
      q := s.q.moveIndex .receive
      log := update s.log .receive
        (s.log .receive ++ [(t, itemBytes s.q.itemSize item)]) } := by
  have hcount := h.count_copying hx hp
  have hrecv : update s.log .receive
      (s.log .receive ++ [(t, itemBytes s.q.itemSize item)]) .receive =
      s.log .receive ++ [(t, itemBytes s.q.itemSize item)] := update_self _ _ _
  have hsend : update s.log .receive
      (s.log .receive ++ [(t, itemBytes s.q.itemSize item)]) .send = s.log .send :=
    update_of_ne (by decide) _ _
  -- The item that was read is the oldest one in the ring.
  have hitem : ((s.log .send).map Prod.snd)[(s.log .receive).length]? =
      some (itemBytes s.q.itemSize item) := by
    have hget : (s.log .send)[(s.log .receive).length]? =
        some (s.log .send)[(s.log .receive).length] := List.getElem?_eq_getElem hlt
    have hslot := h.slots _ _ (Nat.le_refl _) hget
    obtain ⟨_, hdone⟩ := h.receiving t item n hp
    rw [hn] at hdone
    rw [List.getElem?_map, hget, Option.map_some, ← hslot, ← h.head]
    exact congrArg some (itemBytes_congr fun j hj => (hdone j hj).symm)
  refine Ring.of_inside (QSys.alone_update hx) (update_self _ _ _) ?_ ?_ ?_
    (fun i x hri hix => ?_) (fun item' n' hp' => ?_) (fun item' n' hp' => ?_) (fun hno => ?_)
    (fun hp' => ?_) (fun hp' => ?_)
  · dsimp only [Queue.moveIndex]
    rw [hsend]
    exact h.tail
  · dsimp only [Queue.moveIndex]
    rw [hrecv, h.head, List.length_append]
    exact moveIndex_eq hcreated.capacity_pos hcreated.capacity_lt
  · dsimp only
    rw [hsend, hrecv, List.map_append, List.length_append, List.length_singleton, List.take_add_one,
      hitem, h.received]
    rfl
  · dsimp only at hri hix ⊢
    rw [hsend] at hix
    rw [hrecv, List.length_append] at hri
    exact h.slots i x (by omega) hix
  · cases hp'
  · cases hp'
  · exact absurd rfl (hno .receive)
  · cases hp'
  · dsimp only [Queue.moveIndex]
    rw [hsend, hrecv, List.length_append, List.length_singleton]
    omega

theorem Ring.count_changed {t n : Nat} {side : Side} (h : Ring s)
    (hx : ∀ u, (s.place u).holds = 1 → u = t)
    (hn : n + (s.log .receive).length = (s.log .send).length) :
    Ring { s.go s.sys t (.counted side) with q := { s.q with count := n } } := by
  refine Ring.of_inside (QSys.alone_update hx) (update_self _ _ _) h.tail h.head h.received
    h.slots (fun item' n' hp' => ?_) (fun item' n' hp' => ?_) (fun _ => hn) (fun hp' => ?_)
    (fun hp' => ?_)
  · cases hp'
  · cases hp'
  · cases hp'
  · cases hp'

theorem Ring.count_send {t : Nat} (h : Ring s) (hcreated : s.q.Created initial)
    (hx : ∀ u, (s.place u).holds = 1 → u = t) (hp : s.place t = .moved .send)
    (hle : (s.log .send).length ≤ s.q.capacity + (s.log .receive).length) :
    Ring { s.go s.sys t (.counted .send) with q := s.q.changeCount .send } := by
  have hcap := hcreated.capacity_lt
  have hsent := h.sent t hp
  refine h.count_changed hx ?_
  rw [u32_of_lt (by omega)]
  exact hsent

theorem Ring.count_receive {t : Nat} (h : Ring s) (hcreated : s.q.Created initial)
    (hx : ∀ u, (s.place u).holds = 1 → u = t) (hp : s.place t = .moved .receive)
    (hle : (s.log .receive).length ≤ (s.log .send).length)
    (hroom : (s.log .send).length + 1 ≤ s.q.capacity + (s.log .receive).length) :
    Ring { s.go s.sys t (.counted .receive) with q := s.q.changeCount .receive } := by
  have hcap := hcreated.capacity_lt
  have htaken := h.taken t hp
  refine h.count_changed hx ?_
  have hsub : u32 (s.q.count + 4294967295) = s.q.count - 1 := by
    unfold u32
    omega
  rw [hsub]
  omega

structure Bounds (s : QSys) : Prop where
  send : ∀ t u, (s.log .send).length + (s.place t).pending .send + (s.place u).owes .receive ≤
    s.q.capacity + (s.log .receive).length
  receive : ∀ t u, (s.log .receive).length + (s.place t).pending .receive +
    (s.place u).owes .send ≤ (s.log .send).length

theorem QReach.bounds (h : QReach (QSys.Init initial maxCount) s tr) : Bounds s := by
  refine ⟨fun t u => h.ledger.length_le h.reach .send t u, fun t u => ?_⟩
  have hle := h.ledger.length_le h.reach .receive t u
  simpa [Queue.room, Side.flip] using hle

theorem Ring.step (h : Ring s) (hl : Ledger initial s tr) (hb : Bounds s) (hfits : s.q.Fits)
    (hs : QStep s a ls s') : Ring s' := by
  have hcreated := hl.created
  have halone : ∀ {t p}, s.place t = p → p.holds = 1 → ∀ u, (s.place u).holds = 1 → u = t := by
    intro t p hp hh u hu
    rw [← hp] at hh
    exact hl.exclusive hu hh
  cases hs with
  | other _ _ =>
    exact ⟨h.tail, h.head, h.received, h.slots, h.sending, h.receiving, h.settled, h.sent, h.taken⟩
  | outside hi b => exact h.outside hcreated hfits hi b
  | null _ _ _ => exact h
  | @enter t timeoutMs out sys hp side item _ =>
    refine h.go sys (fun d hd => ?_) (fun d hd => ?_) (fun d x n hd => ?_)
    · cases hp.symm.trans hd
    · cases out with
      | ret b => cases b <;> cases hd
      | block => cases hd
    · cases out with
      | ret b => cases b <;> cases hd
      | block => cases hd
  | @wake t side item sys hp _ =>
    refine h.go sys (fun d hd => ?_) (fun d hd => ?_) (fun d x n hd => ?_)
    · cases hp.symm.trans hd
    · cases hd
    · cases hd
  | @lock t side item out sys hp _ =>
    refine h.go sys (fun d hd => ?_) (fun d hd => ?_) (fun d x n hd => ?_)
    · cases hp.symm.trans hd
    · cases out <;> cases hd
    · cases out with
      | ret b =>
        cases hd
        rfl
      | block => cases hd
  | @locked t side item sys hp _ =>
    refine h.go sys (fun d hd => ?_) (fun d hd => ?_) (fun d x n hd => ?_)
    · cases hp.symm.trans hd
    · cases hd
    · cases hd
      rfl
  | @copy t n side item _ hp hn =>
    have hx := halone hp rfl
    cases side with
    | send =>
      refine h.copy_send hfits hx hcreated.capacity_pos hp hn ?_
      have hle := hb.send t t
      rw [hp] at hle
      exact hle
    | receive => exact h.copy_receive hx hp hn
  | @move t n side item _ hp hn =>
    have hx := halone hp rfl
    have hle := hb.receive t t
    rw [hp] at hle
    cases side with
    | send => exact h.move_send hcreated hx hp hn hle
    | receive => exact h.move_receive hcreated hx hp hn hle
  | @count t side _ hp =>
    have hx := halone hp rfl
    have hsend := hb.send t t
    have hrecv := hb.receive t t
    cases side with
    | send =>
      refine h.count_send hcreated hx hp ?_
      omega
    | receive =>
      rw [hp] at hsend
      refine h.count_receive hcreated hx hp ?_ hsend
      omega
  | @unlock t side w sys hp _ =>
    refine h.go sys (fun d hd => ?_) (fun d hd => ?_) (fun d x n hd => ?_)
    · cases hp.symm.trans hd
    · cases hd
    · cases hd
  | @signal t side w kept sys hp _ =>
    refine h.go sys (fun d hd => ?_) (fun d hd => ?_) (fun d x n hd => ?_)
    · cases hp.symm.trans hd
    · cases hd
    · cases hd

theorem QReach.ring (h : QReach (QSys.Init initial maxCount) s tr) (hfits : s.q.Fits) : Ring s := by
  induction h with
  | init hi => exact hi.ring
  | @step s s' a tr ls hr hs ih =>
    have hfits' : s.q.Fits := by
      obtain ⟨buffer, count, head, tail, hq⟩ := hs.queue
      rw [hq] at hfits
      exact hfits
    exact (ih hfits').step hr.ledger hr.bounds hfits' hs

end

/-! ### The queue -/

/-- The call that the step ends returns `false`. -/
def QAct.Fails : QAct → Prop
  | .null _ _ => True
  | .enter _ _ _ (.ret false) => True
  | _ => False

/-- The queue is a bounded first-in first-out buffer. -/
structure QueueOk (s : QSys) : Prop where
  count_le : s.q.count ≤ s.q.capacity
  /-- A slot keeps the item that was sent until that item has been received. -/
  slots : ∀ i x, (s.log .receive).length ≤ i → (s.log .send)[i]? = some x →
    itemBytes s.q.itemSize (s.q.slot (i % s.q.capacity)) = x.2
  fifo : (s.log .receive).map Prod.snd <+: (s.log .send).map Prod.snd
  fails : ∀ a ls s', QStep s a ls s' → a.Fails →
    s'.q = s.q ∧ s'.log = s.log ∧ s'.place = s.place ∧ s'.sys.k = s.sys.k

theorem QStep.fails {s s' : QSys} {a : QAct} {ls : List Label} {w : Obj → List Nat}
    (hi : Inv s.sys w) (hs : QStep s a ls s') (ha : a.Fails) :
    s'.q = s.q ∧ s'.log = s.log ∧ s'.place = s.place ∧ s'.sys.k = s.sys.k := by
  cases hs with
  | null _ _ _ => exact ⟨rfl, rfl, rfl, rfl⟩
  | @enter t timeoutMs out sys hp side item hstep =>
    cases out with
    | ret b =>
      cases b with
      | true => cases ha
      | false =>
        refine ⟨rfl, rfl, ?_, ?_⟩
        · exact (congrArg (update s.place t) hp.symm).trans (update_eq_self t _)
        · generalize hl : Label.wait t (s.q.takes side) timeoutMs (.ret false) = l at hstep
          cases hstep with
          | wait hat i ms =>
            injection hl with h1 h2 h3 h4
            have hcases := rtosSemWait_cases hi.running hi.idle hat.current hat.ne_idle i ms
            dsimp only [QSys.go]
            generalize rtosSemWait s.sys.k i ms = r at hcases h4 ⊢
            cases hcases with
            | taken _ => cases h4
            | refused _ _ => rfl
            | blocked _ _ _ => cases h4
          | _ => cases hl
    | block => cases ha
  | _ => cases ha

/-- **The message queue**, for every queue whose size, rounded up, does not wrap around and every run. -/
theorem queue_fifo {initial maxCount : Nat → Int} {s : QSys} {tr : List Label}
    (h : QReach (QSys.Init initial maxCount) s tr) (hfits : s.q.Fits) : QueueOk s := by
  have hring := h.ring hfits
  have hbounds := h.bounds
  refine ⟨?_, hring.slots, ?_, fun a ls s' hs ha => hs.fails h.reach.inv ha⟩
  · by_cases hmoved : ∃ t side, s.place t = .moved side
    · obtain ⟨t, side, hp⟩ := hmoved
      have hle := hbounds.send t t
      rw [hp] at hle
      cases side with
      | send =>
        have hsent := hring.sent t hp
        omega
      | receive =>
        have htaken := hring.taken t hp
        have hle' : (s.log .send).length + 0 + 1 ≤ s.q.capacity + (s.log .receive).length := hle
        omega
    · have hsettled := hring.settled fun t side hp => hmoved ⟨t, side, hp⟩
      have hle := hbounds.send 0 0
      omega
  · rw [hring.received]
    exact List.take_prefix _ _

/-! ### Runs -/

/-- A queue of two items of `itemSize` bytes each, in a block of the size asked for; the memory holds
    zeros, and task 1 is on the CPU. -/
def freshQueue (itemSize : Nat) : QSys where
  sys := freshSys 2 (fun _ => 6) (fun i => if i = 1 then 2 else 0) (fun _ => 2)
  q := rtosQueueCreate itemSize 2 (fun _ => 0) (bufferRequest itemSize 2) 0 1 0
  place := fun _ => .out
  log := fun _ => []

theorem freshQueue_init {itemSize : Nat} (hpos : 0 < itemSize) (hlt : itemSize < 4294967296) :
    (freshQueue itemSize).Init (fun i => if i = 1 then 2 else 0) (fun _ => 2) where
  sys := freshSys_init (by decide) _ _ _
  created := ⟨itemSize, 2, _, _, 0, 1, 0, hpos, by decide, hlt, by decide, Nat.le_refl _, rfl, by decide,
    rfl, rfl, rfl, rfl⟩
  place := fun _ => rfl
  log := fun _ => rfl

theorem QReach.copies {init : QSys → Prop} {s : QSys} {tr : List Label} (h : QReach init s tr)
    {t n : Nat} (item : Buf) (hat : s.sys.At t .user) (hp : s.place t = .copying .send item 0)
    (hn : n ≤ s.q.itemSize) (hsame : ∀ j < n, s.q.slot s.q.tail j = item j) :
    QReach init (s.go s.sys t (.copying .send item n)) tr := by
  induction n with
  | zero =>
    have hstate : s.go s.sys t (.copying .send item 0) = s := by
      unfold QSys.go
      rw [← hp, update_eq_self]
    rw [hstate]
    exact h
  | succ n ih =>
    have hprev := ih (Nat.le_of_succ_le hn) fun j hj => hsame j (Nat.lt_succ_of_lt hj)
    have hstep := hprev.step (QStep.copy (t := t) hat (update_self _ _ _) hn)
    have hbuf : update s.q.buffer (s.q.addr s.q.tail n) (item n) = s.q.buffer := by
      rw [← hsame n (Nat.lt_succ_self n)]
      exact update_eq_self _ _
    rw [List.append_nil] at hstep
    dsimp only [QSys.go, Queue.copyByte] at hstep ⊢
    rw [hbuf, update_idem] at hstep
    exact hstep

theorem QReach.copies_next {init : QSys → Prop} {s : QSys} {tr : List Label} (h : QReach init s tr)
    {t n : Nat} (item : Buf) (hat : s.sys.At t .user) (hp : s.place t = .copying .send item 0)
    (hn : n < s.q.itemSize) (hsame : ∀ j < n, s.q.slot s.q.tail j = item j) :
    ∃ s', QReach init s' tr ∧ s'.log = s.log ∧ s'.q =
      { s.q with buffer := update s.q.buffer (s.q.addr s.q.tail n) (item n) } := by
  have hcopied := h.copies item hat hp (Nat.le_of_lt hn) hsame
  have hstep := hcopied.step (QStep.copy (t := t) hat (update_self _ _ _) hn)
  rw [List.append_nil] at hstep
  exact ⟨_, hstep, rfl, rfl⟩

theorem freshQueue_sent (itemSize : Nat) (hpos : 0 < itemSize) (hlt : itemSize < 4294967296)
    (item : Buf) : ∃ s tr,
    QReach (QSys.Init (fun i => if i = 1 then 2 else 0) (fun _ => 2)) s tr ∧
      s.sys.At 1 .user ∧ s.place 1 = .copying .send item 0 ∧
      s.q = { (freshQueue itemSize).q with count := 1, tail := 1 } ∧
      s.log .send = [(1, itemBytes itemSize fun _ => 0)] ∧ s.log .receive = [] := by
  have h0 := QReach.init (freshQueue_init hpos hlt)
  have h1 := h0.step (QStep.enter (t := 1) rfl .send (fun _ => 0)
    (Step.wait (t := 1) ⟨rfl, Nat.one_ne_zero, rfl⟩ 1 0))
  have h2 := h1.step (QStep.lock (t := 1) rfl
    (Step.lock (t := 1) ⟨rfl, Nat.one_ne_zero, rfl⟩ 0 0xFFFFFFFF))
  have h3 := h2.copies (t := 1) (n := itemSize) (fun _ => 0) ⟨rfl, Nat.one_ne_zero, rfl⟩ rfl
    (Nat.le_refl itemSize) fun _ _ => rfl
  have h4 := h3.step (QStep.move (t := 1) ⟨rfl, Nat.one_ne_zero, rfl⟩ rfl rfl)
  have h5 := h4.step (QStep.count (t := 1) ⟨rfl, Nat.one_ne_zero, rfl⟩ rfl)
  have h6 := h5.step (QStep.unlock (t := 1) rfl
    (Step.unlock (t := 1) ⟨rfl, Nat.one_ne_zero, rfl⟩ 0))
  have h7 := h6.step (QStep.signal (t := 1) rfl
    (Step.signal (t := 1) ⟨rfl, Nat.one_ne_zero, rfl⟩ 0))
  have h8 := h7.step (QStep.enter (t := 1) rfl .send item
    (Step.wait (t := 1) ⟨rfl, Nat.one_ne_zero, rfl⟩ 1 0))
  have h9 := h8.step (QStep.lock (t := 1) rfl
    (Step.lock (t := 1) ⟨rfl, Nat.one_ne_zero, rfl⟩ 0 0xFFFFFFFF))
  exact ⟨_, _, h9, ⟨rfl, Nat.one_ne_zero, rfl⟩, rfl, rfl, rfl, rfl⟩

/-- An item of one byte has been sent, and the queue is as it should be. -/
theorem queue_fifo_one : ∃ s tr,
    QReach (QSys.Init (fun i => if i = 1 then 2 else 0) (fun _ => 2)) s tr ∧ s.q.Fits ∧
      QueueOk s ∧ s.log .send = [(1, [0])] := by
  obtain ⟨s, tr, h, _, _, hq, hlog, _⟩ :=
    freshQueue_sent 1 (by decide) (by decide) fun _ => 5
  have hfits : s.q.Fits := by
    rw [hq, Queue.Fits]
    decide
  exact ⟨s, tr, h, hfits, queue_fifo h hfits, hlog⟩

theorem itemBytes_inj {size : Nat} {x y : Buf} (h : itemBytes size x = itemBytes size y) {n : Nat}
    (hn : n < size) : x n = y n :=
  List.map_inj_left.mp h n (List.mem_range.mpr hn)

/-- Two items of 2^31 + 1 bytes: the size of the buffer wraps around to 2, and the end of
    the second item is written over the start of the first one, which nobody has read. -/
theorem queue_overwritten :
    ¬ ∀ s tr, QReach (QSys.Init (fun i => if i = 1 then 2 else 0) (fun _ => 2)) s tr →
      QueueOk s := by
  intro hall
  -- All bytes of the second item up to the wrap are zeros, as the memory is.
  obtain ⟨s, tr, h, hat, hp, hq, hsend, hrecv⟩ :=
    freshQueue_sent 2147483649 (by decide) (by decide)
      fun n => if n < 2147483647 then 0 else 1
  have hsize : s.q.itemSize = 2147483649 := by
    rw [hq]
    rfl
  have hbefore : ∀ j < 2147483647, s.q.slot s.q.tail j = if j < 2147483647 then 0 else 1 := by
    intro j hj
    rw [if_pos hj, hq]
    rfl
  obtain ⟨s', h', hlog, hq'⟩ := h.copies_next _ hat hp (by rw [hsize]; decide) hbefore
  have htail : s.q.tail = 1 := by
    rw [hq]
  have hsize' : s'.q.itemSize = 2147483649 := by
    rw [hq']
    exact hsize
  have hfirst : s'.q.addr 0 0 = 0 := by
    unfold Queue.addr
    rw [hsize']
    rfl
  have hwrap : s.q.addr s.q.tail 2147483647 = 0 := by
    unfold Queue.addr
    rw [hsize, htail]
    rfl
  have hslots := (hall _ _ h').slots 0 (1, itemBytes 2147483649 fun _ => 0)
    (by rw [hlog, hrecv]; exact Nat.le_refl 0) (by rw [hlog, hsend]; rfl)
  rw [hsize', Nat.zero_mod] at hslots
  dsimp only at hslots
  have hpos : 0 < 2147483649 := by decide
  have hbyte : s'.q.slot 0 0 = 0 := itemBytes_inj hslots hpos
  rw [Queue.slot] at hbyte
  rw [hfirst, hq', hwrap] at hbyte
  dsimp only at hbyte
  rw [update_self] at hbyte
  cases hbyte

end Gemios
