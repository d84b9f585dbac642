import Gemios.FatPlace
import Gemios.FatLfnSpec

/-!
# The format of a directory

What the slots of a directory look like in directory order: entries with their
long-name slots right before them, deleted slots and labels in between, and nothing but
free slots behind the first one that was never used.
-/

namespace Gemios

/-- Long-name slots with the numbers `n`, ..., 1 and a checksum. -/
def LfnTail (chk : UInt8) : List Slot → Prop
  | [] => True
  | s :: ss => s 0 = UInt8.ofNat (ss.length + 1) ∧ s.isLfn = true ∧ s 13 = chk ∧ LfnTail chk ss

/-- The long-name slots of an entry: `n | 0x40`, `n - 1`, ..., 1, or none at all. -/
def LfnRun (chk : UInt8) : List Slot → Prop
  | [] => True
  | s :: ss => ss.length < 20 ∧ s 0 = 0x40 ||| UInt8.ofNat (ss.length + 1) ∧ s.isLfn = true ∧
      s 13 = chk ∧ LfnTail chk ss

structure Slot.Label (e : Slot) : Prop where
  notEnd : e.isEnd = false
  notDeleted : e.isDeleted = false
  notLfn : e.isLfn = false
  volume : e.isVolumeId = true

/-- The slots of a well-formed directory, in directory order. -/
inductive DirFormat : List Slot → Prop
  | nil : DirFormat []
  | deleted {e : Slot} {es : List Slot} (he : e.isDeleted = true) (h : DirFormat es) :
      DirFormat (e :: es)
  | label {e : Slot} {es : List Slot} (he : e.Label) (h : DirFormat es) : DirFormat (e :: es)
  | entry {lfns : List Slot} {e : Slot} {es : List Slot} (hl : LfnRun (fatLfnChecksum e.name) lfns)
      (he : e.Live) (h : DirFormat es) : DirFormat (lfns ++ e :: es)
  | ended {e : Slot} {es : List Slot} (he : e.isEnd = true) (h : ∀ x ∈ es, x.isFree = true) :
      DirFormat (e :: es)

/-! ### Kinds of slots -/

theorem Slot.isFree_iff (e : Slot) : e.isFree = true ↔ e.isEnd = true ∨ e.isDeleted = true := by
  rw [Slot.isFree, Bool.or_eq_true]

theorem Slot.Live.notFree {e : Slot} (h : e.Live) : e.isFree = false := by
  rw [Slot.isFree, h.notEnd, h.notDeleted]
  rfl

theorem Slot.Label.notFree {e : Slot} (h : e.Label) : e.isFree = false := by
  rw [Slot.isFree, h.notEnd, h.notDeleted]
  rfl

theorem order_ne : ∀ n, n < 20 →
    UInt8.ofNat (n + 1) ≠ 0 ∧ UInt8.ofNat (n + 1) ≠ 0xE5 ∧
      (0x40 ||| UInt8.ofNat (n + 1)) ≠ 0 ∧ (0x40 ||| UInt8.ofNat (n + 1)) ≠ 0xE5 := by
  decide

theorem notFree_of_order {s : Slot} (h0 : s 0 ≠ 0) (h1 : s 0 ≠ 0xE5) : s.isFree = false := by
  rw [Slot.isFree, Slot.isEnd, Slot.isDeleted, beq_eq_false_iff_ne.mpr h0,
    beq_eq_false_iff_ne.mpr h1]
  rfl

theorem LfnTail.notFree {chk : UInt8} : ∀ {ss : List Slot}, LfnTail chk ss → ss.length ≤ 20 →
    ∀ s ∈ ss, s.isFree = false ∧ s.isLfn = true := by
  intro ss
  induction ss with
  | nil =>
    intro _ _ s hs
    cases hs
  | cons t ss ih =>
    intro h hlen s hs
    obtain ⟨h0, hlfn, _, htail⟩ := h
    rw [List.length_cons] at hlen
    rcases List.mem_cons.mp hs with rfl | hs
    · obtain ⟨ha, hb, _⟩ := order_ne ss.length (by omega)
      exact ⟨notFree_of_order (by rw [h0]; exact ha) (by rw [h0]; exact hb), hlfn⟩
    · exact ih htail (by omega) s hs

theorem LfnRun.notFree {chk : UInt8} {ss : List Slot} (h : LfnRun chk ss) :
    ∀ s ∈ ss, s.isFree = false ∧ s.isLfn = true := by
  cases ss with
  | nil =>
    intro s hs
    cases hs
  | cons t ss =>
    intro s hs
    obtain ⟨hlen, h0, hlfn, _, htail⟩ := h
    rcases List.mem_cons.mp hs with rfl | hs
    · obtain ⟨_, _, ha, hb⟩ := order_ne ss.length hlen
      exact ⟨notFree_of_order (by rw [h0]; exact ha) (by rw [h0]; exact hb), hlfn⟩
    · exact htail.notFree (by omega) s hs

theorem not_isEnd_of_not_isFree {e : Slot} (h : e.isFree = false) : e.isEnd = false := by
  rw [Slot.isFree, Bool.or_eq_false_iff] at h
  exact h.1

/-! ### Taking directories apart and putting them together -/

theorem DirFormat.of_free {es : List Slot} (h : ∀ e ∈ es, e.isFree = true) : DirFormat es := by
  induction es with
  | nil => exact DirFormat.nil
  | cons e es ih =>
    have hes : ∀ x ∈ es, x.isFree = true := fun x hx => h x (by simp [hx])
    rcases (e.isFree_iff).mp (h e (by simp)) with he | he
    · exact DirFormat.ended he hes
    · exact DirFormat.deleted he (ih hes)

theorem split_at_free {g es xs ys : List Slot} {f : Slot}
    (hg : ∀ x ∈ g, x.isFree = false) (hf : f.isFree = true)
    (h : g ++ es = xs ++ f :: ys) : ∃ xs', xs = g ++ xs' ∧ es = xs' ++ f :: ys := by
  rcases List.append_eq_append_iff.mp h with ⟨zs, hxs, hes⟩ | ⟨zs, hgrp, hys⟩
  · exact ⟨zs, hxs, hes⟩
  · cases zs with
    | nil =>
      rw [List.append_nil] at hgrp
      exact ⟨[], by rw [hgrp, List.append_nil], hys.symm⟩
    | cons z zs =>
      rw [List.cons_append, List.cons.injEq] at hys
      have hz := hg z (by rw [hgrp]; simp)
      rw [← hys.1, hf] at hz
      cases hz

theorem DirFormat.split {es : List Slot} (h : DirFormat es) : ∀ {xs ys : List Slot} {f : Slot},
    es = xs ++ f :: ys → f.isFree = true → DirFormat xs ∧ DirFormat (f :: ys) ∧
      ((∃ x ∈ xs, x.isEnd = true) → ∀ y ∈ f :: ys, y.isFree = true) := by
  induction h with
  | nil =>
    intro xs ys f heq
    simp at heq
  | @deleted e es he h ih =>
    intro xs ys f heq hf
    cases xs with
    | nil =>
      rw [List.nil_append, List.cons.injEq] at heq
      refine ⟨DirFormat.nil, ?_, fun hx => ?_⟩
      · rw [← heq.1, ← heq.2]
        exact DirFormat.deleted he h
      · obtain ⟨x, hx, _⟩ := hx
        cases hx
    | cons x xs =>
      rw [List.cons_append, List.cons.injEq] at heq
      obtain ⟨rfl, heq⟩ := heq
      obtain ⟨h1, h2, h3⟩ := ih heq hf
      refine ⟨DirFormat.deleted he h1, h2, fun hx => h3 ?_⟩
      obtain ⟨y, hy, hend⟩ := hx
      rcases List.mem_cons.mp hy with rfl | hy
      · rw [Slot.isDeleted, beq_iff_eq] at he
        rw [Slot.isEnd, he] at hend
        cases hend
      · exact ⟨y, hy, hend⟩
  | @label e es he h ih =>
    intro xs ys f heq hf
    obtain ⟨xs', rfl, heq'⟩ := split_at_free (g := [e]) (by simpa using he.notFree) hf heq
    obtain ⟨h1, h2, h3⟩ := ih heq' hf
    refine ⟨DirFormat.label he h1, h2, fun hx => h3 ?_⟩
    obtain ⟨y, hy, hend⟩ := hx
    rcases List.mem_cons.mp hy with rfl | hy
    · rw [he.notEnd] at hend
      cases hend
    · exact ⟨y, hy, hend⟩
  | @entry lfns e es hl he h ih =>
    intro xs ys f heq hf
    have hgroup : ∀ g ∈ lfns ++ [e], g.isFree = false := by
      intro g hg
      rcases List.mem_append.mp hg with hg | hg
      · exact (hl.notFree g hg).1
      · rw [List.mem_singleton.mp hg]
        exact he.notFree
    have heq' : (lfns ++ [e]) ++ es = xs ++ f :: ys := by rw [← heq]; simp
    obtain ⟨xs', rfl, hes⟩ := split_at_free hgroup hf heq'
    obtain ⟨h1, h2, h3⟩ := ih hes hf
    refine ⟨?_, h2, fun hx => h3 ?_⟩
    · rw [List.append_assoc]
      exact DirFormat.entry hl he h1
    · obtain ⟨y, hy, hend⟩ := hx
      rcases List.mem_append.mp hy with hy | hy
      · rw [not_isEnd_of_not_isFree (hgroup y hy)] at hend
        cases hend
      · exact ⟨y, hy, hend⟩
  | @ended e es he h =>
    intro xs ys f heq hf
    cases xs with
    | nil =>
      rw [List.nil_append, List.cons.injEq] at heq
      refine ⟨DirFormat.nil, ?_, fun hx => ?_⟩
      · rw [← heq.1, ← heq.2]
        exact DirFormat.ended he h
      · obtain ⟨x, hx, _⟩ := hx
        cases hx
    | cons x xs =>
      rw [List.cons_append, List.cons.injEq] at heq
      obtain ⟨rfl, rfl⟩ := heq
      have hrest : ∀ y ∈ f :: ys, y.isFree = true := fun y hy => h y (List.mem_append_right xs hy)
      exact ⟨DirFormat.ended he fun y hy => h y (List.mem_append_left _ hy),
        DirFormat.of_free hrest, fun _ => hrest⟩

theorem DirFormat.append {xs ys : List Slot} (h : DirFormat xs)
    (hend : ∀ x ∈ xs, x.isEnd = false) (hys : DirFormat ys) : DirFormat (xs ++ ys) := by
  induction h with
  | nil => exact hys
  | deleted he _ ih => exact DirFormat.deleted he (ih fun x hx => hend x (by simp [hx]))
  | label he _ ih => exact DirFormat.label he (ih fun x hx => hend x (by simp [hx]))
  | entry hl he _ ih =>
    rw [List.append_assoc, List.cons_append]
    exact DirFormat.entry hl he (ih fun x hx => hend x (by simp [hx]))
  | ended he _ =>
    have := hend _ List.mem_cons_self
    rw [he] at this
    cases this

theorem DirFormat.of_cons_free {x : Slot} {es : List Slot} (h : DirFormat (x :: es))
    (hx : x.isFree = true) : (x.isEnd = true ∧ ∀ e ∈ es, e.isFree = true) ∨
      (x.isEnd = false ∧ DirFormat es) := by
  generalize heq : x :: es = l at h
  cases h with
  | nil => cases heq
  | deleted he h =>
    rw [List.cons.injEq] at heq
    obtain ⟨rfl, rfl⟩ := heq
    refine Or.inr ⟨?_, h⟩
    rw [Slot.isDeleted, beq_iff_eq] at he
    rw [Slot.isEnd, he]
    rfl
  | label he h =>
    rw [List.cons.injEq] at heq
    rw [heq.1, he.notFree] at hx
    cases hx
  | @entry lfns e es' hl he h =>
    cases lfns with
    | nil =>
      rw [List.nil_append, List.cons.injEq] at heq
      rw [heq.1, he.notFree] at hx
      cases hx
    | cons l lfns =>
      rw [List.cons_append, List.cons.injEq] at heq
      rw [heq.1, (hl.notFree l List.mem_cons_self).1] at hx
      cases hx
  | ended he h =>
    rw [List.cons.injEq] at heq
    obtain ⟨rfl, rfl⟩ := heq
    exact Or.inl ⟨he, h⟩

theorem DirFormat.drop_free {xs ys : List Slot} (h : DirFormat (xs ++ ys))
    (hfree : ∀ x ∈ xs, x.isFree = true) : DirFormat ys ∧
      ((∃ x ∈ xs, x.isEnd = true) → ∀ y ∈ ys, y.isFree = true) := by
  induction xs with
  | nil =>
    refine ⟨h, fun hx => ?_⟩
    obtain ⟨x, hx, _⟩ := hx
    cases hx
  | cons x xs ih =>
    rw [List.cons_append] at h
    rcases h.of_cons_free (hfree x (by simp)) with ⟨_, hall⟩ | ⟨hx, hrest⟩
    · have hys : ∀ y ∈ ys, y.isFree = true := fun y hy => hall y (List.mem_append_right xs hy)
      exact ⟨DirFormat.of_free hys, fun _ => hys⟩
    · obtain ⟨h1, h2⟩ := ih hrest fun y hy => hfree y (by simp [hy])
      refine ⟨h1, fun hy => h2 ?_⟩
      obtain ⟨y, hy, hend⟩ := hy
      rcases List.mem_cons.mp hy with rfl | hy
      · rw [hx] at hend
        cases hend
      · exact ⟨y, hy, hend⟩

theorem DirFormat.append_free {xs ys : List Slot} (h : DirFormat xs)
    (hys : ∀ y ∈ ys, y.isFree = true) : DirFormat (xs ++ ys) := by
  induction h with
  | nil => exact DirFormat.of_free hys
  | deleted he _ ih => exact DirFormat.deleted he ih
  | label he _ ih => exact DirFormat.label he ih
  | entry hl he _ ih =>
    rw [List.append_assoc, List.cons_append]
    exact DirFormat.entry hl he ih
  | ended he hes =>
    refine DirFormat.ended he fun x hx => ?_
    rcases List.mem_append.mp hx with hx | hx
    · exact hes x hx
    · exact hys x hx

/-! ### New slots -/

theorem lfnTail_lfnSlots (name : List UInt8) {numLfn : Nat} (chk : UInt8) (hnum : numLfn ≤ 20) :
    ∀ seq, seq < numLfn → LfnTail chk (lfnSlots name numLfn chk seq) := by
  intro seq
  induction seq with
  | zero => exact fun _ => trivial
  | succ seq ih =>
    intro hlt
    obtain ⟨_, _, hlfn, _, _, hchk⟩ := lfnEntry_kind chk hnum (show seq < numLfn by omega) name
    refine ⟨?_, hlfn, hchk, ih (by omega)⟩
    rw [length_lfnSlots, lfnEntry_head name numLfn chk (seq + 1) 0 (by omega), if_pos rfl,
      if_neg (by omega)]

theorem lfnRun_lfnSlots (name : List UInt8) {numLfn : Nat} (chk : UInt8) (hnum : numLfn ≤ 20) :
    LfnRun chk (lfnSlots name numLfn chk numLfn) := by
  cases numLfn with
  | zero => trivial
  | succ n =>
    obtain ⟨_, _, hlfn, _, _, hchk⟩ := lfnEntry_kind chk hnum (show n < n + 1 by omega) name
    refine ⟨?_, ?_, hlfn, hchk, lfnTail_lfnSlots name chk hnum n (by omega)⟩
    · rw [length_lfnSlots]
      omega
    · rw [length_lfnSlots, lfnEntry_head name (n + 1) chk (n + 1) 0 (by omega), if_pos rfl,
        if_pos rfl]

/-- The slots of one entry with its long name, or a deleted slot. -/
inductive SlotGroup : List Slot → Prop
  | entry {lfns : List Slot} {e : Slot} (hl : LfnRun (fatLfnChecksum e.name) lfns) (he : e.Live) :
      SlotGroup (lfns ++ [e])
  | deleted {e : Slot} (he : e.isDeleted = true) : SlotGroup [e]

theorem SlotGroup.append {g es : List Slot} (hg : SlotGroup g) (h : DirFormat es) :
    DirFormat (g ++ es) := by
  cases hg with
  | entry hl he =>
    rw [List.append_assoc]
    exact DirFormat.entry hl he h
  | deleted he => exact DirFormat.deleted he h

/-- **An entry stored over free slots** keeps a directory well formed, unless it lies
    behind the end. -/
theorem DirFormat.store {xs fs ys g : List Slot} (h : DirFormat (xs ++ fs ++ ys)) (hne : fs ≠ [])
    (hfree : ∀ f ∈ fs, f.isFree = true) (hend : ∀ x ∈ xs, x.isEnd = false) (hg : SlotGroup g) :
    DirFormat (xs ++ g ++ ys) := by
  obtain ⟨f, fs', rfl⟩ := List.exists_cons_of_ne_nil hne
  have hsplit : xs ++ f :: fs' ++ ys = xs ++ f :: (fs' ++ ys) := by simp
  obtain ⟨hxs, htail, _⟩ := h.split hsplit (hfree f (by simp))
  have htail' : DirFormat (f :: fs' ++ ys) := by simpa using htail
  have hys := (htail'.drop_free hfree).1
  rw [List.append_assoc]
  exact hxs.append hend (hg.append hys)

/-! ### Lookups -/

section

variable {d : Disk} (x : List UInt8)

theorem scan_lfns : ∀ (as : List Nat) (p : LfnParser),
    (∀ a ∈ as, (slotAt d a).isFree = false ∧ (slotAt d a).isLfn = true) →
    ∃ q, scan (atAddr d (findBody x)) as p = .next q := by
  intro as
  induction as with
  | nil =>
    intro p _
    exact ⟨p, rfl⟩
  | cons a as ih =>
    intro p h
    obtain ⟨hfree, hlfn⟩ := h a (by simp)
    rw [Slot.isFree, Bool.or_eq_false_iff] at hfree
    have hturn : atAddr d (findBody x) a p =
        .next (lfnParserFeed p (slotAt d a) (a / 512) (a % 512 / 32)) := by
      simp [atAddr, findBody, hfree.1, hfree.2, hlfn]
    rw [scan_cons_next hturn]
    exact ih _ fun b hb => h b (by simp [hb])

theorem DirFormat.scan {as : List Nat} {es : List Slot} (h : DirFormat es)
    (has : as.map (slotAt d) = es) :
    (∃ r, Gemios.scan (atAddr d (findBody x)) as lfnParserReset = .ret r) ∨
      Gemios.scan (atAddr d (findBody x)) as lfnParserReset = .next lfnParserReset := by
  induction h generalizing as with
  | nil =>
    rw [List.map_eq_nil_iff] at has
    subst has
    exact Or.inr rfl
  | deleted he _ ih =>
    obtain ⟨a, as, rfl, rfl, rfl⟩ := List.map_eq_cons_iff.mp has
    have hend : (slotAt d a).isEnd = false := by
      rw [Slot.isDeleted, beq_iff_eq] at he
      rw [Slot.isEnd, he]
      rfl
    have hturn : atAddr d (findBody x) a lfnParserReset = .next lfnParserReset := by
      simp [atAddr, findBody, he, hend]
    rw [scan_cons_next hturn]
    exact ih rfl
  | label he _ ih =>
    obtain ⟨a, as, rfl, rfl, rfl⟩ := List.map_eq_cons_iff.mp has
    have hturn : atAddr d (findBody x) a lfnParserReset = .next lfnParserReset := by
      simp [atAddr, findBody, he.notEnd, he.notDeleted, he.volume,
        lfnParserFeed_reset he.notEnd he.notDeleted he.notLfn]
    rw [scan_cons_next hturn]
    exact ih rfl
  | entry hl he _ ih =>
    obtain ⟨ls, rest, rfl, rfl, hrest⟩ := List.map_eq_append_iff.mp has
    obtain ⟨b, as, rfl, rfl, rfl⟩ := List.map_eq_cons_iff.mp hrest
    obtain ⟨q, hq⟩ := scan_lfns x ls lfnParserReset fun a ha =>
      hl.notFree _ (List.mem_map_of_mem ha)
    rw [scan_append, hq]
    dsimp only
    rw [show b :: as = [b] ++ as from rfl, scan_append,
      scan_short rfl he.notEnd he.notDeleted he.notLfn he.notVolume]
    dsimp only
    split
    · next hm =>
      split at hm
      · cases hm
      · cases hm
        exact ih rfl
    · next hm =>
      split at hm <;> cases hm
    · next r hm => exact Or.inl ⟨r, rfl⟩
  | ended he _ =>
    obtain ⟨a, as, rfl, rfl, rfl⟩ := List.map_eq_cons_iff.mp has
    have hturn : atAddr d (findBody x) a lfnParserReset = .ret none := by
      simp [atAddr, findBody, he]
    rw [scan_cons_ret hturn]
    exact Or.inl ⟨none, rfl⟩

theorem exists_end_of_ret_none {as : List Nat} {p : LfnParser}
    (h : Gemios.scan (atAddr d (findBody x)) as p = .ret none) :
    ∃ a ∈ as, (slotAt d a).isEnd = true := by
  obtain ⟨pre, a, post, q, rfl, _, ha⟩ := scan_eq_ret h
  refine ⟨a, by simp, ?_⟩
  simp only [atAddr, findBody] at ha
  split at ha
  · assumption
  · split at ha
    · cases ha
    · split at ha
      · cases ha
      · split at ha <;> cases ha

theorem scan_free : ∀ (as : List Nat), (∀ a ∈ as, (slotAt d a).isFree = true) →
    (Gemios.scan (atAddr d (findBody x)) as lfnParserReset = .ret none ∧
      ∃ a ∈ as, (slotAt d a).isEnd = true) ∨
    Gemios.scan (atAddr d (findBody x)) as lfnParserReset = .next lfnParserReset := by
  intro as
  induction as with
  | nil => exact fun _ => Or.inr rfl
  | cons a as ih =>
    intro h
    rcases hend : (slotAt d a).isEnd with _ | _
    · have hdel := ((slotAt d a).isFree_iff.mp (h a (by simp))).resolve_left (by simp [hend])
      have hturn : atAddr d (findBody x) a lfnParserReset = .next lfnParserReset := by
        simp [atAddr, findBody, hdel, hend]
      rw [scan_cons_next hturn]
      rcases ih fun b hb => h b (by simp [hb]) with ⟨hret, b, hb, hbend⟩ | hnext
      · exact Or.inl ⟨hret, b, by simp [hb], hbend⟩
      · exact Or.inr hnext
    · have hturn : atAddr d (findBody x) a lfnParserReset = .ret none := by
        simp [atAddr, findBody, hend]
      exact Or.inl ⟨scan_cons_ret hturn as, a, by simp, hend⟩

theorem findIn_free {as : List Nat} (h : ∀ a ∈ as, (slotAt d a).isFree = true) :
    findIn d x as = none := by
  unfold findIn
  rcases scan_free x as h with ⟨hret, _⟩ | hnext
  · rw [hret]
    rfl
  · rw [hnext]
    rfl

theorem findIn_append_of_end {as bs : List Nat} (hend : ∃ a ∈ as, (slotAt d a).isEnd = true) :
    findIn d x (as ++ bs) = findIn d x as := by
  unfold findIn
  rw [scan_append]
  cases hscan : Gemios.scan (atAddr d (findBody x)) as lfnParserReset with
  | ret r => rfl
  | stop p => rfl
  | next p =>
    obtain ⟨a, ha, haend⟩ := hend
    obtain ⟨p₁, p₂, hturn⟩ := scan_eq_next hscan a ha
    simp [atAddr, findBody, haend] at hturn

theorem findIn_append {as bs : List Nat} (h : DirFormat (as.map (slotAt d)))
    (hend : ∀ a ∈ as, (slotAt d a).isEnd = false) :
    findIn d x (as ++ bs) = (findIn d x as).or (findIn d x bs) := by
  unfold findIn
  rw [scan_append]
  rcases h.scan x rfl with ⟨r, hret⟩ | hnext
  · rw [hret]
    cases r with
    | some loc => rfl
    | none =>
      obtain ⟨a, ha, haend⟩ := exists_end_of_ret_none x hret
      rw [hend a ha] at haend
      cases haend
  · rw [hnext]
    rfl

theorem findIn_congr {d' : Disk} {as : List Nat} (h : ∀ a ∈ as, slotAt d' a = slotAt d a) :
    findIn d' x as = findIn d x as := by
  have hturn : ∀ a ∈ as, ∀ p, atAddr d' (findBody x) a p = atAddr d (findBody x) a p :=
    fun a ha p => by rw [atAddr, atAddr, h a ha]
  rw [findIn, findIn, scan_congr hturn]

end

/-! ### Live slots -/

section

variable {d d' : Disk}

theorem liveAddrs_append_of_end {as bs : List Nat} (hend : ∃ a ∈ as, (slotAt d a).isEnd = true) :
    liveAddrs d (as ++ bs) = liveAddrs d as := by
  rw [liveAddrs, liveAddrs, List.takeWhile_append, if_neg]
  intro hlen
  obtain ⟨a, ha, haend⟩ := hend
  have heq := (List.takeWhile_sublist fun a => !(slotAt d a).isEnd).eq_of_length hlen
  rw [← heq] at ha
  have := List.mem_takeWhile_imp ha
  rw [haend] at this
  cases this

theorem liveAddrs_append {as bs : List Nat} (hend : ∀ a ∈ as, (slotAt d a).isEnd = false) :
    liveAddrs d (as ++ bs) = liveAddrs d as ++ liveAddrs d bs := by
  have hpos : ∀ a ∈ as, (!(slotAt d a).isEnd) = true := fun a ha => by rw [hend a ha]; rfl
  rw [liveAddrs, liveAddrs, liveAddrs, List.takeWhile_append_of_pos hpos, List.filter_append,
    List.takeWhile_eq_self_iff.mpr hpos]

theorem liveAddrs_free {as : List Nat} (h : ∀ a ∈ as, (slotAt d a).isFree = true) :
    liveAddrs d as = [] := by
  rw [List.eq_nil_iff_forall_not_mem]
  intro a ha
  obtain ⟨hmem, hend, hdel, _⟩ := mem_liveAddrs ha
  have := h a hmem
  rw [Slot.isFree, hend, hdel] at this
  cases this

theorem liveAddrs_congr {as : List Nat} (h : ∀ a ∈ as, slotAt d' a = slotAt d a) :
    liveAddrs d' as = liveAddrs d as := by
  have htake : as.takeWhile (fun a => !(slotAt d' a).isEnd) =
      as.takeWhile fun a => !(slotAt d a).isEnd := by
    induction as with
    | nil => rfl
    | cons a as ih =>
      rw [List.takeWhile_cons, List.takeWhile_cons, h a (by simp),
        ih fun b hb => h b (by simp [hb])]
  rw [liveAddrs, liveAddrs, htake]
  refine List.filter_congr fun a ha => ?_
  rw [h a (List.takeWhile_subset _ ha)]

theorem SlotGroup.live {g : List Slot} (hg : SlotGroup g) {as : List Nat}
    (has : as.map (slotAt d) = g) : (∀ a ∈ as, (slotAt d a).isEnd = false) ∧
      ∀ a ∈ liveAddrs d as, g.getLast? = some (slotAt d a) ∧ as.getLast? = some a := by
  cases hg with
  | @entry lfns e hl he =>
    obtain ⟨ls, rest, rfl, rfl, hrest⟩ := List.map_eq_append_iff.mp has
    obtain ⟨b, rest, rfl, rfl, hnil⟩ := List.map_eq_cons_iff.mp hrest
    rw [List.map_eq_nil_iff] at hnil
    subst hnil
    have hlfn : ∀ a ∈ ls, (slotAt d a).isFree = false ∧ (slotAt d a).isLfn = true := fun a ha =>
      hl.notFree _ (List.mem_map_of_mem ha)
    constructor
    · intro a ha
      rcases List.mem_append.mp ha with ha | ha
      · exact not_isEnd_of_not_isFree (hlfn a ha).1
      · rw [List.mem_singleton.mp ha]
        exact he.notEnd
    · intro a ha
      obtain ⟨hmem, _, _, hnot, _⟩ := mem_liveAddrs ha
      rcases List.mem_append.mp hmem with hmem | hmem
      · rw [(hlfn a hmem).2] at hnot
        cases hnot
      · rw [List.mem_singleton.mp hmem]
        simp
  | @deleted e he =>
    obtain ⟨b, rest, rfl, rfl, hnil⟩ := List.map_eq_cons_iff.mp has
    rw [List.map_eq_nil_iff] at hnil
    subst hnil
    constructor
    · intro a ha
      rw [List.mem_singleton.mp ha]
      rw [Slot.isDeleted, beq_iff_eq] at he
      rw [Slot.isEnd, he]
      rfl
    · intro a ha
      obtain ⟨hmem, _, hdel, _⟩ := mem_liveAddrs ha
      rw [List.mem_singleton.mp hmem, he] at hdel
      cases hdel

end

/-! ### A directory with new slots -/

section

variable {d d' : Disk} {pre run post : List Nat} {g : List Slot}
  (hfmt : DirFormat ((pre ++ run ++ post).map (slotAt d))) (hne : run ≠ [])
  (hfree : ∀ a ∈ run, (slotAt d a).isFree = true)
  (hpre : ∀ a ∈ pre, slotAt d' a = slotAt d a) (hpost : ∀ a ∈ post, slotAt d' a = slotAt d a)
  (hg : SlotGroup g) (hrun : run.map (slotAt d') = g)

section

include hpre

theorem liveAddrs_store_hidden (hend : ∃ a ∈ pre, (slotAt d a).isEnd = true) :
    liveAddrs d' (pre ++ run ++ post) = liveAddrs d (pre ++ run ++ post) := by
  have hend' : ∃ a ∈ pre, (slotAt d' a).isEnd = true := by
    obtain ⟨a, ha, haend⟩ := hend
    exact ⟨a, ha, by rw [hpre a ha]; exact haend⟩
  rw [List.append_assoc, liveAddrs_append_of_end hend', liveAddrs_append_of_end hend,
    liveAddrs_congr hpre]

end

variable (hvis : ∀ a ∈ pre, (slotAt d a).isEnd = false)

section

include hfmt hne hfree

theorem format_parts : DirFormat (pre.map (slotAt d)) ∧ DirFormat (post.map (slotAt d)) ∧
    ((∃ a ∈ run, (slotAt d a).isEnd = true) → ∀ a ∈ post, (slotAt d a).isFree = true) := by
  obtain ⟨a, run', rfl⟩ := List.exists_cons_of_ne_nil hne
  rw [List.map_append, List.map_append, List.append_assoc] at hfmt
  obtain ⟨h1, h2, _⟩ := hfmt.split (rfl : _ = pre.map (slotAt d) ++ slotAt d a :: _)
    (hfree a (by simp))
  have htail : DirFormat ((a :: run').map (slotAt d) ++ post.map (slotAt d)) := by simpa using h2
  have hfree' : ∀ e ∈ (a :: run').map (slotAt d), e.isFree = true := by
    intro e he
    obtain ⟨b, hb, rfl⟩ := List.mem_map.mp he
    exact hfree b hb
  obtain ⟨h3, h4⟩ := htail.drop_free hfree'
  refine ⟨h1, h3, fun hend b hb => h4 ?_ _ (List.mem_map_of_mem hb)⟩
  obtain ⟨c, hc, hcend⟩ := hend
  exact ⟨_, List.mem_map_of_mem hc, hcend⟩

include hvis

theorem findIn_free_run (x : List UInt8) :
    findIn d x (pre ++ run ++ post) = (findIn d x pre).or (findIn d x post) := by
  obtain ⟨h1, h2, h3⟩ := format_parts hfmt hne hfree
  rw [List.append_assoc, findIn_append x h1 hvis]
  congr 1
  by_cases hend : ∃ a ∈ run, (slotAt d a).isEnd = true
  · rw [findIn_append_of_end x hend, findIn_free x hfree, findIn_free x (h3 hend)]
  · have hfree' : ∀ e ∈ run.map (slotAt d), e.isFree = true := by
      intro e he
      obtain ⟨b, hb, rfl⟩ := List.mem_map.mp he
      exact hfree b hb
    have hnot : ∀ a ∈ run, (slotAt d a).isEnd = false := by
      intro a ha
      rw [← Bool.not_eq_true]
      exact fun h => hend ⟨a, ha, h⟩
    rw [findIn_append x (DirFormat.of_free hfree') hnot, findIn_free x hfree, Option.none_or]

theorem liveAddrs_free_run :
    liveAddrs d (pre ++ run ++ post) = liveAddrs d pre ++ liveAddrs d post := by
  obtain ⟨_, _, h3⟩ := format_parts hfmt hne hfree
  rw [List.append_assoc, liveAddrs_append hvis]
  congr 1
  by_cases hend : ∃ a ∈ run, (slotAt d a).isEnd = true
  · rw [liveAddrs_append_of_end hend, liveAddrs_free hfree, liveAddrs_free (h3 hend)]
  · have hnot : ∀ a ∈ run, (slotAt d a).isEnd = false := by
      intro a ha
      rw [← Bool.not_eq_true]
      exact fun h => hend ⟨a, ha, h⟩
    rw [liveAddrs_append hnot, liveAddrs_free hfree, List.nil_append]

include hpre hpost hg hrun

theorem findIn_store (x : List UInt8) : findIn d' x (pre ++ run ++ post) =
    (findIn d x pre).or ((findIn d' x run).or (findIn d x post)) := by
  obtain ⟨h1, h2, _⟩ := format_parts hfmt hne hfree
  have hmap : ∀ {as : List Nat}, (∀ a ∈ as, slotAt d' a = slotAt d a) →
      as.map (slotAt d') = as.map (slotAt d) := fun h => List.map_congr_left h
  have hvis' : ∀ a ∈ pre, (slotAt d' a).isEnd = false := fun a ha => by rw [hpre a ha, hvis a ha]
  have hgroup : DirFormat (run.map (slotAt d')) := by
    rw [hrun, ← List.append_nil g]
    exact hg.append DirFormat.nil
  rw [List.append_assoc, findIn_append x (by rw [hmap hpre]; exact h1) hvis',
    findIn_append x hgroup (hg.live hrun).1, findIn_congr x hpre, findIn_congr x hpost]

omit hfmt hne hfree in
theorem liveAddrs_store : liveAddrs d' (pre ++ run ++ post) =
    liveAddrs d pre ++ (liveAddrs d' run ++ liveAddrs d post) := by
  have hvis' : ∀ a ∈ pre, (slotAt d' a).isEnd = false := fun a ha => by rw [hpre a ha, hvis a ha]
  rw [List.append_assoc, liveAddrs_append hvis', liveAddrs_append (hg.live hrun).1,
    liveAddrs_congr hpre, liveAddrs_congr hpost]

end

end

end Gemios
