import Gemios.FatVolume
import Gemios.FatSlots

/-!
# Room for a name

`fat_dir_find_or_alloc_lfn_slots` on a well-formed volume: the first run of free slots
in directory order, or a cleared cluster behind the last one.
-/

namespace Gemios

/-- A slot without an entry: never used, or deleted. -/
def Slot.isFree (e : Slot) : Bool := e.isEnd || e.isDeleted

/-- The slot search over a list of slots; `count` free slots from `start` on have been
    passed. -/
def findRun (d : Disk) (n : Nat) : List Nat → (count start : Nat) → Option Nat
  | [], _, _ => none
  | a :: as, count, start =>
    if (slotAt d a).isFree then
      let start := if count = 0 then a else start
      if count + 1 ≥ n then some start else findRun d n as (count + 1) start
    else findRun d n as 0 start

theorem findRun_some {d : Disk} {n : Nat} : ∀ (as R : List Nat) (start a : Nat), R.length < n →
    (∀ b ∈ R, (slotAt d b).isFree = true) → (R ≠ [] → R.head? = some start) →
    findRun d n as R.length start = some a →
    ∃ pre run post, R ++ as = pre ++ run ++ post ∧ run.length = n ∧ run.head? = some a ∧
      ∀ b ∈ run, (slotAt d b).isFree = true := by
  intro as
  induction as with
  | nil =>
    intro R start a _ _ _ h
    cases h
  | cons b as ih =>
    intro R start a hn hfree hstart h
    rw [findRun] at h
    dsimp only at h
    have hlen : (R ++ [b]).length = R.length + 1 := by simp
    split at h
    · next hb =>
      have hfree' : ∀ x ∈ R ++ [b], (slotAt d x).isFree = true := by
        intro x hx
        rcases List.mem_append.mp hx with hx | hx
        · exact hfree x hx
        · rw [List.mem_singleton.mp hx]
          exact hb
      have hhead : (R ++ [b]).head? = some (if R.length = 0 then b else start) := by
        cases R with
        | nil => rfl
        | cons c R =>
          have := hstart (by simp)
          simpa using this
      split at h
      · next hge =>
        refine ⟨[], R ++ [b], as, by simp, by omega, ?_, hfree'⟩
        rw [hhead]
        exact h
      · next hlt =>
        rw [← hlen] at h
        obtain ⟨pre, run, post, heq, hrun⟩ := ih (R ++ [b]) _ a (by omega) hfree'
          (fun _ => hhead) h
        exact ⟨pre, run, post, by rw [← heq]; simp, hrun⟩
    · obtain ⟨pre, run, post, heq, hrun⟩ := ih [] start a (by simp; omega) (by simp)
        (fun h => absurd rfl h) h
      refine ⟨R ++ b :: pre, run, post, ?_, hrun⟩
      rw [List.nil_append] at heq
      rw [heq]
      simp

def SearchEnds (r : Ctl FreeRun (Nat × Nat)) : Option Nat → Prop
  | some a => r = .ret (a / 512, a % 512 / 32)
  | none => ∃ r', r = .next r'

theorem scan_freeRunBody {d : Disk} {n : Nat} : ∀ (as : List Nat) (r : FreeRun) (start : Nat),
    (0 < r.count → r.startSec = start / 512 ∧ r.startSlot = start % 512 / 32) →
    SearchEnds (scan (atAddr d (freeRunBody n)) as r) (findRun d n as r.count start) := by
  intro as
  induction as with
  | nil =>
    intro r start _
    exact ⟨r, rfl⟩
  | cons b as ih =>
    intro r start hstart
    rw [findRun, scan_cons, atAddr, freeRunBody]
    dsimp only
    by_cases hb : (slotAt d b).isFree = true
    · have hb' : ((slotAt d b).isEnd || (slotAt d b).isDeleted) = true := hb
      rw [if_pos hb, if_pos hb']
      generalize hr : (if r.count = 0 then { r with startSec := b / 512, startSlot := b % 512 / 32 }
        else r : FreeRun) = r₁
      have hr₁ : r₁.count = r.count ∧ r₁.startSec = (if r.count = 0 then b else start) / 512 ∧
          r₁.startSlot = (if r.count = 0 then b else start) % 512 / 32 := by
        rw [← hr]
        split
        · exact ⟨rfl, rfl, rfl⟩
        · next hc => exact ⟨rfl, hstart (by omega)⟩
      obtain ⟨hcount, hsec, hslot⟩ := hr₁
      rw [hcount]
      by_cases hge : r.count + 1 ≥ n
      · rw [if_pos hge, if_pos hge, hsec, hslot]
        rfl
      · rw [if_neg hge, if_neg hge]
        exact ih ⟨r₁.startSec, r₁.startSlot, r.count + 1, r₁.lastCluster⟩ _
          fun _ => ⟨hsec, hslot⟩
    · have hb' : ¬ ((slotAt d b).isEnd || (slotAt d b).isDeleted) = true := hb
      rw [if_neg hb, if_neg hb']
      exact ih ⟨r.startSec, r.startSlot, 0, r.lastCluster⟩ start
        fun h => absurd h (Nat.lt_irrefl 0)

theorem freeRunBody_lastCluster (n sec slot : Nat) (e : Slot) (r : FreeRun) (c : Nat) :
    freeRunBody n sec slot e { r with lastCluster := c } =
      (freeRunBody n sec slot e r).map (fun r => { r with lastCluster := c }) id := by
  unfold freeRunBody
  dsimp only
  split
  · by_cases hc : r.count = 0
    · simp only [hc, if_true]
      split <;> rfl
    · simp only [hc, if_false]
      split <;> rfl
  · rfl

theorem freeRunBody_ne_stop (n sec slot : Nat) (e : Slot) (r r' : FreeRun) :
    freeRunBody n sec slot e r ≠ .stop r' := by
  unfold freeRunBody
  dsimp only
  split
  · split <;> split <;> simp
  · simp

theorem freeRunBody_keeps (n sec slot : Nat) (e : Slot) {c : Nat} {r : FreeRun}
    (h : r.lastCluster = c) :
    (freeRunBody n sec slot e r).Sat (fun r => r.lastCluster = c) (fun _ => True) := by
  unfold freeRunBody
  dsimp only
  split
  · split
    · split
      · trivial
      · exact h
    · split
      · trivial
      · exact h
  · exact h

section

variable (fs : FatFs) (d : Disk) (n : Nat)

/-- The walk of the slot search, cluster by cluster. -/
def searchTurn (fs : FatFs) (d : Disk) (n : Nat) : Nat → FreeRun → Ctl FreeRun (Nat × Nat) :=
  clusterTurn fs d (fun c r => { r with lastCluster := c }) (freeRunBody n)

theorem searchTurn_eq (c : Nat) (r : FreeRun) : searchTurn fs d n c r =
    scan (atAddr d (freeRunBody n)) (clusSlots fs c) { r with lastCluster := c } :=
  scan_resume (fun _ _ _ => freeRunBody_ne_stop _ _ _ _ _ _) _ _

theorem scan_searchTurn (Cs : List Nat) (r : FreeRun) :
    (scan (searchTurn fs d n) Cs r).map (fun r => { r with lastCluster := 0 }) id =
      scan (atAddr d (freeRunBody n)) (Cs.flatMap (clusSlots fs)) { r with lastCluster := 0 } := by
  rw [scan_flatMap]
  symm
  refine scan_map_state (f := fun r : FreeRun => { r with lastCluster := 0 }) (fun c s => ?_) Cs r
  rw [searchTurn_eq]
  exact scan_map_state (f := fun r : FreeRun => { r with lastCluster := 0 })
    (fun a s => freeRunBody_lastCluster n _ _ _ s 0) (clusSlots fs c) { s with lastCluster := c }

theorem scan_searchTurn_last : ∀ (Cs : List Nat) (r r' : FreeRun),
    scan (searchTurn fs d n) Cs r = .next r' → Cs ≠ [] → Cs.getLast? = some r'.lastCluster := by
  intro Cs
  induction Cs with
  | nil =>
    intro r r' _ h
    exact absurd rfl h
  | cons c Cs ih =>
    intro r r' h _
    rw [scan_cons] at h
    have hkeep : (searchTurn fs d n c r).Sat (fun r => r.lastCluster = c) (fun _ => True) := by
      rw [searchTurn_eq]
      exact scan_sat (fun a _ s hs => freeRunBody_keeps n _ _ _ hs) rfl
    cases hturn : searchTurn fs d n c r with
    | ret x => rw [hturn] at h; cases h
    | stop s => rw [hturn] at h; cases h
    | next s =>
      rw [hturn] at h hkeep
      cases Cs with
      | nil =>
        have hs : s.lastCluster = c := hkeep
        cases h
        rw [hs]
        rfl
      | cons c' Cs =>
        rw [List.getLast?_cons_cons]
        exact ih s r' h (by simp)

end

/-! ### A directory that grows -/

theorem clusSlots_eq (fs : FatFs) (c : Nat) :
    clusSlots fs c = slotsFrom (fs.clusAddr c) (fs.bytesPerCluster / 32) := by
  refine List.ext_getElem (by simp [clusSlots, slotsFrom]) fun i h1 h2 => ?_
  simp only [clusSlots, slotsFrom, List.getElem_map, List.getElem_range', Nat.one_mul,
    Nat.zero_add]

theorem slotsFrom_add (a n k : Nat) :
    slotsFrom a (n + k) = slotsFrom a n ++ slotsFrom (a + 32 * n) k :=
  List.range'_append.symm

/-- The directory got one more cluster `g` behind its last one, all zero. -/
structure Grown (fs : FatFs) (d d' : Disk) (dir : FatDir) (last g : Nat) : Prop where
  chained : dir.isRootFixed = false
  chain : ∃ L M, IsChain fs d (dir.cluster :: L) ∧ dir.cluster :: L = M ++ [last]
  inRange : fs.InRange g
  free : fs.fatEnt d g = 0
  scanned : g < fs.scanLimit + 2
  fat : ∀ x, fs.InRange x → fs.fatEnt d' x =
    if x = last then g else if x = g then fs.eofVal else fs.fatEnt d x
  zero : ∀ x, fs.InCluster g x → d' x = 0
  frame : ∀ x, x < fs.fatStartSector * 512 ∨ fs.fatEndAddr ≤ x → ¬ fs.InCluster g x → d' x = d x

theorem Linked.snoc {α : Type} {next next' : α → α} {stop : α → Prop} {last g : α} : ∀ {M : List α},
    Linked next stop (M ++ [last]) → (∀ c ∈ M, next' c = next c) → next' last = g →
    stop (next' g) → Linked next' stop (M ++ [last] ++ [g]) := by
  intro M
  induction M with
  | nil =>
    intro _ _ hlast hg
    exact ⟨hlast, hg⟩
  | cons c M ih =>
    intro h hM hlast hg
    have ih' := ih h.tail (fun x hx => hM x (by simp [hx])) hlast hg
    cases M with
    | nil => exact ⟨(hM c (by simp)).trans h.1, ih'⟩
    | cons c' M => exact ⟨(hM c (by simp)).trans h.1, ih'⟩

section

variable {fs : FatFs} {d d' : Disk} {dir : FatDir} {last g : Nat} (h : Grown fs d d' dir last g)

include h

theorem Grown.isChain : ∃ L, IsChain fs d (dir.cluster :: L) ∧
    IsChain fs d' (dir.cluster :: (L ++ [g])) := by
  obtain ⟨L, M, hL, heq⟩ := h.chain
  refine ⟨L, hL, ?_⟩
  rw [← List.cons_append, heq]
  rw [heq] at hL
  have hg : g ∉ M ++ [last] := fun hmem => hL.fatEnt_ne_zero g hmem h.free
  have hnodup := List.nodup_append.mp hL.nodup
  have hgl : g ≠ last := fun heq => hg (by simp [heq])
  refine ⟨fun x hx => ?_, ?_, ?_⟩
  · rcases List.mem_append.mp hx with hx | hx
    · exact hL.inRange x hx
    · rw [List.mem_singleton.mp hx]
      exact h.inRange
  · rw [List.nodup_append]
    refine ⟨hL.nodup, List.nodup_singleton g, fun x hx y hy => ?_⟩
    rw [List.mem_singleton.mp hy]
    rintro rfl
    exact hg hx
  · refine Linked.snoc hL.linked (fun x hx => ?_) ?_ ?_
    · have hxl : x ≠ last := hnodup.2.2 x hx last (by simp)
      have hxg : x ≠ g := fun heq => hg (by simp [← heq, hx])
      rw [h.fat x (hL.inRange x (by simp [hx])), if_neg hxl, if_neg hxg]
    · rw [h.fat last (hL.inRange last (by simp)), if_pos rfl]
    · rw [h.fat g h.inRange, if_neg hgl, if_pos rfl]
      exact fs.eofLimit_le_eofVal

theorem Grown.dirAddrs_eq (hs : fs.Sound) (hlen : (chainOf fs d dir.cluster).length < maxVisits) :
    dirAddrs fs d' dir = dirAddrs fs d dir ++ clusSlots fs g := by
  obtain ⟨L, hL, hL'⟩ := h.isChain
  rw [chainOf_eq hs hL] at hlen
  rw [dirAddrs_of_chain hs h.chained hL', dirAddrs_of_chain hs h.chained hL,
    List.take_of_length_le (by simp at hlen ⊢; omega), List.take_of_length_le (by omega),
    ← List.cons_append, List.flatMap_append, List.flatMap_singleton]

end

/-! ### The place found -/

/-- Room for `n` slots: the run that the search finds lies together on the device; when
    there is none, a new cluster has room for it and the walks will come to it. -/
def RoomOk (fs : FatFs) (d : Disk) (dir : FatDir) (n : Nat) : Prop :=
  match findRun d n (dirAddrs fs d dir) 0 0 with
  | some a => ∃ pre post, dirAddrs fs d dir = pre ++ slotsFrom a n ++ post
  | none => dir.isRootFixed = false →
    n ≤ fs.bytesPerCluster / 32 ∧ (chainOf fs d dir.cluster).length < maxVisits

/-- The place for `n` slots of a new name, from address `a` on, after the slot search. -/
structure HasRoom (fs : FatFs) (d d' : Disk) (dir : FatDir) (n a : Nat) (pre post : List Nat)
    (grow : Option (Nat × Nat)) : Prop where
  addrs : dirAddrs fs d' dir = pre ++ slotsFrom a n ++ post
  free : ∀ b ∈ slotsFrom a n, (slotAt d' b).isFree = true
  same : grow = none → d' = d ∧ findRun d n (dirAddrs fs d dir) 0 0 = some a
  grown : ∀ last g, grow = some (last, g) → Grown fs d d' dir last g ∧ pre = dirAddrs fs d dir ∧
    slotsFrom a n ++ post = clusSlots fs g ∧ findRun d n (dirAddrs fs d dir) 0 0 = none

section

variable {fs : FatFs} {d : Disk} (hs : fs.Sound) (env : Env) [env.NoFault]

include hs

omit [env.NoFault] in
theorem free_of_findRun {dir : FatDir} (hdir : IsDir fs d dir) {n a : Nat} (hn : 0 < n)
    {pre post : List Nat} (haddrs : dirAddrs fs d dir = pre ++ slotsFrom a n ++ post)
    (hrun : findRun d n (dirAddrs fs d dir) 0 0 = some a) :
    ∀ b ∈ slotsFrom a n, (slotAt d b).isFree = true := by
  obtain ⟨pre', run, post', heq, hlen, hhead, hfree⟩ := findRun_some (dirAddrs fs d dir) [] 0 a hn
    (by simp) (fun h => absurd rfl h) hrun
  obtain ⟨m, rfl⟩ : ∃ m, n = m + 1 := ⟨n - 1, by omega⟩
  have hnodup := nodup_dirAddrs hs hdir
  obtain ⟨run', rfl⟩ : ∃ run', run = a :: run' := by
    cases run with
    | nil => cases hhead
    | cons x run =>
      cases hhead
      exact ⟨run, rfl⟩
  rw [List.nil_append, haddrs, slotsFrom_succ] at heq
  rw [haddrs, slotsFrom_succ] at hnodup
  simp only [List.append_assoc, List.cons_append] at heq hnodup
  have hnot : a ∉ pre ∧ a ∉ slotsFrom (a + 32) m ++ post := by
    rw [List.nodup_append, List.nodup_cons] at hnodup
    exact ⟨fun hmem => hnodup.2.2 a hmem a (by simp) rfl, hnodup.2.1.1⟩
  obtain ⟨rfl, -, htail⟩ := (List.append_cons_inj_of_notMem hnot.1 hnot.2).mp heq
  have hrun' : slotsFrom (a + 32) m = run' := by
    refine (List.append_inj htail ?_).1
    rw [length_slotsFrom]
    simpa using hlen.symm
  rw [slotsFrom_succ, hrun']
  exact hfree

theorem scanRootDir_search (n : Nat) : SearchEnds
    (scanRootDir env fs (fun _ => d) (freeRunBody n) ⟨0, 0, 0, 0⟩)
    (findRun d n (rootAddrs fs) 0 0) := by
  rw [scanRootDir_eq hs env]
  exact scan_freeRunBody (rootAddrs fs) ⟨0, 0, 0, 0⟩ 0 fun h => absurd h (Nat.lt_irrefl 0)

theorem scanChain_search (n : Nat) {c : Nat} {L : List Nat} (hL : IsChain fs d (c :: L)) :
    SearchEnds (scanChain env fs (fun _ => d) (fun c r => { r with lastCluster := c })
      (freeRunBody n) maxVisits c ⟨0, 0, 0, 0⟩)
      (findRun d n (((c :: L).take maxVisits).flatMap (clusSlots fs)) 0 0) ∧
    ∀ r, scanChain env fs (fun _ => d) (fun c r => { r with lastCluster := c }) (freeRunBody n)
      maxVisits c ⟨0, 0, 0, 0⟩ = .next r →
        ((c :: L).take maxVisits).getLast? = some r.lastCluster := by
  rw [scanChain_eq hs env d (freeRunBody n) _ L maxVisits c _ hL]
  have hne : (c :: L).take maxVisits ≠ [] := by simp [maxVisits]
  generalize (c :: L).take maxVisits = Cs at hne ⊢
  have hsearch := scan_freeRunBody (d := d) (n := n) (Cs.flatMap (clusSlots fs)) ⟨0, 0, 0, 0⟩ 0
    fun h => absurd h (Nat.lt_irrefl 0)
  have hplain := scan_searchTurn fs d n Cs ⟨0, 0, 0, 0⟩
  refine ⟨?_, fun r hr => scan_searchTurn_last fs d n Cs _ r hr hne⟩
  dsimp only at hplain hsearch
  rw [← hplain] at hsearch
  change SearchEnds (scan (searchTurn fs d n) Cs ⟨0, 0, 0, 0⟩) _
  generalize scan (searchTurn fs d n) Cs ⟨0, 0, 0, 0⟩ = r at hsearch ⊢
  cases hfind : findRun d n (Cs.flatMap (clusSlots fs)) 0 0 with
  | some a =>
    rw [hfind] at hsearch
    cases r with
    | ret x => exact hsearch
    | next x => cases hsearch
    | stop x => cases hsearch
  | none =>
    rw [hfind] at hsearch
    obtain ⟨r', hr'⟩ := hsearch
    cases r with
    | ret x => cases hr'
    | next x => exact ⟨x, rfl⟩
    | stop x => cases hr'

theorem grown_of_alloc {dir : FatDir} (hfix : dir.isRootFixed = false) {L M : List Nat}
    {last g : Nat} (hL : IsChain fs d (dir.cluster :: L)) (hM : dir.cluster :: L = M ++ [last])
    (hg : fs.freeCluster? d = some g) :
    Grown fs d (writeCluster env fs (setFatEntry env fs (setEnt fs d g fs.eofVal) last g).2 g
      fun _ => 0).2 dir last g := by
  obtain ⟨hgr, hg0⟩ := freeCluster?_some hs hg
  have hlast := hL.inRange last (by rw [hM]; simp)
  have hscan : g < fs.scanLimit + 2 := by
    have := List.mem_of_find?_eq_some hg
    rw [List.mem_range'_1] at this
    omega
  rw [setFatEntry_eq hs env _ hlast, writeCluster_eq hs env _ hgr]
  refine ⟨hfix, ⟨L, M, hL, hM⟩, hgr, hg0, hscan, fun x hx => ?_, fun x hx => ?_, fun x hx hout => ?_⟩
  · have hmod : g % fs.entMod = g := Nat.mod_eq_of_lt
      (Nat.lt_trans (hs.lt_eofLimit hgr) fs.eofLimit_lt_entMod)
    rw [fatEnt_setClus hs _ hx.2, fatEnt_setEnt hs _ hx.2, fatEnt_setEnt hs _ hx.2, hmod,
      fs.eofVal_mod]
  · dsimp only
    rw [setClus_of_inCluster hx]
  · dsimp only
    rw [setClus_of_not hout, setEnt_frame hs _ hlast.2 _ hx, setEnt_frame hs _ hgr.2 _ hx]

/-- **The slot search** on a well-formed volume hands back the place for a new name. -/
theorem fatDirFindOrAllocLfnSlots_place {dir : FatDir} (hdir : IsDir fs d dir) {name : List UInt8}
    {n sec slot : Nat} {d' : Disk} (hn : 0 < n) (hroom : RoomOk fs d dir n)
    (h : fatDirFindOrAllocLfnSlots env fs d dir name n = (some (.place sec slot), d')) :
    fatDirFindEntry env fs d dir name = none ∧
      ∃ a pre post grow, sec = a / 512 ∧ slot = a % 512 / 32 ∧
        HasRoom fs d d' dir n a pre post grow := by
  unfold fatDirFindOrAllocLfnSlots at h
  split at h
  · simp at h
  · next hfind =>
    refine ⟨hfind, ?_⟩
    unfold RoomOk at hroom
    -- a run of free slots
    have hplace : ∀ a, findRun d n (dirAddrs fs d dir) 0 0 = some a →
        ∃ pre post, HasRoom fs d d dir n a pre post none := by
      intro a ha
      rw [ha] at hroom
      obtain ⟨pre, post, haddrs⟩ := hroom
      exact ⟨pre, post, haddrs, free_of_findRun hs hdir hn haddrs ha, fun _ => ⟨rfl, ha⟩,
        fun _ _ h => absurd h (by simp)⟩
    dsimp only at h
    cases hfix : dir.isRootFixed with
    | true =>
      have hsearch := scanRootDir_search (d := d) hs env n
      have haddrs : dirAddrs fs d dir = rootAddrs fs := by rw [dirAddrs, hfix, if_pos rfl]
      rw [hfix, if_pos rfl] at h
      rw [← haddrs] at hsearch
      cases hrun : findRun d n (dirAddrs fs d dir) 0 0 with
      | none =>
        rw [hrun] at hsearch
        obtain ⟨r, hr⟩ := hsearch
        rw [hr] at h
        simp at h
      | some a =>
        rw [hrun] at hsearch
        rw [show scanRootDir env fs (fun _ => d) (freeRunBody n) ⟨0, 0, 0, 0⟩ =
          .ret (a / 512, a % 512 / 32) from hsearch] at h
        simp only [Prod.mk.injEq, Option.some.injEq, SlotRef.place.injEq] at h
        obtain ⟨⟨rfl, rfl⟩, rfl⟩ := h
        obtain ⟨pre, post, hroom'⟩ := hplace a hrun
        exact ⟨a, pre, post, none, rfl, rfl, hroom'⟩
    | false =>
      obtain ⟨L, hL⟩ : HasChain fs d dir.cluster := by simpa [IsDir, hfix] using hdir
      have hguard : ¬ (dir.cluster < 2 ∨ fs.bytesPerCluster = 0) := by
        have h1 := hL.head_inRange.1
        have h2 := hs.bpc_pos
        omega
      obtain ⟨hsearch, hlast⟩ := scanChain_search hs env n hL
      rw [← dirAddrs_of_chain hs hfix hL] at hsearch
      rw [hfix, if_neg Bool.false_ne_true, if_neg hguard, kmallocOk_eq, Bool.not_true,
        if_neg Bool.false_ne_true] at h
      cases hrun : findRun d n (dirAddrs fs d dir) 0 0 with
      | some a =>
        rw [hrun] at hsearch
        rw [show scanChain env fs (fun _ => d) (fun c r => { r with lastCluster := c })
          (freeRunBody n) maxVisits dir.cluster ⟨0, 0, 0, 0⟩ =
          .ret (a / 512, a % 512 / 32) from hsearch] at h
        simp only [Prod.mk.injEq, Option.some.injEq, SlotRef.place.injEq] at h
        obtain ⟨⟨rfl, rfl⟩, rfl⟩ := h
        obtain ⟨pre, post, hroom'⟩ := hplace a hrun
        exact ⟨a, pre, post, none, rfl, rfl, hroom'⟩
      | none =>
        rw [hrun] at hsearch hroom
        obtain ⟨r, hr⟩ := hsearch
        obtain ⟨hfit, hlen⟩ := hroom hfix
        rw [hr] at h
        dsimp only at h
        rw [allocFreeCluster_eq hs env] at h
        cases hfree : fs.freeCluster? d with
        | none =>
          rw [hfree] at h
          simp at h
        | some g =>
          have hgr := (freeCluster?_some hs hfree).1
          obtain ⟨m, hm⟩ : ∃ m, g = m + 1 := ⟨g - 1, by have := hgr.1; omega⟩
          rw [hfree, hm] at h
          simp only [Prod.mk.injEq, Option.some.injEq, SlotRef.place.injEq, if_true] at h
          rw [← hm] at h
          obtain ⟨⟨rfl, rfl⟩, rfl⟩ := h
          have hlen' := hlen
          rw [chainOf_eq hs hL] at hlen'
          have hend := hlast r hr
          rw [List.take_of_length_le (by omega)] at hend
          obtain ⟨M, hM⟩ := List.getLast?_eq_some_iff.mp hend
          have hgrown := grown_of_alloc hs env hfix hL hM hfree
          have haddr : fs.clusAddr g = clusterSector fs g * 512 := (hs.clusterSector_addr hgr).symm
          -- the new cluster starts with the place
          obtain ⟨k, hk⟩ : ∃ k, fs.bytesPerCluster / 32 = n + k :=
            ⟨fs.bytesPerCluster / 32 - n, by omega⟩
          have hslots : clusSlots fs g = slotsFrom (fs.clusAddr g) n ++
              slotsFrom (fs.clusAddr g + 32 * n) k := by
            rw [clusSlots_eq, hk, slotsFrom_add]
          refine ⟨fs.clusAddr g, dirAddrs fs d dir, slotsFrom (fs.clusAddr g + 32 * n) k,
            some (r.lastCluster, g), by omega, by omega, ?_, ?_, fun h => absurd h (by simp), ?_⟩
          · rw [hgrown.dirAddrs_eq hs hlen, hslots, List.append_assoc]
          · intro b hb
            have hmem : b ∈ clusSlots fs g := by rw [hslots]; simp [hb]
            have hzero := hgrown.zero _ (inCluster_of_mem_clusSlots hmem (i := 0) (by omega))
            rw [Slot.isFree, Slot.isEnd, slotAt_of_lt (by omega), hzero]
            rfl
          · intro last g' heq
            simp only [Option.some.injEq, Prod.mk.injEq] at heq
            obtain ⟨rfl, rfl⟩ := heq
            exact ⟨hgrown, rfl, hslots.symm, hrun⟩

end

end Gemios
