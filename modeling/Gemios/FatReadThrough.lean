import Gemios.FatFaultsRead
import Mathlib.Data.List.Chain

/-!
# What `fat_read_file` returns when reads fail

The first clusters of a file's chain, as the FAT of the volume links them, and what the read
loop needs to come through them: every read of a cluster and of a link goes through, no
cluster links to itself, and a volume with 12-bit entries is not followed at all.  The loop
stops early in silence when one of these is missing.
-/

namespace Gemios

/-! ### The chain of a file -/

/-- A cluster of the volume that an entry can lead to. -/
def FatFs.DataCluster (fs : FatFs) (c : Nat) : Prop := fs.InRange c ∧ c < fs.eocMark

instance (fs : FatFs) (c : Nat) : Decidable (fs.DataCluster c) :=
  inferInstanceAs (Decidable (_ ∧ _))

def clusterData (fs : FatFs) (d : Disk) (c : Nat) : List UInt8 :=
  (List.range' 0 fs.bytesPerCluster).map fun i => d (clusterSector fs c * 512 + i)

theorem fatMount_sizes {env : Env} {bdev : Nat} {d : Disk} {fs : FatFs}
    (hm : fatMount env bdev d = some fs) : 0 < fs.sectorsPerCluster ∧ 0 < fs.bytesPerCluster ∧
      (fs.type = .fat12 ∨ fs.type = .fat16 ∨ fs.type = .fat32) := by
  obtain ⟨-, total, H⟩ := fatMount_fields hm
  refine ⟨H.spc.1, ?_, ?_⟩
  · rw [H.bpc]
    exact Nat.mul_pos (by have := H.bps; omega) H.spc.1
  · rw [H.type]
    split
    · exact Or.inl rfl
    · split
      · exact Or.inr (Or.inl rfl)
      · exact Or.inr (Or.inr rfl)

/-- The first clusters of the chain that begins with `c`. -/
def Chained (fs : FatFs) (d : Disk) : (c : Nat) → List Nat → Prop
  | _, [] => True
  | c, x :: L => x = c ∧ fs.DataCluster x ∧ Chained fs d (fs.tableEnt d x) L

/-- The first bytes of the chain that begins with `c`. -/
def ChainHolds (fs : FatFs) (d : Disk) (c : Nat) (bs : List UInt8) : Prop :=
  ∃ L, Chained fs d c L ∧ bs <+: L.flatMap (clusterData fs d)

/-- The first `len` bytes of the chain end in the last of the clusters. -/
def Covers (fs : FatFs) (L : List Nat) (len : Nat) : Prop :=
  (L.length - 1) * fs.bytesPerCluster < len ∧ len ≤ L.length * fs.bytesPerCluster

instance (fs : FatFs) (L : List Nat) (len : Nat) : Decidable (Covers fs L len) :=
  inferInstanceAs (Decidable (_ ∧ _))

/-- The read loop comes through these clusters: the reads of the clusters and of the links
    between them go through. -/
structure ReadsOk (fs : FatFs) (fails : Nat → Bool) (L : List Nat) : Prop where
  served : ∀ j, j < 2 * L.length - 1 → fails j = false
  linked : 2 ≤ L.length → fs.type ≠ .fat12
  moves : L.IsChain (· ≠ ·)

/-- The first `len` bytes of the chain that begins with `c` are read through. -/
def ReadsThrough (fs : FatFs) (w : Flaky Disk) (c len : Nat) : Prop :=
  len = 0 ∨ ∃ L, Chained fs w.dev c L ∧ Covers fs L len ∧ L.length ≤ maxVisits ∧
    ReadsOk fs w.fails L

/-- What `fat_read_file` is to return of a file. -/
def Complete (fs : FatFs) (d : Disk) (e : Slot) (maxLen : Nat) (bs : List UInt8) : Prop :=
  bs.length = min e.fileSize maxLen ∧ ChainHolds fs d e.cluster bs

theorem length_clusterData (fs : FatFs) (d : Disk) (c : Nat) :
    (clusterData fs d c).length = fs.bytesPerCluster := by
  simp [clusterData]

theorem length_chainData (fs : FatFs) (d : Disk) (L : List Nat) :
    (L.flatMap (clusterData fs d)).length = L.length * fs.bytesPerCluster := by
  induction L with
  | nil => simp
  | cons c L ih =>
    rw [List.flatMap_cons, List.length_append, length_clusterData, ih, List.length_cons,
      Nat.add_mul, Nat.one_mul, Nat.add_comm]

theorem Chained.take {fs : FatFs} {d : Disk} : ∀ {L : List Nat} {c : Nat}, Chained fs d c L →
    ∀ n, Chained fs d c (L.take n) := by
  intro L
  induction L with
  | nil =>
    intro c _ n
    rw [List.take_nil]
    trivial
  | cons x L ih =>
    intro c h n
    cases n with
    | zero => trivial
    | succ n => exact ⟨h.1, h.2.1, ih h.2.2 n⟩

theorem FatFs.eocMark_le (fs : FatFs) : fs.eocMark ≤ fs.eofLimit := by
  have h := fs.le_eofLimit
  unfold FatFs.eocMark
  split
  · omega
  · exact Nat.le_refl _

theorem FatFs.DataCluster.bounds {fs : FatFs} {c : Nat} (h : fs.DataCluster c) :
    2 ≤ c ∧ c < fs.eofLimit := ⟨h.1.1, Nat.lt_of_lt_of_le h.2 fs.eocMark_le⟩

namespace Faulty

/-! ### One turn of the loop -/

section

variable {fs : FatFs}

/-- A link that is read is the entry of the FAT, unless it leads nowhere. -/
def follow (fs : FatFs) (d : Disk) (c : Nat) : Nat :=
  let next := fs.tableEnt d c
  if next < 2 ∨ next ≥ fs.eofLimit ∨ next = c then noCluster else next

theorem getNextCluster_link (ht : fs.type = .fat16 ∨ fs.type = .fat32)
    (hbps : fs.bytesPerSector = 512) {c : Nat} (hc : fs.DataCluster c) (w : Flaky Disk) :
    (getNextCluster fs c).flaky w =
      (if w.fails 0 then noCluster else follow fs w.dev c, w.looked) := by
  have hlt : c < 1073741824 := by
    have h1 := hc.bounds.2
    have h2 := fs.eofLimit_le
    omega
  have hpos := fatEntryPos_table ht hbps hlt
  have hent := tableEnt_eq ht w.dev c
  rw [getNextCluster, if_neg (Nat.not_lt.mpr hc.bounds.1)]
  rcases ht with ht | ht
  all_goals
    simp only [FatFs.entSize, entGet, ht, reduceCtorEq, if_true, if_false] at hpos hent
    simp only [ht, hpos]
    rw [Prog.flaky_bind, bdevRead_flaky]
    cases w.fails 0 with
    | true => rfl
    | false =>
      simp only [Bool.false_eq_true, if_false, follow, hent, FatFs.eofLimit, ht, reduceCtorEq,
        if_true]
      rfl

theorem getNextCluster_fat12 (ht : fs.type = .fat12) {c : Nat} (hc : 2 ≤ c) (w : Flaky Disk) :
    (getNextCluster fs c).flaky w = (noCluster, w) := by
  rw [getNextCluster, if_neg (Nat.not_lt.mpr hc), ht]
  rfl

theorem readLoop_noCluster (toRead visits : Nat) (acc : List UInt8) (w : Flaky Disk) :
    (readLoop fs toRead visits noCluster acc).flaky w = (acc, w) := by
  cases visits with
  | zero => rfl
  | succ visits =>
    rw [readLoop, if_neg fun h => noCluster_not_lt fs h.2.1]
    rfl

variable (hspc : 0 < fs.sectorsPerCluster) (hbpc : 0 < fs.bytesPerCluster)

include hspc hbpc

theorem readLoop_turn {toRead c : Nat} {acc : List UInt8} (hc : fs.DataCluster c)
    (hacc : acc.length < toRead) (visits : Nat) {w : Flaky Disk} (hread : w.fails 0 = false) :
    ((readLoop fs toRead (visits + 1) c acc).flaky w).1 =
      let acc' := acc ++ (clusterData fs w.dev c).take (toRead - acc.length)
      let next := (getNextCluster fs c).flaky w.looked
      if acc'.length ≥ toRead then acc'
      else if next.1 = c ∨ next.1 < 2 then acc'
      else ((readLoop fs toRead visits next.1 acc').flaky next.2).1 := by
  have hchunk : ¬ min fs.bytesPerCluster (toRead - acc.length) = 0 := by omega
  have htake : (List.range' 0 (min fs.bytesPerCluster (toRead - acc.length))).map
      (fun i => w.dev (clusterSector fs c * 512 + i)) =
        (clusterData fs w.dev c).take (toRead - acc.length) := by
    rw [clusterData, ← List.map_take]
    rcases Nat.le_total fs.bytesPerCluster (toRead - acc.length) with h | h
    · rw [Nat.min_eq_left h, List.take_range'_of_length_le h]
    · rw [Nat.min_eq_right h, List.take_range'_of_length_ge h]
  rw [readLoop, if_pos ⟨hc.bounds.1, hc.bounds.2, hacc⟩, readCluster,
    if_neg (by have := hc.bounds.1; omega), Prog.flaky_bind, bdevRead_flaky, hread]
  simp only [Bool.false_eq_true, if_false, if_neg hchunk, htake]
  split
  · rfl
  · rw [Prog.flaky_bind]
    split
    · rfl
    · rfl

theorem readLoop_last {toRead c : Nat} {acc : List UInt8} (hc : fs.DataCluster c)
    (hacc : acc.length < toRead) (hlast : toRead - acc.length ≤ fs.bytesPerCluster) (visits : Nat)
    {w : Flaky Disk} (hread : w.fails 0 = false) :
    ((readLoop fs toRead (visits + 1) c acc).flaky w).1 =
      acc ++ (clusterData fs w.dev c).take (toRead - acc.length) := by
  rw [readLoop_turn hspc hbpc hc hacc visits hread]
  have hlen : (acc ++ (clusterData fs w.dev c).take (toRead - acc.length)).length ≥ toRead := by
    rw [List.length_append, List.length_take, length_clusterData]
    omega
  exact if_pos hlen

/-- A cluster with another one behind it: the loop goes on there when the link is read. -/
theorem readLoop_link (hbps : fs.bytesPerSector = 512)
    (htype : fs.type = .fat12 ∨ fs.type = .fat16 ∨ fs.type = .fat32) {toRead c c' : Nat}
    {acc : List UInt8} (hc : fs.DataCluster c) (hc' : fs.DataCluster c')
    (hmore : acc.length + fs.bytesPerCluster < toRead) (visits : Nat) {w : Flaky Disk}
    (hnext : fs.tableEnt w.dev c = c') (hread : w.fails 0 = false) :
    ((readLoop fs toRead (visits + 1) c acc).flaky w).1 =
      if w.fails 1 = false ∧ fs.type ≠ .fat12 ∧ c ≠ c' then
        ((readLoop fs toRead visits c' (acc ++ clusterData fs w.dev c)).flaky w.looked.looked).1
      else acc ++ clusterData fs w.dev c := by
  have htake : (clusterData fs w.dev c).take (toRead - acc.length) = clusterData fs w.dev c :=
    List.take_of_length_le (by rw [length_clusterData]; omega)
  have hlen : ¬ (acc ++ clusterData fs w.dev c).length ≥ toRead := by
    rw [List.length_append, length_clusterData]
    omega
  rw [readLoop_turn hspc hbpc hc (by omega) visits hread]
  simp only [htake, if_neg hlen]
  rcases htype with h12 | h1632
  · rw [getNextCluster_fat12 h12 hc.bounds.1, readLoop_noCluster, ite_self,
      if_neg fun h => h.2.1 h12]
  · rw [getNextCluster_link h1632 hbps hc]
    cases hlink : w.fails 1 with
    | true =>
      have hlink' : w.looked.fails 0 = true := hlink
      simp only [hlink', if_true, readLoop_noCluster, ite_self, reduceCtorEq, false_and, if_false]
    | false =>
      have hlink' : w.looked.fails 0 = false := hlink
      have hfollow : follow fs w.looked.dev c = if c' = c then noCluster else c' := by
        have hbounds := hc'.bounds
        rw [follow, Flaky.looked_dev, hnext]
        by_cases heq : c' = c
        · rw [if_pos (Or.inr (Or.inr heq)), if_pos heq]
        · rw [if_neg (by omega), if_neg heq]
      simp only [hlink', Bool.false_eq_true, if_false, hfollow, true_and]
      by_cases heq : c' = c
      · rw [if_pos heq, readLoop_noCluster, ite_self, if_neg fun h => h.2 heq.symm]
      · have hbounds := hc'.bounds
        rw [if_neg heq, if_neg (by omega), if_pos ⟨not_fat12 h1632, Ne.symm heq⟩]

omit hbpc in
theorem readLoop_turn_failed {toRead c : Nat} {acc : List UInt8} (hc : fs.DataCluster c)
    (hacc : acc.length < toRead) (visits : Nat) {w : Flaky Disk} (hread : w.fails 0 = true) :
    ((readLoop fs toRead (visits + 1) c acc).flaky w).1 = acc := by
  rw [readLoop, if_pos ⟨hc.bounds.1, hc.bounds.2, hacc⟩, readCluster,
    if_neg (by have := hc.bounds.1; omega), Prog.flaky_bind, bdevRead_flaky, hread]
  rfl

end

/-! ### The loop -/

section

variable {fs : FatFs}

theorem readsOk_singleton (fails : Nat → Bool) (c : Nat) :
    ReadsOk fs fails [c] ↔ fails 0 = false := by
  constructor
  · intro h
    exact h.served 0 (by simp)
  · intro h
    refine ⟨fun j hj => ?_, fun hlen => ?_, List.isChain_singleton c⟩
    · rw [List.length_singleton] at hj
      obtain rfl : j = 0 := by omega
      exact h
    · rw [List.length_singleton] at hlen
      omega

theorem readsOk_cons (fails : Nat → Bool) (c c' : Nat) (L : List Nat) :
    ReadsOk fs fails (c :: c' :: L) ↔
      (fails 0 = false ∧ fails 1 = false ∧ fs.type ≠ .fat12 ∧ c ≠ c') ∧
        ReadsOk fs (fun n => fails (n + 2)) (c' :: L) := by
  have hlen : (c :: c' :: L).length = L.length + 2 := rfl
  have hlen' : (c' :: L).length = L.length + 1 := rfl
  constructor
  · intro h
    have hmoves := List.isChain_cons_cons.mp h.moves
    refine ⟨⟨h.served 0 (by omega), h.served 1 (by omega), h.linked (by omega), hmoves.1⟩,
      fun j hj => h.served (j + 2) (by omega), fun _ => h.linked (by omega), hmoves.2⟩
  · rintro ⟨⟨h0, h1, htype, hne⟩, h⟩
    refine ⟨fun j hj => ?_, fun _ => htype, List.isChain_cons_cons.mpr ⟨hne, h.moves⟩⟩
    match j with
    | 0 => exact h0
    | 1 => exact h1
    | j + 2 => exact h.served j (by omega)

variable (hbps : fs.bytesPerSector = 512) (hspc : 0 < fs.sectorsPerCluster)
  (hbpc : 0 < fs.bytesPerCluster)
  (htype : fs.type = .fat12 ∨ fs.type = .fat16 ∨ fs.type = .fat32)

include hbps hspc hbpc htype

/-- A loop that is to return `full`, of length `n`, does so exactly when `P`, and otherwise
    returns less. -/
structure EndsIn (out full : List UInt8) (n : Nat) (P : Prop) : Prop where
  iff : out.length = n ↔ P
  bytes : out.length = n → out = full

omit hbps hspc hbpc htype in
theorem EndsIn.of_short {out full : List UInt8} {n : Nat} {P : Prop} (h : out.length < n)
    (hP : ¬ P) : EndsIn out full n P :=
  ⟨⟨fun heq => absurd heq (Nat.ne_of_lt h), fun hp => absurd hp hP⟩,
    fun heq => absurd heq (Nat.ne_of_lt h)⟩

/-- **The read loop** over the clusters that hold what is asked for: it returns all of it
    exactly when it comes through them, and then their bytes. -/
theorem readLoop_endsIn {toRead : Nat} : ∀ (L : List Nat) (visits c : Nat) (acc : List UInt8)
    (w : Flaky Disk), Chained fs w.dev c L → acc.length < toRead →
    Covers fs L (toRead - acc.length) →
    EndsIn ((readLoop fs toRead visits c acc).flaky w).1
      (acc ++ (L.flatMap (clusterData fs w.dev)).take (toRead - acc.length)) toRead
      (L.length ≤ visits ∧ ReadsOk fs w.fails L) := by
  intro L
  induction L with
  | nil =>
    intro visits c acc w _ hacc hcov
    have hzero := hcov.2
    rw [List.length_nil, Nat.zero_mul] at hzero
    omega
  | cons x L ih =>
    intro visits c acc w hL hacc hcov
    obtain ⟨rfl, hx, hrest⟩ := hL
    have hlen : (x :: L).length = L.length + 1 := rfl
    cases visits with
    | zero => exact EndsIn.of_short hacc fun h => by omega
    | succ visits =>
      cases hread : w.fails 0 with
      | true =>
        refine EndsIn.of_short ?_ fun h => ?_
        · rw [readLoop_turn_failed hspc hx hacc visits hread]
          exact hacc
        · rw [h.2.served 0 (by omega)] at hread
          cases hread
      | false =>
        cases L with
        | nil =>
          have hup := hcov.2
          rw [List.length_singleton, Nat.one_mul] at hup
          rw [readLoop_last hspc hbpc hx hacc hup visits hread, List.flatMap_singleton]
          refine ⟨?_, fun _ => rfl⟩
          rw [List.length_append, List.length_take, length_clusterData, readsOk_singleton]
          exact ⟨fun _ => ⟨Nat.succ_le_succ (Nat.zero_le _), hread⟩, fun _ => by omega⟩
        | cons y L =>
          obtain ⟨hy, hdata, hrest⟩ := hrest
          have hlen' : (y :: L).length = L.length + 1 := rfl
          have hlow : (L.length + 1) * fs.bytesPerCluster < toRead - acc.length := hcov.1
          have hup := hcov.2
          rw [hlen, hlen'] at hup
          rw [Nat.add_mul, Nat.one_mul] at hlow
          rw [Nat.add_mul, Nat.add_mul, Nat.one_mul] at hup
          rw [readLoop_link hspc hbpc hbps htype hx hdata (by omega) visits hy.symm hread]
          have hacc' : (acc ++ clusterData fs w.dev x).length =
              acc.length + fs.bytesPerCluster := by
            rw [List.length_append, length_clusterData]
          by_cases hlink : w.fails 1 = false ∧ fs.type ≠ .fat12 ∧ x ≠ y
          · rw [if_pos hlink]
            have hcov' : Covers fs (y :: L) (toRead - (acc.length + fs.bytesPerCluster)) := by
              refine ⟨?_, ?_⟩
              · rw [hlen', Nat.add_sub_cancel]
                omega
              · rw [hlen', Nat.add_mul, Nat.one_mul]
                omega
            have hrec := ih visits y (acc ++ clusterData fs w.dev x) w.looked.looked
              ⟨rfl, hdata, hrest⟩ (by omega) (hacc' ▸ hcov')
            refine ⟨hrec.iff.trans ?_, fun h => (hrec.bytes h).trans ?_⟩
            · rw [readsOk_cons]
              constructor
              · rintro ⟨hvis, hok⟩
                exact ⟨by omega, ⟨hread, hlink⟩, hok⟩
              · rintro ⟨hvis, _, hok⟩
                exact ⟨by omega, hok⟩
            · have hsub : toRead - (acc.length + fs.bytesPerCluster) =
                  toRead - acc.length - fs.bytesPerCluster := by omega
              have hfull : (clusterData fs w.dev x).take (toRead - acc.length) =
                  clusterData fs w.dev x :=
                List.take_of_length_le (by rw [length_clusterData]; omega)
              rw [List.flatMap_cons (x := x), List.take_append, hfull, length_clusterData, hacc',
                hsub, List.append_assoc]
              rfl
          · rw [if_neg hlink]
            refine EndsIn.of_short (by omega) fun h => ?_
            exact hlink ((readsOk_cons w.fails x y L).mp h.2).1.2

/-! ### The contents of a file -/

omit hbps hspc htype in
theorem covers_of_chainHolds {d : Disk} {c : Nat} {bs : List UInt8} (h : ChainHolds fs d c bs)
    (hpos : 0 < bs.length) : ∃ L, Chained fs d c L ∧ Covers fs L bs.length := by
  obtain ⟨L, hL, hbs⟩ := h
  have hle : bs.length ≤ L.length * fs.bytesPerCluster := by
    rw [← length_chainData fs d L]
    exact hbs.length_le
  -- as many clusters as the bytes need
  have hneed : ((bs.length - 1) / fs.bytesPerCluster + 1) ≤ L.length := by
    have hdiv := (Nat.div_lt_iff_lt_mul hbpc).mpr (show bs.length - 1 < L.length * fs.bytesPerCluster by
      omega)
    omega
  refine ⟨L.take ((bs.length - 1) / fs.bytesPerCluster + 1), hL.take _, ?_⟩
  have hmod := Nat.div_add_mod (bs.length - 1) fs.bytesPerCluster
  have hlt := Nat.mod_lt (bs.length - 1) hbpc
  rw [Covers, List.length_take, Nat.min_eq_left hneed, Nat.add_sub_cancel, Nat.add_mul,
    Nat.one_mul, Nat.mul_comm]
  omega

/-- **All bytes are returned** exactly when the chain is read through, if it has as many. -/
theorem readLoop_length_iff {bs : List UInt8} {c : Nat} {w : Flaky Disk}
    (hbs : ChainHolds fs w.dev c bs) (hpos : 0 < bs.length) :
    ((readLoop fs bs.length maxVisits c []).flaky w).1.length = bs.length ↔
      ReadsThrough fs w c bs.length := by
  constructor
  · intro hlen
    obtain ⟨L, hL, hcov⟩ := covers_of_chainHolds hbpc hbs hpos
    have hends := readLoop_endsIn hbps hspc hbpc htype L maxVisits c [] w hL hpos hcov
    obtain ⟨hvis, hok⟩ := hends.iff.mp hlen
    exact Or.inr ⟨L, hL, hcov, hvis, hok⟩
  · rintro (hzero | ⟨L, hL, hcov, hvis, hok⟩)
    · omega
    · exact (readLoop_endsIn hbps hspc hbpc htype L maxVisits c [] w hL hpos hcov).iff.mpr ⟨hvis, hok⟩

/-- **What the loop returns is complete** exactly when the chain is read through. -/
theorem readLoop_complete_iff {len c : Nat} (hpos : 0 < len) (w : Flaky Disk) :
    (((readLoop fs len maxVisits c []).flaky w).1.length = len ∧
      ChainHolds fs w.dev c ((readLoop fs len maxVisits c []).flaky w).1) ↔
        ReadsThrough fs w c len := by
  constructor
  · rintro ⟨hlen, hholds⟩
    have hiff := readLoop_length_iff hbps hspc hbpc htype hholds (by omega)
    rw [hlen] at hiff
    exact hiff.mp hlen
  · rintro (hzero | ⟨L, hL, hcov, hvis, hok⟩)
    · omega
    · have hends := readLoop_endsIn hbps hspc hbpc htype L maxVisits c [] w hL hpos hcov
      have hlen := hends.iff.mpr ⟨hvis, hok⟩
      refine ⟨hlen, L, hL, ?_⟩
      rw [hends.bytes hlen]
      exact List.take_prefix _ _

omit hbps hspc hbpc htype in
theorem chainHolds_nil (d : Disk) (c : Nat) : ChainHolds fs d c [] :=
  ⟨[], trivial, List.nil_prefix⟩

omit hbps hspc hbpc htype in
theorem two_le_of_readsThrough {w : Flaky Disk} {c len : Nat} (h : ReadsThrough fs w c len)
    (hpos : 0 < len) : 2 ≤ c := by
  obtain ⟨L, hL, hcov, _⟩ := h.resolve_left (Nat.ne_of_gt hpos)
  cases L with
  | nil =>
    have hup := hcov.2
    rw [List.length_nil, Nat.zero_mul] at hup
    omega
  | cons x L => exact hL.1 ▸ hL.2.1.bounds.1

/-- **The part of `fat_read_file` after the lookup.**  When it reports success, the bytes are
    the first ones of the file exactly when the file's chain is read through. -/
theorem readContents_complete_iff {e : Slot} {maxLen : Nat} {bs : List UInt8} {w : Flaky Disk}
    (h : ((readContents fs e maxLen).flaky w).1 = some bs) :
    Complete fs w.dev e maxLen bs ↔ ReadsThrough fs w e.cluster (min e.fileSize maxLen) := by
  unfold readContents at h
  unfold Complete
  split at h
  · cases h
  · dsimp only at h
    generalize min e.fileSize maxLen = len at h ⊢
    split at h
    · next hor =>
      obtain rfl := Option.some.inj h
      constructor
      · rintro ⟨hlen, _⟩
        exact Or.inl hlen.symm
      · intro hread
        rcases Nat.eq_zero_or_pos len with hzero | hpos
        · exact ⟨hzero.symm, chainHolds_nil _ _⟩
        · have := two_le_of_readsThrough hread hpos
          omega
    · next hor =>
      have hpos : 0 < len := by omega
      rw [if_neg (Nat.ne_of_gt hbpc), Prog.flaky_bind, kmallocOk, Prog.flaky_alloc] at h
      dsimp only at h
      split at h
      · cases h
      · rw [Prog.flaky_map] at h
        obtain rfl := Option.some.inj h
        exact readLoop_complete_iff hbps hspc hbpc htype hpos w.asked

theorem readContents_length_iff {e : Slot} {maxLen : Nat} {bs full : List UInt8} {w : Flaky Disk}
    (hfull : ChainHolds fs w.dev e.cluster full) (hlen : full.length = min e.fileSize maxLen)
    (h : ((readContents fs e maxLen).flaky w).1 = some bs) :
    bs.length = min e.fileSize maxLen ↔ ReadsThrough fs w e.cluster (min e.fileSize maxLen) := by
  constructor
  · intro hbs
    unfold readContents at h
    split at h
    · cases h
    · dsimp only at h
      rw [← hlen] at h hbs ⊢
      split at h
      · next hor =>
        obtain rfl := Option.some.inj h
        exact Or.inl hbs.symm
      · next hor =>
        have hpos : 0 < full.length := by omega
        rw [if_neg (Nat.ne_of_gt hbpc), Prog.flaky_bind, kmallocOk, Prog.flaky_alloc] at h
        dsimp only at h
        split at h
        · cases h
        · rw [Prog.flaky_map] at h
          obtain rfl := Option.some.inj h
          have hiff := readLoop_length_iff (w := w.asked) hbps hspc hbpc htype hfull hpos
          exact hiff.mp hbs
  · intro hread
    exact ((readContents_complete_iff hbps hspc hbpc htype h).mpr hread).1

end

/-! ### The number of bytes -/

theorem length_readLoop_le (fs : FatFs) (toRead : Nat) : ∀ (visits c : Nat) (acc : List UInt8)
    (w : Flaky Disk), acc.length ≤ toRead →
    ((readLoop fs toRead visits c acc).flaky w).1.length ≤ toRead := by
  intro visits
  induction visits with
  | zero =>
    intro c acc w hacc
    exact hacc
  | succ visits ih =>
    intro c acc w hacc
    rw [readLoop]
    split
    · rw [Prog.flaky_bind]
      cases ((readCluster fs c).flaky w).1 with
      | none => exact hacc
      | some buf =>
        dsimp only
        split
        · exact hacc
        · have hacc' : (acc ++ (List.range' 0 (min fs.bytesPerCluster (toRead - acc.length))).map
              buf).length ≤ toRead := by
            rw [List.length_append, List.length_map, List.length_range']
            omega
          split
          · exact hacc'
          · rw [Prog.flaky_bind]
            split
            · exact hacc'
            · exact ih _ _ _ hacc'
    · exact hacc

theorem length_readContents_le {fs : FatFs} {e : Slot} {maxLen : Nat} {bs : List UInt8}
    {w : Flaky Disk} (h : ((readContents fs e maxLen).flaky w).1 = some bs) :
    bs.length ≤ min e.fileSize maxLen := by
  unfold readContents at h
  split at h
  · cases h
  · dsimp only at h
    split at h
    · obtain rfl := Option.some.inj h
      exact Nat.zero_le _
    · split at h
      · cases h
      · rw [Prog.flaky_bind] at h
        split at h
        · cases h
        · rw [Prog.flaky_map] at h
          obtain rfl := Option.some.inj h
          exact length_readLoop_le fs _ _ _ _ _ (Nat.zero_le _)

end Faulty

end Gemios
