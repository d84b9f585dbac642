import Gemios.FatTableSpec
import Gemios.FatFile
import Gemios.Chain
import Mathlib.Data.Finset.Card
import Mathlib.Order.Interval.Finset.Nat

/-!
# Cluster chains, and what the read and the write loop do with them

A well-formed chain is a duplicate-free list of data clusters linked by their FAT
entries up to an end-of-chain mark.  The read loop returns the bytes of the chain
in order; the write loop reuses the chain it is given, extends it with free
clusters when it is too short, cuts it when it is too long, and leaves every other
FAT entry and every other cluster alone.
-/

namespace Gemios

structure IsChain (fs : FatFs) (d : Disk) (L : List Nat) : Prop where
  inRange : ∀ c ∈ L, fs.InRange c
  nodup : L.Nodup
  linked : Linked (fs.fatEnt d) (fs.eofLimit ≤ ·) L

/-- The clusters reached from `c`, at most `n` of them. -/
def chainFrom (fs : FatFs) (d : Disk) : (n c : Nat) → List Nat
  | 0, _ => []
  | n + 1, c =>
    if fs.InRange c then
      c :: if fs.eofLimit ≤ fs.fatEnt d c then [] else chainFrom fs d n (fs.fatEnt d c)
    else []

/-- The chain that starts at a first-cluster number (none for 0). -/
def chainOf (fs : FatFs) (d : Disk) (c : Nat) : List Nat := chainFrom fs d fs.totalClusters c

/-- The first-cluster number leads to a well-formed chain. -/
def HasChain (fs : FatFs) (d : Disk) (c : Nat) : Prop := ∃ L, IsChain fs d (c :: L)

theorem chainOf_of_lt {fs : FatFs} {d : Disk} {c : Nat} (hc : c < 2) : chainOf fs d c = [] := by
  have h : ¬ fs.InRange c := fun h => absurd h.1 (by omega)
  unfold chainOf
  cases fs.totalClusters with
  | zero => rfl
  | succ n => rw [chainFrom, if_neg h]

theorem noCluster_not_lt (fs : FatFs) : ¬ noCluster < fs.eofLimit := by
  have := fs.eofLimit_le
  unfold noCluster
  omega

def clusBytes (fs : FatFs) (d : Disk) (c : Nat) : List UInt8 :=
  (List.range' 0 fs.bytesPerCluster).map fun i => d (fs.clusAddr c + i)

def chainBytes (fs : FatFs) (d : Disk) (L : List Nat) : List UInt8 := L.flatMap (clusBytes fs d)

@[simp] theorem length_clusBytes (fs : FatFs) (d : Disk) (c : Nat) :
    (clusBytes fs d c).length = fs.bytesPerCluster := by
  simp [clusBytes]

@[simp] theorem chainBytes_nil (fs : FatFs) (d : Disk) : chainBytes fs d [] = [] := rfl

@[simp] theorem chainBytes_cons (fs : FatFs) (d : Disk) (c : Nat) (L : List Nat) :
    chainBytes fs d (c :: L) = clusBytes fs d c ++ chainBytes fs d L := rfl

section

variable {fs : FatFs}

theorem clusBytes_congr {d d' : Disk} {c : Nat} (h : ∀ a, fs.InCluster c a → d' a = d a) :
    clusBytes fs d' c = clusBytes fs d c := by
  refine List.map_congr_left fun i hi => h _ ?_
  rw [List.mem_range'_1] at hi
  exact ⟨Nat.le_add_right _ _, by omega⟩

theorem chainBytes_congr {d d' : Disk} {L : List Nat}
    (h : ∀ c ∈ L, ∀ a, fs.InCluster c a → d' a = d a) :
    chainBytes fs d' L = chainBytes fs d L := by
  induction L with
  | nil => rfl
  | cons c L ih =>
    rw [chainBytes_cons, chainBytes_cons, clusBytes_congr (h c (by simp)),
      ih fun x hx => h x (by simp [hx])]

theorem clusBytes_setClus (d : Disk) (c : Nat) (buf : Buf) :
    clusBytes fs (setClus fs d c buf) c = (List.range' 0 fs.bytesPerCluster).map buf := by
  refine List.map_congr_left fun i hi => ?_
  rw [List.mem_range'_1] at hi
  rw [setClus_of_inCluster ⟨Nat.le_add_right _ _, by omega⟩, Nat.add_sub_cancel_left]

variable {d : Disk}

theorem IsChain.tail {c : Nat} {L : List Nat} (h : IsChain fs d (c :: L)) : IsChain fs d L where
  inRange x hx := h.inRange x (by simp [hx])
  nodup := (List.nodup_cons.mp h.nodup).2
  linked := h.linked.tail

theorem IsChain.head_inRange {c : Nat} {L : List Nat} (h : IsChain fs d (c :: L)) :
    fs.InRange c := h.inRange c (by simp)

theorem IsChain.head_ne {c c' : Nat} {L : List Nat} (h : IsChain fs d (c :: c' :: L)) :
    c' ≠ c := by
  rintro rfl
  exact (List.nodup_cons.mp h.nodup).1 (by simp)

theorem IsChain.congr {d' : Disk} {L : List Nat} (h : IsChain fs d L)
    (heq : ∀ c ∈ L, fs.fatEnt d' c = fs.fatEnt d c) : IsChain fs d' L where
  inRange := h.inRange
  nodup := h.nodup
  linked := h.linked.congr heq

theorem IsChain.fatEnt_ne_zero {L : List Nat} (h : IsChain fs d L) :
    ∀ c ∈ L, fs.fatEnt d c ≠ 0 := by
  induction L with
  | nil => intro c hc; cases hc
  | cons x L ih =>
    intro c hc
    rcases List.mem_cons.mp hc with rfl | hc
    · cases L with
      | nil =>
        have h1 : fs.eofLimit ≤ fs.fatEnt d c := h.linked
        have h2 := fs.le_eofLimit
        omega
      | cons y L =>
        have h1 : fs.fatEnt d c = y := h.linked.1
        have h2 := (h.inRange y (by simp)).1
        omega
    · exact ih h.tail c hc

variable (hs : fs.Sound)

include hs

omit hs in
theorem IsChain.length_le {L : List Nat} (h : IsChain fs d L) : L.length ≤ fs.totalClusters := by
  have hsub : L.toFinset ⊆ Finset.Ico 2 (fs.totalClusters + 2) := by
    intro c hc
    have := h.inRange c (List.mem_toFinset.mp hc)
    exact Finset.mem_Ico.mpr ⟨this.1, this.2⟩
  calc L.length = L.toFinset.card := (List.toFinset_card_of_nodup h.nodup).symm
    _ ≤ (Finset.Ico 2 (fs.totalClusters + 2)).card := Finset.card_le_card hsub
    _ = fs.totalClusters := by rw [Nat.card_Ico]; omega

theorem chainFrom_eq : ∀ (L : List Nat) (n c : Nat), IsChain fs d (c :: L) →
    chainFrom fs d n c = (c :: L).take n := by
  intro L
  induction L with
  | nil =>
    intro n c h
    cases n with
    | zero => rfl
    | succ n =>
      rw [chainFrom, if_pos h.head_inRange, if_pos (show fs.eofLimit ≤ fs.fatEnt d c from h.linked)]
      simp
  | cons c' L ih =>
    intro n c h
    cases n with
    | zero => rfl
    | succ n =>
      have hent : fs.fatEnt d c = c' := h.linked.1
      have hlt := hs.lt_eofLimit (h.inRange c' (by simp))
      rw [chainFrom, if_pos h.head_inRange, hent, if_neg (Nat.not_le.mpr hlt), ih n c' h.tail,
        List.take_succ_cons]

theorem chainOf_eq {c : Nat} {L : List Nat} (h : IsChain fs d (c :: L)) :
    chainOf fs d c = c :: L := by
  rw [chainOf, chainFrom_eq hs L _ c h, List.take_of_length_le h.length_le]

variable (env : Env) [env.NoFault]

theorem getNextCluster_cons {c c' : Nat} {L : List Nat} (h : IsChain fs d (c :: c' :: L)) :
    getNextCluster env fs d c = c' := by
  have hc' := h.inRange c' (by simp)
  have hent : fs.fatEnt d c = c' := h.linked.1
  have hne := h.head_ne
  have hlt := hs.lt_eofLimit hc'
  rw [getNextCluster_eq hs env d h.head_inRange, hent, if_neg]
  have := hc'.1
  omega

theorem getNextCluster_last {c : Nat} (h : IsChain fs d [c]) :
    getNextCluster env fs d c = noCluster := by
  have hent : fs.eofLimit ≤ fs.fatEnt d c := h.linked
  rw [getNextCluster_eq hs env d h.head_inRange, if_pos (Or.inr (Or.inl hent))]

/-! ### The read loop -/

omit hs in
theorem take_clusBytes (d : Disk) (c n : Nat) :
    (List.range' 0 (min fs.bytesPerCluster n)).map (fun i => d (fs.clusAddr c + i)) =
      (clusBytes fs d c).take n := by
  rw [clusBytes, ← List.map_take]
  rcases Nat.le_total fs.bytesPerCluster n with h | h
  · rw [Nat.min_eq_left h, List.take_range'_of_length_le h]
  · rw [Nat.min_eq_right h, List.take_range'_of_length_ge h]

theorem readLoop_succ {toRead c : Nat} {acc : List UInt8} (hc : fs.InRange c)
    (hacc : acc.length < toRead) (visits : Nat) :
    readLoop env fs d toRead (visits + 1) c acc =
      let acc' := acc ++ (clusBytes fs d c).take (toRead - acc.length)
      if acc'.length ≥ toRead then acc'
      else if getNextCluster env fs d c = c ∨ getNextCluster env fs d c < 2 then acc'
      else readLoop env fs d toRead visits (getNextCluster env fs d c) acc' := by
  have hpos := hs.bpc_pos
  have hchunk : ¬ min fs.bytesPerCluster (toRead - acc.length) = 0 := by omega
  rw [readLoop, if_pos ⟨hc.1, hs.lt_eofLimit hc, hacc⟩, readCluster_eq hs env d hc]
  simp only [if_neg hchunk, take_clusBytes]

omit hs [env.NoFault] in
theorem readLoop_noCluster (toRead visits : Nat) (acc : List UInt8) :
    readLoop env fs d toRead visits noCluster acc = acc := by
  cases visits with
  | zero => rfl
  | succ v => rw [readLoop, if_neg fun h => noCluster_not_lt fs h.2.1]

/-- **The read loop returns the chain's bytes**, as far as they are asked for and
    as far as the visit limit reaches. -/
theorem readLoop_eq (toRead : Nat) : ∀ (L : List Nat) (visits c : Nat) (acc : List UInt8),
    IsChain fs d (c :: L) → acc.length < toRead →
    readLoop env fs d toRead visits c acc =
      acc ++ (chainBytes fs d ((c :: L).take visits)).take (toRead - acc.length) := by
  intro L
  induction L with
  | nil =>
    intro visits c acc hch hacc
    cases visits with
    | zero => simp [readLoop]
    | succ v =>
      rw [readLoop_succ hs env hch.head_inRange hacc, getNextCluster_last hs env hch]
      simp only [List.take_succ_cons, List.take_nil, chainBytes_cons, chainBytes_nil,
        List.append_nil, readLoop_noCluster, ite_self]
  | cons c' L ih =>
    intro visits c acc hch hacc
    cases visits with
    | zero => simp [readLoop]
    | succ v =>
      have hc' := hch.tail.head_inRange
      rw [readLoop_succ hs env hch.head_inRange hacc, getNextCluster_cons hs env hch,
        List.take_succ_cons, chainBytes_cons, List.take_append, length_clusBytes]
      dsimp only
      split
      · next hge =>
        -- the request ends in this cluster
        have hlen : toRead - acc.length ≤ fs.bytesPerCluster := by
          simp only [List.length_append, List.length_take, length_clusBytes] at hge
          omega
        rw [Nat.sub_eq_zero_of_le hlen, List.take_zero, List.append_nil]
      · next hlt =>
        have hlen : fs.bytesPerCluster < toRead - acc.length := by
          simp only [List.length_append, List.length_take, length_clusBytes] at hlt
          omega
        have htake : (clusBytes fs d c).take (toRead - acc.length) = clusBytes fs d c :=
          List.take_of_length_le (by rw [length_clusBytes]; omega)
        have hne : ¬ (c' = c ∨ c' < 2) := by
          have h1 := hc'.1
          have h2 := hch.head_ne
          omega
        rw [if_neg hne, htake, ih v c' (acc ++ clusBytes fs d c) hch.tail
          (by rw [List.length_append, length_clusBytes]; omega)]
        rw [List.length_append, length_clusBytes, List.append_assoc, Nat.sub_sub]

/-- **Contents of a file.**  `fat_read_file` hands out the bytes of the chain, up to
    the size in the entry, the caller's limit and the visit limit. -/
theorem readContents_eq {e : Slot} (hfile : e.isDirectory = false)
    (hch : e.cluster < 2 ∨ HasChain fs d e.cluster) (maxLen : Nat) :
    readContents env fs d e maxLen =
      some ((chainBytes fs d ((chainOf fs d e.cluster).take maxVisits)).take
        (min e.fileSize maxLen)) := by
  rw [readContents, if_neg (by simp [hfile])]
  dsimp only
  by_cases hzero : min e.fileSize maxLen = 0 ∨ e.cluster < 2
  · rw [if_pos hzero]
    rcases hzero with h0 | hlt
    · rw [h0, List.take_zero]
    · rw [chainOf_of_lt hlt, List.take_nil, chainBytes_nil, List.take_nil]
  · rw [if_neg hzero, if_neg (Nat.pos_iff_ne_zero.mp hs.bpc_pos), if_neg (by simp)]
    obtain ⟨L, hL⟩ := hch.resolve_left fun hlt => hzero (Or.inr hlt)
    rw [readLoop_eq hs env _ L _ _ [] hL (by simpa [Nat.pos_iff_ne_zero] using fun h => hzero (Or.inl h)),
      chainOf_eq hs hL, List.nil_append, List.length_nil, Nat.sub_zero]

theorem readContents_congr {d' : Disk} {e : Slot} (hfile : e.isDirectory = false)
    (hch : e.cluster < 2 ∨ HasChain fs d e.cluster)
    (hfat : ∀ x ∈ chainOf fs d e.cluster, fs.fatEnt d' x = fs.fatEnt d x)
    (hdata : ∀ x ∈ chainOf fs d e.cluster, ∀ a, fs.InCluster x a → d' a = d a) (maxLen : Nat) :
    readContents env fs d' e maxLen = readContents env fs d e maxLen := by
  have hch' : (e.cluster < 2 ∨ HasChain fs d' e.cluster) ∧
      chainOf fs d' e.cluster = chainOf fs d e.cluster := by
    rcases hch with hlt | ⟨L, hL⟩
    · exact ⟨Or.inl hlt, by rw [chainOf_of_lt hlt, chainOf_of_lt hlt]⟩
    · rw [chainOf_eq hs hL] at hfat ⊢
      have hL' := hL.congr hfat
      exact ⟨Or.inr ⟨L, hL'⟩, chainOf_eq hs hL'⟩
  rw [readContents_eq hs env hfile hch, readContents_eq hs env hfile hch'.1, hch'.2,
    chainBytes_congr fun x hx => hdata x (List.mem_of_mem_take hx)]

/-! ### The write loop -/

/-- What the loop of `fat_write_file` has done to the chain `L` it was started on,
    for the bytes of `buf` from `written` up to `len`: the chain is now `W`. -/
structure Filled (fs : FatFs) (buf : Buf) (len written : Nat) (d d' : Disk) (L W : List Nat) :
    Prop where
  chain : IsChain fs d' W
  /-- The old chain was cut, or extended. -/
  reused : W <+: L ∨ L <+: W
  /-- Added clusters were free, and in the part of the FAT the driver scans. -/
  fresh : ∀ c ∈ W, c ∉ L → fs.fatEnt d c = 0 ∧ c < fs.scanLimit + 2
  fat : ∀ c, fs.InRange c → c ∉ W → fs.fatEnt d' c = fs.fatEnt d c
  bytes : chainBytes fs d' W =
    (List.range' written (W.length * fs.bytesPerCluster)).map fun j => if j < len then buf j else 0
  frame : ∀ a, a < fs.fatStartSector * 512 ∨ fs.fatEndAddr ≤ a →
    (∀ c ∈ W, ¬ fs.InCluster c a) → d' a = d a
  enough : len - written ≤ W.length * fs.bytesPerCluster
  tight : (W.length - 1) * fs.bytesPerCluster < len - written ∨ W.length = 1

omit hs [env.NoFault] in
theorem range_map_cluster (f : Nat → UInt8) (written n m : Nat) :
    (List.range' 0 n).map (fun i => f (written + i)) ++ (List.range' (written + n) m).map f =
      (List.range' written (n + m)).map f := by
  have h := List.map_add_range' (a := written) 0 n 1
  rw [Nat.add_zero] at h
  rw [← List.range'_append_1 (s := written), List.map_append, ← h, List.map_map]
  rfl

theorem filled_last {buf : Buf} {len written c : Nat} {L : List Nat} (hch : IsChain fs d (c :: L))
    {cbuf : Buf} (hbuf : ∀ i, i < fs.bytesPerCluster →
      cbuf i = if written + i < len then buf (written + i) else 0)
    (hlen : len ≤ written + fs.bytesPerCluster) :
    Filled fs buf len written d (setEnt fs (setClus fs d c cbuf) c fs.eofVal) (c :: L) [c] := by
  have hc := hch.head_inRange
  have hcover : ∀ a, fs.InCluster c a →
      setEnt fs (setClus fs d c cbuf) c fs.eofVal a = setClus fs d c cbuf a := fun a ha =>
    setEnt_data hs _ hc.2 _ (Nat.le_trans (fs.dataAddr_le_clusAddr c) ha.1)
  refine ⟨⟨fun x hx => ?_, List.nodup_singleton c, ?_⟩, Or.inl ⟨L, rfl⟩, ?_, ?_, ?_, ?_, ?_, ?_⟩
  · rw [List.mem_singleton.mp hx]
    exact hc
  · rw [linked_singleton, fatEnt_setEnt hs _ hc.2, if_pos rfl, fs.eofVal_mod]
    exact fs.eofLimit_le_eofVal
  · intro x hx hx'
    rw [List.mem_singleton.mp hx] at hx'
    exact absurd List.mem_cons_self hx'
  · intro x hx hne
    rw [fatEnt_setEnt hs _ hx.2, if_neg (by simpa using hne), fatEnt_setClus hs _ hx.2]
  · rw [chainBytes_cons, chainBytes_nil, List.append_nil, clusBytes_congr hcover,
      clusBytes_setClus, List.length_singleton, Nat.one_mul]
    have h := range_map_cluster (fun j => if j < len then buf j else 0) written fs.bytesPerCluster 0
    simp only [List.range'_zero, List.map_nil, List.append_nil, Nat.add_zero] at h
    rw [← h]
    refine List.map_congr_left fun i hi => ?_
    rw [List.mem_range'_1] at hi
    exact hbuf i (by omega)
  · intro a ha hcl
    rw [setEnt_frame hs _ hc.2 _ ha, setClus_of_not (hcl c (by simp))]
  · rw [List.length_singleton]
    omega
  · exact Or.inr rfl

/-- A full turn before the turns that filled `c' :: W`: the cluster in front was
    written and linked, and the rest did not touch it. -/
theorem Filled.cons {buf : Buf} {len written c c' : Nat} {d₁ d' : Disk} {L L' W : List Nat}
    (hc : fs.InRange c)
    (hF : Filled fs buf len (written + fs.bytesPerCluster) d₁ d' L' (c' :: W))
    {cbuf : Buf} (hbuf : ∀ i, i < fs.bytesPerCluster →
      cbuf i = if written + i < len then buf (written + i) else 0)
    (hlen : written + fs.bytesPerCluster < len)
    (hdata : ∀ a, a < fs.fatStartSector * 512 ∨ fs.fatEndAddr ≤ a →
      d₁ a = setClus fs d c cbuf a)
    (hlink : fs.fatEnt d₁ c = c') (hcW : c ∉ c' :: W)
    (hfat : ∀ x, fs.InRange x → x ≠ c → x ∉ c' :: W → fs.fatEnt d₁ x = fs.fatEnt d x)
    (hreused : c :: c' :: W <+: L ∨ L <+: c :: c' :: W)
    (hfresh : ∀ x ∈ c :: c' :: W, x ∉ L → fs.fatEnt d x = 0 ∧ x < fs.scanLimit + 2) :
    Filled fs buf len written d d' L (c :: c' :: W) := by
  have harea : ∀ {x a : Nat}, fs.InCluster x a → a < fs.fatStartSector * 512 ∨ fs.fatEndAddr ≤ a :=
    fun {x a} ha => Or.inr
      (Nat.le_trans (Nat.le_trans hs.fatEndAddr_le_dataAddr (fs.dataAddr_le_clusAddr x)) ha.1)
  have hcdata : ∀ a, fs.InCluster c a → d' a = setClus fs d c cbuf a := by
    intro a ha
    rw [hF.frame a (harea ha) ?_, hdata a (harea ha)]
    intro x hx hxa
    exact hcW (hs.inCluster_unique (hF.chain.inRange x hx) hc hxa ha ▸ hx)
  have hlink' : fs.fatEnt d' c = c' := by rw [hF.fat c hc hcW, hlink]
  refine ⟨⟨?_, List.nodup_cons.mpr ⟨hcW, hF.chain.nodup⟩, Linked.cons hlink' hF.chain.linked⟩,
    hreused, hfresh, ?_, ?_, ?_, ?_, ?_⟩
  · intro x hx
    rcases List.mem_cons.mp hx with rfl | hx
    · exact hc
    · exact hF.chain.inRange x hx
  · intro x hx hxW
    have hx1 : x ≠ c := fun h => hxW (by simp [h])
    have hx2 : x ∉ c' :: W := fun h => hxW (List.mem_cons_of_mem c h)
    rw [hF.fat x hx hx2, hfat x hx hx1 hx2]
  · have hfirst : clusBytes fs d' c = (List.range' 0 fs.bytesPerCluster).map
        fun i => if written + i < len then buf (written + i) else 0 := by
      rw [clusBytes_congr hcdata, clusBytes_setClus]
      refine List.map_congr_left fun i hi => ?_
      rw [List.mem_range'_1] at hi
      exact hbuf i (by omega)
    have hcount : (c :: c' :: W).length * fs.bytesPerCluster =
        fs.bytesPerCluster + (c' :: W).length * fs.bytesPerCluster := by
      rw [List.length_cons, Nat.succ_mul, Nat.add_comm]
    rw [chainBytes_cons, hfirst, hF.bytes, hcount]
    exact range_map_cluster (fun j => if j < len then buf j else 0) written _ _
  · intro a ha hcl
    rw [hF.frame a ha fun x hx => hcl x (List.mem_cons_of_mem c hx), hdata a ha,
      setClus_of_not (hcl c (by simp))]
  · have h := hF.enough
    rw [List.length_cons, Nat.succ_mul]
    omega
  · left
    have hstep : (c :: c' :: W).length - 1 = (c' :: W).length := rfl
    rw [hstep]
    rcases hF.tight with h | h
    · have h1 : (c' :: W).length = (c' :: W).length - 1 + 1 := rfl
      rw [h1, Nat.succ_mul]
      omega
    · rw [h, Nat.one_mul]
      omega

theorem writeLoop_succ (buf : Buf) (len fuel : Nat) {c : Nat} (hc : fs.InRange c) (written : Nat) :
    writeLoop env fs buf len (fuel + 1) d c written =
      let chunk := min fs.bytesPerCluster (len - written)
      let cbuf : Buf := fun i => if i < chunk then buf (written + i) else 0
      let written' := written + if chunk > 0 then chunk else fs.bytesPerCluster
      let d := setClus fs d c cbuf
      if written' ≥ len then (0, setEnt fs d c fs.eofVal)
      else if getNextCluster env fs d c < 2 ∨ getNextCluster env fs d c ≥ fs.eofLimit then
        match fs.freeCluster? d with
        | none => (-1, d)
        | some n =>
          writeLoop env fs buf len fuel (setEnt fs (setEnt fs d n fs.eofVal) c n) n written'
      else writeLoop env fs buf len fuel d (getNextCluster env fs d c) written' := by
  rw [writeLoop]
  simp only [writeCluster_eq hs env d hc, setFatEntry_eq hs env _ hc, allocFreeCluster_eq hs env]
  generalize (if min fs.bytesPerCluster (len - written) > 0
    then min fs.bytesPerCluster (len - written) else fs.bytesPerCluster) = step
  generalize setClus fs d c _ = d₁
  split
  · rfl
  · split
    · cases hfree : fs.freeCluster? d₁ with
      | none => rfl
      | some n =>
        have hn := (freeCluster?_some hs hfree).1.1
        obtain ⟨m, rfl⟩ : ∃ m, n = m + 1 := ⟨n - 1, by omega⟩
        rfl
    · rfl

theorem fatEnt_link {c n x : Nat} (hn : fs.InRange n) (cbuf : Buf) (hx : fs.InRange x) :
    fs.fatEnt (setEnt fs (setEnt fs (setClus fs d c cbuf) n fs.eofVal) c n) x =
      if x = c then n else if x = n then fs.eofVal else fs.fatEnt d x := by
  have hmod : n % fs.entMod = n :=
    Nat.mod_eq_of_lt (Nat.lt_trans (hs.lt_eofLimit hn) fs.eofLimit_lt_entMod)
  rw [fatEnt_setEnt hs _ hx.2, fatEnt_setEnt hs _ hx.2, fatEnt_setClus hs _ hx.2, hmod, fs.eofVal_mod]

theorem isChain_link {c n : Nat} (hn : fs.InRange n) (hnc : n ≠ c) (cbuf : Buf) :
    IsChain fs (setEnt fs (setEnt fs (setClus fs d c cbuf) n fs.eofVal) c n) [n] := by
  refine ⟨fun x hx => List.mem_singleton.mp hx ▸ hn, List.nodup_singleton n, ?_⟩
  rw [linked_singleton, fatEnt_link hs hn cbuf hn, if_neg hnc, if_pos rfl]
  exact fs.eofLimit_le_eofVal

theorem Filled.link {buf : Buf} {len written c n : Nat} {d' : Disk} {W : List Nat}
    (hch : IsChain fs d [c]) {cbuf : Buf} (hbuf : ∀ i, i < fs.bytesPerCluster →
      cbuf i = if written + i < len then buf (written + i) else 0)
    (hlen : written + fs.bytesPerCluster < len) (hn : fs.InRange n) (hn0 : fs.fatEnt d n = 0)
    (hscan : n < fs.scanLimit + 2)
    (hF : Filled fs buf len (written + fs.bytesPerCluster)
      (setEnt fs (setEnt fs (setClus fs d c cbuf) n fs.eofVal) c n) d' [n] (n :: W)) :
    Filled fs buf len written d d' [c] (c :: n :: W) := by
  have hc := hch.head_inRange
  have hnc : n ≠ c := by
    rintro rfl
    exact hch.fatEnt_ne_zero n (by simp) hn0
  have hlink := fatEnt_link hs hn cbuf hc (d := d) (c := c)
  rw [if_pos rfl] at hlink
  have hcW : c ∉ n :: W := by
    intro hmem
    have hzero := (hF.fresh c hmem (by simpa using hnc.symm)).1
    have := hn.1
    omega
  refine Filled.cons hs hc hF hbuf hlen ?_ hlink hcW ?_ (Or.inr ⟨n :: W, rfl⟩) ?_
  · intro a ha
    rw [setEnt_frame hs _ hc.2 _ ha, setEnt_frame hs _ hn.2 _ ha]
  · intro x hx hxc hxW
    have hxn : x ≠ n := fun heq => hxW (by simp [heq])
    rw [fatEnt_link hs hn cbuf hx, if_neg hxc, if_neg hxn]
  · intro x hx hxL
    have hxc : x ≠ c := by simpa using hxL
    have hxW := (List.mem_cons.mp hx).resolve_left hxc
    by_cases hxn : x = n
    · exact hxn ▸ ⟨hn0, hscan⟩
    · have hfresh := hF.fresh x hxW (by simpa using hxn)
      rw [fatEnt_link hs hn cbuf (hF.chain.inRange x hxW), if_neg hxc, if_neg hxn] at hfresh
      exact hfresh

theorem Filled.follow {buf : Buf} {len written c c' : Nat} {d' : Disk} {L W : List Nat}
    {cbuf : Buf} (hch : IsChain fs (setClus fs d c cbuf) (c :: c' :: L))
    (hbuf : ∀ i, i < fs.bytesPerCluster →
      cbuf i = if written + i < len then buf (written + i) else 0)
    (hlen : written + fs.bytesPerCluster < len)
    (hF : Filled fs buf len (written + fs.bytesPerCluster) (setClus fs d c cbuf) d' (c' :: L)
      (c' :: W)) :
    Filled fs buf len written d d' (c :: c' :: L) (c :: c' :: W) := by
  have hcW : c ∉ c' :: W := by
    intro hmem
    have hzero := (hF.fresh c hmem (List.nodup_cons.mp hch.nodup).1).1
    exact hch.fatEnt_ne_zero c (by simp) hzero
  refine Filled.cons hs hch.head_inRange hF hbuf hlen (fun a _ => rfl) hch.linked.1 hcW ?_ ?_ ?_
  · intro x hx _ _
    rw [fatEnt_setClus hs d hx.2]
  · rcases hF.reused with hr | hr
    · exact Or.inl (List.prefix_cons_iff.mpr (Or.inr ⟨_, rfl, hr⟩))
    · exact Or.inr (List.prefix_cons_iff.mpr (Or.inr ⟨_, rfl, hr⟩))
  · intro x hx hxL
    have hxc : x ≠ c := fun heq => hxL (by simp [heq])
    have hxW := (List.mem_cons.mp hx).resolve_left hxc
    have hfresh := hF.fresh x hxW fun hmem => hxL (List.mem_cons_of_mem c hmem)
    rw [fatEnt_setClus hs d (hF.chain.inRange x hxW).2] at hfresh
    exact hfresh

/-- **The write loop fills a chain.**  Started on a well-formed chain, the loop of
    `fat_write_file` that reports success leaves the data in a well-formed chain
    with the same first cluster. -/
theorem writeLoop_filled (buf : Buf) (len : Nat) :
    ∀ (fuel : Nat) (d : Disk) (c : Nat) (L : List Nat) (written : Nat) (d' : Disk),
      IsChain fs d (c :: L) →
      writeLoop env fs buf len fuel d c written = (0, d') →
      ∃ W, Filled fs buf len written d d' (c :: L) (c :: W) := by
  intro fuel
  induction fuel with
  | zero =>
    intro d c L written d' _ h
    simp [writeLoop] at h
  | succ fuel ih =>
    intro d c L written d' hch h
    have hc := hch.head_inRange
    have hpos := hs.bpc_pos
    rw [writeLoop_succ hs env buf len fuel hc] at h
    dsimp only at h
    generalize hcb : (fun i => if i < min fs.bytesPerCluster (len - written)
      then buf (written + i) else 0 : Buf) = cbuf at h
    have hbuf : ∀ i, i < fs.bytesPerCluster →
        cbuf i = if written + i < len then buf (written + i) else 0 := by
      intro i hi
      rw [← hcb]
      dsimp only
      by_cases h1 : written + i < len
      · rw [if_pos h1, if_pos (by omega)]
      · rw [if_neg h1, if_neg (by omega)]
    by_cases hend : len ≤ written + fs.bytesPerCluster
    · -- the last turn
      rw [if_pos (by split <;> omega)] at h
      simp only [Prod.mk.injEq, true_and] at h
      rw [← h]
      exact ⟨[], filled_last hs hch hbuf hend⟩
    · have hchunk : min fs.bytesPerCluster (len - written) = fs.bytesPerCluster := by omega
      have hlen : written + fs.bytesPerCluster < len := by omega
      rw [hchunk, if_pos hpos, if_neg (by omega)] at h
      have hkeep : ∀ {L'}, IsChain fs d (c :: L') → IsChain fs (setClus fs d c cbuf) (c :: L') :=
        fun hch => hch.congr fun x hx => fatEnt_setClus hs d (hch.inRange x hx).2 cbuf
      cases L with
      | nil =>
        -- the chain ends here: a free cluster is linked
        rw [getNextCluster_last hs env (hkeep hch),
          if_pos (Or.inr (Nat.le_of_not_lt (noCluster_not_lt fs)))] at h
        cases hfree : fs.freeCluster? (setClus fs d c cbuf) with
        | none =>
          rw [hfree] at h
          simp at h
        | some n =>
          rw [hfree] at h
          dsimp only at h
          obtain ⟨hn, hn0⟩ := freeCluster?_some hs hfree
          rw [fatEnt_setClus hs d hn.2] at hn0
          have hscan : n < fs.scanLimit + 2 := by
            have := List.mem_of_find?_eq_some hfree
            rw [List.mem_range'_1] at this
            omega
          have hnc : n ≠ c := by
            rintro rfl
            exact hch.fatEnt_ne_zero n (by simp) hn0
          obtain ⟨W, hF⟩ := ih _ n [] _ d' (isChain_link hs hn hnc cbuf) h
          exact ⟨n :: W, hF.link hs hch hbuf hlen hn hn0 hscan⟩
      | cons c' L =>
        have hc' := (hkeep hch).tail.head_inRange
        rw [getNextCluster_cons hs env (hkeep hch), if_neg (by
          have := hs.lt_eofLimit hc'
          have := hc'.1
          omega)] at h
        obtain ⟨W, hF⟩ := ih _ c' L _ d' (hkeep hch).tail h
        exact ⟨c' :: W, hF.follow hs (hkeep hch) hbuf hlen⟩

end

end Gemios
