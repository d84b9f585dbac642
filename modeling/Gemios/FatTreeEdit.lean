import Gemios.FatTree

/-!
# Edits of the tree

What a change of a volume's slots and clusters does to its tree: a directory that grows keeps it, an
entry that is stored adds one name, and a file that is overwritten changes what one name stands for.
-/

namespace Gemios

/-! ### The names an entry is found under -/

theorem entryMatches_fold {x y : List UInt8} (h : foldName x = foldName y) (p : LfnParser) (e : Slot) :
    entryMatches p e x = entryMatches p e y := by
  have heq : ∀ s, fatNameEquals s x = fatNameEquals s y := by
    intro s
    rw [Bool.eq_iff_iff, fatNameEquals_iff, fatNameEquals_iff, h]
  simp only [entryMatches, heq]

theorem isAliasChar_plain : ∀ c, isAliasChar c = true → c ≠ 0x00 ∧ c ≠ 0x20 ∧ c ≠ 0x2E :=
  forall_byte (by decide +kernel)

theorem aliasTailStr_plain (n : Nat) : ∀ c ∈ aliasTailStr n, c ≠ 0x00 ∧ c ≠ 0x20 ∧ c ≠ 0x2E := by
  intro c hc
  unfold aliasTailStr at hc
  rcases List.mem_cons.mp hc with rfl | hc
  · decide
  · obtain ⟨ch, hch, rfl⟩ := List.mem_map.mp hc
    have hdigit := Nat.isDigit_of_mem_toDigits (by omega) (by omega) hch
    simp only [Char.isDigit, Bool.and_eq_true, decide_eq_true_eq, ge_iff_le, UInt32.le_iff_toNat_le] at hdigit
    have hlo : 48 ≤ ch.toNat := hdigit.1
    have hhi : ch.toNat ≤ 57 := hdigit.2
    have hval : (UInt8.ofNat ch.toNat).toNat = ch.toNat := by
      rw [UInt8.toNat_ofNat']
      omega
    refine ⟨?_, ?_, ?_⟩
    all_goals
      intro heq
      rw [heq] at hval
      revert hval
      simp only [UInt8.reduceToNat]
      omega

theorem alias_base (name : List UInt8) (n : Nat) : ∃ c base, (0x7E : UInt8) ∈ c :: base ∧
    (c :: base).length ≤ 8 ∧ (∀ b ∈ c :: base, b ≠ 0x00 ∧ b ≠ 0x20 ∧ b ≠ 0x2E) ∧
    (fatGenerateShortAlias name n).take 8 = padTo 8 (c :: base) := by
  unfold fatGenerateShortAlias
  dsimp only
  generalize hkept : aliasChars 8 _ = kept
  have hchars : ∀ c ∈ kept, isAliasChar c = true := by
    intro c hc
    rw [← hkept, aliasChars] at hc
    exact (List.mem_filter.mp (List.mem_of_mem_take hc)).2
  obtain ⟨c, base, hbase, hc⟩ : ∃ c base, (if kept = [] then [0x46, 0x49, 0x4C, 0x45] else kept) =
      c :: base ∧ ∀ b ∈ c :: base, isAliasChar b = true := by
    cases kept with
    | nil => exact ⟨_, _, rfl, List.all_eq_true.mp (by decide)⟩
    | cons c kept => exact ⟨c, kept, if_neg (by simp), hchars⟩
  have htail : ((aliasTailStr n).take 7).length ≤ 7 := List.length_take_le _ _
  obtain ⟨m, hm⟩ : ∃ m, 8 - ((aliasTailStr n).take 7).length = m + 1 :=
    ⟨7 - ((aliasTailStr n).take 7).length, by omega⟩
  rw [hbase, hm, List.take_succ_cons, List.cons_append]
  refine ⟨c, base.take m ++ (aliasTailStr n).take 7, ?_, ?_, ?_, ?_⟩
  · apply List.mem_cons_of_mem
    apply List.mem_append_right
    simp [aliasTailStr]
  · simp only [List.length_cons, List.length_append, List.length_take] at hm ⊢
    omega
  · intro b hb
    rw [List.mem_cons, List.mem_append] at hb
    rcases hb with rfl | hb | hb
    · exact isAliasChar_plain _ (hc _ List.mem_cons_self)
    · exact isAliasChar_plain _ (hc _ (List.mem_cons_of_mem c (List.mem_of_mem_take hb)))
    · exact aliasTailStr_plain n b (List.mem_of_mem_take hb)
  · rw [List.take_left' (length_padTo 8 _)]

theorem tilde_mem_alias {name : List UInt8} {n : Nat} {e : Slot}
    (he : e.name = fatGenerateShortAlias name n) : (0x7E : UInt8) ∈ cstr (formatFatName e) := by
  obtain ⟨c, base, htilde, hlen, hplain, hfield⟩ := alias_base name n
  rw [← he, ← Slot.name_base] at hfield
  have h0 : e 0 = c := by
    have hhead := congrArg (fun l : List UInt8 => l.getD 0 0) hfield
    rwa [getD_padTo_zero (by omega)] at hhead
  have hdot : e 0 ≠ 0x2E := h0 ▸ (hplain c List.mem_cons_self).2.2
  have hbase : ((List.range' 0 8).map e).takeWhile (· != 0x20) = c :: base := by
    rw [hfield, takeWhile_padTo hlen fun b hb => (hplain b hb).2.1]
  have hcstr : ∀ rest, (0x7E : UInt8) ∈ cstr ((c :: base) ++ rest) := by
    intro rest
    rw [cstr, List.takeWhile_append_of_pos fun b hb => by simpa using (hplain b hb).1]
    exact List.mem_append_left _ htilde
  rw [formatFatName, if_neg (fun h => hdot h.1), if_neg (fun h => hdot h.1)]
  dsimp only
  rw [hbase]
  split
  · exact hcstr _
  · simpa using hcstr []

/-- **The entry of a new name is found under this name only.** -/
theorem entryMatches_iff (n x : FileName) (env : Env) (fs : FatFs) (d : Disk) (dir : FatDir)
    {attr : UInt8} (hattr : EntryAttr attr) (c size start : Nat) :
    entryMatches (nameParser n.chars (chooseShortName env fs d dir n.chars)
        (newEntry attr c size (chooseShortName env fs d dir n.chars)) start lfnParserReset)
      (newEntry attr c size (chooseShortName env fs d dir n.chars)) x.chars = true ↔ n.key = x.key := by
  have hok := n.nameOk
  have hshort := shortOk_chooseShortName hok n.text.ne n.text.nul n.text.slash env fs d dir
  have hself := entryMatches_name hok n.text.ne n.text.nul n.text.slash env fs d dir attr c size start
    lfnParserReset
  rw [FileName.key_eq_iff]
  constructor
  · intro h
    rw [entryMatches, Bool.or_eq_true, Bool.and_eq_true, fatNameEquals_iff, fatNameEquals_iff] at h
    cases hlfn : fatNeedsLfn n.chars with
    | true =>
      have hnum : 0 < numLfnSlots n.chars := n.text.numLfn_pos.mpr hlfn
      rcases h with ⟨_, hlong⟩ | halias
      · rwa [nameParser, if_neg (by omega), lfnState_str n.text.nul, List.take_of_length_le n.short] at hlong
      · -- names with a `~` are not asked for
        have hname : (newEntry attr c size (chooseShortName env fs d dir n.chars)).name =
            chooseShortName env fs d dir n.chars := Slot.withName_name _ hshort.length
        rw [chooseShortName, if_pos hnum, chooseAlias] at hname
        have htilde := tilde_mem_alias hname
        rw [chooseShortName, if_pos hnum, chooseAlias] at halias
        rw [← mem_foldName (by decide), halias, mem_foldName (by decide)] at htilde
        exact absurd htilde x.noTilde
    | false =>
      have hnum : numLfnSlots n.chars = 0 := by
        rw [numLfnSlots, hlfn]
        rfl
      obtain ⟨hend, hdel, hisLfn, _⟩ := newEntry_kind c size hattr hshort
      rcases h with ⟨hnamed, _⟩ | hname
      · rw [nameParser, if_pos hnum, lfnParserFeed_reset hend hdel hisLfn] at hnamed
        cases hnamed
      · have heq : chooseShortName env fs d dir n.chars = toFat83Name n.chars := by
          rw [chooseShortName, hnum]
          rfl
        rw [heq] at hname hshort
        have hformat : cstr (formatFatName (newEntry attr c size (toFat83Name n.chars))) = n.chars :=
          format_toFat83Name hok n.text.ne n.text.nul n.text.slash hlfn
            (Slot.withName_name _ hshort.length)
        rwa [hformat] at hname
  · intro h
    rwa [← entryMatches_fold h]

/-! ### Files that are not touched -/

/-- Slots `S` of the directory `P` and clusters `C` are all that an edit has changed. -/
structure Touched (fs : FatFs) (d d' : Disk) (P : FatDir) (S C : List Nat) : Prop where
  live : LiveDir fs d P
  slots : ∀ b ∈ S, b ∈ dirAddrs fs d P
  range : ∀ x ∈ C, fs.InRange x
  fat : ∀ x, fs.InRange x → x ∉ C → fs.fatEnt d' x = fs.fatEnt d x
  frame : ∀ y, fs.fatEndAddr ≤ y → (∀ x ∈ C, ¬ fs.InCluster x y) → (∀ b ∈ S, y < b ∨ b + 32 ≤ y) →
    d' y = d y

section

variable {fs : FatFs} {d d' : Disk} (hw : WellFormed fs d) {P : FatDir} {S C : List Nat}
  (h : Touched fs d d' P S C)

include hw h

theorem Touched.file {D : FatDir} {a : Nat} (hD : LiveDir fs d D) (ha : a ∈ childAddrs fs d D)
    (hfile : (slotAt d a).isDirectory = false)
    (hout : ∀ x ∈ chainOf fs d (slotAt d a).cluster, x ∉ C) :
    chainOf fs d' (slotAt d a).cluster = chainOf fs d (slotAt d a).cluster ∧
      fileBytes fs d' (slotAt d a) = fileBytes fs d (slotAt d a) := by
  have hch := hw.file D hD a ha hfile
  have hrange : ∀ x ∈ chainOf fs d (slotAt d a).cluster, fs.InRange x := by
    rcases hch with hlt | ⟨L, hL⟩
    · rw [chainOf_of_lt hlt]
      intro x hx
      cases hx
    · intro x hx
      exact hL.inRange x (chainOf_eq hw.sound hL ▸ hx)
  have hchain := (chainOf_congr hw.sound hch fun x hx => h.fat x (hrange x hx) (hout x hx)).2
  refine ⟨hchain, ?_⟩
  unfold fileBytes
  rw [hchain, chainBytes_congr fun x hx y hy => ?_]
  have hx := List.mem_of_mem_take hx
  have h1 := fs.dataAddr_le_clusAddr x
  have h2 := hw.sound.fatEndAddr_le_dataAddr
  refine h.frame y (by have := hy.1; omega) (fun z hz hyz => ?_) fun b hb => ?_
  · have heq := hw.sound.inCluster_unique (h.range z hz) (hrange x hx) hyz hy
    exact hout x hx (heq ▸ hz)
  · by_contra hin
    obtain ⟨i, rfl⟩ : ∃ i, y = b + i := ⟨y - b, by omega⟩
    refine hw.slot_outside h.live (h.slots b hb) (hrange x hx) (fun hfix hmem => ?_) i (by omega) hy
    exact hw.dir_file_disjoint h.live hfix hD ha hfile hmem hx

theorem Touched.entryNode_eq {D : FatDir} {a : Nat} (hD : LiveDir fs d D) (ha : a ∈ childAddrs fs d D)
    (hout : (slotAt d a).isDirectory = false → ∀ x ∈ chainOf fs d (slotAt d a).cluster, x ∉ C) :
    entryNode fs d' (slotAt d a) = entryNode fs d (slotAt d a) := by
  unfold entryNode
  cases hsub : (slotAt d a).isDirectory with
  | true => rfl
  | false =>
    rw [(h.file hw hD ha hsub (hout hsub)).2]

end

/-! ### A directory that grows -/

section

variable {fs : FatFs} {d d' : Disk} (hv : Volume fs d) {dir : FatDir} {last g : Nat}
  (hdir : LiveDir fs d dir) (h : Grown fs d d' dir last g)

include hv hdir h

omit hv in
theorem Grown.touched : Touched fs d d' dir [] [last, g] where
  live := hdir
  slots := by simp
  range := by
    intro x hx
    simp only [List.mem_cons, List.not_mem_nil, or_false] at hx
    rcases hx with rfl | rfl
    · obtain ⟨L, M, hL, heq⟩ := h.chain
      exact hL.inRange _ (by rw [heq]; simp)
    · exact h.inRange
  fat := by
    intro x hx hout
    simp only [List.mem_cons, List.not_mem_nil, or_false, not_or] at hout
    rw [h.fat x hx, if_neg hout.1, if_neg hout.2]
  frame := by
    intro y hy hout _
    exact h.frame y (Or.inr hy) (hout g (by simp))

theorem Grown.file_outside {D : FatDir} {a : Nat} (hD : LiveDir fs d D) (ha : a ∈ childAddrs fs d D)
    (hfile : (slotAt d a).isDirectory = false) :
    ∀ x ∈ chainOf fs d (slotAt d a).cluster, x ∉ [last, g] := by
  intro x hx hmem
  simp only [List.mem_cons, List.not_mem_nil, or_false] at hmem
  rcases hmem with rfl | rfl
  · exact hv.wf.dir_file_disjoint hdir h.chained hD ha hfile (h.last_mem hv.wf.sound) hx
  · exact (hv.wf.isChain_chainAt (Owner.child hD ha)).fatEnt_ne_zero _ hx h.free

variable (hlen : (chainOf fs d dir.cluster).length < maxVisits)

include hlen

theorem Grown.look_eq {D : FatDir} (hD : LiveDir fs d D) (k : NameKey) :
    look fs d' D k = look fs d D k := by
  rw [look, look, h.find hv.wf hdir hlen hD (hv.format D hD)]
  cases hfind : findIn d k.chars (dirAddrs fs d D) with
  | none => rfl
  | some loc =>
    obtain ⟨hmem, hentry⟩ := hv.wf.find_name hD k.toFileName hfind
    rw [Option.map_some, Option.map_some, hentry, (h.touched hdir).entryNode_eq hv.wf hD hmem
      fun hfile => h.file_outside hv hdir hD hmem hfile]

/-- **A grown volume is a volume.** -/
theorem Grown.volume : Volume fs d' where
  wf := h.wellFormed hv.wf hdir hlen
  format := by
    intro D hD
    have hD' := h.live hv.wf hdir hlen hD
    exact h.format hv.wf hdir hlen hD' (hv.format D hD')
  alone := by
    intro D hD k l loc loc' hk hl
    have hD' := h.live hv.wf hdir hlen hD
    rw [h.find hv.wf hdir hlen hD' (hv.format D hD')] at hk hl
    exact hv.alone D hD' k l loc loc' hk hl
  full := by
    intro D hD a ha hfile
    have hD' := h.live hv.wf hdir hlen hD
    rw [h.children hv.wf hdir hlen hD'] at ha
    rw [h.child_slot hv.wf hD' ha] at hfile ⊢
    rw [((h.touched hdir).file hv.wf hD' ha hfile (h.file_outside hv hdir hD' ha hfile)).1]
    exact hv.full D hD' a ha hfile

end

/-! ### A name that is stored -/

theorem IsDotSlot.live {e : Slot} {nm : List UInt8} (h : IsDotSlot e (0x2E :: nm)) : e.Live := by
  have h0 : e 0 = 0x2E := h.bytes (by omega)
  refine ⟨?_, ?_, h.lfn, h.volume⟩
  · rw [Slot.isEnd, h0]
    rfl
  · rw [Slot.isDeleted, h0]
    rfl

/-- The entry of a new name stands at `a` in the directory, and leads to the fresh clusters `C`. -/
structure NewEntry (fs : FatFs) (d d' : Disk) (dir : FatDir) (n : FileName) (short11 : List UInt8)
    (attr : UInt8) (c size a : Nat) (pre post C : List Nat) : Prop where
  live : LiveDir fs d dir
  isNew : look fs d dir n.key = none
  seen : Seen d pre
  stored : Stored fs d d' dir a (nameSlots n.chars short11 (Slot.fresh attr c size)) pre post C
  kind : EntryAttr attr
  short : ShortOk short11
  found : ∀ (x : FileName) (start : Nat),
    entryMatches (nameParser n.chars short11 (newEntry attr c size short11) start lfnParserReset)
      (newEntry attr c size short11) x.chars = true ↔ n.key = x.key
  full : (newEntry attr c size short11).isDirectory = false →
    (newEntry attr c size short11).fileSize ≤ (C.take maxVisits).length * fs.bytesPerCluster

theorem getLast_nameSlots (name short11 : List UInt8) (attr : UInt8) (c size : Nat) :
    (nameSlots name short11 (Slot.fresh attr c size)).getLast? =
      some (newEntry attr c size short11) := by
  rw [nameSlots, List.getLast?_append]
  rfl

section

variable {fs : FatFs} {d d' : Disk} (hv : Volume fs d) {dir : FatDir} {n : FileName}
  {short11 : List UInt8} {attr : UInt8} {c size a : Nat} {pre post C : List Nat}
  (h : NewEntry fs d d' dir n short11 attr c size a pre post C)

include hv h

omit hv in
theorem NewEntry.notDeleted : (newEntry attr c size short11).isDeleted = false :=
  (newEntry_kind c size h.kind h.short).2.1

theorem NewEntry.chain : ∃ L, C = (newEntry attr c size short11).cluster :: L ∧
    chainOf fs d' (newEntry attr c size short11).cluster = C := by
  have hfirst := h.stored.first _ (getLast_nameSlots _ _ _ _ _) h.notDeleted
  have hch := h.stored.chain
  obtain ⟨x, L, rfl⟩ : ∃ x L, C = x :: L := by
    cases C with
    | nil => cases hfirst
    | cons x L => exact ⟨x, L, rfl⟩
  rw [List.head?_cons, Option.some.injEq] at hfirst
  rw [← hfirst]
  exact ⟨L, rfl, chainOf_eq hv.wf.sound hch⟩

omit hv in
theorem NewEntry.touched : Touched fs d d' dir
    (slotsFrom a (nameSlots n.chars short11 (Slot.fresh attr c size)).length) C where
  live := h.live
  slots := by
    intro b hb
    rw [h.stored.addrs]
    exact List.mem_append_left _ (List.mem_append_right _ hb)
  range := h.stored.chain.inRange
  fat := h.stored.fat
  frame := by
    intro y hy hout hslots
    refine h.stored.frame y (Or.inr hy) hout ?_
    by_contra hin
    -- the slot around `y`
    have hmem := hslots (a + 32 * ((y - a) / 32)) (mem_slotsFrom.mpr ⟨(y - a) / 32, by omega, rfl⟩)
    omega

theorem NewEntry.file_outside {D : FatDir} {b : Nat} (hD : LiveDir fs d D)
    (hb : b ∈ childAddrs fs d D) : ∀ x ∈ chainOf fs d (slotAt d b).cluster, x ∉ C :=
  h.stored.not_mem_owner hv.wf (Owner.child hD hb)

def shortAddr (n : FileName) (a : Nat) : Nat := a + 32 * numLfnSlots n.chars

omit hv in
theorem NewEntry.shortAddr_mod : shortAddr n a % 32 = 0 := by
  have hmem : a ∈ dirAddrs fs d dir := by
    rw [h.stored.addrs, length_nameSlots]
    exact List.mem_append_left _ (List.mem_append_right _ (mem_slotsFrom.mpr ⟨0, Nat.succ_pos _, rfl⟩))
  have ha := dirAddrs_aligned fs d dir a hmem
  unfold shortAddr
  omega

/-- **Lookups in the directory.**  The new name is found, and other names as before. -/
theorem NewEntry.find_eq : ∃ loc : EntryLoc, loc.addr = shortAddr n a ∧
    loc.entry = newEntry attr c size short11 ∧ ∀ k : NameKey,
      findIn d' k.chars (dirAddrs fs d' dir) =
        if n.key = k then some loc else findIn d k.chars (dirAddrs fs d dir) := by
  have hb := h.shortAddr_mod
  refine ⟨entryLoc (nameParser n.chars short11 (newEntry attr c size short11) a lfnParserReset)
    (newEntry attr c size short11) (shortAddr n a / 512) (shortAddr n a % 512 / 32), ?_, rfl, ?_⟩
  · rw [EntryLoc.addr, entryLoc]
    dsimp only
    omega
  · intro k
    obtain ⟨hnew, hold⟩ := h.stored.find_seen hv.wf.sound (hv.wf.isDir h.live) (hv.format dir h.live) h.seen k.chars
    have hscan := scan_nameSlots n.text.nul n.text.length h.short h.kind c size
      (by rw [← length_nameSlots n.chars short11 (Slot.fresh attr c size)]; exact h.stored.slots)
      k.chars lfnParserReset
    dsimp only at hscan
    have hfound := h.found k.toFileName a
    rw [k.key_toFileName] at hfound
    rw [hnew, length_nameSlots]
    by_cases hk : n.key = k
    · have hnone : findIn d k.chars (dirAddrs fs d dir) = none := by
        have := h.isNew
        rw [hk, look, Option.map_eq_none_iff] at this
        exact this
      rw [hold, Option.or_eq_none_iff] at hnone
      rw [hnone.1, Option.none_or, findIn, hscan, if_pos (hfound.mpr hk), if_pos hk]
      rfl
    · have hmiss : findIn d' k.chars (slotsFrom a (numLfnSlots n.chars + 1)) = none := by
        rw [findIn, hscan, if_neg fun hm => hk (hfound.mp hm)]
        rfl
      rw [hmiss, Option.none_or, if_neg hk, hold]

theorem NewEntry.look_here :
    look fs d' dir n.key = some (entryNode fs d' (newEntry attr c size short11)) := by
  obtain ⟨loc, _, hentry, hfind⟩ := h.find_eq hv
  rw [look, hfind, if_pos rfl, Option.map_some, hentry]

theorem NewEntry.look_there {D : FatDir} {k : NameKey} (hD : LiveDir fs d D)
    (hne : ¬(D = dir ∧ k = n.key)) : look fs d' D k = look fs d D k := by
  have hfind : findIn d' k.chars (dirAddrs fs d' D) = findIn d k.chars (dirAddrs fs d D) := by
    by_cases hdir : D = dir
    · subst hdir
      obtain ⟨loc, _, _, hfind⟩ := h.find_eq hv
      rw [hfind, if_neg fun heq => hne ⟨rfl, heq.symm⟩]
    · exact h.stored.find_other hv.wf h.live hD hdir k.chars
  rw [look, look, hfind]
  cases hloc : findIn d k.chars (dirAddrs fs d D) with
  | none => rfl
  | some loc =>
    obtain ⟨hmem, hentry⟩ := hv.wf.find_name hD k.toFileName hloc
    rw [Option.map_some, Option.map_some, hentry, h.touched.entryNode_eq hv.wf hD hmem
      fun _ => h.file_outside hv hD hmem]

theorem NewEntry.wellFormed : WellFormed fs d' :=
  h.stored.wellFormed hv.wf h.live (hv.format dir h.live)

theorem NewEntry.newDir (hsub : (newEntry attr c size short11).isDirectory = true) :
    LiveDir fs d' ⟨false, (newEntry attr c size short11).cluster⟩ ∧
      entryNode fs d' (newEntry attr c size short11) =
        .sub ⟨false, (newEntry attr c size short11).cluster⟩ ∧
      ∀ x : FileName, findIn d' x.chars
        (dirAddrs fs d' ⟨false, (newEntry attr c size short11).cluster⟩) = none := by
  obtain ⟨loc, _, hentry, hfind⟩ := h.find_eq hv
  have hlive' := h.stored.live_of hv.wf h.live (hv.format dir h.live) h.live
  have hfound := hfind n.key
  rw [if_pos rfl] at hfound
  obtain ⟨hmem, hslot⟩ := (h.wellFormed hv).find_name hlive' n.key.toFileName hfound
  rw [hentry] at hslot
  have hnew := LiveDir.sub hlive' hmem (hslot ▸ hsub)
  rw [← hslot] at hnew
  obtain ⟨L, hC, _⟩ := h.chain hv
  have hge : 2 ≤ (newEntry attr c size short11).cluster :=
    (h.stored.chain.inRange _ (by rw [hC]; simp)).1
  refine ⟨hnew, ?_, fun x => ?_⟩
  · rw [entryNode, if_pos hsub, dirOfCluster, if_neg (by omega)]
  · cases hloc : findIn d' x.chars
        (dirAddrs fs d' ⟨false, (newEntry attr c size short11).cluster⟩) with
    | none => rfl
    | some loc' =>
      have hchild := ((h.wellFormed hv).find_name hnew x hloc).1
      rw [h.stored.new_children hv.wf (getLast_nameSlots _ _ _ _ _) h.notDeleted hsub] at hchild
      cases hchild

/-- **A new entry is one new name of the tree.** -/
theorem NewEntry.edited : (look fs d).Edited (look fs d') (LiveDir fs d) dir n.key
    (entryNode fs d' (newEntry attr c size short11)) where
  here := h.look_here hv
  there := fun hE hne => h.look_there hv hE hne
  wasNoDir := by
    intro C' hC'
    rw [h.isNew] at hC'
    cases hC'
  empty := by
    intro C' hC' k
    cases hsub : (newEntry attr c size short11).isDirectory with
    | false =>
      rw [entryNode, hsub] at hC'
      cases hC'
    | true =>
      obtain ⟨_, hnode, hnone⟩ := h.newDir hv hsub
      rw [hnode] at hC'
      cases hC'
      rw [look, hnone k.toFileName]
      rfl

theorem NewEntry.format_newDir (hsub : (newEntry attr c size short11).isDirectory = true) :
    FormatOk fs d' ⟨false, (newEntry attr c size short11).cluster⟩ := by
  obtain ⟨hdots, hC, hfree⟩ := h.stored.subdir _ (getLast_nameSlots _ _ _ _ _) h.notDeleted hsub
  generalize (newEntry attr c size short11).cluster = c' at hdots hC hfree ⊢
  have hch : IsChain fs d' (c' :: []) := hC ▸ h.stored.chain
  have haddrs : dirAddrs fs d' ⟨false, c'⟩ = clusSlots fs c' := by
    rw [dirAddrs_of_chain hv.wf.sound rfl hch]
    simp [maxVisits]
  obtain ⟨rest, hrest⟩ : ∃ rest, dirAddrs fs d' ⟨false, c'⟩ =
      fs.clusAddr c' :: (fs.clusAddr c' + 32) :: rest :=
    (h.wellFormed hv).dirAddrs_head rfl ⟨[], hch⟩
  have hnodup := nodup_clusSlots fs c'
  rw [← haddrs, hrest, List.nodup_cons, List.nodup_cons] at hnodup
  have htail : ∀ b ∈ rest, (slotAt d' b).isFree = true := by
    intro b hb
    refine hfree b (by rw [← haddrs, hrest]; simp [hb]) ?_ ?_
    · rintro rfl
      exact hnodup.1 (List.mem_cons_of_mem _ hb)
    · rintro rfl
      exact hnodup.2.1 hb
  unfold FormatOk
  rw [hrest, List.map_cons, List.map_cons]
  have hformat : DirFormat (rest.map (slotAt d')) := by
    apply DirFormat.of_free
    intro e he
    obtain ⟨b, hb, rfl⟩ := List.mem_map.mp he
    exact htail b hb
  exact @DirFormat.entry [] _ _ trivial hdots.dot.live
    (@DirFormat.entry [] _ _ trivial hdots.dotdot.live hformat)

/-- **A volume with a new entry is a volume.** -/
theorem NewEntry.volume : Volume fs d' where
  wf := h.wellFormed hv
  format := by
    intro D hD
    rcases h.stored.live hv.wf h.live (hv.format dir h.live) hD with hold | ⟨e, he, _, hsub, rfl⟩
    · by_cases hdir : D = dir
      · subst hdir
        exact h.stored.format hv.wf h.live (hv.format D h.live) h.seen
      · exact h.stored.format_other hv.wf h.live hold hdir (hv.format D hold)
    · rw [getLast_nameSlots, Option.some.injEq] at he
      subst he
      exact h.format_newDir hv hsub
  alone := by
    intro D hD k l loc loc' hk hl heq
    rcases h.stored.live hv.wf h.live (hv.format dir h.live) hD with hold | ⟨e, he, _, hsub, rfl⟩
    · by_cases hdir : D = dir
      · subst hdir
        obtain ⟨new, hnew, _, hfind⟩ := h.find_eq hv
        -- an entry that was there does not stand where the new one stands
        have hapart : ∀ (k : NameKey) (loc : EntryLoc),
            findIn d k.chars (dirAddrs fs d D) = some loc → loc.addr ≠ new.addr := by
          intro k loc hloc haddr
          obtain ⟨hmem, _⟩ := hv.wf.find_name h.live k.toFileName hloc
          obtain ⟨_, hend, hdel, _⟩ := mem_liveAddrs (mem_childAddrs.mp hmem).1
          have hfree := h.stored.free loc.addr (by
            rw [haddr, hnew, length_nameSlots]
            exact mem_slotsFrom.mpr ⟨_, Nat.lt_succ_self _, rfl⟩)
          rw [Slot.isFree, hend, hdel] at hfree
          cases hfree
        rw [hfind] at hk hl
        split at hk
        · next hnk =>
          split at hl
          · next hnl => rw [← hnk, hnl]
          · cases hk
            exact absurd heq.symm (hapart l loc' hl)
        · split at hl
          · cases hl
            exact absurd heq (hapart k loc hk)
          · exact hv.alone D h.live k l loc loc' hk hl heq
      · rw [h.stored.find_other hv.wf h.live hold hdir] at hk hl
        exact hv.alone D hold k l loc loc' hk hl heq
    · rw [getLast_nameSlots, Option.some.injEq] at he
      subst he
      rw [(h.newDir hv hsub).2.2 k.toFileName] at hk
      cases hk
  full := by
    intro D hD b hb hfile
    obtain ⟨hold, ⟨hmem, hslot⟩ | ⟨_, hlast, _, _⟩⟩ :=
      h.stored.child_cases hv.wf h.live (hv.format dir h.live) hD hb
    · rw [hslot] at hfile ⊢
      rw [(h.touched.file hv.wf hold hmem hfile (h.file_outside hv hold hmem)).1]
      exact hv.full D hold b hmem hfile
    · rw [getLast_nameSlots, Option.some.injEq] at hlast
      rw [← hlast] at hfile ⊢
      obtain ⟨_, _, hchain⟩ := h.chain hv
      rw [hchain]
      exact h.full hfile

end

/-! ### A file that is overwritten -/

theorem DirFormat.alike {d d' : Disk} {es : List Slot} (h : DirFormat es) : ∀ {as : List Nat},
    as.map (slotAt d) = es → (∀ a ∈ as, Slot.Alike (slotAt d a) (slotAt d' a)) →
      DirFormat (as.map (slotAt d')) := by
  induction h with
  | nil =>
    intro as has _
    rw [List.map_eq_nil_iff] at has
    rw [has]
    exact DirFormat.nil
  | deleted he _ ih =>
    intro as has halike
    obtain ⟨a, as, rfl, rfl, rfl⟩ := List.map_eq_cons_iff.mp has
    obtain ⟨ha, halike⟩ := List.forall_mem_cons.mp halike
    exact DirFormat.deleted (ha.isDeleted.trans he) (ih rfl halike)
  | label he _ ih =>
    intro as has halike
    obtain ⟨a, as, rfl, rfl, rfl⟩ := List.map_eq_cons_iff.mp has
    obtain ⟨ha, halike⟩ := List.forall_mem_cons.mp halike
    exact DirFormat.label ⟨ha.isEnd.trans he.notEnd, ha.isDeleted.trans he.notDeleted,
      ha.lfn.trans he.notLfn, ha.volume.trans he.volume⟩ (ih rfl halike)
  | entry hl he _ ih =>
    intro as has halike
    obtain ⟨bs, cs, rfl, rfl, hcs⟩ := List.map_eq_append_iff.mp has
    obtain ⟨a, as, rfl, rfl, rfl⟩ := List.map_eq_cons_iff.mp hcs
    obtain ⟨hbs, halike⟩ := List.forall_mem_append.mp halike
    obtain ⟨ha, halike⟩ := List.forall_mem_cons.mp halike
    -- the long-name slots are as they were
    have hsame : bs.map (slotAt d') = bs.map (slotAt d) := by
      apply List.map_congr_left
      intro b hb
      exact (hbs b hb).same (hl.notFree _ (List.mem_map_of_mem hb)).2
    rw [List.map_append, List.map_cons, hsame]
    refine DirFormat.entry ?_ ⟨ha.isEnd.trans he.notEnd, ha.isDeleted.trans he.notDeleted,
      ha.lfn.trans he.notLfn, ha.volume.trans he.notVolume⟩ (ih rfl halike)
    rw [ha.name_eq]
    exact hl
  | ended he hfree =>
    intro as has halike
    obtain ⟨a, as, rfl, rfl, rfl⟩ := List.map_eq_cons_iff.mp has
    obtain ⟨ha, halike⟩ := List.forall_mem_cons.mp halike
    refine DirFormat.ended (ha.isEnd.trans he) ?_
    intro e he'
    obtain ⟨b, hb, rfl⟩ := List.mem_map.mp he'
    have hb' := hfree _ (List.mem_map_of_mem hb)
    rwa [Slot.isFree, (halike b hb).isEnd, (halike b hb).isDeleted]

theorem liveAddrs_alike {d d' : Disk} {as : List Nat}
    (h : ∀ a ∈ as, Slot.Alike (slotAt d a) (slotAt d' a)) : liveAddrs d' as = liveAddrs d as := by
  unfold liveAddrs
  have htake : as.takeWhile (fun a => !(slotAt d' a).isEnd) =
      as.takeWhile fun a => !(slotAt d a).isEnd := by
    induction as with
    | nil => rfl
    | cons a as ih =>
      rw [List.takeWhile_cons, List.takeWhile_cons, (h a (by simp)).isEnd,
        ih fun b hb => h b (by simp [hb])]
  rw [htake]
  refine List.filter_congr fun a ha => ?_
  have hmem := List.takeWhile_subset _ ha
  rw [(h a hmem).isDeleted, (h a hmem).lfn, (h a hmem).volume]

section

variable {fs : FatFs} {d d' : Disk} (ht : SameTree fs d d')

include ht

theorem SameTree.children {D : FatDir} (hD : LiveDir fs d D) :
    childAddrs fs d' D = childAddrs fs d D := by
  rw [childAddrs, childAddrs, (ht.dir D hD).2, liveAddrs_alike (ht.alike D hD)]

theorem SameTree.child_dir {D : FatDir} (hD : LiveDir fs d D) {a : Nat} (ha : a ∈ childAddrs fs d D)
    (hsub : (slotAt d' a).isDirectory = true) :
    (slotAt d a).isDirectory = true ∧ slotAt d' a = slotAt d a := by
  have hmem := (mem_liveAddrs (mem_childAddrs.mp ha).1).1
  have hold : (slotAt d a).isDirectory = true := by
    by_contra hfile
    rw [Bool.not_eq_true] at hfile
    rw [ht.file D hD a hmem hfile] at hsub
    cases hsub
  exact ⟨hold, ht.subdir D hD a hmem hold⟩

theorem SameTree.live {D : FatDir} (hD : LiveDir fs d' D) : LiveDir fs d D := by
  refine (LiveDir.of_edit (N := fun _ => False) (fun E hE a ha hsub => ?_)
    (fun _ hF => hF.elim) hD).resolve_right id
  rw [ht.children hE] at ha
  obtain ⟨hold, hslot⟩ := ht.child_dir hE ha hsub
  exact Or.inl ⟨ha, hold, by rw [hslot]⟩

end

section

variable {fs : FatFs} {d d' : Disk} (hv : Volume fs d) {dir : FatDir} (hdir : LiveDir fs d dir)
  {a : Nat} (ha : a ∈ childAddrs fs d dir) (hfile : (slotAt d a).isDirectory = false) {buf : Buf}
  {len : Nat} {W : List Nat} (ho : Overwritten fs buf len d d' a (slotAt d a).cluster W)

include hv hdir ha hfile ho

omit hv hfile in
theorem Overwritten.touched : Touched fs d d' dir [a] W where
  live := hdir
  slots := by
    intro b hb
    rw [List.mem_singleton.mp hb]
    exact (mem_liveAddrs (mem_childAddrs.mp ha).1).1
  range := ho.chain.inRange
  fat := ho.fat
  frame := by
    intro y hy hout hslot
    exact ho.frame y (Or.inr hy) hout (hslot a (by simp))

omit hfile in
theorem Overwritten.owner_chain {o : Option Nat} (hown : Owner fs d o) (hne : o ≠ some a) :
    (firstAt fs d o < 2 ∨ HasChain fs d' (firstAt fs d o)) ∧
      chainOf fs d' (firstAt fs d o) = chainAt fs d o := by
  refine chainOf_congr hv.wf.sound (hv.wf.owner_first hown) fun x hx => ?_
  refine ho.fat x ((hv.wf.isChain_chainAt hown).inRange x hx) fun hxW => ?_
  have hother := hv.wf.owner_disjoint hown (Owner.child hdir ha) hne x hx
  exact (hv.wf.isChain_chainAt hown).fatEnt_ne_zero x hx (ho.fresh x hxW hother).1

omit hdir ha hfile in
theorem Overwritten.entry (hlen : len < 4294967296) : (slotAt d' a).isDirectory = false ∧
    (slotAt d' a).fileSize = len ∧ chainOf fs d' (slotAt d' a).cluster = W ∧
    HasChain fs d' (slotAt d' a).cluster := by
  obtain ⟨c, L, rfl, hslot⟩ := ho.slot
  have hc : c < 4294967296 := by
    have h1 := hv.wf.sound.lt_eofLimit ho.chain.head_inRange
    have h2 := fs.eofLimit_le
    omega
  have hcluster : (slotAt d' a).cluster = c := by
    rw [hslot, Slot.rewritten_cluster _ _ _ hc]
  refine ⟨?_, ?_, ?_, ?_⟩
  · rw [hslot, Slot.isDirectory, Slot.rewritten_attr]
    decide
  · rw [hslot, u32_of_lt hlen, Slot.rewritten_fileSize _ _ _ hlen]
  · rw [hcluster]
    exact chainOf_eq hv.wf.sound ho.chain
  · rw [hcluster]
    exact ⟨L, ho.chain⟩

variable (hlen : len < 4294967296)

include hlen

/-- **An overwritten volume is well formed.** -/
theorem Overwritten.wellFormed : WellFormed fs d' := by
  have ht := ho.sameTree hv.wf hdir ha hfile
  obtain ⟨hfile', _, hchain', hhas'⟩ := ho.entry hv hlen
  -- a slot of another entry
  have hother : ∀ {D : FatDir} {b : Nat}, LiveDir fs d D → b ∈ childAddrs fs d D → b ≠ a →
      slotAt d' b = slotAt d b := by
    intro D b hD hb hne
    exact ho.slot_eq hv.wf hdir ha hfile hD (mem_liveAddrs (mem_childAddrs.mp hb).1).1 hne
  refine hv.wf.edit (some a) (fun h32 => ?_) (fun D hD b hb hsub => ?_) (fun D hD b hb hsub => ?_)
    fun o hown x hx => ?_
  · have hroot := (ho.owner_chain hv hdir ha Owner.root (by simp)).1
    rw [firstAt, if_pos h32] at hroot
    obtain ⟨L, hL⟩ := hv.wf.rootChain h32
    exact hroot.resolve_left (Nat.not_lt.mpr hL.head_inRange.1)
  · have hD' := ht.live hD
    rw [ht.children hD'] at hb
    obtain ⟨hold, hslot⟩ := ht.child_dir hD' hb hsub
    obtain ⟨hch, hdots⟩ := hv.wf.subdir D hD' b hb hold
    have hE : LiveDir fs d ⟨false, (slotAt d b).cluster⟩ := LiveDir.sub hD' hb hold
    obtain ⟨rest, hrest⟩ : ∃ rest, dirAddrs fs d ⟨false, (slotAt d b).cluster⟩ =
        fs.clusAddr (slotAt d b).cluster :: (fs.clusAddr (slotAt d b).cluster + 32) :: rest :=
      hv.wf.dirAddrs_head rfl hch
    have h1 := ht.subdir _ hE (fs.clusAddr (slotAt d b).cluster) (by rw [hrest]; simp)
      hdots.dot.directory
    have h2 := ht.subdir _ hE (fs.clusAddr (slotAt d b).cluster + 32) (by rw [hrest]; simp)
      hdots.dotdot.directory
    rw [hslot]
    refine ⟨?_, by rw [h1]; exact hdots.dot, by rw [h2]; exact hdots.dotdot,
      by rw [h2]; exact hdots.parent⟩
    rcases (ht.dir _ hE).1 with hfix | hch'
    · cases hfix
    · exact hch'
  · have hD' := ht.live hD
    rw [ht.children hD'] at hb
    by_cases hne : b = a
    · rw [hne]
      exact Or.inr hhas'
    · rw [hother hD' hb hne]
      exact (ho.owner_chain hv hdir ha (Owner.child hD' hb) (by simpa using hne)).1
  · cases hown with
    | root =>
      refine Or.inl ⟨Owner.root, ?_⟩
      rw [← (ho.owner_chain hv hdir ha Owner.root (by simp)).2]
      exact hx
    | @child D b hD hb =>
      have hD' := ht.live hD
      rw [ht.children hD'] at hb
      by_cases hne : b = a
      · subst hne
        rw [chainAt, firstAt, hchain'] at hx
        by_cases hold : x ∈ chainOf fs d (slotAt d b).cluster
        · exact Or.inl ⟨Owner.child hD' hb, hold⟩
        · exact Or.inr ⟨(ho.fresh x hx hold).1, rfl⟩
      · have hown' : Owner fs d (some b) := Owner.child hD' hb
        refine Or.inl ⟨hown', ?_⟩
        rw [chainAt, firstAt, hother hD' hb hne] at hx
        rw [← (ho.owner_chain hv hdir ha hown' (by simpa using hne)).2]
        exact hx

omit hfile hlen in
theorem Overwritten.file_outside {D : FatDir} {b : Nat} (hD : LiveDir fs d D)
    (hb : b ∈ childAddrs fs d D) (hne : b ≠ a) : ∀ x ∈ chainOf fs d (slotAt d b).cluster, x ∉ W := by
  intro x hx hxW
  have hown : Owner fs d (some b) := Owner.child hD hb
  have hother := hv.wf.owner_disjoint hown (Owner.child hdir ha) (by simpa using hne) x hx
  exact (hv.wf.isChain_chainAt hown).fatEnt_ne_zero x hx (ho.fresh x hxW hother).1

variable (hwalk : len ≤ maxVisits * fs.bytesPerCluster)

include hwalk

omit hfile hlen hv hdir ha in
theorem Overwritten.length_le : W.length ≤ maxVisits := by
  rcases ho.tight with h | h
  · have := Nat.lt_of_mul_lt_mul_right (Nat.lt_of_lt_of_le h hwalk)
    omega
  · rw [h]
    decide

/-- **An overwritten volume is a volume.** -/
theorem Overwritten.volume : Volume fs d' := by
  have ht := ho.sameTree hv.wf hdir ha hfile
  refine ⟨ho.wellFormed hv hdir ha hfile hlen, fun D hD => ?_, fun D hD k l loc loc' hk hl heq => ?_,
    fun D hD b hb hsub => ?_⟩
  · have hD' := ht.live hD
    have hformat := hv.format D hD'
    unfold FormatOk at hformat ⊢
    rw [(ht.dir D hD').2]
    exact hformat.alike rfl (ht.alike D hD')
  · have hD' := ht.live hD
    have hfind : ∀ x, findIn d' x (dirAddrs fs d' D) =
        (findIn d x (dirAddrs fs d D)).map (·.refresh d') := by
      intro x
      rw [(ht.dir D hD').2]
      exact findIn_alike (dirAddrs_aligned fs d D) (ht.alike D hD') x
    rw [hfind, Option.map_eq_some_iff] at hk hl
    obtain ⟨new, hk, rfl⟩ := hk
    obtain ⟨new', hl, rfl⟩ := hl
    exact hv.alone D hD' k l new new' hk hl heq
  · have hD' := ht.live hD
    rw [ht.children hD'] at hb
    by_cases hne : b = a
    · rw [hne]
      obtain ⟨_, hsize, hchain, _⟩ := ho.entry hv hlen
      rw [hsize, hchain, List.take_of_length_le (ho.length_le hwalk)]
      exact ho.enough
    · rw [ho.slot_eq hv.wf hdir ha hfile hD' (mem_liveAddrs (mem_childAddrs.mp hb).1).1 hne] at hsub ⊢
      rw [((ho.touched hdir ha).file hv.wf hD' hb hsub
        (ho.file_outside hv hdir ha hD' hb hne)).1]
      exact hv.full D hD' b hb hsub

/-- **The name stands for the new bytes**, and every other name for what it stood for. -/
theorem Overwritten.edited {n : FileName} {loc : EntryLoc}
    (hfind : findIn d n.chars (dirAddrs fs d dir) = some loc) (haddr : loc.addr = a) :
    (look fs d).Edited (look fs d') (LiveDir fs d) dir n.key (.file (bufBytes buf len)) := by
  have ht := ho.sameTree hv.wf hdir ha hfile
  have hfind' : ∀ {D}, LiveDir fs d D → ∀ x, findIn d' x (dirAddrs fs d' D) =
      (findIn d x (dirAddrs fs d D)).map (·.refresh d') := by
    intro D hD x
    rw [(ht.dir D hD).2]
    exact findIn_alike (dirAddrs_aligned fs d D) (ht.alike D hD) x
  refine ⟨?_, fun {D k} hD hne => ?_, fun {C} hC => ?_, fun hC => by cases hC⟩
  · obtain ⟨hsub, hsize, hchain, _⟩ := ho.entry hv hlen
    have hbytes : fileBytes fs d' (slotAt d' a) = bufBytes buf len := by
      rw [fileBytes, hsize, hchain, List.take_of_length_le (ho.length_le hwalk), ho.bytes]
      obtain ⟨rest, hrest⟩ := bufBytes_prefix buf ho.enough
      rw [← hrest, List.take_left' (length_bufBytes buf len)]
    rw [look_key, hfind' hdir, hfind, Option.map_some, Option.map_some, EntryLoc.refresh, haddr,
      entryNode, hsub, hbytes]
    rfl
  · rw [look, look, hfind' hD]
    cases hloc : findIn d k.chars (dirAddrs fs d D) with
    | none => rfl
    | some loc' =>
      obtain ⟨hmem, hentry⟩ := hv.wf.find_name hD k.toFileName hloc
      -- it is another entry
      have hother : loc'.addr ≠ a := by
        intro heq
        have hdirs : D = dir := by
          by_contra hdirs
          refine hv.wf.dirs_disjoint hD hdir hdirs (mem_liveAddrs (mem_childAddrs.mp hmem).1).1 ?_
          rw [heq]
          exact (mem_liveAddrs (mem_childAddrs.mp ha).1).1
        subst hdirs
        have hfold : findIn d n.key.chars (dirAddrs fs d D) = some loc := by
          rw [findIn_key]
          exact hfind
        exact hne ⟨rfl, hv.alone D hD k n.key loc' loc hloc hfold (heq.trans haddr.symm)⟩
      rw [Option.map_some, Option.map_some, Option.map_some, EntryLoc.refresh, hentry,
        ho.slot_eq hv.wf hdir ha hfile hD (mem_liveAddrs (mem_childAddrs.mp hmem).1).1 hother,
        (ho.touched hdir ha).entryNode_eq hv.wf hD hmem fun _ =>
          ho.file_outside hv hdir ha hD hmem hother]
  · obtain ⟨loc', hloc, _, hsub, _⟩ := hv.look_sub hdir hC
    have hfold : findIn d n.key.chars (dirAddrs fs d dir) = some loc := by
      rw [findIn_key]
      exact hfind
    rw [hfold] at hloc
    cases hloc
    rw [haddr, hfile] at hsub
    cases hsub

end

end Gemios
