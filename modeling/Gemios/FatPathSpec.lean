import Gemios.FatLfnParse
import Gemios.FatOverwrite

/-!
# The two path walkers

`fat_resolve_dir` follows every component of a path; `fat_stat` resolves all but the last
and looks that one up, in a copy of at most 511 bytes without trailing separators.  What a
path leads to is stated over the directory tree; the walkers are compared with it.
-/

namespace Gemios

/-! ### Components -/

theorem pathComponents_append {s : UInt8} (hs : isSlash s = true) (ys : List UInt8) :
    ∀ xs acc : List UInt8,
      pathComponents (xs ++ s :: ys) acc = pathComponents xs acc ++ pathComponents ys []
  | [], acc => by
    rw [List.nil_append, pathComponents, pathComponents, if_pos hs]
    split
    · rfl
    · rfl
  | x :: xs, acc => by
    rw [List.cons_append, pathComponents, pathComponents]
    simp only [pathComponents_append hs ys xs]
    split
    · split
      · rfl
      · rfl
    · split
      · rfl
      · rfl

theorem pathComponents_slashes {zs : List UInt8} (h : ∀ z ∈ zs, isSlash z = true) :
    pathComponents zs [] = [] := by
  induction zs with
  | nil => rfl
  | cons z zs ih =>
    rw [pathComponents, if_pos (h z List.mem_cons_self), if_pos rfl]
    exact ih fun y hy => h y (List.mem_cons_of_mem z hy)

theorem pathComponents_trailing (xs : List UInt8) {zs : List UInt8}
    (h : ∀ z ∈ zs, isSlash z = true) :
    pathComponents (xs ++ zs) [] = pathComponents xs [] := by
  cases zs with
  | nil => rw [List.append_nil]
  | cons z zs =>
    rw [pathComponents_append (h z List.mem_cons_self),
      pathComponents_slashes fun y hy => h y (List.mem_cons_of_mem z hy), List.append_nil]

theorem pathComponents_name : ∀ (ys acc : List UInt8), (∀ y ∈ ys, isSlash y = false) →
    acc.length ≤ 255 → acc ++ ys ≠ [] →
    ∃ rest, pathComponents ys acc = (acc ++ ys).take 255 :: rest ∧
      ((acc ++ ys).length ≤ 255 → rest = [])
  | [], acc, _, hacc, hne => by
    rw [List.append_nil] at hne ⊢
    refine ⟨[], ?_, fun _ => rfl⟩
    rw [pathComponents, if_neg hne, List.take_of_length_le hacc]
  | y :: ys, acc, h, hacc, _ => by
    rw [pathComponents, if_neg (by simp [h y List.mem_cons_self])]
    by_cases hfull : acc.length = 255
    · rw [if_pos hfull]
      refine ⟨pathComponents ys [y], ?_, fun hle => ?_⟩
      · rw [List.take_append_of_le_length (Nat.le_of_eq hfull.symm),
          List.take_of_length_le (Nat.le_of_eq hfull)]
      · rw [List.length_append, List.length_cons] at hle
        omega
    · rw [if_neg hfull]
      have hcut : acc ++ y :: ys = acc ++ [y] ++ ys := by simp
      rw [hcut]
      refine pathComponents_name ys (acc ++ [y]) (fun z hz => h z (List.mem_cons_of_mem y hz)) ?_
        (by simp)
      rw [List.length_append, List.length_singleton]
      omega

/-! ### The copy of a path -/

theorem stripSlashes_spec {path : List UInt8} (hne : path ≠ []) :
    ∃ c cs zs, stripSlashes path = c :: cs ∧ path = c :: cs ++ zs ∧
      (∀ z ∈ zs, isSlash z = true) ∧ (∀ s ∈ cs.getLast?, isSlash s = false) := by
  cases path with
  | nil => exact absurd rfl hne
  | cons c cs =>
    refine ⟨c, (cs.reverse.dropWhile isSlash).reverse, (cs.reverse.takeWhile isSlash).reverse, rfl,
      ?_, ?_, ?_⟩
    · rw [List.cons_append, ← List.reverse_append, List.takeWhile_append_dropWhile,
        List.reverse_reverse]
    · intro z hz
      exact List.mem_takeWhile_imp (List.mem_reverse.mp hz)
    · intro s hs
      rw [List.getLast?_reverse] at hs
      have := List.head?_dropWhile_not isSlash cs.reverse
      rw [hs] at this
      simpa using this

theorem lastSlash_none : ∀ {l : List UInt8}, lastSlash l = none → ∀ c ∈ l, isSlash c = false
  | [], _, c, hc => absurd hc List.not_mem_nil
  | x :: xs, h, c, hc => by
    rw [lastSlash] at h
    split at h
    · cases h
    · next hxs =>
      split at h
      · cases h
      · next hx =>
        rcases List.mem_cons.mp hc with rfl | hc
        · exact Bool.eq_false_iff.mpr hx
        · exact lastSlash_none hxs c hc

theorem lastSlash_some : ∀ {l : List UInt8} {k : Nat}, lastSlash l = some k →
    ∃ s, l = l.take k ++ s :: l.drop (k + 1) ∧ isSlash s = true ∧
      ∀ c ∈ l.drop (k + 1), isSlash c = false
  | [], _, h => by cases h
  | x :: xs, k, h => by
    rw [lastSlash] at h
    split at h
    · next j hxs =>
      cases h
      obtain ⟨s, hsplit, hs, hrest⟩ := lastSlash_some hxs
      exact ⟨s, congrArg (x :: ·) hsplit, hs, hrest⟩
    · next hxs =>
      split at h
      · next hx =>
        cases h
        exact ⟨x, rfl, hx, lastSlash_none hxs⟩
      · cases h

/-- **How a path is split**: into the path of the parent and a name without separators, which
    is empty only when the copy holds nothing but separators. -/
theorem resolveParent_split (env : Env) (fs : FatFs) (d : Disk) {path : List UInt8}
    (hne : path ≠ []) :
    ∃ parent name, (∀ c ∈ name, isSlash c = false) ∧
      pathComponents (path.take 511) [] = pathComponents parent [] ++ pathComponents name [] ∧
      fatResolveParentAndName env fs d path =
        (fatResolveDir env fs d parent).map (fun dir => (dir, name.take 255)) ∧
      (name = [] ↔ ∀ c ∈ path.take 511, isSlash c = true) ∧ (name = [] → parent = []) := by
  have hcopy : path.take 511 ≠ [] := by
    rw [Ne, List.take_eq_nil_iff]
    simp [hne]
  obtain ⟨c, cs, zs, hclean, hsplit, hzs, hlast⟩ := stripSlashes_spec hcopy
  have hcomps : pathComponents (path.take 511) [] = pathComponents (c :: cs) [] := by
    rw [hsplit]
    exact pathComponents_trailing (c :: cs) hzs
  have hroot : fatResolveDir env fs d [] = some (fatRootDir fs) := rfl
  rw [hcomps, fatResolveParentAndName, if_neg hne, cleanPath, hclean]
  dsimp only
  cases hslash : lastSlash (c :: cs) with
  | none =>
    have hno := lastSlash_none hslash
    refine ⟨[], c :: cs, hno, rfl, ?_, ?_, fun h => absurd h (by simp)⟩
    · rw [hroot]
      rfl
    · refine ⟨fun h => absurd h (by simp), fun h => ?_⟩
      have h1 := h c (by rw [hsplit]; simp)
      rw [hno c List.mem_cons_self] at h1
      cases h1
  | some k =>
    obtain ⟨s, hcut, hs, hname⟩ := lastSlash_some hslash
    have hcomps' : pathComponents (c :: cs) [] =
        pathComponents ((c :: cs).take k) [] ++ pathComponents ((c :: cs).drop (k + 1)) [] := by
      conv_lhs => rw [hcut]
      exact pathComponents_append hs _ _ []
    have hend : (c :: cs).drop (k + 1) = [] → cs = [] ∧ k = 0 := by
      intro hdrop
      rw [hdrop] at hcut
      have hcs : cs = [] := by
        rcases List.eq_nil_or_concat' cs with h | ⟨cs', x, rfl⟩
        · exact h
        · have hx := hlast x (by simp)
          rw [← List.cons_append] at hcut
          obtain ⟨_, hxs⟩ := List.append_inj' hcut rfl
          rw [List.head_eq_of_cons_eq hxs, hs] at hx
          cases hx
      refine ⟨hcs, ?_⟩
      have hlen := congrArg List.length hcut
      simp [hcs] at hlen
      omega
    have hempty : (c :: cs).drop (k + 1) = [] ↔ ∀ x ∈ path.take 511, isSlash x = true := by
      rw [hsplit]
      constructor
      · intro hdrop x hx
        obtain ⟨rfl, rfl⟩ := hend hdrop
        rcases List.mem_append.mp hx with hx | hx
        · have hc : [c] = [s] := hcut
          rw [List.mem_singleton.mp hx, List.head_eq_of_cons_eq hc]
          exact hs
        · exact hzs x hx
      · intro hall
        rw [List.eq_nil_iff_forall_not_mem]
        intro x hx
        have h1 := hall x (List.mem_append_left _ (List.mem_of_mem_drop hx))
        rw [hname x hx] at h1
        cases h1
    cases k with
    | zero =>
      refine ⟨[], cs, hname, hcomps', ?_, hempty, fun _ => rfl⟩
      rw [hroot]
      rfl
    | succ k =>
      refine ⟨(c :: cs).take (k + 1), (c :: cs).drop (k + 2), hname, hcomps', ?_, hempty, ?_⟩
      · dsimp only
        cases fatResolveDir env fs d ((c :: cs).take (k + 1)) <;> rfl
      · intro hdrop
        exact absurd (hend hdrop).2 (Nat.succ_ne_zero k)

/-! ### Names that are not there -/

/-- A slot of the device, as a walk meets it. -/
def seen (d : Disk) (a : Nat) : SeenSlot := ⟨slotAt d a, a / 512, a % 512 / 32⟩

theorem findIn_names {d : Disk} {name : List UInt8} {addrs : List Nat} {loc : EntryLoc}
    (h : findIn d name addrs = some loc) :
    ∃ a ∈ liveAddrs d addrs,
      (fatNameEquals (cstr (formatFatName (slotAt d a))) name = true ∨
        ∃ chk pre xs post, addrs.map (seen d) = pre ++ xs ++ post ∧ PieceRun chk 0 xs ∧
          fatNameEquals ((lfnText xs).take 247) name = true) := by
  obtain ⟨pre, a, post, p, rfl, hscan, ha, hmatch, _⟩ := findIn_some h
  refine ⟨a, ha, ?_⟩
  rw [entryMatches, Bool.or_eq_true, Bool.and_eq_true] at hmatch
  rcases hmatch with ⟨hnamed, hlong⟩ | hshort
  · right
    obtain ⟨_, hend, hdel, hlfn, hvol⟩ := mem_liveAddrs ha
    have hwalk : scan (fun x : SeenSlot => findBody name x.sec x.slot x.entry) (pre.map (seen d))
        lfnParserReset = .next p := by
      rw [scan_map]
      exact hscan
    obtain ⟨hends, rfl⟩ := scan_findBody hwalk
    obtain ⟨pre', xs, labels, hL, hread, _, _⟩ := named_run hends ⟨hend, hdel, hlfn, hvol⟩ hnamed
    rw [hread.str] at hlong
    refine ⟨_, pre', xs, labels ++ (a :: post).map (seen d), ?_, hread.run, hlong⟩
    rw [List.map_append, hL, List.append_assoc]
  · exact Or.inl hshort

theorem length_formatFatName (e : Slot) : (formatFatName e).length ≤ 12 := by
  unfold formatFatName
  split
  · exact Nat.le_of_ble_eq_true rfl
  · split
    · exact Nat.le_of_ble_eq_true rfl
    · have h1 := (List.takeWhile_prefix (l := (List.range' 0 8).map e) (· != 0x20)).length_le
      have h2 := (List.takeWhile_prefix (l := (List.range' 8 3).map e) (· != 0x20)).length_le
      rw [List.length_map, List.length_range'] at h1 h2
      dsimp only
      split
      · rw [List.length_append, List.length_cons]
        omega
      · omega

theorem findIn_long {d : Disk} {name : List UInt8} {addrs : List Nat} (hlen : 247 < name.length) :
    findIn d name addrs = none := by
  cases h : findIn d name addrs with
  | none => rfl
  | some loc =>
    obtain ⟨a, _, hshort | ⟨_, _, xs, _, _, _, hlong⟩⟩ := findIn_names h
    · have h1 := length_of_fatNameEquals hshort
      have h2 := length_formatFatName (slotAt d a)
      have h3 : (cstr (formatFatName (slotAt d a))).length ≤ (formatFatName (slotAt d a)).length :=
        (List.takeWhile_prefix _).length_le
      omega
    · have h1 := length_of_fatNameEquals hlong
      rw [List.length_take] at h1
      omega

/-- Names no entry may have: the empty name and the dot names. -/
def reservedNames : List (List UInt8) := [[], [0x2E], [0x2E, 0x2E]]

structure ProperNames (fs : FatFs) (d : Disk) (dir : FatDir) : Prop where
  short : ∀ a ∈ childAddrs fs d dir, cstr (formatFatName (slotAt d a)) ∉ reservedNames
  long : ∀ chk pre xs post, (dirAddrs fs d dir).map (seen d) = pre ++ xs ++ post →
    PieceRun chk 0 xs → lfnText xs ∉ reservedNames

theorem eq_of_fatNameEquals_reserved {s name : List UInt8} (hname : name ∈ reservedNames)
    (h : fatNameEquals s name = true) : s = name := by
  rw [fatNameEquals_comm] at h
  simp only [reservedNames, List.mem_cons, List.not_mem_nil, or_false] at hname
  rcases hname with rfl | rfl | rfl
  · exact List.length_eq_zero_iff.mp (length_of_fatNameEquals h).symm
  · exact fatNameEquals_dot.mp h
  · exact fatNameEquals_dotdot.mp h

theorem findIn_reserved {fs : FatFs} {d : Disk} (h : ProperNames fs d (fatRootDir fs))
    {name : List UInt8} (hname : name ∈ reservedNames) :
    findIn d name (dirAddrs fs d (fatRootDir fs)) = none := by
  cases hfind : findIn d name (dirAddrs fs d (fatRootDir fs)) with
  | none => rfl
  | some loc =>
    obtain ⟨a, ha, hshort | ⟨chk, pre, xs, post, hsplit, hrun, hlong⟩⟩ := findIn_names hfind
    · have hchild : a ∈ childAddrs fs d (fatRootDir fs) :=
        mem_childAddrs.mpr ⟨ha, fun hne => absurd rfl hne⟩
      have := h.short a hchild
      rw [eq_of_fatNameEquals_reserved hname hshort] at this
      exact absurd hname this
    · have htext := eq_of_fatNameEquals_reserved hname hlong
      have hlen : name.length ≤ 2 := by
        simp only [reservedNames, List.mem_cons, List.not_mem_nil, or_false] at hname
        rcases hname with rfl | rfl | rfl <;> decide
      have hfull : (lfnText xs).take 247 = lfnText xs := by
        apply List.take_of_length_le
        have := congrArg List.length htext
        rw [List.length_take] at this
        omega
      rw [hfull] at htext
      exact absurd hname (htext ▸ h.long chk pre xs post hsplit hrun)

/-! ### Where a path leads -/

/-- The directory that a list of components leads to, over the directory tree: `..` leads
    from a directory to the one it is an entry of, and from the root to the root. -/
inductive Leads (fs : FatFs) (d : Disk) : List (List UInt8) → FatDir → Prop
  | root : Leads fs d [] (fatRootDir fs)
  | dot {comps : List (List UInt8)} {dir : FatDir} (h : Leads fs d comps dir) :
      Leads fs d (comps ++ [[0x2E]]) dir
  | top {comps : List (List UInt8)} (h : Leads fs d comps (fatRootDir fs)) :
      Leads fs d (comps ++ [[0x2E, 0x2E]]) (fatRootDir fs)
  | up {comps : List (List UInt8)} {dir : FatDir} {a : Nat}
      (h : Leads fs d comps ⟨false, (slotAt d a).cluster⟩) (hdir : LiveDir fs d dir)
      (ha : a ∈ childAddrs fs d dir) (hsub : (slotAt d a).isDirectory = true) :
      Leads fs d (comps ++ [[0x2E, 0x2E]]) dir
  | down {comps : List (List UInt8)} {dir : FatDir} {name : List UInt8} {loc : EntryLoc}
      (h : Leads fs d comps dir) (hname : name ≠ [0x2E] ∧ name ≠ [0x2E, 0x2E])
      (hfind : findIn d name (dirAddrs fs d dir) = some loc)
      (hsub : loc.entry.isDirectory = true) :
      Leads fs d (comps ++ [name]) ⟨false, loc.entry.cluster⟩

theorem resolveFrom_append (env : Env) (fs : FatFs) (d : Disk) (ys : List (List UInt8)) :
    ∀ (xs : List (List UInt8)) (dir : FatDir), resolveFrom env fs d dir (xs ++ ys) =
      (resolveFrom env fs d dir xs).bind fun dir' => resolveFrom env fs d dir' ys
  | [], _ => rfl
  | x :: xs, dir => by
    rw [List.cons_append, resolveFrom, resolveFrom]
    cases resolveStep env fs d dir x with
    | none => rfl
    | some dir' => exact resolveFrom_append env fs d ys xs dir'

theorem resolveFrom_singleton (env : Env) (fs : FatFs) (d : Disk) (dir : FatDir)
    (comp : List UInt8) : resolveFrom env fs d dir [comp] = resolveStep env fs d dir comp := by
  rw [resolveFrom]
  cases resolveStep env fs d dir comp <;> rfl

theorem atRoot_root (fs : FatFs) : atRoot fs (fatRootDir fs) = true := by
  by_cases ht : fs.type = .fat32
  · simp [atRoot, fatRootDir, ht]
  · simp [atRoot, fatRootDir, ht]

section

variable {fs : FatFs} {d : Disk} (hw : WellFormed fs d) (env : Env) [env.NoFault]

include hw

omit [env.NoFault] in
theorem WellFormed.sub_ne_root {dir : FatDir} {a : Nat} (hdir : LiveDir fs d dir)
    (ha : a ∈ childAddrs fs d dir) :
    (⟨false, (slotAt d a).cluster⟩ : FatDir) ≠ fatRootDir fs := by
  intro heq
  by_cases ht : fs.type = .fat32
  · have hc : (slotAt d a).cluster = fs.rootCluster := by
      have := congrArg FatDir.cluster heq
      simpa [fatRootDir, ht] using this
    obtain ⟨L, hL⟩ := hw.rootChain ht
    have hmem : fs.rootCluster ∈ chainOf fs d fs.rootCluster := by
      rw [chainOf_eq hw.sound hL]
      exact List.mem_cons_self
    exact hw.rootDisjoint ht dir hdir a ha _ hmem (hc ▸ hmem)
  · have := congrArg FatDir.isRootFixed heq
    rw [fatRootDir_fixed ht] at this
    cases this

theorem WellFormed.parentDir_sub {dir : FatDir} {a : Nat} (hdir : LiveDir fs d dir)
    (ha : a ∈ childAddrs fs d dir) (hsub : (slotAt d a).isDirectory = true) :
    parentDir env fs d ⟨false, (slotAt d a).cluster⟩ = dir := by
  have hlive := LiveDir.sub hdir ha hsub
  obtain ⟨hch, hdots⟩ := hw.subdir _ hdir _ ha hsub
  have hroot : ¬atRoot fs ⟨false, (slotAt d a).cluster⟩ = true := by
    intro h
    refine hw.sub_ne_root hdir ha ?_
    simp only [atRoot, Bool.false_or, Bool.and_eq_true, beq_iff_eq] at h
    rw [fatRootDir, if_pos h.1, h.2]
  obtain ⟨rest, hrest⟩ := hw.dirAddrs_head
    (show (⟨false, (slotAt d a).cluster⟩ : FatDir).isRootFixed = false from rfl) hch
  obtain ⟨loc, hfind, _, hentry⟩ := hdots.findIn_dotdot rest
  have hp := hdots.parent
  unfold parentOf at hp
  rw [parentDir, if_neg hroot, fatDirFindEntry_eq hw.sound env (hw.isDir hlive), hrest, hfind]
  simp only [hentry, hp]

theorem WellFormed.resolveStep_leads {comps : List (List UInt8)} {dir dir' : FatDir}
    (hdir : LiveDir fs d dir) (h : Leads fs d comps dir) {comp : List UInt8}
    (hstep : resolveStep env fs d dir comp = some dir') : Leads fs d (comps ++ [comp]) dir' := by
  unfold resolveStep at hstep
  by_cases h1 : comp = [0x2E]
  · rw [if_pos h1] at hstep
    cases hstep
    subst h1
    exact h.dot
  · rw [if_neg h1] at hstep
    by_cases h2 : comp = [0x2E, 0x2E]
    · rw [if_pos h2] at hstep
      cases hstep
      subst h2
      cases hdir with
      | root =>
        rw [parentDir, if_pos (atRoot_root fs)]
        exact h.top
      | sub hdir ha hsub =>
        rw [hw.parentDir_sub env hdir ha hsub]
        exact h.up hdir ha hsub
    · rw [if_neg h2, fatDirFindEntry_eq hw.sound env (hw.isDir hdir)] at hstep
      cases hfind : findIn d comp (dirAddrs fs d dir) with
      | none =>
        rw [hfind] at hstep
        cases hstep
      | some loc =>
        rw [hfind] at hstep
        dsimp only at hstep
        split at hstep
        · next hsub =>
          have hfind' := hfind
          rw [← fatDirFindEntry_eq hw.sound env (hw.isDir hdir)] at hfind'
          have hchild := hw.find_child env hdir ⟨h1, h2⟩ hfind'
          have hentry := (hw.find_live env hdir hfind').2
          have hsub' := hsub
          rw [hentry] at hsub'
          obtain ⟨L, hL⟩ := (hw.subdir _ hdir _ hchild hsub').1
          rw [← hentry] at hL
          rw [dirOfCluster, if_neg (Nat.not_lt.mpr hL.head_inRange.1)] at hstep
          cases hstep
          exact h.down ⟨h1, h2⟩ hfind hsub
        · cases hstep

/-- **Path resolution follows the tree.** -/
theorem WellFormed.resolveFrom_iff {comps : List (List UInt8)} {dir : FatDir} :
    resolveFrom env fs d (fatRootDir fs) comps = some dir ↔ Leads fs d comps dir := by
  constructor
  · intro h
    induction comps using List.reverseRecOn generalizing dir with
    | nil =>
      cases h
      exact Leads.root
    | append_singleton comps comp ih =>
      rw [resolveFrom_append] at h
      cases hres : resolveFrom env fs d (fatRootDir fs) comps with
      | none =>
        rw [hres] at h
        cases h
      | some dir₁ =>
        rw [hres, Option.bind_some, resolveFrom_singleton] at h
        exact hw.resolveStep_leads env (hw.resolveFrom_live env LiveDir.root hres) (ih hres) h
  · intro h
    induction h with
    | root => rfl
    | dot _ ih =>
      rw [resolveFrom_append, ih, Option.bind_some, resolveFrom_singleton, resolveStep, if_pos rfl]
    | top _ ih =>
      rw [resolveFrom_append, ih, Option.bind_some, resolveFrom_singleton, resolveStep,
        if_neg (by decide), if_pos rfl, parentDir, if_pos (atRoot_root fs)]
    | up _ hdir ha hsub ih =>
      rw [resolveFrom_append, ih, Option.bind_some, resolveFrom_singleton, resolveStep,
        if_neg (by decide), if_pos rfl, hw.parentDir_sub env hdir ha hsub]
    | down _ hname hfind hsub ih =>
      have hdir := hw.resolveFrom_live env LiveDir.root ih
      have hfind' := hfind
      rw [← fatDirFindEntry_eq hw.sound env (hw.isDir hdir)] at hfind'
      have hchild := hw.find_child env hdir hname hfind'
      have hentry := (hw.find_live env hdir hfind').2
      have hsub' := hsub
      rw [hentry] at hsub'
      obtain ⟨L, hL⟩ := (hw.subdir _ hdir _ hchild hsub').1
      rw [← hentry] at hL
      rw [resolveFrom_append, ih, Option.bind_some, resolveFrom_singleton, resolveStep,
        if_neg hname.1, if_neg hname.2, hfind']
      dsimp only
      rw [if_pos hsub, dirOfCluster, if_neg (Nat.not_lt.mpr hL.head_inRange.1)]

end

/-! ### The two answers -/

def StatsDir (env : Env) (fs : FatFs) (d : Disk) (path : List UInt8) : Prop :=
  ∃ size attr, fatStat env fs d path = some (size, attr) ∧ attr &&& 0x10 ≠ 0

/-- The components end in a dot name below the root. -/
def DotAtRoot (fs : FatFs) (d : Disk) (comps : List (List UInt8)) : Prop :=
  ∃ pre, Leads fs d pre (fatRootDir fs) ∧
    (comps = pre ++ [[0x2E]] ∨ comps = pre ++ [[0x2E, 0x2E]])

/-- The paths to the root under which `fat_stat` looks for an entry: two or more separators,
    and dot names below the root. -/
def HiddenRoot (fs : FatFs) (d : Disk) (path : List UInt8) : Prop :=
  (2 ≤ path.length ∧ ∀ c ∈ path.take 511, isSlash c = true) ∨
    DotAtRoot fs d (pathComponents (path.take 511) [])

section

variable {fs : FatFs} {d : Disk} (hw : WellFormed fs d) (env : Env) [env.NoFault]

include hw

theorem WellFormed.find_dot {dir : FatDir} (hdir : LiveDir fs d dir) (hne : dir ≠ fatRootDir fs)
    {name : List UInt8} (hname : name = [0x2E] ∨ name = [0x2E, 0x2E]) :
    ∃ loc, fatDirFindEntry env fs d dir name = some loc ∧ loc.entry.isDirectory = true := by
  obtain ⟨hfix, hch, parent, _, hdots⟩ := hw.dots hdir hne
  obtain ⟨rest, hrest⟩ := hw.dirAddrs_head hfix hch
  rw [fatDirFindEntry_eq hw.sound env (hw.isDir hdir), hrest]
  rcases hname with rfl | rfl
  · have hfirst := hdots.dot.findBody (hdots.dot.bytes (by omega))
      (by rw [hdots.dot.format_dot]; rfl) [0x2E] (fs.clusAddr dir.cluster / 512)
      (fs.clusAddr dir.cluster % 512 / 32)
    rw [if_pos (fatNameEquals_dot.mpr rfl)] at hfirst
    change atAddr d (findBody [0x2E]) (fs.clusAddr dir.cluster) lfnParserReset = _ at hfirst
    rw [findIn, scan_cons_ret hfirst, Ctl.found]
    exact ⟨_, rfl, hdots.dot.directory⟩
  · obtain ⟨loc, hfind, _, hentry⟩ := hdots.findIn_dotdot rest
    exact ⟨loc, hfind, hentry ▸ hdots.dotdot.directory⟩

omit hw [env.NoFault] in
theorem statsDir_iff_find {path : List UInt8} {dir : FatDir} {name : List UInt8}
    (h1 : ¬(path = [] ∨ path = [0x2F] ∨ path = [0x5C]))
    (h2 : fatResolveParentAndName env fs d path = some (dir, name)) :
    StatsDir env fs d path ↔
      ∃ loc, fatDirFindEntry env fs d dir name = some loc ∧ loc.entry.isDirectory = true := by
  rw [StatsDir, fatStat, if_neg h1, fatLookup, h2]
  dsimp only
  cases fatDirFindEntry env fs d dir name with
  | none => simp
  | some loc => simp [Slot.isDirectory]

theorem WellFormed.leads_name {comps : List (List UInt8)} {dir : FatDir}
    (h : Leads fs d comps dir) {name : List UInt8} (hname : name ≠ [0x2E] ∧ name ≠ [0x2E, 0x2E]) :
    (∃ dir', Leads fs d (comps ++ [name]) dir') ↔
      ∃ loc, fatDirFindEntry env fs d dir name = some loc ∧ loc.entry.isDirectory = true := by
  have hres := (hw.resolveFrom_iff env).mpr h
  have hdir := hw.resolveFrom_live env LiveDir.root hres
  constructor
  · rintro ⟨dir', hlead⟩
    have hstep := (hw.resolveFrom_iff env).mpr hlead
    rw [resolveFrom_append, hres, Option.bind_some, resolveFrom_singleton, resolveStep,
      if_neg hname.1, if_neg hname.2] at hstep
    cases hfind : fatDirFindEntry env fs d dir name with
    | none =>
      rw [hfind] at hstep
      cases hstep
    | some loc =>
      rw [hfind] at hstep
      dsimp only at hstep
      split at hstep
      · next hsub => exact ⟨loc, rfl, hsub⟩
      · cases hstep
  · rintro ⟨loc, hfind, hsub⟩
    rw [fatDirFindEntry_eq hw.sound env (hw.isDir hdir)] at hfind
    exact ⟨_, h.down hname hfind hsub⟩

theorem WellFormed.leads_dot {comps : List (List UInt8)} {dir : FatDir}
    (h : Leads fs d comps dir) {name : List UInt8} (hname : name = [0x2E] ∨ name = [0x2E, 0x2E]) :
    ∃ dir', Leads fs d (comps ++ [name]) dir' := by
  have hdir := hw.resolveFrom_live Env.ideal LiveDir.root ((hw.resolveFrom_iff Env.ideal).mpr h)
  rcases hname with rfl | rfl
  · exact ⟨dir, h.dot⟩
  · cases hdir with
    | root => exact ⟨_, h.top⟩
    | sub hdir ha hsub => exact ⟨_, h.up hdir ha hsub⟩

omit hw [env.NoFault] in
theorem two_le_of_slashes {path : List UInt8} (h : ¬(path = [] ∨ path = [0x2F] ∨ path = [0x5C]))
    (hslashes : ∀ c ∈ path.take 511, isSlash c = true) : 2 ≤ path.length := by
  match path, h, hslashes with
  | [], h, _ => exact absurd (Or.inl rfl) h
  | [c], h, hslashes =>
    have hc := hslashes c (by simp)
    rw [isSlash, Bool.or_eq_true, beq_iff_eq, beq_iff_eq] at hc
    rcases hc with rfl | rfl
    · exact absurd (Or.inr (Or.inl rfl)) h
    · exact absurd (Or.inr (Or.inr rfl)) h
  | _ :: _ :: _, _, _ => exact Nat.le_add_left 2 _

omit hw [env.NoFault] in
theorem statsDir_top {path : List UInt8} (htop : path = [] ∨ path = [0x2F] ∨ path = [0x5C]) :
    StatsDir env fs d path ∧ pathComponents (path.take 511) [] = [] ∧ ¬HiddenRoot fs d path := by
  have hcomps : pathComponents (path.take 511) [] = [] ∧ path.length < 2 := by
    rcases htop with rfl | rfl | rfl <;> exact ⟨rfl, by decide⟩
  refine ⟨?_, hcomps.1, ?_⟩
  · rw [StatsDir, fatStat, if_pos htop]
    exact ⟨0, 0x10, rfl, by decide⟩
  · rintro (⟨hlen, _⟩ | ⟨pre, _, hpre | hpre⟩)
    · omega
    · rw [hcomps.1] at hpre
      simp at hpre
    · rw [hcomps.1] at hpre
      simp at hpre

theorem WellFormed.find_reserved (hn : ProperNames fs d (fatRootDir fs)) {name : List UInt8}
    (hname : name ∈ reservedNames) : fatDirFindEntry env fs d (fatRootDir fs) name = none := by
  rw [fatDirFindEntry_eq hw.sound env (hw.isDir LiveDir.root)]
  exact findIn_reserved hn hname

theorem WellFormed.find_cut {dir : FatDir} (hdir : LiveDir fs d dir) {name : List UInt8}
    (hlong : 255 < name.length) : fatDirFindEntry env fs d dir (name.take 255) = none := by
  have hpiece : (name.take 255).length = 255 := by
    rw [List.length_take]
    omega
  rw [fatDirFindEntry_eq hw.sound env (hw.isDir hdir)]
  exact findIn_long (by omega)

omit [env.NoFault] in
theorem WellFormed.not_leads_cut {comps rest : List (List UInt8)} {dir : FatDir}
    (h : Leads fs d comps dir) {name : List UInt8} (hlong : 255 < name.length) :
    ¬∃ dir', Leads fs d (comps ++ name.take 255 :: rest) dir' := by
  have hres := (hw.resolveFrom_iff Env.ideal).mpr h
  have hnone := hw.find_cut Env.ideal (hw.resolveFrom_live Env.ideal LiveDir.root hres) hlong
  have hpiece : (name.take 255).length = 255 := by
    rw [List.length_take]
    omega
  have hdots : name.take 255 ≠ [0x2E] ∧ name.take 255 ≠ [0x2E, 0x2E] := by
    constructor <;> intro heq <;> rw [heq] at hpiece <;> cases hpiece
  rintro ⟨dir', hlead'⟩
  have hall := (hw.resolveFrom_iff Env.ideal).mpr hlead'
  rw [resolveFrom_append, hres, Option.bind_some, resolveFrom, resolveStep, if_neg hdots.1,
    if_neg hdots.2, hnone] at hall
  cases hall

theorem WellFormed.finds_dot_iff (hn : ProperNames fs d (fatRootDir fs)) {dir : FatDir}
    (hdir : LiveDir fs d dir) {name : List UInt8} (hname : name = [0x2E] ∨ name = [0x2E, 0x2E]) :
    (∃ loc, fatDirFindEntry env fs d dir name = some loc ∧ loc.entry.isDirectory = true) ↔
      dir ≠ fatRootDir fs := by
  constructor
  · rintro ⟨loc, hfind, _⟩ rfl
    rw [hw.find_reserved env hn (by rcases hname with rfl | rfl <;> simp [reservedNames])] at hfind
    cases hfind
  · intro hroot
    exact hw.find_dot env hdir hroot hname

omit [env.NoFault] in
theorem WellFormed.leads_unique {comps : List (List UInt8)} {dir dir' : FatDir}
    (h : Leads fs d comps dir) (h' : Leads fs d comps dir') : dir = dir' := by
  have hres := (hw.resolveFrom_iff Env.ideal).mpr h
  rw [(hw.resolveFrom_iff Env.ideal).mpr h'] at hres
  exact (Option.some.inj hres).symm

omit [env.NoFault] in
theorem WellFormed.dotAtRoot_concat_iff {comps : List (List UInt8)} {dir : FatDir}
    (h : Leads fs d comps dir) {name : List UInt8} :
    DotAtRoot fs d (comps ++ [name]) ↔
      dir = fatRootDir fs ∧ (name = [0x2E] ∨ name = [0x2E, 0x2E]) := by
  have hcut : ∀ {pre x}, comps ++ [name] = pre ++ [x] → comps = pre ∧ name = x := by
    intro pre x heq
    obtain ⟨hpre, hx⟩ := List.append_inj' heq rfl
    exact ⟨hpre, List.head_eq_of_cons_eq hx⟩
  constructor
  · rintro ⟨pre, hpre, heq | heq⟩
    · obtain ⟨rfl, rfl⟩ := hcut heq
      exact ⟨hw.leads_unique h hpre, Or.inl rfl⟩
    · obtain ⟨rfl, rfl⟩ := hcut heq
      exact ⟨hw.leads_unique h hpre, Or.inr rfl⟩
  · rintro ⟨rfl, rfl | rfl⟩
    · exact ⟨comps, h, Or.inl rfl⟩
    · exact ⟨comps, h, Or.inr rfl⟩

/-- **Where `fat_stat` sees a directory**: where the copy of the path leads to one, but for
    the root under the names above. -/
theorem WellFormed.statsDir_iff (hn : ProperNames fs d (fatRootDir fs)) (path : List UInt8) :
    StatsDir env fs d path ↔
      (∃ dir, Leads fs d (pathComponents (path.take 511) []) dir) ∧ ¬HiddenRoot fs d path := by
  by_cases htop : path = [] ∨ path = [0x2F] ∨ path = [0x5C]
  · have hroot : StatsDir env fs d path ∧ _ ∧ ¬HiddenRoot fs d path := statsDir_top env htop
    obtain ⟨hstat, hcomps, hhidden⟩ := hroot
    rw [hcomps]
    exact iff_of_true hstat ⟨⟨_, Leads.root⟩, hhidden⟩
  · have hne : path ≠ [] := fun h => htop (Or.inl h)
    obtain ⟨parent, name, hnoslash, hcomps, hsplit, hempty, hparent⟩ :=
      resolveParent_split env fs d hne
    by_cases hname : name = []
    · -- separators only
      have hslashes := hempty.mp hname
      have hlen : 2 ≤ path.length := two_le_of_slashes htop hslashes
      refine iff_of_false ?_ fun h => h.2 (Or.inl ⟨hlen, hslashes⟩)
      rw [hparent hname, hname] at hsplit
      rw [statsDir_iff_find env htop hsplit]
      rintro ⟨loc, hfind, _⟩
      rw [show ([] : List UInt8).take 255 = [] from rfl,
        hw.find_reserved env hn (by simp [reservedNames])] at hfind
      cases hfind
    · obtain ⟨rest, hpieces, hrest⟩ := pathComponents_name name [] hnoslash (by decide) hname
      rw [List.nil_append] at hpieces hrest
      rw [hpieces] at hcomps
      cases hres : fatResolveDir env fs d parent with
      | none =>
        rw [hres] at hsplit
        refine iff_of_false ?_ ?_
        · rintro ⟨_, _, hstat, _⟩
          rw [fatStat, if_neg htop, fatLookup, hsplit] at hstat
          cases hstat
        · rintro ⟨⟨dir, hlead⟩, _⟩
          have hall := (hw.resolveFrom_iff env).mpr hlead
          rw [fatResolveDir] at hres
          rw [hcomps, resolveFrom_append, hres] at hall
          cases hall
      | some dir =>
        rw [hres, Option.map_some] at hsplit
        have hlead := (hw.resolveFrom_iff env).mp hres
        have hdir := hw.resolveFrom_live env LiveDir.root hres
        rw [statsDir_iff_find env htop hsplit]
        by_cases hlong : 255 < name.length
        · -- both look for a piece of 255 bytes
          rw [hw.find_cut env hdir hlong, hcomps]
          refine iff_of_false ?_ fun h => hw.not_leads_cut hlead hlong h.1
          rintro ⟨loc, hfind, _⟩
          cases hfind
        · have hshort : name.length ≤ 255 := by omega
          rw [hrest hshort, List.take_of_length_le hshort] at hcomps
          have hnotall : ¬∀ c ∈ path.take 511, isSlash c = true := fun h => hname (hempty.mpr h)
          have hhidden : HiddenRoot fs d path ↔
              dir = fatRootDir fs ∧ (name = [0x2E] ∨ name = [0x2E, 0x2E]) := by
            rw [HiddenRoot, hcomps, hw.dotAtRoot_concat_iff hlead]
            exact or_iff_right fun h => hnotall h.2
          rw [hhidden, List.take_of_length_le hshort, hcomps]
          by_cases hdot : name = [0x2E] ∨ name = [0x2E, 0x2E]
          · rw [hw.finds_dot_iff env hn hdir hdot]
            constructor
            · intro hroot
              exact ⟨hw.leads_dot hlead hdot, fun h => hroot h.1⟩
            · intro h hroot
              exact h.2 ⟨hroot, hdot⟩
          · rw [← hw.leads_name env hlead (not_or.mp hdot), iff_self_and]
            intro _ h
            exact hdot h.2

theorem WellFormed.leads_hidden {path : List UInt8} (h : HiddenRoot fs d path) :
    ∃ dir, Leads fs d (pathComponents (path.take 511) []) dir := by
  rcases h with ⟨_, hslashes⟩ | ⟨pre, hpre, heq | heq⟩
  · rw [pathComponents_slashes hslashes]
    exact ⟨_, Leads.root⟩
  · rw [heq]
    exact hw.leads_dot hpre (Or.inl rfl)
  · rw [heq]
    exact hw.leads_dot hpre (Or.inr rfl)

/-- **The two answers.**  They agree on a path of which at most separators are cut off if and
    only if it is not one of the hidden names of the root; on a longer path, if and only if
    the beginning leads to a directory, and under no hidden name, just when the whole does. -/
theorem is_dir_iff_stat_iff (hn : ProperNames fs d (fatRootDir fs)) (path : List UInt8) :
    (fatIsDir env fs d path = true ↔ StatsDir env fs d path) ↔
      if (path.drop 511).all isSlash = true then ¬HiddenRoot fs d path
      else ((∃ dir, Leads fs d (pathComponents path []) dir) ↔
        (∃ dir, Leads fs d (pathComponents (path.take 511) []) dir) ∧ ¬HiddenRoot fs d path) := by
  have hisDir : fatIsDir env fs d path = true ↔
      ∃ dir, Leads fs d (pathComponents path []) dir := by
    rw [fatIsDir, Option.isSome_iff_exists]
    exact exists_congr fun dir => hw.resolveFrom_iff env
  rw [hisDir, hw.statsDir_iff env hn]
  split
  · next hcut =>
    have hcomps := pathComponents_trailing (path.take 511) (List.all_eq_true.mp hcut)
    rw [List.take_append_drop] at hcomps
    rw [hcomps]
    constructor
    · intro hiff hhidden
      exact (hiff.mp (hw.leads_hidden hhidden)).2 hhidden
    · intro hhidden
      exact ⟨fun h => ⟨h, hhidden⟩, fun h => h.1⟩
  · exact Iff.rfl

end

theorem properNames_smallDiskWithFile :
    ProperNames smallFs smallDiskWithFile (fatRootDir smallFs) := by
  have hchildren : childAddrs smallFs smallDiskWithFile (fatRootDir smallFs) =
      [smallFs.rootDirStartSector * 512] := by decide +kernel
  have hlfn : ∀ a ∈ dirAddrs smallFs smallDiskWithFile (fatRootDir smallFs),
      (slotAt smallDiskWithFile a).isLfn = false := by decide +kernel
  constructor
  · intro a ha
    rw [hchildren, List.mem_singleton] at ha
    subst ha
    decide +kernel
  · intro chk pre xs post hsplit hrun
    cases xs with
    | nil => exact hrun.elim
    | cons x xs =>
      have hx : x ∈ (dirAddrs smallFs smallDiskWithFile (fatRootDir smallFs)).map
          (seen smallDiskWithFile) := by
        rw [hsplit]
        simp
      obtain ⟨a, ha, rfl⟩ := List.mem_map.mp hx
      have hpiece := hrun.2.1.lfn
      rw [show (seen smallDiskWithFile a).entry = slotAt smallDiskWithFile a from rfl,
        hlfn a ha] at hpiece
      cases hpiece

theorem is_dir_iff_stat_small :
    fatIsDir Env.ideal smallFs smallDiskWithFile [0x2F, 0x41] = true ↔
      StatsDir Env.ideal smallFs smallDiskWithFile [0x2F, 0x41] := by
  refine (is_dir_iff_stat_iff wellFormed_smallDiskWithFile Env.ideal
    properNames_smallDiskWithFile [0x2F, 0x41]).mpr ?_
  rw [if_pos (by decide +kernel)]
  have hcomps : pathComponents ([0x2F, 0x41].take 511) [] = [] ++ [[0x41]] := by decide +kernel
  rintro (⟨_, h⟩ | ⟨pre, _, heq | heq⟩)
  · exact absurd (h 0x41 (by decide +kernel)) (by decide)
  · rw [hcomps] at heq
    exact absurd (List.append_inj' heq rfl).2 (by decide)
  · rw [hcomps] at heq
    exact absurd (List.append_inj' heq rfl).2 (by decide)

/-- `fat_is_dir` takes `.` for the root, `fat_stat` looks for an entry `.` there. -/
theorem is_dir_dot_not_stat :
    WellFormed smallFs smallDiskWithFile ∧
      ProperNames smallFs smallDiskWithFile (fatRootDir smallFs) ∧
      fatIsDir Env.ideal smallFs smallDiskWithFile [0x2E] = true ∧
      ¬StatsDir Env.ideal smallFs smallDiskWithFile [0x2E] := by
  refine ⟨wellFormed_smallDiskWithFile, properNames_smallDiskWithFile, by decide +kernel, ?_⟩
  have hstat : fatStat Env.ideal smallFs smallDiskWithFile [0x2E] = none := by decide +kernel
  rintro ⟨_, _, h, _⟩
  rw [hstat] at h
  cases h

end Gemios
