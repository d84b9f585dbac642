import Gemios.FatFaultsSound
import Gemios.FatMirrorOps

/-!
# What the calls find before they write

Up to its first write a call only looks.  With requests for memory denied it can come to
other directories than the path names: a failed lookup of `..` leads to the root.  On a
volume in bounds it still comes to directories and slots of the volume.
-/

namespace Gemios.Faulty

open World

/-! ### The parts that only look -/

section

variable (fs : FatFs)

theorem readOnly_bdevRead (lba : Nat) : (bdevRead lba).ReadOnly := Prog.readOnly_read _

theorem readOnly_kmallocOk : kmallocOk.ReadOnly := Prog.readOnly_alloc

theorem readOnly_getNextCluster (c : Nat) : (getNextCluster fs c).ReadOnly := by
  unfold getNextCluster
  refine Prog.ReadOnly.ite (Prog.readOnly_pure _) ?_
  cases fs.type with
  | unknown => exact Prog.readOnly_pure _
  | fat12 => exact Prog.readOnly_pure _
  | fat16 | fat32 =>
    refine (readOnly_bdevRead _).bind fun b => ?_
    cases b with
    | none => exact Prog.readOnly_pure _
    | some sector => exact Prog.readOnly_pure _

theorem readOnly_loadFatSector (sec : Nat) (st : FatCache) : (loadFatSector sec st).ReadOnly := by
  refine Prog.ReadOnly.ite ?_ (Prog.readOnly_pure _)
  refine (readOnly_bdevRead _).bind fun b => ?_
  cases b with
  | none => exact Prog.readOnly_pure _
  | some sector => exact Prog.readOnly_pure _

theorem readOnly_freeTurn (width c : Nat) (st : FatCache) : (freeTurn fs width c st).ReadOnly := by
  refine (readOnly_loadFatSector _ st).bind fun loaded => ?_
  cases loaded with
  | none => exact Prog.readOnly_pure _
  | some st => exact Prog.readOnly_pure _

theorem readOnly_scanFat (width : Nat) (cs : List Nat) : (scanFat fs width cs).ReadOnly :=
  (Prog.readOnly_loop (readOnly_freeTurn fs width) cs _).map _

theorem readOnly_freeCluster : (freeCluster fs).ReadOnly := by
  unfold freeCluster
  cases fs.type with
  | unknown => exact Prog.readOnly_pure _
  | fat12 => exact Prog.readOnly_pure _
  | fat16 => exact readOnly_scanFat fs 2 _
  | fat32 => exact readOnly_scanFat fs 4 _

theorem readOnly_readCluster (c : Nat) : (readCluster fs c).ReadOnly :=
  Prog.ReadOnly.ite (Prog.readOnly_pure _) (readOnly_bdevRead _)

section Walk

variable {σ ρ : Type} (body : Nat → Nat → Slot → σ → Ctl σ ρ)

theorem readOnly_scanRootDir (s : σ) : (scanRootDir fs body s).ReadOnly := by
  refine Prog.readOnly_loop (fun i st => ?_) _ s
  refine (readOnly_bdevRead _).bind fun b => ?_
  cases b with
  | none => exact Prog.readOnly_pure _
  | some sector => exact Prog.readOnly_pure _

theorem readOnly_scanChain (enter : Nat → σ → σ) : ∀ (visits cur : Nat) (s : σ),
    (scanChain fs body enter visits cur s).ReadOnly := by
  intro visits
  induction visits with
  | zero =>
    intro cur s
    exact Prog.readOnly_pure _
  | succ visits ih =>
    intro cur s
    rw [scanChain]
    refine Prog.ReadOnly.ite ?_ (Prog.readOnly_pure _)
    refine (readOnly_readCluster fs cur).bind fun b => ?_
    cases b with
    | none => exact Prog.readOnly_pure _
    | some buf =>
      dsimp only
      cases (scanCluster fs body cur buf (enter cur s)).resume with
      | ret r => exact Prog.readOnly_pure _
      | stop s' => exact Prog.readOnly_pure _
      | next s' =>
        refine (readOnly_getNextCluster fs cur).bind fun next => ?_
        exact Prog.ReadOnly.ite (Prog.readOnly_pure _) (ih _ _)

end Walk

theorem readOnly_fatDirFindEntry (dir : FatDir) (name : List UInt8) :
    (fatDirFindEntry fs dir name).ReadOnly := by
  refine Prog.ReadOnly.ite ((readOnly_scanRootDir fs _ _).map _) ?_
  refine Prog.ReadOnly.ite (Prog.readOnly_pure _) ?_
  refine readOnly_kmallocOk.bind fun ok => ?_
  exact Prog.ReadOnly.ite (Prog.readOnly_pure _) ((readOnly_scanChain fs _ _ _ _ _).map _)

theorem readOnly_searchSlots (dir : FatDir) (name : List UInt8) (numSlots : Nat) :
    (searchSlots fs dir name numSlots).ReadOnly := by
  refine (readOnly_fatDirFindEntry fs dir name).bind fun found => ?_
  cases found with
  | some loc => exact Prog.readOnly_pure _
  | none =>
    refine Prog.ReadOnly.ite ?_ ?_
    · refine (readOnly_scanRootDir fs _ _).bind fun r => ?_
      cases r with
      | next s => exact Prog.readOnly_pure _
      | stop s => exact Prog.readOnly_pure _
      | ret p => exact Prog.readOnly_pure _
    · refine Prog.ReadOnly.ite (Prog.readOnly_pure _) ?_
      refine readOnly_kmallocOk.bind fun ok => ?_
      refine Prog.ReadOnly.ite (Prog.readOnly_pure _) ?_
      refine (readOnly_scanChain fs _ _ _ _ _).bind fun r => ?_
      cases r with
      | next s => exact Prog.readOnly_pure _
      | stop s => exact Prog.readOnly_pure _
      | ret p => exact Prog.readOnly_pure _

theorem readOnly_aliasLoop (afterShort : Nat → List UInt8) (dir : FatDir) (name : List UInt8) :
    ∀ (tails : List Nat) (last : List UInt8),
      (aliasLoop afterShort fs dir name tails last).ReadOnly := by
  intro tails
  induction tails with
  | nil =>
    intro last
    exact Prog.readOnly_pure _
  | cons tail tails ih =>
    intro last
    refine (readOnly_fatDirFindEntry fs dir _).bind fun found => ?_
    cases found with
    | none => exact Prog.readOnly_pure _
    | some loc => exact ih _

theorem readOnly_chooseShortName (afterShort : Nat → List UInt8) (dir : FatDir)
    (name : List UInt8) : (chooseShortName afterShort fs dir name).ReadOnly :=
  Prog.ReadOnly.ite (readOnly_aliasLoop fs afterShort dir name _ _) (Prog.readOnly_pure _)

theorem readOnly_parentDir (dir : FatDir) : (parentDir fs dir).ReadOnly := by
  refine Prog.ReadOnly.ite (Prog.readOnly_pure _) ?_
  refine (readOnly_fatDirFindEntry fs dir _).bind fun found => ?_
  cases found with
  | none => exact Prog.readOnly_pure _
  | some loc => exact Prog.ReadOnly.ite (Prog.readOnly_pure _) (Prog.readOnly_pure _)

theorem readOnly_resolveStep (dir : FatDir) (comp : List UInt8) :
    (resolveStep fs dir comp).ReadOnly := by
  refine Prog.ReadOnly.ite (Prog.readOnly_pure _) ?_
  refine Prog.ReadOnly.ite ((readOnly_parentDir fs dir).map _) ?_
  refine (readOnly_fatDirFindEntry fs dir comp).bind fun found => ?_
  cases found with
  | none => exact Prog.readOnly_pure _
  | some loc => exact Prog.ReadOnly.ite (Prog.readOnly_pure _) (Prog.readOnly_pure _)

theorem readOnly_resolveFrom (comps : List (List UInt8)) (dir : FatDir) :
    (resolveFrom fs dir comps).ReadOnly := by
  induction comps generalizing dir with
  | nil => exact Prog.readOnly_pure _
  | cons comp comps ih =>
    refine (readOnly_resolveStep fs dir comp).bind fun r => ?_
    cases r with
    | none => exact Prog.readOnly_pure _
    | some dir' => exact ih dir'

theorem readOnly_fatResolveParentAndName (path : List UInt8) :
    (fatResolveParentAndName fs path).ReadOnly := by
  refine Prog.ReadOnly.ite (Prog.readOnly_pure _) ?_
  dsimp only
  cases lastSlash (cleanPath path) with
  | none => exact Prog.readOnly_pure _
  | some k =>
    cases k with
    | zero => exact Prog.readOnly_pure _
    | succ k =>
      refine (readOnly_resolveFrom fs _ _).bind fun r => ?_
      cases r with
      | none => exact Prog.readOnly_pure _
      | some dir => exact Prog.readOnly_pure _

end

/-! ### Lookups and the slot search -/

/-- What the slot search can find on a volume in bounds. -/
def SearchOk (env : Env) (fs : FatFs) (d : Disk) : SlotSearch → Prop
  | .failed => True
  | .existing loc => LocOk env fs d loc
  | .place sec slot => DirSec fs sec ∧ slot < 16
  | .full last => last = 0 ∨ fs.InRange last

section

variable {fs : FatFs} (hp : fs.Placed) (env : Env) [env.NoFault] {d : Disk}
  (hb : InBounds env fs d) (g : Nat → Bool)

include hp hb

theorem fatDirFindEntry_locOk {dir : FatDir} (hdir : VisitDir env fs d dir) {name : List UInt8}
    {loc : EntryLoc} (h : ((fatDirFindEntry fs dir name).run (sound d g)).1 = some loc) :
    LocOk env fs d loc := by
  rcases fatDirFindEntry_found env fs d g dir name with hnone | hsame
  · rw [hnone] at h
    cases h
  · exact Gemios.fatDirFindEntry_locOk hp env hb hdir (hsame.symm.trans h)

theorem searchSlots_ok {dir : FatDir} (hdir : VisitDir env fs d dir) (name : List UInt8)
    (numSlots : Nat) :
    SearchOk env fs d ((searchSlots fs dir name numSlots).run (sound d g)).1 := by
  rw [searchSlots, Prog.run_bind]
  obtain ⟨g', hg'⟩ := (readOnly_fatDirFindEntry fs dir name).run_sound d g
  rw [hg']
  cases hfind : ((fatDirFindEntry fs dir name).run (sound d g)).1 with
  | some loc => exact fatDirFindEntry_locOk hp env hb g hdir hfind
  | none =>
    dsimp only
    rcases hdir with ⟨hfix, ht⟩ | ⟨hfix, hc⟩
    · have hsat := scanRootDir_freeRun hp env hb ht numSlots
      rw [if_pos hfix, Prog.run_bind, scanRootDir_sound env]
      dsimp only
      generalize Gemios.scanRootDir env fs (fun _ => d) (freeRunBody numSlots) ⟨0, 0, 0, 0⟩ = r
        at hsat ⊢
      cases r with
      | next r => trivial
      | stop r => trivial
      | ret p => exact hsat
    · rw [hfix, if_neg Bool.false_ne_true]
      split
      · trivial
      · next hguard =>
        have hsat := scanChain_freeRun hp env hb (hc.resolve_left fun hlt => hguard (Or.inl hlt))
          numSlots
        rw [Prog.run_bind, kmallocOk_sound]
        dsimp only
        split
        · trivial
        · rw [Prog.run_bind, scanChain_sound env]
          dsimp only
          generalize Gemios.scanChain env fs (fun _ => d) (fun c r => { r with lastCluster := c })
            (freeRunBody numSlots) maxVisits dir.cluster ⟨0, 0, 0, 0⟩ = r at hsat ⊢
          cases r with
          | next r => exact hsat.last
          | stop r => exact hsat.last
          | ret p => exact hsat

end

/-! ### Paths

A lookup of `..` that is denied memory leads to the root, and the walk goes on from
there: what it comes to is what some shorter path names. -/

theorem pathComponents_suffix {suf : List (List UInt8)} (hsuf : suf ≠ []) :
    ∀ (s acc : List UInt8) (pre : List (List UInt8)), pre ≠ [] →
      pathComponents s acc = pre ++ suf →
      ∃ s', s'.length ≤ s.length ∧ (acc = [] → s'.length < s.length) ∧
        pathComponents s' [] = suf := by
  -- what is left after the component under way
  have hcut : ∀ {comp : List UInt8} {rest pre : List (List UInt8)}, pre ≠ [] →
      comp :: rest = pre ++ suf → rest = suf ∨ ∃ pre', pre' ≠ [] ∧ rest = pre' ++ suf := by
    intro comp rest pre hpre h
    cases pre with
    | nil => exact absurd rfl hpre
    | cons p pre =>
      cases pre with
      | nil => exact Or.inl (List.cons.inj h).2
      | cons q pre => exact Or.inr ⟨q :: pre, List.cons_ne_nil q pre, (List.cons.inj h).2⟩
  intro s
  induction s with
  | nil =>
    intro acc pre hpre h
    rw [pathComponents] at h
    split at h
    · exact absurd (List.append_eq_nil_iff.mp h.symm).1 hpre
    · rcases hcut hpre h with hrest | ⟨pre', hne, hrest⟩
      · exact absurd hrest.symm hsuf
      · exact absurd (List.append_eq_nil_iff.mp hrest.symm).1 hne
  | cons c cs ih =>
    intro acc pre hpre h
    rw [pathComponents] at h
    -- the path that goes on after this character
    have hrest : ∀ {acc' : List UInt8} {pre' : List (List UInt8)}, pre' ≠ [] →
        pathComponents cs acc' = pre' ++ suf → ∃ s', s'.length ≤ (c :: cs).length ∧
          (acc = [] → s'.length < (c :: cs).length) ∧ pathComponents s' [] = suf := by
      intro acc' pre' hne h'
      obtain ⟨s', hle, _, hs'⟩ := ih acc' pre' hne h'
      exact ⟨s', Nat.le_succ_of_le hle, fun _ => Nat.lt_succ_of_le hle, hs'⟩
    by_cases hslash : isSlash c = true
    · rw [if_pos hslash] at h
      by_cases hacc : acc = []
      · rw [if_pos hacc] at h
        exact hrest hpre h
      · rw [if_neg hacc] at h
        rcases hcut hpre h with hrest' | ⟨pre', hne, hrest'⟩
        · exact ⟨cs, Nat.le_succ _, fun _ => Nat.lt_succ_self _, hrest'⟩
        · exact hrest hne hrest'
    · rw [if_neg hslash] at h
      by_cases hlen : acc.length = 255
      · rw [if_pos hlen] at h
        rcases hcut hpre h with hrest' | ⟨pre', hne, hrest'⟩
        · refine ⟨c :: cs, Nat.le_refl _, fun hacc => ?_, ?_⟩
          · rw [hacc] at hlen
            exact absurd hlen (by decide)
          · rw [pathComponents, if_neg hslash, if_neg (by decide)]
            exact hrest'
        · exact hrest hne hrest'
      · rw [if_neg hlen] at h
        exact hrest hpre h

theorem lastSlash_lt {s : List UInt8} {k : Nat} (h : lastSlash s = some k) : k < s.length := by
  induction s generalizing k with
  | nil => cases h
  | cons x xs ih =>
    rw [lastSlash] at h
    cases hlast : lastSlash xs with
    | some j =>
      rw [hlast] at h
      obtain rfl := Option.some.inj h
      exact Nat.succ_lt_succ (ih hlast)
    | none =>
      rw [hlast] at h
      dsimp only at h
      split at h
      · obtain rfl := Option.some.inj h
        exact Nat.succ_pos _
      · cases h

theorem lastSlash_name (s : List UInt8) : lastSlash (s ++ [0x2F, 0x41]) = some s.length := by
  induction s with
  | nil => rfl
  | cons x xs ih =>
    rw [List.cons_append, lastSlash, ih]
    rfl

theorem length_cleanPath (path : List UInt8) : (cleanPath path).length ≤ 511 := by
  have hstrip : ∀ s : List UInt8, (stripSlashes s).length ≤ s.length := by
    intro s
    cases s with
    | nil => exact Nat.le_refl 0
    | cons c cs =>
      rw [stripSlashes, List.length_cons, List.length_reverse, List.length_cons]
      have hdrop := (List.dropWhile_sublist isSlash (l := cs.reverse)).length_le
      rw [List.length_reverse] at hdrop
      exact Nat.succ_le_succ hdrop
  exact Nat.le_trans (hstrip _) (List.length_take_le _ _)

theorem cleanPath_name {s : List UInt8} (hlen : s.length ≤ 509) :
    cleanPath (s ++ [0x2F, 0x41]) = s ++ [0x2F, 0x41] := by
  have hle : (s ++ [0x2F, 0x41]).length ≤ 511 := by
    rw [List.length_append]
    exact Nat.add_le_add_right hlen 2
  rw [cleanPath, List.take_of_length_le hle]
  cases s with
  | nil => rfl
  | cons c cs =>
    rw [List.cons_append, stripSlashes, List.reverse_append]
    have hlast : (([0x2F, 0x41] : List UInt8).reverse ++ cs.reverse).dropWhile isSlash =
        ([0x2F, 0x41] : List UInt8).reverse ++ cs.reverse := rfl
    rw [hlast, ← List.reverse_append, List.reverse_reverse]

section

variable (env : Env) {fs : FatFs} {d : Disk}

theorem visitDir_root : VisitDir env fs d (fatRootDir fs) := by
  have hname : Gemios.fatResolveParentAndName env fs d [0x41] = some (fatRootDir fs, [0x41]) := rfl
  exact (fatResolveParentAndName_ok hname).1

theorem visitDir_of_resolve {s : List UInt8} (hlen : s.length ≤ 509) {dir : FatDir}
    (h : Gemios.fatResolveDir env fs d s = some dir) : VisitDir env fs d dir := by
  cases s with
  | nil =>
    obtain rfl := Option.some.inj h
    exact visitDir_root env
  | cons c cs =>
    have hpath : Gemios.fatResolveParentAndName env fs d (c :: cs ++ [0x2F, 0x41]) =
        some (dir, [0x41]) := by
      have hne : ¬ c :: cs ++ [0x2F, 0x41] = [] := List.cons_ne_nil c _
      have htake : (c :: cs ++ [0x2F, 0x41]).take (cs.length + 1) = c :: cs :=
        (List.take_left : (c :: cs ++ [0x2F, 0x41]).take (c :: cs).length = c :: cs)
      have hdrop : (c :: cs ++ [0x2F, 0x41]).drop (cs.length + 2) = [0x41] := by
        have hone := List.drop_drop (i := 1) (j := cs.length + 1) (l := c :: cs ++ [0x2F, 0x41])
        rw [← hone]
        exact congrArg (List.drop 1) List.drop_left
      have hlast := lastSlash_name (c :: cs)
      rw [List.length_cons] at hlast
      rw [Gemios.fatResolveParentAndName, if_neg hne]
      simp only [cleanPath_name hlen, hlast, htake, hdrop, h]
      rfl
    exact (fatResolveParentAndName_ok hpath).1

variable (fs d) [env.NoFault]

theorem resolveStep_found (g : Nat → Bool) (dir : FatDir) (comp : List UInt8) :
    ((resolveStep fs dir comp).run (sound d g)).1 = none ∨
      ((resolveStep fs dir comp).run (sound d g)).1 = Gemios.resolveStep env fs d dir comp ∨
      ((resolveStep fs dir comp).run (sound d g)).1 = some (fatRootDir fs) := by
  unfold resolveStep Gemios.resolveStep
  split
  · exact Or.inr (Or.inl rfl)
  · split
    · rw [Prog.run_map]
      unfold parentDir Gemios.parentDir
      split
      · exact Or.inr (Or.inl rfl)
      · rw [Prog.run_bind]
        rcases fatDirFindEntry_found env fs d g dir [0x2E, 0x2E] with hfind | hfind
        · rw [hfind]
          exact Or.inr (Or.inr rfl)
        · rw [hfind]
          refine Or.inr (Or.inl ?_)
          cases Gemios.fatDirFindEntry env fs d dir [0x2E, 0x2E] with
          | none => rfl
          | some loc =>
            dsimp only
            split <;> rfl
    · rw [Prog.run_bind]
      rcases fatDirFindEntry_found env fs d g dir comp with hfind | hfind
      · rw [hfind]
        exact Or.inl rfl
      · rw [hfind]
        refine Or.inr (Or.inl ?_)
        cases Gemios.fatDirFindEntry env fs d dir comp with
        | none => rfl
        | some loc =>
          dsimp only
          split <;> rfl

theorem resolveFrom_found {dir' : FatDir} : ∀ (comps : List (List UInt8)) (g : Nat → Bool)
    (dir : FatDir), ((resolveFrom fs dir comps).run (sound d g)).1 = some dir' →
      Gemios.resolveFrom env fs d dir comps = some dir' ∨
        ∃ pre suf, pre ≠ [] ∧ comps = pre ++ suf ∧
          Gemios.resolveFrom env fs d (fatRootDir fs) suf = some dir' := by
  intro comps
  induction comps with
  | nil =>
    intro g dir h
    exact Or.inl h
  | cons comp comps ih =>
    intro g dir h
    rw [resolveFrom, Prog.run_bind] at h
    obtain ⟨g', hg'⟩ := (readOnly_resolveStep fs dir comp).run_sound d g
    rw [hg'] at h
    rcases resolveStep_found env fs d g dir comp with hstep | hstep | hstep
    · rw [hstep] at h
      cases h
    · rw [hstep] at h
      rw [Gemios.resolveFrom]
      cases hnext : Gemios.resolveStep env fs d dir comp with
      | none =>
        rw [hnext] at h
        cases h
      | some dir₁ =>
        rw [hnext] at h
        rcases ih g' dir₁ h with hsame | ⟨pre, suf, _, rfl, hroot⟩
        · exact Or.inl hsame
        · exact Or.inr ⟨comp :: pre, suf, List.cons_ne_nil _ _, rfl, hroot⟩
    · rw [hstep] at h
      rcases ih g' (fatRootDir fs) h with hsame | ⟨pre, suf, _, rfl, hroot⟩
      · exact Or.inr ⟨[comp], comps, List.cons_ne_nil _ _, rfl, hsame⟩
      · exact Or.inr ⟨comp :: pre, suf, List.cons_ne_nil _ _, rfl, hroot⟩

/-- **Path resolution.**  With whatever requests denied, a path leads to a directory of
    the volume and to a name of 255 bytes at most. -/
theorem fatResolveParentAndName_visit (g : Nat → Bool) {path : List UInt8} {dir : FatDir}
    {name : List UInt8}
    (h : ((fatResolveParentAndName fs path).run (sound d g)).1 = some (dir, name)) :
    VisitDir env fs d dir ∧ name.length ≤ 255 := by
  unfold fatResolveParentAndName at h
  split at h
  · cases h
  · next hne =>
    dsimp only at h
    cases hlast : lastSlash (cleanPath path) with
    | none =>
      rw [hlast] at h
      cases h
      exact ⟨visitDir_root env, List.length_take_le _ _⟩
    | some k =>
      rw [hlast] at h
      cases k with
      | zero =>
        cases h
        exact ⟨visitDir_root env, List.length_take_le _ _⟩
      | succ k =>
        dsimp only at h
        rw [Prog.run_bind] at h
        cases hres : ((fatResolveDir fs ((cleanPath path).take (k + 1))).run (sound d g)).1 with
        | none =>
          rw [hres] at h
          cases h
        | some dir₁ =>
          rw [hres] at h
          cases h
          refine ⟨?_, List.length_take_le _ _⟩
          have hlen := length_cleanPath path
          have hlt := lastSlash_lt hlast
          have htake : ((cleanPath path).take (k + 1)).length ≤ k + 1 := List.length_take_le _ _
          rcases resolveFrom_found env fs d _ g (fatRootDir fs) hres with
            hsame | ⟨pre, suf, hpre, hcomps, hroot⟩
          · have hpath : Gemios.fatResolveParentAndName env fs d path =
                some (dir, ((cleanPath path).drop (k + 2)).take 255) := by
              rw [Gemios.fatResolveParentAndName, if_neg hne]
              simp only [hlast, Gemios.fatResolveDir, hsame]
            exact (fatResolveParentAndName_ok hpath).1
          · by_cases hsuf : suf = []
            · rw [hsuf] at hroot
              cases hroot
              exact visitDir_root env
            · obtain ⟨s', _, hshort, hs'⟩ := pathComponents_suffix hsuf _ _ _ hpre hcomps
              have hlt' := hshort rfl
              refine visitDir_of_resolve env (by omega) (s := s') ?_
              rw [Gemios.fatResolveDir, hs']
              exact hroot

end

end Gemios.Faulty
