import Gemios.FatFaults
import Gemios.FatTableSpec

/-!
# On a device that never dies

There the programs do what the functions of the fault-free model do.  A request for
memory can still be denied: a lookup then finds nothing.
-/

namespace Gemios.Faulty

open World

def granted : Nat → Bool := fun _ => true

section

variable (env : Env) [env.NoFault] (fs : FatFs) (d : Disk) (g : Nat → Bool)

/-! ### The device, the FAT and the clusters -/

@[simp] theorem bdevRead_sound (lba : Nat) :
    (bdevRead lba).run (sound d g) = (some fun i => d (lba * 512 + i), sound d g) := rfl

@[simp] theorem bdevWrite_sound (lba count : Nat) (b : Buf) :
    (bdevWrite lba count b).run (sound d g) = (0, sound (d.blit lba count b) g) := rfl

@[simp] theorem kmallocOk_sound : kmallocOk.run (sound d g) = (g 0, sound d fun n => g (n + 1)) :=
  rfl

theorem getNextCluster_alive {c : Nat} {w : World Disk} (hw : ¬ w.Dead) :
    ((getNextCluster fs c).run w).1 = Gemios.getNextCluster env fs w.dev c := by
  unfold getNextCluster Gemios.getNextCluster bdevRead
  split
  · rfl
  · cases fs.type with
    | unknown => rfl
    | fat12 => rfl
    | fat16 => simp only [Prog.run_bind, Prog.run_read _ hw, bdevRead_eq, Prog.run_pure]
    | fat32 => simp only [Prog.run_bind, Prog.run_read _ hw, bdevRead_eq, Prog.run_pure]

theorem getNextCluster_sound (c : Nat) :
    (getNextCluster fs c).run (sound d g) = (Gemios.getNextCluster env fs d c, sound d g) := by
  unfold getNextCluster Gemios.getNextCluster
  split
  · rfl
  · cases fs.type with
    | unknown => rfl
    | fat12 => rfl
    | fat16 => simp only [Prog.run_bind, bdevRead_sound, bdevRead_eq, Prog.run_pure]
    | fat32 => simp only [Prog.run_bind, bdevRead_sound, bdevRead_eq, Prog.run_pure]

theorem writeFatSector_sound (sec : Nat) (b : Buf) :
    (writeFatSector fs sec b).run (sound d g) =
      ((Gemios.writeFatSector env fs d sec b).1,
        sound (Gemios.writeFatSector env fs d sec b).2 g) := by
  unfold writeFatSector Gemios.writeFatSector
  simp only [Prog.run_bind, bdevWrite_sound, bdevWrite_eq, ne_eq, not_true_eq_false, if_false]
  split
  · simp only [Prog.run_bind, bdevWrite_sound, Prog.run_pure]
  · rfl

theorem setFatEntry_sound (c v : Nat) :
    (setFatEntry fs c v).run (sound d g) =
      ((Gemios.setFatEntry env fs d c v).1, sound (Gemios.setFatEntry env fs d c v).2 g) := by
  unfold setFatEntry Gemios.setFatEntry
  split
  · rfl
  · cases fs.type with
    | unknown => rfl
    | fat12 => rfl
    | fat16 => simp only [Prog.run_bind, bdevRead_sound, bdevRead_eq, writeFatSector_sound env]
    | fat32 => simp only [Prog.run_bind, bdevRead_sound, bdevRead_eq, writeFatSector_sound env]

theorem freeTurn_sound (width c : Nat) (st : FatCache) :
    (freeTurn fs width c st).run (sound d g) =
      ((allocTurn env fs d width c st).map id Prod.fst, sound d g) := by
  have hload : ∀ sec, (loadFatSector sec st).run (sound d g) =
      (some (if sec ≠ st.curSector then ⟨sec, fun i => d (sec * 512 + i)⟩ else st), sound d g) := by
    intro sec
    unfold loadFatSector
    split
    · rw [Prog.run_bind, bdevRead_sound]
      rfl
    · rfl
  unfold freeTurn allocTurn
  dsimp only
  rw [Prog.run_bind, hload]
  by_cases hcur : (fatEntryPos fs width c).1 ≠ st.curSector
  · simp only [if_pos hcur, bdevRead_eq, Prog.run_pure]
    rw [apply_ite (Ctl.map id Prod.fst)]
    rfl
  · simp only [if_neg hcur, Prog.run_pure]
    rw [apply_ite (Ctl.map id Prod.fst)]
    rfl

theorem scanFat_sound (width : Nat) (cs : List Nat) :
    (scanFat fs width cs).run (sound d g) =
      (scanned ((scan (allocTurn env fs d width) cs ⟨0xFFFFFFFF, fun _ => 0⟩).map id Prod.fst),
        sound d g) := by
  have hscan : ∀ st, scan (fun c st => (allocTurn env fs d width c st).map id Prod.fst) cs st =
      (scan (allocTurn env fs d width) cs st).map id Prod.fst :=
    fun st => scan_map_state (f := id) (fun _ _ => rfl) cs st
  rw [scanFat, Prog.run_map, Prog.run_loop (fun c st => freeTurn_sound env fs d g width c st),
    hscan]

theorem freeCluster_sound :
    (freeCluster fs).run (sound d g) = ((Gemios.allocFreeCluster env fs d).1, sound d g) := by
  unfold freeCluster Gemios.allocFreeCluster
  dsimp only
  cases fs.type with
  | unknown => rfl
  | fat12 => rfl
  | fat16 =>
    dsimp only
    rw [scanFat_sound env]
    cases scan (allocTurn env fs d 2) _ ⟨0xFFFFFFFF, fun _ => 0⟩ with
    | next st => rfl
    | stop st => rfl
    | ret r => rfl
  | fat32 =>
    dsimp only
    rw [scanFat_sound env]
    cases scan (allocTurn env fs d 4) _ ⟨0xFFFFFFFF, fun _ => 0⟩ with
    | next st => rfl
    | stop st => rfl
    | ret r => rfl

theorem readCluster_sound (c : Nat) :
    (readCluster fs c).run (sound d g) = (Gemios.readCluster env fs d c, sound d g) := by
  unfold readCluster Gemios.readCluster
  split
  · rfl
  · rw [bdevRead_sound, bdevRead_eq]

theorem writeCluster_sound (c : Nat) (b : Buf) :
    (writeCluster fs c b).run (sound d g) =
      ((Gemios.writeCluster env fs d c b).1, sound (Gemios.writeCluster env fs d c b).2 g) := by
  unfold writeCluster Gemios.writeCluster
  split
  · rfl
  · rw [bdevWrite_sound, bdevWrite_eq]

variable {fs} in
theorem allocFreeCluster_sound (hs : fs.Sound) :
    (allocFreeCluster fs).run (sound d g) =
      ((Gemios.allocFreeCluster env fs d).1, sound (Gemios.allocFreeCluster env fs d).2 g) := by
  rw [allocFreeCluster, Prog.run_bind, freeCluster_sound env, allocFreeCluster_eq hs env]
  cases hfree : fs.freeCluster? d with
  | none => rfl
  | some c =>
    have hc := (freeCluster?_some hs hfree).1
    have hne : c ≠ 0 := by
      have := hc.1
      omega
    dsimp only
    rw [if_neg hne, Prog.run_bind, setFatEntry_sound env, setFatEntry_eq hs env d hc]
    rfl

/-! ### Walks and lookups -/

section Walk

variable {σ ρ : Type} (body : Nat → Nat → Slot → σ → Ctl σ ρ)

theorem scanRootDir_sound (s : σ) :
    (scanRootDir fs body s).run (sound d g) =
      (Gemios.scanRootDir env fs (fun _ => d) body s, sound d g) := by
  refine Prog.run_loop (fun i st => ?_) _ s
  dsimp only
  rw [rootTurn, Prog.run_bind, bdevRead_sound, bdevRead_eq]
  rfl

theorem scanChain_sound (enter : Nat → σ → σ) : ∀ (visits cur : Nat) (s : σ),
    (scanChain fs body enter visits cur s).run (sound d g) =
      (Gemios.scanChain env fs (fun _ => d) enter body visits cur s, sound d g) := by
  intro visits
  induction visits with
  | zero =>
    intro cur s
    rfl
  | succ visits ih =>
    intro cur s
    rw [scanChain, Gemios.scanChain]
    split
    · dsimp only
      rw [Prog.run_bind, readCluster_sound env]
      cases Gemios.readCluster env fs d cur with
      | none => rfl
      | some buf =>
        dsimp only
        cases (scanCluster fs body cur buf (enter cur s)).resume with
        | ret r => rfl
        | stop s' => rfl
        | next s' =>
          dsimp only
          rw [Prog.run_bind, getNextCluster_sound env]
          dsimp only
          split
          · rfl
          · exact ih _ _
    · rfl

end Walk

/-- Does a lookup in the directory ask for memory? -/
def Asks (dir : FatDir) : Prop :=
  dir.isRootFixed = false ∧ ¬ (dir.cluster < 2 ∨ fs.bytesPerCluster = 0)

instance (dir : FatDir) : Decidable (Asks fs dir) := inferInstanceAs (Decidable (_ ∧ _))

theorem fatDirFindEntry_sound (dir : FatDir) (name : List UInt8) :
    (fatDirFindEntry fs dir name).run (sound d g) =
      if Asks fs dir then
        (if g 0 then Gemios.fatDirFindEntry env fs d dir name else none,
          sound d fun n => g (n + 1))
      else (Gemios.fatDirFindEntry env fs d dir name, sound d g) := by
  unfold fatDirFindEntry Gemios.fatDirFindEntry
  by_cases hfix : dir.isRootFixed = true
  · have hasks : ¬ Asks fs dir := fun h => absurd (hfix.symm.trans h.1) (by decide)
    rw [if_neg hasks, if_pos hfix, Prog.run_map, scanRootDir_sound env]
    simp only [hfix, if_true]
  · by_cases hnone : dir.cluster < 2 ∨ fs.bytesPerCluster = 0
    · have hasks : ¬ Asks fs dir := fun h => h.2 hnone
      simp only [if_neg hasks, if_neg hfix, if_pos hnone]
      rfl
    · have hasks : Asks fs dir := ⟨by simpa using hfix, hnone⟩
      simp only [if_pos hasks, if_neg hfix, if_neg hnone, Prog.run_bind, kmallocOk_sound,
        kmallocOk_eq]
      by_cases hg : g 0 = true
      · simp only [hg, Bool.not_true, Bool.false_eq_true, if_false, if_true]
        rw [Prog.run_map, scanChain_sound env]
      · simp only [Bool.not_eq_true] at hg
        simp only [hg, Bool.not_false, Bool.false_eq_true, if_false, if_true, Prog.run_pure]

theorem fatDirFindEntry_found (dir : FatDir) (name : List UInt8) :
    ((fatDirFindEntry fs dir name).run (sound d g)).1 = none ∨
      ((fatDirFindEntry fs dir name).run (sound d g)).1 =
        Gemios.fatDirFindEntry env fs d dir name := by
  rw [fatDirFindEntry_sound env]
  by_cases hasks : Asks fs dir
  · rw [if_pos hasks]
    by_cases hg : g 0 = true
    · exact Or.inr (if_pos hg)
    · exact Or.inl (if_neg hg)
  · rw [if_neg hasks]
    exact Or.inr rfl

end

/-! ### With every request granted

There the calls are those of the fault-free model. -/

section

variable (env : Env) [env.NoFault] (fs : FatFs) (d : Disk)

@[simp] theorem kmallocOk_granted : kmallocOk.run (sound d granted) = (true, sound d granted) := rfl

theorem fatDirFindEntry_granted (dir : FatDir) (name : List UInt8) :
    (fatDirFindEntry fs dir name).run (sound d granted) =
      (Gemios.fatDirFindEntry env fs d dir name, sound d granted) := by
  rw [fatDirFindEntry_sound env]
  split <;> rfl

theorem parentDir_granted (dir : FatDir) :
    (parentDir fs dir).run (sound d granted) = (Gemios.parentDir env fs d dir, sound d granted) := by
  unfold parentDir Gemios.parentDir
  split
  · rfl
  · rw [Prog.run_bind, fatDirFindEntry_granted env]
    cases Gemios.fatDirFindEntry env fs d dir [0x2E, 0x2E] with
    | none => rfl
    | some loc =>
      dsimp only
      split <;> rfl

theorem resolveStep_granted (dir : FatDir) (comp : List UInt8) :
    (resolveStep fs dir comp).run (sound d granted) =
      (Gemios.resolveStep env fs d dir comp, sound d granted) := by
  unfold resolveStep Gemios.resolveStep
  split
  · rfl
  · split
    · rw [Prog.run_map, parentDir_granted env]
    · rw [Prog.run_bind, fatDirFindEntry_granted env]
      cases Gemios.fatDirFindEntry env fs d dir comp with
      | none => rfl
      | some loc =>
        dsimp only
        split <;> rfl

theorem resolveFrom_granted (comps : List (List UInt8)) (dir : FatDir) :
    (resolveFrom fs dir comps).run (sound d granted) =
      (Gemios.resolveFrom env fs d dir comps, sound d granted) := by
  induction comps generalizing dir with
  | nil => rfl
  | cons comp comps ih =>
    rw [resolveFrom, Prog.run_bind, resolveStep_granted env, Gemios.resolveFrom]
    cases Gemios.resolveStep env fs d dir comp with
    | none => rfl
    | some dir' => exact ih dir'

theorem fatResolveParentAndName_granted (path : List UInt8) :
    (fatResolveParentAndName fs path).run (sound d granted) =
      (Gemios.fatResolveParentAndName env fs d path, sound d granted) := by
  unfold fatResolveParentAndName Gemios.fatResolveParentAndName
  split
  · rfl
  · dsimp only
    cases lastSlash (cleanPath path) with
    | none => rfl
    | some k =>
      cases k with
      | zero => rfl
      | succ k =>
        dsimp only
        rw [Prog.run_bind, fatResolveDir, resolveFrom_granted env, Gemios.fatResolveDir]
        cases Gemios.resolveFrom env fs d (fatRootDir fs)
            (pathComponents ((cleanPath path).take (k + 1)) []) with
        | none => rfl
        | some dir => rfl

theorem aliasLoop_granted (dir : FatDir) (name : List UInt8) :
    ∀ (tails : List Nat) (last : List UInt8),
      (aliasLoop env.afterShort fs dir name tails last).run (sound d granted) =
        (match tails.find? fun tail =>
            !(Gemios.fatDirFindEntry env fs d dir
              (fatGenerateShortAlias name tail ++ env.afterShort tail)).isSome with
          | some tail => fatGenerateShortAlias name tail
          | none => (tails.getLast?.map (fatGenerateShortAlias name)).getD last,
        sound d granted) := by
  intro tails
  induction tails with
  | nil =>
    intro last
    rfl
  | cons tail tails ih =>
    intro last
    rw [aliasLoop, Prog.run_bind, fatDirFindEntry_granted env]
    cases hfind : Gemios.fatDirFindEntry env fs d dir
        (fatGenerateShortAlias name tail ++ env.afterShort tail) with
    | none =>
      rw [List.find?_cons_of_pos (by simp [hfind])]
      rfl
    | some loc =>
      rw [List.find?_cons_of_neg (by simp [hfind])]
      dsimp only
      rw [ih]
      congr 1
      split
      · rfl
      · cases tails with
        | nil => rfl
        | cons t ts => rw [List.getLast?_cons_cons, List.getLast?_eq_some_getLast (by simp)]; rfl

theorem chooseShortName_granted (dir : FatDir) (name : List UInt8) :
    (chooseShortName env.afterShort fs dir name).run (sound d granted) =
      (Gemios.chooseShortName env fs d dir name, sound d granted) := by
  unfold chooseShortName Gemios.chooseShortName
  split
  · rw [aliasLoop_granted, chooseAlias]
    dsimp only
    split
    · next heq => rw [heq]; rfl
    · next heq => rw [heq]; rfl
  · rfl

end

/-! ### With every request granted: the calls

The volume is sound, so the free cluster found is one that `set_fat_entry` can mark. -/

section

variable (env : Env) [env.NoFault] {fs : FatFs} (hs : fs.Sound) (d : Disk)

include hs

theorem appendCluster_granted (last : Nat) :
    (appendCluster fs last).run (sound d granted) =
      match Gemios.allocFreeCluster env fs d with
      | (0, d) => (none, sound d granted)
      | (newC, d) =>
        (some (.place (clusterSector fs newC) 0),
          sound (Gemios.writeCluster env fs (Gemios.setFatEntry env fs d last newC).2 newC
            fun _ => 0).2 granted) := by
  rw [appendCluster, Prog.run_bind, allocFreeCluster_sound env d granted hs]
  cases Gemios.allocFreeCluster env fs d with
  | mk c d₁ =>
    dsimp only
    rw [linkCluster]
    split
    · next h0 =>
      subst h0
      rfl
    · next hne =>
      rw [Prog.run_bind, setFatEntry_sound env]
      dsimp only
      rw [Prog.run_bind, kmallocOk_granted]
      simp only [if_true]
      rw [Prog.run_bind, writeCluster_sound env]
      rfl

theorem fatDirFindOrAllocLfnSlots_granted (dir : FatDir) (name : List UInt8) (numSlots : Nat) :
    (fatDirFindOrAllocLfnSlots fs dir name numSlots).run (sound d granted) =
      ((Gemios.fatDirFindOrAllocLfnSlots env fs d dir name numSlots).1,
        sound (Gemios.fatDirFindOrAllocLfnSlots env fs d dir name numSlots).2 granted) := by
  unfold fatDirFindOrAllocLfnSlots searchSlots Gemios.fatDirFindOrAllocLfnSlots
  rw [Prog.run_bind, Prog.run_bind, fatDirFindEntry_granted env]
  cases Gemios.fatDirFindEntry env fs d dir name with
  | some loc => rfl
  | none =>
    dsimp only
    split
    · rw [Prog.run_bind, scanRootDir_sound env]
      cases Gemios.scanRootDir env fs (fun _ => d) (freeRunBody numSlots) ⟨0, 0, 0, 0⟩ with
      | ret p => rfl
      | next r => rfl
      | stop r => rfl
    · split
      · rfl
      · rw [Prog.run_bind, kmallocOk_granted, kmallocOk_eq]
        simp only [Bool.not_true, Bool.false_eq_true, if_false]
        rw [Prog.run_bind, scanChain_sound env]
        cases Gemios.scanChain env fs (fun _ => d) (fun c r => { r with lastCluster := c })
            (freeRunBody numSlots) maxVisits dir.cluster ⟨0, 0, 0, 0⟩ with
        | ret p => rfl
        | next r | stop r =>
          dsimp only
          rw [Prog.run_pure]
          dsimp only [takeSlots]
          rw [appendCluster_granted env hs]
          simp only [if_true]
          cases Gemios.allocFreeCluster env fs d with
          | mk c d₁ =>
            cases c with
            | zero => rfl
            | succ c => rfl

omit hs in
theorem writeLfnLoop_granted (longName : List UInt8) (numLfn : Nat) (chk : UInt8) :
    ∀ (seq : Nat) (c : SlotCursor),
      (writeLfnLoop fs longName numLfn chk seq c.curSec c.curSlot c.secBuf).run
          (sound c.disk granted) =
        match Gemios.writeLfnLoop env fs longName numLfn chk seq c with
        | .inl c' => (some (c'.curSec, c'.curSlot, c'.secBuf), sound c'.disk granted)
        | .inr d => (none, sound d granted) := by
  intro seq
  induction seq with
  | zero =>
    intro c
    rfl
  | succ seq ih =>
    intro c
    rw [writeLfnLoop, Gemios.writeLfnLoop]
    dsimp only
    split
    · rw [Prog.run_bind, bdevWrite_sound, bdevWrite_eq]
      simp only [ne_eq, not_true_eq_false, if_false, bdevRead_eq]
      rw [Prog.run_bind, bdevRead_sound]
      exact ih ⟨_, _, _, _⟩
    · exact ih ⟨c.disk, c.curSec, c.curSlot + 1, _⟩

omit hs in
theorem fatWriteLfnAndShortEntry_granted (sec slot : Nat) (longName short11 : List UInt8)
    (e : Slot) :
    (fatWriteLfnAndShortEntry fs sec slot longName short11 e).run (sound d granted) =
      ((Gemios.fatWriteLfnAndShortEntry env fs d sec slot longName short11 e).1,
        sound (Gemios.fatWriteLfnAndShortEntry env fs d sec slot longName short11 e).2 granted) := by
  unfold fatWriteLfnAndShortEntry Gemios.fatWriteLfnAndShortEntry
  rw [Prog.run_bind, bdevRead_sound, bdevRead_eq]
  dsimp only
  have hloop := @writeLfnLoop_granted env _ fs longName (numLfnSlots longName)
    (fatLfnChecksum short11) (numLfnSlots longName) ⟨d, sec, slot, fun i => d (sec * 512 + i)⟩
  dsimp only at hloop
  rw [Prog.run_bind, hloop]
  cases Gemios.writeLfnLoop env fs longName (numLfnSlots longName) (fatLfnChecksum short11)
      (numLfnSlots longName) ⟨d, sec, slot, fun i => d (sec * 512 + i)⟩ with
  | inr d₁ => rfl
  | inl c =>
    dsimp only
    rw [bdevWrite_sound, bdevWrite_eq]

omit hs in
theorem writeCluster_cases (fs : FatFs) (d : Disk) (c : Nat) (b : Buf) :
    (∃ d', Gemios.writeCluster env fs d c b = (0, d')) ∨
      ∃ d', Gemios.writeCluster env fs d c b = (-1, d') := by
  unfold Gemios.writeCluster
  split
  · exact Or.inr ⟨d, rfl⟩
  · rw [bdevWrite_eq]
    exact Or.inl ⟨_, rfl⟩

theorem writeLoop_granted (buf : Buf) (len : Nat) : ∀ (fuel : Nat) (d : Disk) (cur written : Nat),
    (writeLoop fs buf len fuel cur written).run (sound d granted) =
      ((Gemios.writeLoop env fs buf len fuel d cur written).1,
        sound (Gemios.writeLoop env fs buf len fuel d cur written).2 granted) := by
  intro fuel
  induction fuel with
  | zero =>
    intro d cur written
    rfl
  | succ fuel ih =>
    intro d cur written
    rw [writeLoop, Gemios.writeLoop]
    dsimp only
    rw [Prog.run_bind, writeCluster_sound env]
    generalize (written + if min fs.bytesPerCluster (len - written) > 0 then
      min fs.bytesPerCluster (len - written) else fs.bytesPerCluster) = written'
    obtain ⟨d₁, hwrite⟩ | ⟨d₁, hwrite⟩ := writeCluster_cases env fs d cur fun i =>
      if i < min fs.bytesPerCluster (len - written) then buf (written + i) else 0
    · rw [hwrite]
      simp only [ne_eq, not_true_eq_false, if_false]
      split
      · rw [Prog.run_bind, setFatEntry_sound env]
        rfl
      · rw [Prog.run_bind, getNextCluster_sound env]
        dsimp only
        split
        · rw [Prog.run_bind, allocFreeCluster_sound env d₁ granted hs]
          cases Gemios.allocFreeCluster env fs d₁ with
          | mk c d₂ =>
            cases c with
            | zero => rfl
            | succ c =>
              dsimp only
              rw [if_neg (Nat.succ_ne_zero c), Prog.run_bind, setFatEntry_sound env]
              exact ih _ _ _
        · exact ih _ _ _
    · rw [hwrite]
      rfl

omit hs in
theorem writeLoop_cases (fs : FatFs) (buf : Buf) (len : Nat) :
    ∀ (fuel : Nat) (d : Disk) (cur written : Nat),
      (∃ d', Gemios.writeLoop env fs buf len fuel d cur written = (0, d')) ∨
        ∃ d', Gemios.writeLoop env fs buf len fuel d cur written = (-1, d') := by
  intro fuel
  induction fuel with
  | zero =>
    intro d cur written
    exact Or.inr ⟨d, rfl⟩
  | succ fuel ih =>
    intro d cur written
    rw [Gemios.writeLoop]
    dsimp only
    generalize (written + if min fs.bytesPerCluster (len - written) > 0 then
      min fs.bytesPerCluster (len - written) else fs.bytesPerCluster) = written'
    obtain ⟨d₁, hwrite⟩ | ⟨d₁, hwrite⟩ := writeCluster_cases env fs d cur fun i =>
      if i < min fs.bytesPerCluster (len - written) then buf (written + i) else 0
    · simp only [hwrite]
      split
      · exact Or.inl ⟨_, rfl⟩
      · split
        · cases Gemios.allocFreeCluster env fs d₁ with
          | mk c d₂ =>
            cases c with
            | zero => exact Or.inr ⟨d₂, rfl⟩
            | succ c => exact ih _ _ _
        · exact ih _ _ _
    · rw [hwrite]
      exact Or.inr ⟨d₁, rfl⟩

theorem createFile_granted (dir : FatDir) (name : List UInt8) (sec slot : Nat) (buf : Buf)
    (len : Nat) :
    (createFile env.afterShort fs dir name sec slot buf len).run (sound d granted) =
      ((Gemios.createFile env fs d dir name sec slot buf len).1,
        sound (Gemios.createFile env fs d dir name sec slot buf len).2 granted) := by
  unfold createFile Gemios.createFile
  rw [Prog.run_bind, allocFreeCluster_sound env d granted hs]
  cases Gemios.allocFreeCluster env fs d with
  | mk c d₁ =>
    cases c with
    | zero => rfl
    | succ c =>
      dsimp only
      rw [fillFile, if_neg (Nat.succ_ne_zero c), Prog.run_bind, kmallocOk_granted, kmallocOk_eq]
      simp only [Bool.not_true, Bool.false_eq_true, if_false]
      rw [Prog.run_bind, writeLoop_granted env hs]
      obtain ⟨d₂, hloop⟩ | ⟨d₂, hloop⟩ := writeLoop_cases env fs buf len (len + 1) d₁ (c + 1) 0
      · rw [hloop]
        simp only [ne_eq, not_true_eq_false, if_false]
        rw [Prog.run_bind, chooseShortName_granted env, fatWriteLfnAndShortEntry_granted env]
      · rw [hloop]
        rfl

theorem overwriteFile_granted (loc : EntryLoc) (buf : Buf) (len : Nat) :
    (overwriteFile fs loc buf len).run (sound d granted) =
      ((Gemios.overwriteFile env fs d loc buf len).1,
        sound (Gemios.overwriteFile env fs d loc buf len).2 granted) := by
  unfold overwriteFile Gemios.overwriteFile
  split
  · rfl
  · have hfirst : (firstCluster fs loc.entry.cluster).run (sound d granted) =
        ((Gemios.firstCluster env fs d loc.entry.cluster).1,
          sound (Gemios.firstCluster env fs d loc.entry.cluster).2 granted) := by
      unfold firstCluster Gemios.firstCluster
      split
      · exact allocFreeCluster_sound env d granted hs
      · rfl
    rw [Prog.run_bind, hfirst]
    cases Gemios.firstCluster env fs d loc.entry.cluster with
    | mk c d₁ =>
      cases c with
      | zero => rfl
      | succ c =>
        dsimp only
        rw [rewriteFile, if_neg (Nat.succ_ne_zero c), Prog.run_bind, kmallocOk_granted, kmallocOk_eq]
        simp only [Bool.not_true, Bool.false_eq_true, if_false]
        rw [Prog.run_bind, writeLoop_granted env hs]
        obtain ⟨d₂, hloop⟩ | ⟨d₂, hloop⟩ := writeLoop_cases env fs buf len (len + 1) d₁ (c + 1) 0
        · rw [hloop]
          simp only [ne_eq, not_true_eq_false, if_false]
          rw [Prog.run_bind, bdevRead_sound]
          simp only [bdevRead_eq, bdevWrite_sound, bdevWrite_eq]
        · rw [hloop]
          rfl

/-- **`fat_write_file`.**  On a device and a heap that never fail, the program is the
    function of the fault-free model. -/
theorem fatWriteFile_granted (path : List UInt8) (buf : Buf) (len : Nat) :
    (fatWriteFile env.afterShort fs path buf len).run (sound d granted) =
      ((Gemios.fatWriteFile env fs d path buf len).1,
        sound (Gemios.fatWriteFile env fs d path buf len).2 granted) := by
  unfold fatWriteFile Gemios.fatWriteFile
  rw [Prog.run_bind, fatResolveParentAndName_granted env]
  cases Gemios.fatResolveParentAndName env fs d path with
  | none => rfl
  | some p =>
    obtain ⟨dir, name⟩ := p
    dsimp only
    rw [Prog.run_bind, fatDirFindOrAllocLfnSlots_granted env hs]
    generalize Gemios.fatDirFindOrAllocLfnSlots env fs d dir name (numLfnSlots name + 1) = r
    obtain ⟨ref, d₁⟩ := r
    cases ref with
    | none => rfl
    | some ref =>
      cases ref with
      | existing loc => exact overwriteFile_granted env hs d₁ loc buf len
      | place sec slot => exact createFile_granted env hs d₁ dir name sec slot buf len

end

end Gemios.Faulty
