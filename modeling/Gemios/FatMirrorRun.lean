import Gemios.FatErase
import Gemios.FatBounds
import Gemios.FatVolume

/-!
# The copies of the FAT over whole runs

A removal clears entries of the FAT in both copies, and what it writes else lies outside
of them.

Any sequence of `fat_write_file`, `fat_mkdir`, `fat_remove`, `fat_copy_file` and
`fat_copy_dir` on a mounted volume.  A volume with three or four copies of the FAT is
accepted by `fat_mount`, and then the third copy falls behind at the first update.
-/

namespace Gemios

structure Removing (env : Env) (fs : FatFs) (d₀ d : Disk) : Prop where
  mirrored : Mirrored env fs d
  erased : Erased env fs fs.places (fun _ => True) d₀ d

theorem Removing.refl {env : Env} {fs : FatFs} {d : Disk} (h : Mirrored env fs d) :
    Removing env fs d d := ⟨h, Erased.refl env fs _ _ d⟩

section

variable {fs : FatFs} (hp : fs.Placed) (env : Env) [env.NoFault] {d₀ : Disk} (h2 : fs.TwoCopies)

include hp h2

theorem removalInv_removing :
    RemovalInv env fs fs.places (fun _ => True) d₀ (Removing env fs d₀) where
  erased := Removing.erased
  clear h hc := ⟨setFatEntry_mirrored hp env h2 (Or.inr hc.1) (Or.inl (by omega)) h.mirrored,
    h.erased.clear hp.sized hp.apart hc⟩
  blit {d lba count buf} h hlba hbuf := by
    refine ⟨h.mirrored.of_outside hp env fun a h1 h3 => if_neg fun hin => ?_,
      h.erased.blit hp.sized hp.apart hlba hbuf⟩
    -- the sector of the byte lies outside the FAT
    obtain ⟨k, hk⟩ := Nat.exists_eq_add_of_le (show lba ≤ a / 512 by omega)
    have hout : OutSec fs (a / 512) := by
      rw [hk]
      exact (hlba k (by omega)).elim DirSec.out id
    unfold FatFs.fatEndAddr at h3
    rcases hout with hs | hs <;> omega

/-- **`fat_remove` keeps the copies equal.** -/
theorem fatRemove_mirrored (hb : InBounds env fs d₀) (h : Mirrored env fs d₀) {fuel : Nat}
    {path : List UInt8} {recursive : Bool} {r : Int} {d' : Disk}
    (heq : fatRemove env fs fuel d₀ path recursive = some (r, d')) : Mirrored env fs d' := by
  -- nothing is said of the depth
  have hrank : ∀ c c', Visits env fs d₀ c → SubDir env fs d₀ true c c' → True ∨ 0 < 0 :=
    fun _ _ _ _ => Or.inl trivial
  have hfuel : ∀ c, Visits env fs d₀ c → True ∨ 0 < fuel := fun _ _ => Or.inl trivial
  have hends := fatRemove_ends hp.sized (removalInv_removing hp env h2)
    (hb.confined hp true) hrank hfuel (Removing.refl h) path recursive fun dir target hpath =>
      ⟨(hb.hits hp hpath true).1, _, (hb.hits hp hpath _).2⟩
  rw [heq] at hends
  exact hends.mirrored

end

/-! ### Mounted volumes -/

/-- A header that the driver's 512-byte buffers and 32-bit sector numbers are good
    for, with a FAT that is long enough and has at most two copies. -/
structure CopiesFit (fs : FatFs) : Prop where
  bps : fs.bytesPerSector = 512
  copies : fs.TwoCopies
  layout : fs.lbaOffset + fs.reservedSectors + fs.numFats * fs.fatSizeSectors +
    fs.rootDirSectors < 4294967296
  dataEnd : fs.dataStartSector + fs.totalClusters * fs.sectorsPerCluster < 4294967296
  table : fs.type = .fat16 ∨ fs.type = .fat32 →
    (fs.totalClusters + 2) * fs.entSize ≤ fs.fatSizeSectors * 512 ∧
      fs.totalClusters + 2 ≤ 0x0FFFFFF8

theorem CopiesFit.placed {fs : FatFs} (h : CopiesFit fs) {total : Nat} (H : MountedFields fs total) :
    fs.Placed := by
  obtain ⟨hstart, hdata⟩ := H.dataStart_eq h.layout
  have hlayout := h.layout
  refine ⟨h.bps, H.spc.1, by rw [H.bpc, h.bps], H.numFats.1, ?_, ?_, fun hroot => ?_, h.dataEnd,
    fun ht => ?_⟩
  · have := H.reserved
    omega
  · omega
  · rw [H.rootStart hroot, u32_of_lt (show fs.numFats * fs.fatSizeSectors < 4294967296 by omega),
      u32_of_lt (by omega)]
    omega
  · obtain ⟨hroom, hlimit⟩ := h.table ht
    have htype := H.type
    split at htype
    · rw [htype] at ht
      cases ht <;> contradiction
    · refine ⟨hroom, by omega, ?_⟩
      unfold FatFs.eofLimit
      split at htype
      · rw [if_neg (by rw [htype]; decide)]
        omega
      · rw [if_pos htype]
        exact hlimit

/-! ### What `fat_copy_dir` does to the destination -/

section CopyDir

variable {σ : Type} {env : Env} {srcFs dstFs : FatFs} {ops : CopyOps σ}

theorem copyResult_inv (I : σ → Prop) {c : Ctl (CopyState σ) (Option (Int × σ))} {r : Int} {st' : σ}
    (hr : (match c with
      | .ret r => r
      | .next s | .stop s => some (0, s.st)) = some (r, st'))
    (hc : c.Sat (fun s => I s.st) (fun r => ∀ x, r = some x → I x.2)) : I st' := by
  cases c with
  | ret x => exact hc _ hr
  | next s | stop s =>
    cases hr
    exact hc

theorem copyDirWith_inv {I : σ → Prop} (hmkdir : ∀ path st, I st → I (ops.mkdir path st))
    (hcopy : ∀ src dst st, I st → I (ops.copyFile src dst st)) :
    ∀ (fuel : Nat) (srcPath dstPath : List UInt8) (st : σ) (r : Int) (st' : σ), I st →
      copyDirWith env srcFs dstFs ops fuel srcPath dstPath st = some (r, st') → I st' := by
  intro fuel
  induction fuel with
  | zero =>
    intro srcPath dstPath st r st' _ heq
    cases heq
  | succ fuel ih =>
    intro srcPath dstPath st r st' h heq
    rw [copyDirWith] at heq
    have hstart : I (if fatIsDir env dstFs (ops.devs st dstFs.bdev) dstPath then st
        else ops.mkdir dstPath st) := by
      split
      · exact h
      · exact hmkdir _ _ h
    dsimp only at heq
    generalize (if fatIsDir env dstFs (ops.devs st dstFs.bdev) dstPath then st
      else ops.mkdir dstPath st) = st₁ at hstart heq
    have hbody : ∀ sec e slot (s : CopyState σ), I s.st →
        (copyBody ops srcPath dstPath (copyDirWith env srcFs dstFs ops fuel) sec e slot s).Sat
          (fun s => I s.st) (fun r => ∀ x, r = some x → I x.2) := by
      intro sec e slot s hs
      unfold copyBody
      dsimp only
      split
      · intro x hx
        cases hx
        exact hs
      · split
        · exact hs
        · split
          · exact hs
          · split
            · exact hs
            · split
              · split
                · intro x hx
                  cases hx
                · next heq' => exact ih _ _ _ _ _ hs heq'
              · exact hcopy _ _ _ hs
    split at heq
    · cases heq
      exact hstart
    · next dir _ =>
      refine copyResult_inv I heq ?_
      split
      · exact scanRootDir_inv env srcFs hbody hstart
      · split
        · intro x hx
          cases hx
          exact hstart
        · split
          · intro x hx
            cases hx
            exact hstart
          · exact scanChain_inv env srcFs hbody (fun _ _ hs => hs) _ _ _ hstart

variable {σ' : Type} {ops' : CopyOps σ'} {f : σ → σ'}

theorem copyResult_map (f : σ → σ') (c : Ctl (CopyState σ) (Option (Int × σ))) :
    (match c.map (fun s => CopyState.mk s.parser (f s.st)) (Option.map fun r => (r.1, f r.2)) with
      | .ret r => r
      | .next s | .stop s => some (0, s.st)) =
    Option.map (fun r => (r.1, f r.2)) (match c with
      | .ret r => r
      | .next s | .stop s => some (0, s.st)) := by
  cases c with
  | ret r => rfl
  | next s | stop s => rfl

theorem copyDirWith_map (hdevs : ∀ st, ops'.devs (f st) = ops.devs st)
    (hmkdir : ∀ path st, ops'.mkdir path (f st) = f (ops.mkdir path st))
    (hcopy : ∀ src dst st, ops'.copyFile src dst (f st) = f (ops.copyFile src dst st)) :
    ∀ (fuel : Nat) (srcPath dstPath : List UInt8) (st : σ),
      copyDirWith env srcFs dstFs ops' fuel srcPath dstPath (f st) =
        (copyDirWith env srcFs dstFs ops fuel srcPath dstPath st).map fun r => (r.1, f r.2) := by
  intro fuel
  induction fuel with
  | zero =>
    intro srcPath dstPath st
    rfl
  | succ fuel ih =>
    intro srcPath dstPath st
    rw [copyDirWith, copyDirWith]
    have hstart : (if fatIsDir env dstFs (ops'.devs (f st) dstFs.bdev) dstPath then f st
        else ops'.mkdir dstPath (f st)) =
        f (if fatIsDir env dstFs (ops.devs st dstFs.bdev) dstPath then st
          else ops.mkdir dstPath st) := by
      rw [hdevs, hmkdir, apply_ite f]
    dsimp only
    rw [hstart]
    generalize (if fatIsDir env dstFs (ops.devs st dstFs.bdev) dstPath then st
      else ops.mkdir dstPath st) = st₁
    rw [hdevs]
    let F : CopyState σ → CopyState σ' := fun s => ⟨s.parser, f s.st⟩
    let G : Option (Int × σ) → Option (Int × σ') := Option.map fun r => (r.1, f r.2)
    have hbody : ∀ sec e slot (s : CopyState σ),
        copyBody ops' srcPath dstPath (copyDirWith env srcFs dstFs ops' fuel) sec e slot (F s) =
          (copyBody ops srcPath dstPath (copyDirWith env srcFs dstFs ops fuel) sec e slot s).map
            F G := by
      intro sec e slot s
      unfold copyBody
      dsimp only [F]
      rw [ih, hcopy]
      split
      · rfl
      · split
        · rfl
        · split
          · rfl
          · split
            · rfl
            · split
              · cases copyDirWith env srcFs dstFs ops fuel
                  (subPath srcPath (itemName (lfnParserFeed s.parser slot sec e) slot))
                  (subPath dstPath (itemName (lfnParserFeed s.parser slot sec e) slot)) s.st with
                | none => rfl
                | some r => rfl
              · rfl
    cases fatResolveDir env srcFs (ops.devs st₁ srcFs.bdev) srcPath with
    | none => rfl
    | some dir =>
      dsimp only
      refine Eq.trans ?_ (copyResult_map f _)
      congr 1
      have hdisk : ∀ s : CopyState σ, ops'.devs (F s).st srcFs.bdev = ops.devs s.st srcFs.bdev :=
        fun s => by rw [hdevs]
      split
      · exact scanRootDir_map env srcFs hdisk hbody ⟨lfnParserReset, st₁⟩
      · split
        · rfl
        · split
          · rfl
          · exact scanChain_map env srcFs hdisk hbody _ _ ⟨lfnParserReset, st₁⟩

end CopyDir

/-! ### Runs -/

/-- A call of the driver that writes to the volume; the source of a copy may be any
    volume on any device. -/
inductive FatCall where
  | writeFile (path : List UInt8) (buf : Buf) (len : Nat)
  | mkdir (path : List UInt8)
  | remove (path : List UInt8) (recursive : Bool)
  | copyFile (srcFs : FatFs) (srcPath dstPath : List UInt8)
  | copyDir (srcFs : FatFs) (srcPath dstPath : List UInt8)

/-- The devices after a call; `none` when a recursion is deeper than `fuel`. -/
def FatCall.exec (env : Env) (fs : FatFs) (fuel : Nat) (w : Devs) : FatCall → Option Devs
  | .writeFile path buf len => some (w.set fs.bdev (fatWriteFile env fs (w fs.bdev) path buf len).2)
  | .mkdir path => some (w.set fs.bdev (fatMkdir env fs (w fs.bdev) path).2)
  | .remove path recursive =>
    (fatRemove env fs fuel (w fs.bdev) path recursive).map fun r => w.set fs.bdev r.2
  | .copyFile srcFs srcPath dstPath => some (fatCopyFile env srcFs srcPath fs dstPath w).2
  | .copyDir srcFs srcPath dstPath => (fatCopyDir env srcFs fs fuel srcPath dstPath w).map (·.2)

/-- The operations of `fat_copy_dir`, with the states of the destination in which
    `fat_mkdir` and `fat_copy_file` were called. -/
def tracedOps (env : Env) (srcFs dstFs : FatFs) : CopyOps (Devs × List Disk) where
  devs s := s.1
  mkdir path s := ((fatCopyOps env srcFs dstFs).mkdir path s.1, s.1 dstFs.bdev :: s.2)
  copyFile src dst s := ((fatCopyOps env srcFs dstFs).copyFile src dst s.1, s.1 dstFs.bdev :: s.2)

/-- The states of the volume in which a call starts to change it; `fat_copy_dir` does
    so once for every `fat_mkdir` and `fat_copy_file` it makes. -/
def FatCall.starts (env : Env) (fs : FatFs) (fuel : Nat) (w : Devs) : FatCall → List Disk
  | .copyDir srcFs srcPath dstPath =>
    match copyDirWith env srcFs fs (tracedOps env srcFs fs) fuel srcPath dstPath (w, []) with
    | none => []
    | some (_, _, trace) => trace
  | _ => [w fs.bdev]

def runCalls (env : Env) (fs : FatFs) (fuel : Nat) : List FatCall → Devs → Option Devs
  | [], w => some w
  | call :: calls, w =>
    match call.exec env fs fuel w with
    | none => none
    | some w' => runCalls env fs fuel calls w'

/-- Every call of a sequence starts in a state with property `P`. -/
def AllStarts (P : Disk → Prop) (env : Env) (fs : FatFs) (fuel : Nat) : List FatCall → Devs → Prop
  | [], _ => True
  | call :: calls, w => (∀ d ∈ call.starts env fs fuel w, P d) ∧
    ∀ w', call.exec env fs fuel w = some w' → AllStarts P env fs fuel calls w'

theorem Devs.set_self (w : Devs) (bdev : Nat) (d : Disk) : w.set bdev d bdev = d := if_pos rfl

section

variable {fs : FatFs} (hp : fs.Placed) (env : Env) [env.NoFault] (h2 : fs.TwoCopies)

include hp h2

theorem fatCopyFile_copiesEqual {w : Devs} (hb : InBounds env fs (w fs.bdev))
    (h : CopiesEqual fs (w fs.bdev)) (srcFs : FatFs) (srcPath dstPath : List UInt8) :
    CopiesEqual fs ((fatCopyFile env srcFs srcPath fs dstPath w).2 fs.bdev) := by
  have hput : ∀ buf len, CopiesEqual fs
      (w.set fs.bdev (fatWriteFile env fs (w fs.bdev) dstPath buf len).2 fs.bdev) := by
    intro buf len
    rw [Devs.set_self]
    exact (fatWriteFile_mirrored hp env h2 hb ⟨h, hb.entries⟩ _ _ _).copies
  unfold fatCopyFile
  split
  · exact h
  · split
    · exact h
    · dsimp only
      split
      · exact hput _ _
      · split
        · exact h
        · split
          · exact h
          · exact hput _ _

theorem fatMkdir_copiesEqual {w : Devs} (hb : InBounds env fs (w fs.bdev))
    (h : CopiesEqual fs (w fs.bdev)) (path : List UInt8) :
    CopiesEqual fs (w.set fs.bdev (fatMkdir env fs (w fs.bdev) path).2 fs.bdev) := by
  rw [Devs.set_self]
  exact (fatMkdir_mirrored hp env h2 hb ⟨h, hb.entries⟩ path).copies

theorem fatCopyDir_copiesEqual {w w' : Devs} {srcFs : FatFs} {srcPath dstPath : List UInt8}
    {fuel : Nat} {r : Int}
    (hstarts : ∀ d ∈ (FatCall.copyDir srcFs srcPath dstPath).starts env fs fuel w,
      InBounds env fs d)
    (h : CopiesEqual fs (w fs.bdev))
    (heq : fatCopyDir env srcFs fs fuel srcPath dstPath w = some (r, w')) :
    CopiesEqual fs (w' fs.bdev) := by
  have hmap : copyDirWith env srcFs fs (fatCopyOps env srcFs fs) fuel srcPath dstPath w =
      (copyDirWith env srcFs fs (tracedOps env srcFs fs) fuel srcPath dstPath (w, [])).map
        fun r => (r.1, r.2.1) :=
    copyDirWith_map (f := Prod.fst) (fun _ => rfl) (fun _ _ => rfl) (fun _ _ _ => rfl) fuel srcPath
      dstPath (w, [])
  unfold fatCopyDir at heq
  rw [heq] at hmap
  obtain ⟨⟨r', w₁, trace⟩, htrace, hw⟩ := Option.map_eq_some_iff.mp hmap.symm
  simp only [Prod.mk.injEq] at hw
  obtain ⟨rfl, rfl⟩ := hw
  simp only [FatCall.starts, htrace] at hstarts
  refine copyDirWith_inv (I := fun s : Devs × List Disk => (∀ d ∈ s.2, InBounds env fs d) →
    CopiesEqual fs (s.1 fs.bdev)) ?_ ?_ fuel srcPath dstPath (w, []) _ _ (fun _ => h) htrace hstarts
  · intro path s hs hall
    have hb := hall _ List.mem_cons_self
    exact fatMkdir_copiesEqual hp env h2 hb (hs fun d hd => hall d (List.mem_cons_of_mem _ hd)) path
  · intro src dst s hs hall
    have hb := hall _ List.mem_cons_self
    exact fatCopyFile_copiesEqual hp env h2 hb (hs fun d hd => hall d (List.mem_cons_of_mem _ hd))
      srcFs src dst

theorem exec_copiesEqual {w w' : Devs} {call : FatCall} {fuel : Nat}
    (hstarts : ∀ d ∈ call.starts env fs fuel w, InBounds env fs d)
    (h : CopiesEqual fs (w fs.bdev)) (heq : call.exec env fs fuel w = some w') :
    CopiesEqual fs (w' fs.bdev) := by
  cases call with
  | writeFile path buf len =>
    have hb := hstarts _ List.mem_cons_self
    cases heq
    rw [Devs.set_self]
    exact (fatWriteFile_mirrored hp env h2 hb ⟨h, hb.entries⟩ _ _ _).copies
  | mkdir path =>
    cases heq
    exact fatMkdir_copiesEqual hp env h2 (hstarts _ List.mem_cons_self) h path
  | remove path recursive =>
    have hb := hstarts _ List.mem_cons_self
    obtain ⟨⟨r, d⟩, hr, rfl⟩ := Option.map_eq_some_iff.mp heq
    rw [Devs.set_self]
    exact (fatRemove_mirrored hp env h2 hb ⟨h, hb.entries⟩ hr).copies
  | copyFile srcFs srcPath dstPath =>
    cases heq
    exact fatCopyFile_copiesEqual hp env h2 (hstarts _ List.mem_cons_self) h srcFs srcPath dstPath
  | copyDir srcFs srcPath dstPath =>
    obtain ⟨⟨r, w₁⟩, hr, rfl⟩ := Option.map_eq_some_iff.mp heq
    exact fatCopyDir_copiesEqual hp env h2 hstarts h hr

end

/-- **The copies of the FAT stay equal** in every run on a mounted volume with at most
    two copies, as long as the calls find every cluster number in bounds. -/
theorem copiesEqual_run (env : Env) [env.NoFault] {bdev : Nat} {fs : FatFs} {w : Devs}
    (hm : fatMount env bdev (w bdev) = some fs) (hfit : CopiesFit fs)
    (hcopies : CopiesEqual fs (w bdev)) (fuel : Nat) (calls : List FatCall)
    (hstarts : AllStarts (InBounds env fs) env fs fuel calls w) {w' : Devs}
    (hrun : runCalls env fs fuel calls w = some w') : CopiesEqual fs (w' bdev) := by
  obtain ⟨hbdev, total, H⟩ := fatMount_fields hm
  subst hbdev
  have hp := hfit.placed H
  clear hm
  induction calls generalizing w with
  | nil =>
    cases hrun
    exact hcopies
  | cons call calls ih =>
    rw [runCalls] at hrun
    split at hrun
    · cases hrun
    · next w₁ hexec =>
      exact ih (hstarts.2 w₁ hexec) hrun
        (exec_copiesEqual hp env hfit.copies hstarts.1 hcopies hexec)

/-! ### Volumes without files -/

section

variable {fs : FatFs} (hs : fs.Sound) (ht : fs.type ≠ .fat32) (env : Env) [env.NoFault] {d : Disk}
  (hroot : ∀ i, i < fs.rootDirSectors → ∀ e, e < 16 → (slotAt d (fs.rootSlot i e)).isEnd = true)
  (hchild : childAddrs fs d (fatRootDir fs) = [])

omit [env.NoFault] in
theorem not_live_of_isEnd {e : Slot} (h : e.isEnd = true) : ¬ e.Live := by
  intro hl
  rw [hl.notEnd] at h
  cases h

include hs ht hroot hchild

theorem not_visits_of_empty (c : Nat) : ¬ Visits env fs d c := by
  have hw : WellFormed fs d := wellFormed_of_empty_files hs ht fun a ha => by
    rw [hchild] at ha
    cases ha
  intro hc
  induction hc with
  | path hpath hfix _ =>
    have heq := (hw.resolveParent_live env hpath).eq_root fun a ha => by
      rw [hchild] at ha
      cases ha
    rw [heq, fatRootDir_fixed ht] at hfix
    cases hfix
  | next _ _ ih => exact ih
  | sub _ _ _ _ _ _ ih => exact ih
  | root _ hi he hl _ _ => exact not_live_of_isEnd (hroot _ hi _ he) hl

theorem inBounds_of_empty (hfat : ∀ c, fs.InRange c → fs.fatEnt d c = 0) : InBounds env fs d := by
  have hnone := not_visits_of_empty hs ht env hroot hchild
  refine ⟨fun c hc => Or.inl ?_, fun c hc => absurd hc (hnone c), fun c hc => absurd hc (hnone c),
    fun _ i hi e he hl => absurd hl (not_live_of_isEnd (hroot i hi e he))⟩
  rw [getNextCluster_eq hs env d hc, hfat c hc]
  exact if_pos (Or.inl (by omega))

end

/-- An empty FAT16 volume of 4200 sectors with `n` copies of the FAT. -/
def plainDisk (n : UInt8) : Disk := fun a =>
  if a = 0 then 0xEB
  else if a = 12 then 0x02
  else if a = 13 ∨ a = 14 then 0x01
  else if a = 16 then n
  else if a = 17 then 0x10
  else if a = 19 then 0x68
  else if a = 20 then 0x10
  else if a = 22 then 0x11
  else if a = 510 then 0x55
  else if a = 511 then 0xAA
  else 0

def plainFs (n : Nat) : FatFs where
  bdev := 0
  type := .fat16
  lbaOffset := 0
  bytesPerSector := 512
  sectorsPerCluster := 1
  bytesPerCluster := 512
  reservedSectors := 1
  numFats := n
  fatStartSector := 1
  fatSizeSectors := 17
  rootDirStartSector := 1 + 17 * n
  rootDirSectors := 1
  dataStartSector := 2 + 17 * n
  totalClusters := 4198 - 17 * n
  rootCluster := 0

theorem plainDisk_of_le {n : UInt8} {a : Nat} (ha : 512 ≤ a) : plainDisk n a = 0 := by
  unfold plainDisk
  repeat rw [if_neg (by omega)]

theorem copiesEqual_plainDisk (n : UInt8) (k : Nat) : CopiesEqual (plainFs k) (plainDisk n) := by
  intro j _ i _
  have hstart : (plainFs k).fatStartSector = 1 := rfl
  rw [hstart, plainDisk_of_le (by omega), plainDisk_of_le (by omega)]

theorem plainFs_sound : (plainFs 2).Sound := by constructor <;> decide

theorem isEnd_plainDisk {i : Nat} {e : Nat} :
    (slotAt (plainDisk 2) ((plainFs 2).rootSlot i e)).isEnd = true := by
  have haddr : (plainFs 2).rootSlot i e = (35 + i) * 512 + 32 * e := rfl
  rw [Slot.isEnd, haddr, slotAt_of_lt (by omega), plainDisk_of_le (by omega)]
  rfl

theorem inBounds_plainDisk : InBounds Env.ideal (plainFs 2) (plainDisk 2) := by
  refine inBounds_of_empty plainFs_sound (by decide) _ (fun _ _ _ _ => isEnd_plainDisk)
    (by decide +kernel) fun c hc => ?_
  have haddr : (plainFs 2).entAddr c = 512 + 2 * c := rfl
  rw [FatFs.fatEnt, haddr]
  simp only [entGet, le16, plainDisk_of_le (show 512 ≤ 512 + 2 * c by omega),
    plainDisk_of_le (show 512 ≤ 512 + 2 * c + 1 by omega)]
  rfl

/-- With two copies, a directory made on the empty volume. -/
theorem copiesEqual_mkdir_plainDisk : ∃ w' : Devs,
    runCalls Env.ideal (plainFs 2) 0 [.mkdir [0x41]] (fun _ => plainDisk 2) = some w' ∧
      CopiesEqual (plainFs 2) (w' 0) := by
  refine ⟨_, rfl, copiesEqual_run Env.ideal (by decide +kernel) ?_ (copiesEqual_plainDisk 2 2) 0
    [.mkdir [0x41]] ⟨fun d hd => ?_, fun _ _ => trivial⟩ rfl⟩
  · exact ⟨rfl, fun _ => by decide, by decide, by decide, fun _ => by decide⟩
  · obtain rfl := List.mem_singleton.mp hd
    exact inBounds_plainDisk

/-- With three copies, the last one falls behind. -/
theorem not_copiesEqual_three_copies : ∃ w' : Devs,
    fatMount Env.ideal 0 (plainDisk 3) = some (plainFs 3) ∧
      CopiesEqual (plainFs 3) (plainDisk 3) ∧
      runCalls Env.ideal (plainFs 3) 0 [.mkdir [0x41]] (fun _ => plainDisk 3) = some w' ∧
      ¬ CopiesEqual (plainFs 3) (w' 0) := by
  refine ⟨_, by decide +kernel, copiesEqual_plainDisk 3 3, rfl, fun h => ?_⟩
  have hstale := h 2 (by decide) 4 (by decide)
  exact absurd hstale (by decide +kernel)

end Gemios

