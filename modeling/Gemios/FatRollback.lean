import Gemios.FatFaultsFront
import Gemios.FatMirrorRun

/-!
# Calls that fail half-way

A call that fails before its first write leaves the volume as it was.  A first write that
marks a cluster is never taken back: what follows, done or failed, keeps an entry of the
FAT that was free in use.
-/

namespace Gemios.Faulty

open World

/-! ### The volume a user sees -/

/-- The same tree, the same files with the same sizes and contents, and the same
    clusters in use. -/
structure SameVolume (fs : FatFs) (d d' : Disk) : Prop where
  tree : ∀ path, Gemios.fatStat Env.ideal fs d' path = Gemios.fatStat Env.ideal fs d path
  contents : ∀ path maxLen,
    Gemios.fatReadFile Env.ideal fs d' path maxLen = Gemios.fatReadFile Env.ideal fs d path maxLen
  clusters : ∀ c, fs.InRange c → (fs.fatEnt d' c = 0 ↔ fs.fatEnt d c = 0)

theorem SameVolume.refl (fs : FatFs) (d : Disk) : SameVolume fs d d :=
  ⟨fun _ => rfl, fun _ _ => rfl, fun _ _ => Iff.rfl⟩

/-- A cluster that was free on `d` is in use, and the FAT is still in bounds. -/
structure Taken (env : Env) (fs : FatFs) (d d' : Disk) : Prop where
  entries : EntriesOk env fs d'
  marked : ∃ c, fs.InRange c ∧ fs.fatEnt d c = 0 ∧ fs.fatEnt d' c ≠ 0

theorem Taken.not_same {env : Env} {fs : FatFs} {d d' : Disk} (h : Taken env fs d d') :
    ¬ SameVolume fs d d' := by
  intro hsame
  obtain ⟨c, hc, hfree, hused⟩ := h.marked
  exact hused ((hsame.clusters c hc).mpr hfree)

/-- The values `set_fat_entry` is called with. -/
def Link (fs : FatFs) (v : Nat) : Prop := fs.InRange v ∨ v = fs.eofVal

theorem Link.ne_zero {fs : FatFs} (hs : fs.Sound) {v : Nat} (hv : Link fs v) :
    v % fs.entMod ≠ 0 := by
  rcases hv with hv | rfl
  · have h1 := hs.lt_eofLimit hv
    have h2 := fs.eofLimit_lt_entMod
    have h3 := hv.1
    rw [Nat.mod_eq_of_lt (by omega)]
    omega
  · have h1 := fs.eofLimit_le_eofVal
    have h2 := fs.le_eofLimit
    rw [fs.eofVal_mod]
    omega

/-- `set_fat_entry` after the read of the entry's sector. -/
def updateSector (fs : FatFs) (c v : Nat) : Option Buf → DiskProg Int
  | none => pure (-1)
  | some sector =>
    writeFatSector fs (fs.entSector c) (entPut fs sector (fs.entSize * c % 512) v)

/-! ### The scan for a free cluster -/

theorem freeCluster_keeps (fs : FatFs) (I : Disk → Prop) :
    (freeCluster fs).Keeps I fun c =>
      c = 0 ∨ ((fs.type = .fat16 ∨ fs.type = .fat32) ∧ c ∈ List.range' 2 fs.scanLimit) := by
  have hturn : ∀ width c (st : FatCache), (freeTurn fs width c st).Keeps I
      (Ctl.Sat (fun _ => True) fun r => r = 0 ∨ r = c) := by
    intro width c st
    refine ((readOnly_loadFatSector _ st).keeps I).bind fun loaded _ => ?_
    cases loaded with
    | none => exact Prog.keeps_pure (Or.inl rfl)
    | some st =>
      refine Prog.keeps_pure ?_
      generalize (if width = 2 then le16 st.sector (fatEntryPos fs width c).2
        else le32 st.sector (fatEntryPos fs width c).2 % 0x10000000) = val
      by_cases hval : val = 0
      · rw [if_pos hval]
        exact Or.inr rfl
      · rw [if_neg hval]
        trivial
  have hrun : ∀ width, (scanFat fs width (List.range' 2 fs.scanLimit)).Keeps I
      fun c => c = 0 ∨ c ∈ List.range' 2 fs.scanLimit := by
    intro width
    refine (Prog.keeps_loop (J := fun _ => True)
      (R := fun c => c = 0 ∨ c ∈ List.range' 2 fs.scanLimit)
      (fun c hc st _ => (hturn width c st).mono fun r hr => ?_) trivial).bind fun r hr => ?_
    · cases r with
      | next st => trivial
      | stop st => trivial
      | ret r =>
        refine Or.imp_right (fun hrc => ?_) hr
        rw [hrc]
        exact hc
    · cases r with
      | next st => exact Prog.keeps_pure (Or.inl rfl)
      | stop st => exact Prog.keeps_pure (Or.inl rfl)
      | ret c => exact Prog.keeps_pure hr
  unfold freeCluster
  cases ht : fs.type with
  | unknown => exact Prog.keeps_pure (Or.inl rfl)
  | fat12 => exact Prog.keeps_pure (Or.inl rfl)
  | fat16 => exact (hrun 2).mono fun _ h => h.imp_right fun hc => ⟨Or.inl rfl, hc⟩
  | fat32 => exact (hrun 4).mono fun _ h => h.imp_right fun hc => ⟨Or.inr rfl, hc⟩

section

variable {fs : FatFs} (hs : fs.Sound) (env : Env) [env.NoFault] {d d' : Disk}

include hs

theorem Taken.put (h : Taken env fs d d') {c v : Nat} (hv : Link fs v) {d'' : Disk}
    (hent : ∀ x, fs.InRange x →
      fs.fatEnt d'' x = if x = c then v % fs.entMod else fs.fatEnt d' x) :
    Taken env fs d d'' := by
  obtain ⟨m, hm, hfree, hused⟩ := h.marked
  refine ⟨h.entries.put env hs (Or.inr hv) hent, m, hm, hfree, ?_⟩
  rw [hent m hm]
  split
  · exact Link.ne_zero hs hv
  · exact hused

theorem Taken.outside (h : Taken env fs d d') {d'' : Disk}
    (hout : ∀ a, fs.fatStartSector * 512 ≤ a → a < fs.fatEndAddr → d'' a = d' a) :
    Taken env fs d d'' := by
  have hent : ∀ x, fs.InRange x → fs.fatEnt d'' x = fs.fatEnt d' x := fun x hx =>
    fatEnt_congr hs hx.2 hout
  obtain ⟨m, hm, hfree, hused⟩ := h.marked
  refine ⟨fun x hx => ?_, m, hm, hfree, (hent m hm).trans_ne hused⟩
  have hold := h.entries x hx
  rw [getNextCluster_eq hs env _ hx] at hold ⊢
  rw [hent x hx]
  exact hold

/-! ### `set_fat_entry` -/

omit env [env.NoFault] in
theorem setFatEntry_prog {c : Nat} (hc : fs.InRange c) (v : Nat) :
    setFatEntry fs c v = bdevRead (fs.entSector c) >>= updateSector fs c v := by
  have hpos := hs.fatEntryPos_eq hc.2
  have h2 : ¬ c < 2 := Nat.not_lt.mpr hc.1
  rcases hs.type with ht | ht
  · have hsz : fs.entSize = 2 := by simp [FatFs.entSize, ht]
    rw [hsz] at hpos
    simp only [setFatEntry, if_neg h2, ht, hpos]
    refine congrArg (bdevRead (fs.entSector c) >>= ·) (funext fun b => ?_)
    cases b with
    | none => rfl
    | some sector => simp only [updateSector, entPut, hsz, ht, reduceCtorEq, if_false]
  · have hsz : fs.entSize = 4 := by simp [FatFs.entSize, ht]
    rw [hsz] at hpos
    simp only [setFatEntry, if_neg h2, ht, hpos]
    refine congrArg (bdevRead (fs.entSector c) >>= ·) (funext fun b => ?_)
    cases b with
    | none => rfl
    | some sector => simp only [updateSector, entPut, hsz, ht, if_true]

omit env [env.NoFault] in
/-- The updated sector on a device that still serves: the entry changes, whether the
    mirror is written or not. -/
theorem writeFatSector_ent {c : Nat} (hc : fs.InRange c) (v : Nat) {w : World Disk}
    (hw : ¬ w.Dead) (x : Nat) (hx : fs.InRange x) :
    fs.fatEnt ((writeFatSector fs (fs.entSector c) (entPut fs
        (fun i => w.dev (fs.entSector c * 512 + i)) (fs.entSize * c % 512) v)).run w).2.dev x =
      if x = c then v % fs.entMod else fs.fatEnt w.dev x := by
  have hfirst : ∀ b, (bdevWrite (fs.entSector c) 1 b).run w =
      (0, { w.spend with dev := w.dev.blit (fs.entSector c) 1 b }) := by
    intro b
    rw [bdevWrite, Prog.run_bind, Prog.run_write _ hw]
    rfl
  rw [writeFatSector, Prog.run_bind, hfirst]
  simp only [ne_eq, not_true_eq_false, if_false, blit_entPut]
  generalize hw₁ : ({ w.spend with dev := entPut fs w.dev (fs.entAddr c) v } : World Disk) = w₁
  have hdev : w₁.dev = entPut fs w.dev (fs.entAddr c) v := by rw [← hw₁]
  split
  · next hmirror =>
    rw [Prog.run_bind, bdevWrite, Prog.run_bind]
    by_cases hd : w₁.Dead
    · rw [Prog.run_write_dead _ hd]
      simp only [Prog.run_pure, hdev]
      exact fatEnt_entPut w.dev c x v
    · rw [Prog.run_write _ hd]
      simp only [Prog.run_pure]
      rw [← fatEnt_entPut, ← hdev]
      refine fatEnt_congr_first hs hx.2 fun a _ ha => if_neg ?_
      have h1 := hs.entSector_lt hc.2
      have h2 := hs.fatEnd
      have h3 := hs.dataEnd
      have h4 : 2 * fs.fatSizeSectors ≤ fs.numFats * fs.fatSizeSectors :=
        Nat.mul_le_mul_right _ hmirror.1
      have h5 : fs.fatStartSector ≤ fs.entSector c := Nat.le_add_right _ _
      rw [u32_of_lt (show fs.entSector c + fs.fatSizeSectors < 4294967296 by omega)]
      omega
  · rw [Prog.run_pure]
    dsimp only
    rw [hdev]
    exact fatEnt_entPut w.dev c x v

theorem setFatEntry_keeps {c v : Nat} (hc : ClusOk fs c) (hv : Link fs v) :
    (setFatEntry fs c v).Keeps (Taken env fs d) fun _ => True := by
  rcases hc with hlt | hc
  · rw [setFatEntry, if_pos hlt]
    exact Prog.keeps_pure trivial
  · rw [setFatEntry_prog hs hc]
    intro w hw
    refine ⟨?_, trivial⟩
    rw [Prog.run_bind, bdevRead]
    by_cases hd : w.Dead
    · rw [Prog.run_read_dead _ hd]
      exact hw
    · rw [Prog.run_read _ hd]
      dsimp only
      by_cases hd' : w.spend.Dead
      · rw [(Prog.run_dead (updateSector fs c v _) hd').1]
        exact hw
      · exact hw.put hs env hv fun x hx => writeFatSector_ent hs hc v hd' x hx

/-! ### Data, links and free clusters -/

theorem bdevWrite_keeps {sec count : Nat}
    (hout : sec + count ≤ fs.fatStartSector ∨
      fs.fatStartSector + fs.numFats * fs.fatSizeSectors ≤ sec) (b : Buf) :
    (bdevWrite sec count b).Keeps (Taken env fs d) fun _ => True := by
  refine (Prog.keeps_write fun d' h => ?_).bind fun _ _ => Prog.keeps_pure trivial
  refine h.outside hs env fun a h1 h2 => if_neg ?_
  unfold FatFs.fatEndAddr at h2
  rcases hout with ho | ho <;> omega

theorem writeCluster_keeps {c : Nat} (hc : fs.InRange c) (b : Buf) :
    (writeCluster fs c b).Keeps (Taken env fs d) fun _ => True := by
  rw [writeCluster, if_neg (fs.not_clusterGuard hs.spc hc.1)]
  refine bdevWrite_keeps hs env (Or.inr ?_) b
  rw [hs.clusterSector_eq hc]
  exact Nat.le_trans hs.fatEnd (Nat.le_add_right _ _)

omit hs in
theorem getNextCluster_keeps {c : Nat} (hc : fs.InRange c) :
    (getNextCluster fs c).Keeps (Taken env fs d) fun next =>
      next = noCluster ∨ fs.InRange next := by
  intro w hw
  refine ⟨by rwa [(readOnly_getNextCluster fs c).run_dev], ?_⟩
  by_cases hd : w.Dead
  · refine Or.inl ?_
    unfold getNextCluster
    split
    · rfl
    · cases fs.type with
      | unknown => rfl
      | fat12 => rfl
      | fat16 | fat32 =>
        rw [Prog.run_bind, bdevRead, Prog.run_read_dead _ hd]
        rfl
  · rw [getNextCluster_alive env fs hd]
    exact hw.entries c hc

omit env [env.NoFault] in
theorem freeCluster_inRange (I : Disk → Prop) :
    (freeCluster fs).Keeps I fun c => c = 0 ∨ fs.InRange c :=
  (freeCluster_keeps fs I).mono fun _ h => h.imp_right fun hc => hs.inRange_of_scan hc.2

theorem allocFreeCluster_keeps :
    (allocFreeCluster fs).Keeps (Taken env fs d) fun c => c = 0 ∨ fs.InRange c := by
  refine (freeCluster_inRange hs _).bind fun c hc => ?_
  split
  · exact Prog.keeps_pure (Or.inl rfl)
  · next hne =>
    have hclus : ClusOk fs c := Or.inr (hc.resolve_left hne)
    exact (setFatEntry_keeps hs env hclus (Or.inr rfl)).bind fun _ _ => Prog.keeps_pure hc

theorem writeLoop_keeps (buf : Buf) (len : Nat) : ∀ (fuel cur written : Nat), fs.InRange cur →
    (writeLoop fs buf len fuel cur written).Keeps (Taken env fs d) fun _ => True := by
  intro fuel
  induction fuel with
  | zero =>
    intro cur written _
    exact Prog.keeps_pure trivial
  | succ fuel ih =>
    intro cur written hcur
    rw [writeLoop]
    refine (writeCluster_keeps hs env hcur _).bind fun res _ => ?_
    generalize (written + if min fs.bytesPerCluster (len - written) > 0 then
      min fs.bytesPerCluster (len - written) else fs.bytesPerCluster) = written'
    split
    · exact Prog.keeps_pure trivial
    · split
      · exact (setFatEntry_keeps hs env (Or.inr hcur) (Or.inr rfl)).bind fun _ _ =>
          Prog.keeps_pure trivial
      · refine (getNextCluster_keeps env hcur).bind fun next hnext => ?_
        split
        · refine (allocFreeCluster_keeps hs env).bind fun c hc => ?_
          split
          · exact Prog.keeps_pure trivial
          · next hne =>
            have hc := hc.resolve_left hne
            exact (setFatEntry_keeps hs env (Or.inr hcur) (Or.inl hc)).bind fun _ _ => ih c _ hc
        · next hlim =>
          refine ih next _ (hnext.resolve_left fun h0 => ?_)
          rw [h0] at hlim
          exact hlim (Or.inr (Nat.not_lt.mp (noCluster_not_lt fs)))

def SpotOk (fs : FatFs) : Option SlotRef → Prop
  | none => True
  | some (.existing _) => False
  | some (.place sec slot) => DirSec fs sec ∧ slot < 16

end

/-! ### Writing the slots -/

section

variable {fs : FatFs} (hp : fs.Placed) (hs : fs.Sound) (env : Env) [env.NoFault] {d : Disk}

include hp hs

theorem linkCluster_keeps {last c : Nat} (hlast : last = 0 ∨ fs.InRange last)
    (hc : c = 0 ∨ fs.InRange c) :
    (linkCluster fs last c).Keeps (Taken env fs d) (SpotOk fs) := by
  unfold linkCluster
  split
  · exact Prog.keeps_pure trivial
  · next hne =>
    have hc := hc.resolve_left hne
    have hclus : ClusOk fs last := Or.imp_left (fun h0 => by omega) hlast
    have hplace : SpotOk fs (some (.place (clusterSector fs c) 0)) := by
      refine ⟨?_, Nat.succ_pos 15⟩
      rw [hp.clusterSector_eq hc]
      exact hp.dirSec hc hp.spc
    refine (setFatEntry_keeps hs env hclus (Or.inl hc)).bind fun _ _ => ?_
    refine (readOnly_kmallocOk.keeps _).bind fun ok _ => ?_
    split
    · exact (writeCluster_keeps hs env hc _).bind fun _ _ => Prog.keeps_pure hplace
    · exact Prog.keeps_pure hplace

omit hp in
theorem bdevWrite_sector_keeps {sec : Nat} (hsec : OutSec fs sec) (b : Buf) :
    (bdevWrite sec 1 b).Keeps (Taken env fs d) fun _ => True :=
  bdevWrite_keeps hs env (hsec.imp_left Nat.succ_le_of_lt) b

/-- Where the writer stands, for any device and buffer. -/
def WriterAt (fs : FatFs) (left sec slot : Nat) : Prop :=
  CursorOk fs left ⟨fun _ => 0, sec, slot, fun _ => 0⟩

theorem writeLfnLoop_keeps (longName : List UInt8) (numLfn : Nat) (chk : UInt8) :
    ∀ (seq sec slot : Nat) (b : Buf), WriterAt fs seq sec slot →
      (writeLfnLoop fs longName numLfn chk seq sec slot b).Keeps (Taken env fs d)
        fun r => ∀ p, r = some p → WriterAt fs 0 p.1 p.2.1 := by
  intro seq
  induction seq with
  | zero =>
    intro sec slot b h
    refine Prog.keeps_pure fun p hp => ?_
    obtain rfl := Option.some.inj hp
    exact h
  | succ seq ih =>
    intro sec slot b h
    have hslot := h.slot
    obtain ⟨t, hsec, hend, hle⟩ := h.sec
    rw [writeLfnLoop]
    dsimp only at hsec hle hslot ⊢
    rw [hp.bps]
    split
    · refine (bdevWrite_sector_keeps hs env (h.out hp) _).bind fun res _ => ?_
      split
      · exact Prog.keeps_pure fun p hp => by cases hp
      · refine ((readOnly_bdevRead _).keeps _).bind fun b' _ => ?_
        cases b' with
        | none => exact Prog.keeps_pure fun p hp => by cases hp
        | some buf =>
          refine ih _ _ _ ⟨⟨t + 1, ?_, by omega, by dsimp only; omega⟩, Nat.succ_pos 15⟩
          rw [hsec]
          exact u32_u32_add _ _
    · exact ih _ _ _ ⟨⟨t, hsec, hend, by dsimp only; omega⟩, by dsimp only; omega⟩

theorem fatWriteLfnAndShortEntry_keeps {sec slot : Nat} (hsec : DirSec fs sec) (hslot : slot < 16)
    {name : List UInt8} (hn : name.length ≤ 255) (short11 : List UInt8) (e : Slot) :
    (fatWriteLfnAndShortEntry fs sec slot name short11 e).Keeps (Taken env fs d) fun _ => True := by
  have hstart : WriterAt fs (numLfnSlots name) sec slot :=
    cursorOk_start hp hsec hslot (numLfnSlots_le hn) _ _
  refine ((readOnly_bdevRead _).keeps _).bind fun b _ => ?_
  cases b with
  | none => exact Prog.keeps_pure trivial
  | some buf =>
    refine (writeLfnLoop_keeps hp hs env name _ _ _ sec slot buf hstart).bind fun r hr => ?_
    cases r with
    | none => exact Prog.keeps_pure trivial
    | some p => exact bdevWrite_sector_keeps hs env ((hr p rfl).out hp) _

/-! ### What follows the first cluster -/

section New

variable (afterShort : Nat → List UInt8) (dir : FatDir) {name : List UInt8}
  (hn : name.length ≤ 255) {sec slot : Nat} (hsec : DirSec fs sec) (hslot : slot < 16)
  {c : Nat} (hc : c = 0 ∨ fs.InRange c)

include hn hsec hslot hc

theorem fillFile_keeps (buf : Buf) (len : Nat) :
    (fillFile afterShort fs dir name sec slot buf len c).Keeps (Taken env fs d)
      fun _ => True := by
  unfold fillFile
  split
  · exact Prog.keeps_pure trivial
  · next hne =>
    refine (readOnly_kmallocOk.keeps _).bind fun ok _ => ?_
    split
    · exact Prog.keeps_pure trivial
    · refine (writeLoop_keeps hs env buf len _ c 0 (hc.resolve_left hne)).bind fun res _ => ?_
      split
      · exact Prog.keeps_pure trivial
      · refine ((readOnly_chooseShortName fs afterShort dir name).keeps _).bind fun short11 _ => ?_
        exact fatWriteLfnAndShortEntry_keeps hp hs env hsec hslot hn _ _

theorem fillDir_keeps :
    (fillDir afterShort fs dir name sec slot c).Keeps (Taken env fs d) fun _ => True := by
  unfold fillDir
  split
  · exact Prog.keeps_pure trivial
  · next hne =>
    refine (readOnly_kmallocOk.keeps _).bind fun ok _ => ?_
    split
    · exact Prog.keeps_pure trivial
    · refine (writeCluster_keeps hs env (hc.resolve_left hne) _).bind fun res _ => ?_
      split
      · exact Prog.keeps_pure trivial
      · refine ((readOnly_chooseShortName fs afterShort dir name).keeps _).bind fun short11 _ => ?_
        exact fatWriteLfnAndShortEntry_keeps hp hs env hsec hslot hn _ _

end New

omit hp in
theorem rewriteFile_keeps {loc : EntryLoc} (hloc : OutSec fs loc.sector) {c : Nat}
    (hc : c = 0 ∨ fs.InRange c) (buf : Buf) (len : Nat) :
    (rewriteFile fs loc buf len c).Keeps (Taken env fs d) fun _ => True := by
  unfold rewriteFile
  split
  · exact Prog.keeps_pure trivial
  · next hne =>
    refine (readOnly_kmallocOk.keeps _).bind fun ok _ => ?_
    split
    · exact Prog.keeps_pure trivial
    · refine (writeLoop_keeps hs env buf len _ c 0 (hc.resolve_left hne)).bind fun res _ => ?_
      split
      · exact Prog.keeps_pure trivial
      · refine ((readOnly_bdevRead _).keeps _).bind fun b _ => ?_
        cases b with
        | none => exact Prog.keeps_pure trivial
        | some sector => exact bdevWrite_sector_keeps hs env hloc _

/-! ### The first write -/

/-- What the first write of a call leaves: of a mark, a cluster taken; of data, nothing
    is said. -/
def Outcome (env : Env) (fs : FatFs) (d : Disk) : FirstWrite → Disk → Prop
  | .mark => Taken env fs d
  | .data => fun _ => True

omit hp hs [env.NoFault] in
theorem outcome_keeps {α : Type} {p : DiskProg α} (h : p.Keeps (Taken env fs d) fun _ => True)
    (k : FirstWrite) :
    p.Keeps (Outcome env fs d k) fun _ => True := by
  cases k with
  | mark => exact h
  | data => exact fun _ _ => ⟨trivial, trivial⟩

omit hp in
theorem allocFreeCluster_leaves (hb : InBounds env fs d) :
    Prog.Leaves d (Outcome env fs d) fs.InRange (beforeMark fs) (allocFreeCluster fs) := by
  refine Prog.Leaves.bind (Q := fun c => c = 0 ∨ (fs.InRange c ∧ fs.fatEnt d c = 0))
    (readOnly_freeCluster fs) (fun g => ?_) fun c hc => ?_
  · rw [freeCluster_sound env, allocFreeCluster_eq hs env]
    cases hfree : fs.freeCluster? d with
    | none => exact Or.inl rfl
    | some c => exact Or.inr (freeCluster?_some hs hfree)
  by_cases h0 : c = 0
  · rw [if_pos h0]
    exact Prog.leaves_none _
  · obtain ⟨hc, hfree⟩ := hc.resolve_left h0
    have hpos : (fatEntryPos fs (if fs.type = .fat32 then 4 else 2) c).1 = fs.entSector c := by
      rw [← FatFs.entSize, hs.fatEntryPos_eq hc.2]
    rw [if_neg h0, if_neg h0, hpos, setFatEntry_prog hs hc, Prog.bind_assoc]
    refine Prog.Leaves.bind (Q := fun b => b = some fun i => d (fs.entSector c * 512 + i))
      (readOnly_bdevRead _) (fun g => rfl) fun b hsector => ?_
    rw [hsector]
    refine Prog.leaves_some fun w hw hd => ?_
    rw [Prog.run_bind]
    refine ⟨?_, hc⟩
    have hent := fun x hx => writeFatSector_ent hs hc fs.eofVal hd x hx
    rw [hw] at hent
    have hused := (hent c hc).trans (if_pos rfl)
    exact ⟨hb.entries.put env hs (Or.inr (Or.inr rfl)) hent, c, hc, hfree,
      hused.trans_ne (Link.ne_zero hs (Or.inr rfl))⟩

omit hp in
theorem mark_leaves (hb : InBounds env fs d) {α : Type} {h : Nat → DiskProg α}
    (hR : ∀ c, fs.InRange c → (h c).Keeps (Taken env fs d) fun _ => True) :
    Prog.Leaves d (Outcome env fs d) (fun _ => True) (beforeMark fs)
      (allocFreeCluster fs >>= h) :=
  (allocFreeCluster_leaves hs env hb).after fun k c hc => outcome_keeps env (hR c hc) k

theorem overwriteFile_leaves (hb : InBounds env fs d) {loc : EntryLoc}
    (hloc : LocOk env fs d loc) (buf : Buf) (len : Nat) :
    Prog.Leaves d (Outcome env fs d) (fun _ => True) (beforeOverwrite fs loc)
      (overwriteFile fs loc buf len) := by
  unfold beforeOverwrite overwriteFile firstCluster
  have hsec := (hloc.sec.dirSec hp env hb).out
  by_cases hdir : loc.entry.isDirectory = true
  · rw [if_pos hdir]
    exact Prog.leaves_none _
  · rw [if_neg hdir, if_neg hdir]
    by_cases hold : loc.entry.cluster < 2
    · rw [if_pos hold, if_pos hold]
      exact mark_leaves hs env hb
        fun c hc => rewriteFile_keeps hs env hsec (Or.inr hc) buf len
    · rw [if_neg hold, if_neg hold, Prog.pure_bind, rewriteFile, if_neg (by omega)]
      refine Prog.Leaves.bind (Q := fun _ => True) readOnly_kmallocOk (fun _ => trivial)
        fun ok _ => ?_
      cases ok with
      | false => exact Prog.leaves_none _
      | true => exact Prog.leaves_some fun _ _ _ => ⟨trivial, trivial⟩

/-- A call after the path is resolved: the slot search, and then a call that takes a
    cluster for a new name. -/
theorem slots_leaves (hb : InBounds env fs d) {dir : FatDir} (hdir : VisitDir env fs d dir)
    (name : List UInt8) (numSlots : Nat) {front : SlotSearch → DiskProg (Option FirstWrite)}
    {next : Option SlotRef → DiskProg Int} {fill : (sec slot c : Nat) → DiskProg Int}
    (hfailed : front .failed = pure none) (hnone : (next none).ReadOnly)
    (hexisting : ∀ loc, LocOk env fs d loc →
      Prog.Leaves d (Outcome env fs d) (fun _ => True) (front (.existing loc))
        (next (some (.existing loc))))
    (hplace : ∀ sec slot, front (.place sec slot) = beforeMark fs)
    (hfull : ∀ last, front (.full last) = beforeMark fs)
    (hnext : ∀ sec slot, next (some (.place sec slot)) = allocFreeCluster fs >>= fill sec slot)
    (hfill : ∀ sec slot c, DirSec fs sec → slot < 16 → (c = 0 ∨ fs.InRange c) →
      (fill sec slot c).Keeps (Taken env fs d) fun _ => True) :
    Prog.Leaves d (Outcome env fs d) (fun _ => True) (searchSlots fs dir name numSlots >>= front)
      (fatDirFindOrAllocLfnSlots fs dir name numSlots >>= next) := by
  rw [fatDirFindOrAllocLfnSlots, Prog.bind_assoc]
  refine Prog.Leaves.bind (Q := SearchOk env fs d) (readOnly_searchSlots fs dir name _)
    (fun g => searchSlots_ok hp env hb g hdir name _) fun s hsearch => ?_
  cases s with
  | failed =>
    rw [hfailed]
    exact Prog.leaves_none _
  | existing loc => exact hexisting loc hsearch
  | place sec slot =>
    rw [hplace, takeSlots, Prog.pure_bind, hnext]
    exact mark_leaves hs env hb fun c hc => hfill sec slot c hsearch.1 hsearch.2 (Or.inr hc)
  | full last =>
    rw [hfull, takeSlots, appendCluster, Prog.bind_assoc]
    refine mark_leaves hs env hb fun c hc => ?_
    refine (linkCluster_keeps hp hs env hsearch (Or.inr hc)).bind fun r hr => ?_
    cases r with
    | none => exact hnone.keeps _
    | some ref =>
      cases ref with
      | existing loc => exact hr.elim
      | place sec slot =>
        rw [hnext]
        exact (allocFreeCluster_keeps hs env).bind fun c hc => hfill sec slot c hr.1 hr.2 hc

/-- **The first write of a call.**  If it is reached and marks a cluster, a cluster is
    taken when the call returns. -/
theorem call_leaves (hb : InBounds env fs d) (afterShort : Nat → List UInt8) (call : Call) :
    Prog.Leaves d (Outcome env fs d) (fun _ => True) (firstWrite fs call)
      (call.prog afterShort fs) := by
  have hpath : ∀ path g dir name,
      ((fatResolveParentAndName fs path).run (sound d g)).1 = some (dir, name) →
        VisitDir env fs d dir ∧ name.length ≤ 255 :=
    fun _ g _ _ h => fatResolveParentAndName_visit env fs d g h
  cases call with
  | writeFile path buf len =>
    refine Prog.Leaves.bind
      (Q := fun r => ∀ dir name, r = some (dir, name) → VisitDir env fs d dir ∧ name.length ≤ 255)
      (readOnly_fatResolveParentAndName fs path) (hpath path) fun r hr => ?_
    cases r with
    | none => exact Prog.leaves_none _
    | some p =>
      obtain ⟨dir, name⟩ := p
      obtain ⟨hdir, hn⟩ := hr dir name rfl
      exact slots_leaves hp hs env hb hdir name _ rfl (Prog.readOnly_pure _)
        (fun loc hloc => overwriteFile_leaves hp hs env hb hloc buf len) (fun _ _ => rfl)
        (fun _ => rfl) (fun _ _ => rfl)
        fun sec slot c hsec hslot hc =>
          fillFile_keeps hp hs env afterShort dir hn hsec hslot hc buf len
  | mkdir path =>
    refine Prog.Leaves.bind
      (Q := fun r => ∀ dir name, r = some (dir, name) → VisitDir env fs d dir ∧ name.length ≤ 255)
      (readOnly_fatResolveParentAndName fs path) (hpath path) fun r hr => ?_
    cases r with
    | none => exact Prog.leaves_none _
    | some p =>
      obtain ⟨dir, name⟩ := p
      obtain ⟨hdir, hn⟩ := hr dir name rfl
      dsimp only
      by_cases hbad : name = [] ∨ name = [0x2E] ∨ name = [0x2E, 0x2E]
      · rw [if_pos hbad]
        exact Prog.leaves_none _
      · rw [if_neg hbad, if_neg hbad]
        exact slots_leaves hp hs env hb hdir name _ rfl (Prog.readOnly_pure _)
          (fun _ _ => Prog.leaves_none _) (fun _ _ => rfl) (fun _ => rfl) (fun _ _ => rfl)
          fun sec slot c hsec hslot hc => fillDir_keeps hp hs env afterShort dir hn hsec hslot hc

end

/-! ### Nothing before the first write

That a call changes nothing when it does not reach its first write holds on any volume,
in bounds or not. -/

section

variable (fs : FatFs) (d : Disk)

theorem mark_quiet {α : Type} {h : Nat → DiskProg α} (hzero : (h 0).ReadOnly) :
    Prog.Quiet d (beforeMark fs) (allocFreeCluster fs >>= h) := by
  rw [allocFreeCluster, Prog.bind_assoc]
  refine Prog.Quiet.bind
    (Q := fun c => c = 0 ∨ ((fs.type = .fat16 ∨ fs.type = .fat32) ∧ c ∈ List.range' 2 fs.scanLimit))
    (readOnly_freeCluster fs) (fun w _ => (freeCluster_keeps fs (fun _ => True) w trivial).2)
    fun c hc => ?_
  by_cases h0 : c = 0
  · rw [if_pos h0, if_pos h0]
    exact Prog.quiet_none hzero
  · obtain ⟨ht, hc⟩ := hc.resolve_left h0
    have h2 : ¬ c < 2 := by
      rw [List.mem_range'_1] at hc
      exact Nat.not_lt.mpr hc.1
    rw [if_neg h0, if_neg h0, Prog.bind_assoc]
    rcases ht with ht | ht
    · simp only [setFatEntry, if_neg h2, ht, reduceCtorEq, if_false, Prog.bind_assoc]
      exact Prog.Quiet.bind (Q := fun _ => True) (readOnly_bdevRead _) (fun _ _ => trivial)
        fun _ _ => Prog.quiet_some _ _
    · simp only [setFatEntry, if_neg h2, ht, if_true, Prog.bind_assoc]
      exact Prog.Quiet.bind (Q := fun _ => True) (readOnly_bdevRead _) (fun _ _ => trivial)
        fun _ _ => Prog.quiet_some _ _

theorem overwriteFile_quiet (loc : EntryLoc) (buf : Buf) (len : Nat) :
    Prog.Quiet d (beforeOverwrite fs loc) (overwriteFile fs loc buf len) := by
  unfold beforeOverwrite overwriteFile firstCluster
  split
  · exact Prog.quiet_none (Prog.readOnly_pure _)
  · by_cases hold : loc.entry.cluster < 2
    · rw [if_pos hold, if_pos hold]
      exact mark_quiet fs d (Prog.readOnly_pure _)
    · rw [if_neg hold, if_neg hold, Prog.pure_bind, rewriteFile, if_neg (by omega)]
      refine Prog.Quiet.bind (Q := fun _ => True) readOnly_kmallocOk (fun _ _ => trivial)
        fun ok _ => ?_
      cases ok with
      | false => exact Prog.quiet_none (Prog.readOnly_pure _)
      | true => exact Prog.quiet_some _ _

theorem slots_quiet (dir : FatDir) (name : List UInt8) (numSlots : Nat)
    {front : SlotSearch → DiskProg (Option FirstWrite)} {next : Option SlotRef → DiskProg Int}
    (hnone : (next none).ReadOnly)
    (hfailed : front .failed = pure none)
    (hexisting : ∀ loc, Prog.Quiet d (front (.existing loc))
      (next (some (.existing loc))))
    (hplace : ∀ sec slot, Prog.Quiet d (front (.place sec slot))
      (next (some (.place sec slot))))
    (hfull : ∀ last, front (.full last) = beforeMark fs) :
    Prog.Quiet d (searchSlots fs dir name numSlots >>= front)
      (fatDirFindOrAllocLfnSlots fs dir name numSlots >>= next) := by
  rw [fatDirFindOrAllocLfnSlots, Prog.bind_assoc]
  refine Prog.Quiet.bind (Q := fun _ => True) (readOnly_searchSlots fs dir name _)
    (fun _ _ => trivial) fun s _ => ?_
  cases s with
  | failed =>
    rw [hfailed]
    exact Prog.quiet_none hnone
  | existing loc => exact hexisting loc
  | place sec slot => exact hplace sec slot
  | full last =>
    rw [hfull, takeSlots, appendCluster, Prog.bind_assoc]
    exact mark_quiet fs d hnone

/-- **Before the first write.**  A call that does not reach its first write leaves the
    device as it was. -/
theorem call_quiet (afterShort : Nat → List UInt8) (call : Call) :
    Prog.Quiet d (firstWrite fs call) (call.prog afterShort fs) := by
  cases call with
  | writeFile path buf len =>
    refine Prog.Quiet.bind (Q := fun _ => True) (readOnly_fatResolveParentAndName fs path)
      (fun _ _ => trivial) fun r _ => ?_
    cases r with
    | none => exact Prog.quiet_none (Prog.readOnly_pure _)
    | some p =>
      exact slots_quiet fs d p.1 p.2 _ (Prog.readOnly_pure _) rfl
        (fun loc => overwriteFile_quiet fs d loc buf len)
        (fun _ _ => mark_quiet fs d (Prog.readOnly_pure _)) fun _ => rfl
  | mkdir path =>
    refine Prog.Quiet.bind (Q := fun _ => True) (readOnly_fatResolveParentAndName fs path)
      (fun _ _ => trivial) fun r _ => ?_
    cases r with
    | none => exact Prog.quiet_none (Prog.readOnly_pure _)
    | some p =>
      obtain ⟨dir, name⟩ := p
      dsimp only
      by_cases hbad : name = [] ∨ name = [0x2E] ∨ name = [0x2E, 0x2E]
      · rw [if_pos hbad, if_pos hbad]
        exact Prog.quiet_none (Prog.readOnly_pure _)
      · rw [if_neg hbad, if_neg hbad]
        exact slots_quiet fs d dir name _ (Prog.readOnly_pure _) rfl
          (fun _ => Prog.quiet_none (Prog.readOnly_pure _))
          (fun _ _ => mark_quiet fs d (Prog.readOnly_pure _)) fun _ => rfl

end

/-! ### Failing calls -/

/-- **Calls that fail.**  With a device that dies after any number of operations and a
    heap that denies any requests, a failing call that does not reach its first write
    leaves the volume as it was.  On a FAT16 or FAT32 volume in bounds, one whose first
    write marks a cluster does not. -/
theorem failed_call_keeps_volume_iff (fs : FatFs) (afterShort : Nat → List UInt8)
    (w : World Disk) (call : Call) (_ : ((call.prog afterShort fs).run w).1 ≠ 0) :
    (Prog.reached (firstWrite fs call) w = none →
      SameVolume fs w.dev ((call.prog afterShort fs).run w).2.dev) ∧
    (fs.Placed → (fs.type = .fat16 ∨ fs.type = .fat32) → InBounds Env.ideal fs w.dev →
      Prog.reached (firstWrite fs call) w ≠ some .data →
      (SameVolume fs w.dev ((call.prog afterShort fs).run w).2.dev ↔
        Prog.reached (firstWrite fs call) w = none)) := by
  have hsame : Prog.reached (firstWrite fs call) w = none →
      SameVolume fs w.dev ((call.prog afterShort fs).run w).2.dev := by
    intro h
    rw [call_quiet fs w.dev afterShort call w rfl h]
    exact SameVolume.refl fs w.dev
  refine ⟨hsame, fun hp ht hb hdata => ⟨fun hvol => ?_, hsame⟩⟩
  have hreached := call_leaves hp (hp.sound ht) Env.ideal hb afterShort call w rfl
  cases hfirst : Prog.reached (firstWrite fs call) w with
  | none => rfl
  | some k =>
    cases k with
    | mark => exact absurd hvol (Taken.not_same (hreached .mark hfirst).1)
    | data => exact absurd hfirst hdata

/-- `mkdir A` on an empty volume, with every request for memory denied. -/
theorem failed_mkdir_plainDisk :
    Prog.reached (firstWrite (plainFs 2) (.mkdir [0x41])) ⟨plainDisk 2, none, fun _ => false⟩ ≠
        none ∧
      ¬ SameVolume (plainFs 2) (plainDisk 2)
        (((Call.mkdir [0x41]).prog (fun _ => []) (plainFs 2)).run
          ⟨plainDisk 2, none, fun _ => false⟩).2.dev := by
  have hp : (plainFs 2).Placed := by constructor <;> decide
  have hmark : Prog.reached (firstWrite (plainFs 2) (.mkdir [0x41]))
      ⟨plainDisk 2, none, fun _ => false⟩ = some .mark := by decide +kernel
  have hiff := (failed_call_keeps_volume_iff (plainFs 2) (fun _ => [])
    ⟨plainDisk 2, none, fun _ => false⟩ (.mkdir [0x41]) (by decide +kernel)).2 hp (Or.inl rfl)
    inBounds_plainDisk
  rw [hmark] at hiff ⊢
  exact ⟨Option.some_ne_none _, fun h => absurd ((hiff (by decide)).mp h) (Option.some_ne_none _)⟩

/-- A directory that is not made: the buffer for its first cluster is denied, the call
    returns -1, and the cluster stays marked. -/
theorem failed_mkdir_takes_cluster :
    fatMount Env.ideal 0 (plainDisk 2) = some (plainFs 2) ∧
      (((Call.mkdir [0x41]).prog (fun _ => []) (plainFs 2)).run
        ⟨plainDisk 2, none, fun _ => false⟩).1 = -1 ∧
      ¬ SameVolume (plainFs 2) (plainDisk 2)
        (((Call.mkdir [0x41]).prog (fun _ => []) (plainFs 2)).run
          ⟨plainDisk 2, none, fun _ => false⟩).2.dev := by
  refine ⟨by decide +kernel, by decide +kernel, fun h => ?_⟩
  have hfree : (plainFs 2).fatEnt (plainDisk 2) 2 = 0 := by decide +kernel
  exact absurd ((h.clusters 2 (by decide)).mpr hfree) (by decide +kernel)

end Gemios.Faulty
