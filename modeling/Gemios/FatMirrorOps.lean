import Gemios.FatReach
import Gemios.FatFile

/-!
# The copies of the FAT through `fat_write_file` and `fat_mkdir`

Whatever these calls return, on a volume in bounds they write directory slots and
clusters outside the FAT and change the FAT by `set_fat_entry` only.
-/

namespace Gemios

/-! ### The slot search -/

/-- The run under way starts at a directory slot, and the last cluster is one of the
    volume. -/
structure RunOk (fs : FatFs) (r : FreeRun) : Prop where
  start : 0 < r.count → DirSec fs r.startSec ∧ r.startSlot < 16
  last : r.lastCluster = 0 ∨ fs.InRange r.lastCluster

theorem runOk_start (fs : FatFs) : RunOk fs ⟨0, 0, 0, 0⟩ :=
  ⟨fun h0 => absurd h0 (Nat.lt_irrefl 0), Or.inl rfl⟩

theorem RunOk.enter {fs : FatFs} {r : FreeRun} (h : RunOk fs r) {c : Nat} (hc : fs.InRange c) :
    RunOk fs { r with lastCluster := c } := ⟨h.start, Or.inr hc⟩

theorem freeRunBody_sat {fs : FatFs} {sec slot : Nat} (numSlots : Nat) (hsec : DirSec fs sec)
    (hslot : slot < 16) (e : Slot) {r : FreeRun} (h : RunOk fs r) :
    (freeRunBody numSlots sec slot e r).Sat (RunOk fs) (fun p => DirSec fs p.1 ∧ p.2 < 16) := by
  unfold freeRunBody
  dsimp only
  split
  · have hstart : ∀ q : FreeRun, q = (if r.count = 0 then
        { r with startSec := sec, startSlot := slot } else r) →
        (DirSec fs q.startSec ∧ q.startSlot < 16) ∧ q.lastCluster = r.lastCluster := by
      intro q hq
      split at hq
      · subst hq
        exact ⟨⟨hsec, hslot⟩, rfl⟩
      · next hne =>
        subst hq
        exact ⟨h.start (Nat.pos_of_ne_zero hne), rfl⟩
    generalize hq : (if r.count = 0 then
      { r with startSec := sec, startSlot := slot } else r) = q
    obtain ⟨h1, h2⟩ := hstart q hq.symm
    split
    · exact h1
    · exact ⟨fun _ => h1, by rw [h2]; exact h.last⟩
  · exact ⟨fun hpos => absurd hpos (Nat.lt_irrefl 0), h.last⟩

/-- What the slot search hands back, with the device after it. -/
def SlotRefOk (env : Env) (fs : FatFs) (d : Disk) : Option SlotRef × Disk → Prop
  | (none, _) => True
  | (some (.existing loc), d') => LocOk env fs d loc ∧ d' = d
  | (some (.place sec slot), _) => DirSec fs sec ∧ slot < 16

section

variable {fs : FatFs} (hp : fs.Placed) (env : Env) [env.NoFault] {d : Disk} (h2 : fs.TwoCopies)

include hp h2

theorem appendCluster_mirrored {last c : Nat} (hlast : last = 0 ∨ fs.InRange last)
    (hc : fs.InRange c) (h : Mirrored env fs d) :
    Mirrored env fs (writeCluster env fs (setFatEntry env fs d last c).2 c fun _ => 0).2 := by
  have hok : ClusOk fs last := hlast.imp (fun h0 => by omega) id
  exact (writeCluster_mirrored hp env hc
    (setFatEntry_mirrored hp env h2 hok (Or.inr (Or.inl hc)) h) _).2

omit h2 in
theorem scanRootDir_freeRun (hb : InBounds env fs d) (ht : fs.type ≠ .fat32) (numSlots : Nat) :
    (scanRootDir env fs (fun _ => d) (freeRunBody numSlots) ⟨0, 0, 0, 0⟩).Sat
      (RunOk fs) (fun p => DirSec fs p.1 ∧ p.2 < 16) :=
  scanRootDir_sat env (S := VisitSec env fs d)
    (fun _ _ _ _ hsec he _ hr => freeRunBody_sat numSlots (hsec.dirSec hp env hb) he _ hr)
    (fun _ hi => visitSec_of_root hp env ht hi) (runOk_start fs)

omit h2 in
theorem scanChain_freeRun (hb : InBounds env fs d) {c : Nat} (hc : Visits env fs d c)
    (numSlots : Nat) :
    (scanChain env fs (fun _ => d) (fun c r => { r with lastCluster := c })
      (freeRunBody numSlots) maxVisits c ⟨0, 0, 0, 0⟩).Sat
      (RunOk fs) (fun p => DirSec fs p.1 ∧ p.2 < 16) :=
  scanChain_sat hp.sized env (V := Visits env fs d) (S := VisitSec env fs d)
    (fun _ _ _ _ hsec he _ hr => freeRunBody_sat numSlots (hsec.dirSec hp env hb) he _ hr)
    (fun _ _ hc _ _ hlt => Visits.step env hc hlt)
    (fun _ hc _ hk => visitSec_of_cluster hp env hb hc hk)
    (fun c _ hc hr => hr.enter (hb.clusters c hc)) _ _ _ (fun _ _ => hc) (runOk_start fs)

theorem fatDirFindOrAllocLfnSlots_mirrored (hb : InBounds env fs d) {dir : FatDir}
    (hdir : VisitDir env fs d dir) (h : Mirrored env fs d) (name : List UInt8) (numSlots : Nat) :
    Mirrored env fs (fatDirFindOrAllocLfnSlots env fs d dir name numSlots).2 ∧
      SlotRefOk env fs d (fatDirFindOrAllocLfnSlots env fs d dir name numSlots) := by
  unfold fatDirFindOrAllocLfnSlots
  split
  · next loc hfind => exact ⟨h, fatDirFindEntry_locOk hp env hb hdir hfind, rfl⟩
  · dsimp only
    rcases hdir with ⟨hfix, ht⟩ | ⟨hfix, hc⟩
    · rw [if_pos hfix]
      have hsat := scanRootDir_freeRun hp env hb ht numSlots
      split
      · next heq =>
        rw [heq] at hsat
        exact ⟨h, hsat⟩
      · exact ⟨h, trivial⟩
    · rw [hfix, if_neg Bool.false_ne_true]
      split
      · exact ⟨h, trivial⟩
      · next hguard =>
        have hv := hc.resolve_left fun hlt => hguard (Or.inl hlt)
        have hsat := scanChain_freeRun hp env hb hv numSlots
        rw [kmallocOk_eq, Bool.not_true, if_neg Bool.false_ne_true]
        generalize scanChain env fs (fun _ => d) (fun c r => { r with lastCluster := c })
          (freeRunBody numSlots) maxVisits dir.cluster ⟨0, 0, 0, 0⟩ = r at hsat ⊢
        obtain ⟨ha, hnew⟩ := allocFreeCluster_mirrored hp env h2 h
        cases r with
        | ret p => exact ⟨h, hsat⟩
        | next r | stop r =>
          dsimp only
          split
          · next heq =>
            rw [heq] at ha
            exact ⟨ha, trivial⟩
          · next c d₁ hne heq =>
            rw [heq] at ha hnew
            have hcr := hnew.resolve_left hne
            refine ⟨appendCluster_mirrored hp env h2 hsat.last hcr ha, ?_, by omega⟩
            rw [hp.clusterSector_eq hcr]
            exact hp.dirSec hcr hp.spc

end

/-! ### Writing a name's slots -/

/-- Where the writer of a name's slots stands: it steps from sector to sector, and with
    at most 20 slots to go it comes past the last sector number only to sector 0. -/
structure CursorOk (fs : FatFs) (left : Nat) (c : SlotCursor) : Prop where
  sec : ∃ t, c.curSec = u32 t ∧ fs.fatStartSector + fs.numFats * fs.fatSizeSectors ≤ t ∧
    16 * t + c.curSlot + left ≤ 16 * 4294967294 + 35
  slot : c.curSlot < 16

/-- How the loop over the long-name slots ends. -/
def WriterOk (env : Env) (fs : FatFs) : SlotCursor ⊕ Disk → Prop
  | .inl c => CursorOk fs 0 c ∧ Mirrored env fs c.disk
  | .inr d => Mirrored env fs d

section

variable {fs : FatFs} (hp : fs.Placed) (env : Env) [env.NoFault]

include hp

omit [env.NoFault] in
theorem CursorOk.out {left : Nat} {c : SlotCursor} (h : CursorOk fs left c) :
    OutSec fs c.curSec := by
  obtain ⟨t, hsec, hend, hle⟩ := h.sec
  have hstart := hp.fatStart
  rw [hsec]
  rcases Nat.lt_or_ge t 4294967296 with hlt | hge
  · rw [u32_of_lt hlt]
    exact Or.inr hend
  · obtain rfl : t = 4294967296 := by omega
    exact Or.inl hstart

omit [env.NoFault] in
theorem cursorOk_start {sec slot : Nat} (hsec : DirSec fs sec) (hslot : slot < 16) {n : Nat}
    (hn : n ≤ 20) (d : Disk) (buf : Buf) : CursorOk fs n ⟨d, sec, slot, buf⟩ := by
  have h1 := hp.dataEnd
  have h2 := hsec.2
  have hlt : sec < 4294967296 := by omega
  exact ⟨⟨sec, (u32_of_lt hlt).symm, hsec.1, by dsimp only; omega⟩, hslot⟩

theorem writeLfnLoop_mirrored (longName : List UInt8) (numLfn : Nat) (chk : UInt8) :
    ∀ (seq : Nat) (c : SlotCursor), CursorOk fs seq c → Mirrored env fs c.disk →
      WriterOk env fs (writeLfnLoop env fs longName numLfn chk seq c) := by
  intro seq
  induction seq with
  | zero =>
    intro c hc h
    exact ⟨hc, h⟩
  | succ seq ih =>
    intro c hc h
    have hslot := hc.slot
    obtain ⟨t, hsec, hend, hle⟩ := hc.sec
    rw [writeLfnLoop]
    dsimp only
    rw [hp.bps]
    split
    · have hw := bdevWrite_mirrored hp env (hc.out hp) h
        (putSlot c.secBuf (32 * c.curSlot) (lfnEntry longName numLfn chk (seq + 1)))
      rw [bdevWrite_eq] at hw ⊢
      simp only [bdevRead_eq]
      refine ih _ ⟨⟨t + 1, ?_, by omega, by dsimp only; omega⟩, Nat.zero_lt_succ 15⟩ hw
      rw [hsec, u32_u32_add]
    · have hslot' : c.curSlot + 1 < 16 := by omega
      exact ih _ ⟨⟨t, hsec, hend, by dsimp only; omega⟩, hslot'⟩ h

omit hp in
theorem numLfnSlots_le {name : List UInt8} (hn : name.length ≤ 255) : numLfnSlots name ≤ 20 := by
  unfold numLfnSlots
  split <;> omega

theorem fatWriteLfnAndShortEntry_mirrored {d : Disk} (h : Mirrored env fs d) {sec slot : Nat}
    (hsec : DirSec fs sec) (hslot : slot < 16) {name : List UInt8} (hn : name.length ≤ 255)
    (short11 : List UInt8) (e : Slot) :
    Mirrored env fs (fatWriteLfnAndShortEntry env fs d sec slot name short11 e).2 := by
  unfold fatWriteLfnAndShortEntry
  simp only [bdevRead_eq]
  have hloop := writeLfnLoop_mirrored hp env name (numLfnSlots name) (fatLfnChecksum short11)
    (numLfnSlots name) ⟨d, sec, slot, fun i => d (sec * 512 + i)⟩
    (cursorOk_start hp hsec hslot (numLfnSlots_le hn) _ _) h
  split
  · next heq =>
    rw [heq] at hloop
    exact hloop
  · next c heq =>
    rw [heq] at hloop
    exact bdevWrite_mirrored hp env (hloop.1.out hp) hloop.2 _

end

/-! ### The calls -/

section

variable {fs : FatFs} (hp : fs.Placed) (env : Env) [env.NoFault] {d : Disk} (h2 : fs.TwoCopies)

include hp h2

theorem overwriteFile_mirrored (hb : InBounds env fs d) (h : Mirrored env fs d) {loc : EntryLoc}
    (hloc : LocOk env fs d loc) (buf : Buf) (len : Nat) :
    Mirrored env fs (overwriteFile env fs d loc buf len).2 := by
  have hold : ClusOk fs loc.entry.cluster := by
    have hlive := hloc.live
    rw [hloc.entry] at hlive ⊢
    exact hloc.sec.clusOk env hb hloc.slot hlive
  have hfirst : Mirrored env fs (firstCluster env fs d loc.entry.cluster).2 ∧
      ((firstCluster env fs d loc.entry.cluster).1 = 0 ∨
        fs.InRange (firstCluster env fs d loc.entry.cluster).1) := by
    unfold firstCluster
    split
    · exact allocFreeCluster_mirrored hp env h2 h
    · next hge => exact ⟨h, Or.inr (hold.resolve_left hge)⟩
  unfold overwriteFile
  split
  · exact h
  · obtain ⟨hm, hc⟩ := hfirst
    split
    · next heq =>
      rw [heq] at hm
      exact hm
    · next c d₁ hne heq =>
      rw [heq] at hm hc
      have hloop := writeLoop_mirrored hp env h2 buf len (len + 1) d₁ c 0 (hc.resolve_left hne) hm
      rw [kmallocOk_eq, Bool.not_true, if_neg Bool.false_ne_true]
      split
      · next hw =>
        rw [hw] at hloop
        simp only [bdevRead_eq]
        exact bdevWrite_mirrored hp env (hloc.sec.dirSec hp env hb).out hloop _
      · next hw =>
        rw [hw] at hloop
        exact hloop

theorem createFile_mirrored (h : Mirrored env fs d) (dir : FatDir) {name : List UInt8}
    (hn : name.length ≤ 255) {sec slot : Nat} (hsec : DirSec fs sec) (hslot : slot < 16) (buf : Buf)
    (len : Nat) : Mirrored env fs (createFile env fs d dir name sec slot buf len).2 := by
  obtain ⟨hm, hc⟩ := allocFreeCluster_mirrored hp env h2 h
  unfold createFile
  split
  · next heq =>
    rw [heq] at hm
    exact hm
  · next c d₁ hne heq =>
    rw [heq] at hm hc
    have hloop := writeLoop_mirrored hp env h2 buf len (len + 1) d₁ c 0 (hc.resolve_left hne) hm
    rw [kmallocOk_eq, Bool.not_true, if_neg Bool.false_ne_true]
    split
    · next hw =>
      rw [hw] at hloop
      exact fatWriteLfnAndShortEntry_mirrored hp env hloop hsec hslot hn _ _
    · next hw =>
      rw [hw] at hloop
      exact hloop

theorem createDir_mirrored (h : Mirrored env fs d) (dir : FatDir) {name : List UInt8}
    (hn : name.length ≤ 255) {sec slot : Nat} (hsec : DirSec fs sec) (hslot : slot < 16) :
    Mirrored env fs (createDir env fs d dir name sec slot).2 := by
  obtain ⟨hm, hc⟩ := allocFreeCluster_mirrored hp env h2 h
  unfold createDir
  split
  · next heq =>
    rw [heq] at hm
    exact hm
  · next c d₁ hne heq =>
    rw [heq] at hm hc
    have hw := (writeCluster_mirrored hp env (hc.resolve_left hne) hm
      (dotEntries c (parentCluster fs dir))).2
    rw [kmallocOk_eq, Bool.not_true, if_neg Bool.false_ne_true]
    split
    · next hwc =>
      rw [hwc] at hw
      exact fatWriteLfnAndShortEntry_mirrored hp env hw hsec hslot hn _ _
    · next hwc =>
      rw [hwc] at hw
      exact hw

/-- **`fat_write_file` keeps the copies equal.** -/
theorem fatWriteFile_mirrored (hb : InBounds env fs d) (h : Mirrored env fs d)
    (path : List UInt8) (buf : Buf) (len : Nat) :
    Mirrored env fs (fatWriteFile env fs d path buf len).2 := by
  unfold fatWriteFile
  split
  · exact h
  · next dir name hpath =>
    obtain ⟨hdir, hn⟩ := fatResolveParentAndName_ok hpath
    obtain ⟨hm, hr⟩ := fatDirFindOrAllocLfnSlots_mirrored hp env h2 hb hdir h name
      (numLfnSlots name + 1)
    split
    · next heq =>
      rw [heq] at hm
      exact hm
    · next heq =>
      rw [heq] at hr
      obtain ⟨hloc, rfl⟩ := hr
      exact overwriteFile_mirrored hp env h2 hb h hloc buf len
    · next heq =>
      rw [heq] at hm hr
      exact createFile_mirrored hp env h2 hm dir hn hr.1 hr.2 buf len

/-- **`fat_mkdir` keeps the copies equal.** -/
theorem fatMkdir_mirrored (hb : InBounds env fs d) (h : Mirrored env fs d) (path : List UInt8) :
    Mirrored env fs (fatMkdir env fs d path).2 := by
  unfold fatMkdir
  split
  · exact h
  · next dir name hpath =>
    obtain ⟨hdir, hn⟩ := fatResolveParentAndName_ok hpath
    obtain ⟨hm, hr⟩ := fatDirFindOrAllocLfnSlots_mirrored hp env h2 hb hdir h name
      (numLfnSlots name + 1)
    split
    · exact h
    · split
      · next heq =>
        rw [heq] at hm
        exact hm
      · next heq =>
        rw [heq] at hm
        exact hm
      · next heq =>
        rw [heq] at hm hr
        exact createDir_mirrored hp env h2 hm dir hn hr.1 hr.2

end

end Gemios
