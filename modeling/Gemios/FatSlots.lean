import Gemios.FatGeometry
import Gemios.FatRemove

/-!
# Runs of slots written and erased

`fat_write_lfn_and_short_entry` and `fat_delete_entry_at` work on a buffer of one
sector and step to the sector that follows on the device.  Seen from the device they
store, or mark, slots at consecutive addresses.
-/

namespace Gemios

/-! ### Stretches of slots -/

def slotsFrom (a n : Nat) : List Nat := List.range' a n 32

def putSlots (d : Disk) (a : Nat) : List Slot → Disk
  | [] => d
  | s :: ss => putSlots (putSlot d a s) (a + 32) ss

/-- A slot that holds its 32 bytes and nothing else. -/
def Slot.Proper (s : Slot) : Prop := ∀ i, 32 ≤ i → s i = 0

theorem slotsFrom_succ (a n : Nat) : slotsFrom a (n + 1) = a :: slotsFrom (a + 32) n :=
  List.range'_succ

theorem slotsFrom_append (a n : Nat) : slotsFrom a (n + 1) = slotsFrom a n ++ [a + 32 * n] :=
  List.range'_concat

theorem length_slotsFrom (a n : Nat) : (slotsFrom a n).length = n := List.length_range'

theorem mem_slotsFrom {a n x : Nat} : x ∈ slotsFrom a n ↔ ∃ i, i < n ∧ x = a + 32 * i :=
  List.mem_range'

theorem putSlots_of_not {d : Disk} {a x : Nat} {ss : List Slot}
    (h : x < a ∨ a + 32 * ss.length ≤ x) : putSlots d a ss x = d x := by
  induction ss generalizing d a with
  | nil => rfl
  | cons s ss ih =>
    rw [List.length_cons] at h
    rw [putSlots, ih (by omega), putSlot_of_not (by omega)]

theorem putSlots_append (d : Disk) (a : Nat) (ss ss' : List Slot) :
    putSlots d a (ss ++ ss') = putSlots (putSlots d a ss) (a + 32 * ss.length) ss' := by
  induction ss generalizing d a with
  | nil => rfl
  | cons s ss ih =>
    have haddr : a + 32 * (ss.length + 1) = a + 32 + 32 * ss.length := by omega
    rw [List.cons_append, putSlots, ih, putSlots, List.length_cons, haddr]

theorem slotAt_putSlots (d : Disk) (a : Nat) {ss : List Slot} (hss : ∀ s ∈ ss, s.Proper) :
    (slotsFrom a ss.length).map (slotAt (putSlots d a ss)) = ss := by
  induction ss generalizing d a with
  | nil => rfl
  | cons s ss ih =>
    have hhead : slotAt (putSlots (putSlot d a s) (a + 32) ss) a = s := by
      rw [slotAt_congr fun i hi => putSlots_of_not (by omega)]
      exact slotAt_putSlot_self (hss s (by simp))
    rw [List.length_cons, slotsFrom_succ, List.map_cons, putSlots, hhead,
      ih (putSlot d a s) (a + 32) fun t ht => hss t (by simp [ht])]

/-! ### A buffer under way -/

def SlotCursor.flush (c : SlotCursor) : Disk := c.disk.blit c.curSec 1 c.secBuf

def SlotCursor.addr (c : SlotCursor) : Nat := c.curSec * 512 + 32 * c.curSlot

theorem blit_putSlot_buf (d : Disk) (sec slot : Nat) (hslot : slot < 16) (buf : Buf) (s : Slot) :
    d.blit sec 1 (putSlot buf (32 * slot) s) =
      putSlot (d.blit sec 1 buf) (sec * 512 + 32 * slot) s := by
  funext a
  unfold Disk.blit
  by_cases h : sec * 512 ≤ a ∧ a < (sec + 1) * 512
  · obtain ⟨j, rfl⟩ : ∃ j, a = sec * 512 + j := ⟨a - sec * 512, by omega⟩
    rw [if_pos h, Nat.add_sub_cancel_left]
    by_cases hj : 32 * slot ≤ j ∧ j < 32 * slot + 32
    · obtain ⟨i, rfl⟩ : ∃ i, j = 32 * slot + i := ⟨j - 32 * slot, by omega⟩
      rw [putSlot_of_mem (by omega), ← Nat.add_assoc, putSlot_of_mem (by omega)]
    · rw [putSlot_of_not (by omega), putSlot_of_not (by omega), if_pos h, Nat.add_sub_cancel_left]
  · rw [if_neg h, putSlot_of_not (by omega), if_neg h]

theorem blit_self (d : Disk) (sec : Nat) : d.blit sec 1 (fun i => d (sec * 512 + i)) = d := by
  funext a
  unfold Disk.blit
  split
  · next h =>
    dsimp only
    rw [Nat.add_sub_cancel' h.1]
  · rfl

theorem SlotCursor.flush_put (c : SlotCursor) (hslot : c.curSlot < 16) (s : Slot) :
    c.disk.blit c.curSec 1 (putSlot c.secBuf (32 * c.curSlot) s) = putSlot c.flush c.addr s :=
  blit_putSlot_buf c.disk c.curSec c.curSlot hslot c.secBuf s

theorem SlotCursor.addr_next (c : SlotCursor) (hlast : c.curSlot = 15) (d : Disk) (buf : Buf) :
    SlotCursor.addr ⟨d, c.curSec + 1, 0, buf⟩ = c.addr + 32 := by
  simp only [SlotCursor.addr]
  omega

theorem SlotCursor.addr_step (c : SlotCursor) (d : Disk) (buf : Buf) :
    SlotCursor.addr ⟨d, c.curSec, c.curSlot + 1, buf⟩ = c.addr + 32 := by
  simp only [SlotCursor.addr]
  omega

/-! ### The writer -/

/-- The long-name slots `seq` downto 1 of a name. -/
def lfnSlots (name : List UInt8) (numLfn : Nat) (chk : UInt8) : Nat → List Slot
  | 0 => []
  | seq + 1 => lfnEntry name numLfn chk (seq + 1) :: lfnSlots name numLfn chk seq

/-- The slots of a name: its long-name slots and the short entry. -/
def nameSlots (name short11 : List UInt8) (e : Slot) : List Slot :=
  lfnSlots name (numLfnSlots name) (fatLfnChecksum short11) (numLfnSlots name) ++
    [e.withName short11]

theorem length_lfnSlots (name : List UInt8) (numLfn : Nat) (chk : UInt8) (seq : Nat) :
    (lfnSlots name numLfn chk seq).length = seq := by
  induction seq with
  | zero => rfl
  | succ seq ih => rw [lfnSlots, List.length_cons, ih]

theorem length_nameSlots (name short11 : List UInt8) (e : Slot) :
    (nameSlots name short11 e).length = numLfnSlots name + 1 := by
  rw [nameSlots, List.length_append, length_lfnSlots, List.length_singleton]

section

variable {fs : FatFs} (hbps : fs.bytesPerSector = 512) (env : Env) [env.NoFault]

include hbps

theorem writeLfnLoop_eq (name : List UInt8) (numLfn : Nat) (chk : UInt8) :
    ∀ (seq : Nat) (c : SlotCursor), c.curSlot < 16 →
      16 * c.curSec + c.curSlot + seq < 68719476736 →
      ∃ c', writeLfnLoop env fs name numLfn chk seq c = .inl c' ∧ c'.curSlot < 16 ∧
        c'.addr = c.addr + 32 * seq ∧
        c'.flush = putSlots c.flush c.addr (lfnSlots name numLfn chk seq) := by
  intro seq
  induction seq with
  | zero =>
    intro c hslot _
    exact ⟨c, rfl, hslot, by rw [Nat.mul_zero, Nat.add_zero], rfl⟩
  | succ seq ih =>
    intro c hslot hroom
    have haddr : c.addr + 32 * (seq + 1) = c.addr + 32 + 32 * seq := by omega
    have hput := c.flush_put hslot (lfnEntry name numLfn chk (seq + 1))
    rw [writeLfnLoop, lfnSlots, putSlots, ← hput, haddr]
    dsimp only
    rw [hbps]
    split
    · have hlast : c.curSlot = 15 := by omega
      rw [bdevWrite_eq]
      generalize c.disk.blit c.curSec 1 _ = d₁
      simp only [bdevRead_eq, u32_of_lt (show c.curSec + 1 < 4294967296 by omega)]
      obtain ⟨c', hrun, hslot', haddr', hflush⟩ :=
        ih ⟨d₁, c.curSec + 1, 0, fun i => d₁ ((c.curSec + 1) * 512 + i)⟩ (Nat.zero_lt_succ 15)
          (show 16 * (c.curSec + 1) + 0 + seq < 68719476736 by omega)
      rw [c.addr_next hlast] at haddr' hflush
      refine ⟨c', hrun, hslot', haddr', hflush.trans ?_⟩
      rw [SlotCursor.flush, blit_self]
    · next hslot₁ =>
      obtain ⟨c', hrun, hslot', haddr', hflush⟩ := ih ⟨c.disk, c.curSec, c.curSlot + 1,
        putSlot c.secBuf (32 * c.curSlot) (lfnEntry name numLfn chk (seq + 1))⟩
        (show c.curSlot + 1 < 16 by omega)
        (show 16 * c.curSec + (c.curSlot + 1) + seq < 68719476736 by omega)
      rw [c.addr_step] at haddr' hflush
      exact ⟨c', hrun, hslot', haddr', hflush⟩

/-- **The writer stores the slots of a name** from its first slot on. -/
theorem fatWriteLfnAndShortEntry_eq (d : Disk) {sec slot : Nat} (hslot : slot < 16)
    (name short11 : List UInt8) (e : Slot)
    (hroom : 16 * sec + slot + numLfnSlots name < 68719476736) :
    fatWriteLfnAndShortEntry env fs d sec slot name short11 e =
      (0, putSlots d (sec * 512 + 32 * slot) (nameSlots name short11 e)) := by
  unfold fatWriteLfnAndShortEntry
  simp only [bdevRead_eq]
  obtain ⟨c', hrun, hslot', haddr, hflush⟩ := writeLfnLoop_eq hbps env name (numLfnSlots name)
    (fatLfnChecksum short11) (numLfnSlots name) ⟨d, sec, slot, fun i => d (sec * 512 + i)⟩ hslot
    hroom
  rw [hrun]
  dsimp only
  rw [bdevWrite_eq, blit_putSlot_buf _ _ _ hslot']
  simp only [SlotCursor.flush, blit_self] at hflush
  simp only [SlotCursor.addr] at haddr hflush
  rw [hflush, haddr, nameSlots, putSlots_append, length_lfnSlots]
  rfl

/-! ### The eraser -/

end

end Gemios
