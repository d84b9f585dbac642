import Gemios.Bytes
import Mathlib.Data.List.Basic

/-!
# Reads inside of the tables

The walks over firmware tables of `src/src/kernel/acpi.c`: the search for a table in the RSDT, the loop
over the entries of the MADT, and the search of the DSDT for `_S5_`.  Each gives the bytes that it reads,
as offsets from the first byte of its table; a table does not go round the end of memory, and sizes wrap.

All the walks end.  The search of the DSDT stays inside of the length that it is given, whatever the bytes
are; but a table that is shorter than its header makes this length, and the number of entries of the RSDT,
wrap.  The loop over the MADT looks only at the first two bytes of an entry before it reads its fields.
-/

namespace Gemios.Acpi

/-- `sizeof(struct acpi_sdt_header)`. -/
def SDT_HEADER_SIZE : Nat := 36

/-- `sizeof(struct acpi_madt)`. -/
def MADT_SIZE : Nat := 44

/-- `header->length`. -/
def tableLength (mem : Buf) (table : Nat) : Nat := le32 mem (table + 4)

/-- `length - sizeof(struct acpi_sdt_header)`, as a `size_t`. -/
def minusHeader (length : Nat) : Nat := u32 (length + (4294967296 - SDT_HEADER_SIZE))

/-- `validate_checksum`, which reads `length` bytes. -/
def validateChecksum (mem : Buf) (ptr length : Nat) : Bool :=
  (List.range length).foldl (fun (sum : UInt8) i => sum + mem (ptr + i)) 0 == 0

/-- Bytes are compared up to the first one that differs. -/
def compareAt (bytes : Buf) : Nat → List UInt8 → Bool × List Nat
  | _, [] => (true, [])
  | p, c :: s =>
    if bytes p = c then ((compareAt bytes (p + 1) s).1, p :: (compareAt bytes (p + 1) s).2) else (false, [p])

/-! ### The RSDT -/

/-- A byte of the table that is walked, or of one that it refers to. -/
inductive Access where
  | walked (offset : Nat)
  | referenced (table offset : Nat)

/-- The loop of `acpi_find_table` over these entries. -/
def findLoop (mem : Buf) (rsdt : Nat) (signature : List UInt8) : List Nat → Option Nat × List Access
  | [] => (none, [])
  | i :: is =>
    let entry := SDT_HEADER_SIZE + 4 * i
    let header := le32 mem (rsdt + entry)
    let reads := [.walked entry, .walked (entry + 1), .walked (entry + 2), .walked (entry + 3)]
    if header ≠ 0 then
      let same := compareAt (fun k => mem (header + k)) 0 signature
      let reads := reads ++ same.2.map (.referenced header)
      if same.1 then
        let length := tableLength mem header
        let reads := reads ++ ([4, 5, 6, 7] ++ List.range length).map (.referenced header)
        if validateChecksum mem header length then (some header, reads)
        else
          let r := findLoop mem rsdt signature is
          (r.1, reads ++ r.2)
      else
        let r := findLoop mem rsdt signature is
        (r.1, reads ++ r.2)
    else
      let r := findLoop mem rsdt signature is
      (r.1, reads ++ r.2)

/-- `acpi_find_table`, with the RSDT at this address. -/
def findTable (mem : Buf) (rsdt : Nat) (signature : List UInt8) : Option Nat × List Access :=
  let length := tableLength mem rsdt
  if rsdt = 0 then (none, [])
  else if !validateChecksum mem rsdt length then (none, (List.range length).map .walked)
  else
    let r := findLoop mem rsdt signature (List.range (minusHeader length / 4))
    (r.1, (List.range length).map .walked ++ r.2)

/-! ### The MADT -/

structure MadtInfo where
  lapicAddr : Nat
  cpuCount : Nat
  ioapicCount : Nat

/-- What an entry adds, and the fields of it that are read. -/
def madtEntry (mem : Buf) (madt p : Nat) (s : MadtInfo) : MadtInfo × List Nat :=
  let type := mem (madt + p)
  if type = 0 then
    (if le32 mem (madt + (p + 4)) % 2 = 1 then { s with cpuCount := u32 (s.cpuCount + 1) } else s,
      [p + 4, p + 5, p + 6, p + 7])
  else if type = 1 then ({ s with ioapicCount := u32 (s.ioapicCount + 1) }, [])
  else if type = 5 then ({ s with lapicAddr := le32 mem (madt + (p + 4)) }, [p + 4, p + 5, p + 6, p + 7])
  else (s, [])

/-- The loop of `acpi_init` over the entries, with so many turns at most. -/
def madtLoop (mem : Buf) (madt : Nat) : Nat → Nat → MadtInfo → MadtInfo × List Nat
  | 0, _, s => (s, [])
  | turns + 1, p, s =>
    if p + 2 ≤ tableLength mem madt then
      if mem (madt + (p + 1)) = 0 then (s, [p + 1])
      else
        let entry := madtEntry mem madt p s
        let r := madtLoop mem madt turns (p + (mem (madt + (p + 1))).toNat) entry.1
        (r.1, [p + 1, p] ++ entry.2 ++ r.2)
    else (s, [])

def madtWalk (mem : Buf) (madt : Nat) : MadtInfo × List Nat :=
  madtLoop mem madt (tableLength mem madt) MADT_SIZE ⟨le32 mem (madt + 36), 0, 0⟩

/-! ### The DSDT -/

/-- A value, the place behind it, and the bytes that were read. -/
structure Aml where
  val : Nat
  next : Nat
  reads : List Nat

/-- `parse_aml_integer`, from `p` on. -/
def parseAmlInteger (bytes : Buf) (stop p : Nat) : Aml :=
  if p ≥ stop then ⟨0, p, []⟩
  else if bytes p = 0x00 then ⟨0, p + 1, [p]⟩
  else if bytes p = 0x01 then ⟨1, p + 1, [p]⟩
  else if bytes p = 0xFF then ⟨0xFFFF, p + 1, [p]⟩
  else if bytes p = 0x0A then
    if p + 1 < stop then ⟨(bytes (p + 1)).toNat, p + 2, [p, p + 1]⟩ else ⟨0, p + 1, [p]⟩
  else if bytes p = 0x0B then
    if p + 1 + 1 < stop then ⟨le16 bytes (p + 1), p + 3, [p, p + 1, p + 2]⟩ else ⟨0, p + 1, [p]⟩
  else if bytes p = 0x0C then
    if p + 1 + 3 < stop then ⟨le16 bytes (p + 1), p + 5, [p, p + 1, p + 2]⟩ else ⟨0, p + 1, [p]⟩
  else ⟨(bytes p).toNat, p + 1, [p]⟩

/-- `"_S5_"`. -/
def s5Name : List UInt8 := [0x5F, 0x53, 0x35, 0x5F]

/-- A turn of the loop of `parse_s5_package`: `none` where it goes on, and the two values where it finds
    them; a `break` finds none. -/
def s5At (bytes : Buf) (len i : Nat) : Option (Option (Nat × Nat)) × List Nat :=
  let name := compareAt bytes i s5Name
  if name.1 then
    let p := i + 4
    if p ≥ len then (some none, name.2)
    else if bytes p = 0x12 then
      if p + 1 ≥ len then (some none, name.2 ++ [p])
      else
        let q := p + 2 + (bytes (p + 1)).toNat / 64
        if q ≥ len then (some none, name.2 ++ [p, p + 1])
        else if q + 1 ≥ len then (some none, name.2 ++ [p, p + 1])
        else
          let a := parseAmlInteger bytes len (q + 1)
          let b := parseAmlInteger bytes len a.next
          (some (some (a.val, b.val)), name.2 ++ [p, p + 1] ++ a.reads ++ b.reads)
    else (none, name.2 ++ [p])
  else (none, name.2)

def s5Loop (bytes : Buf) (len : Nat) : List Nat → Option (Nat × Nat) × List Nat
  | [] => (none, [])
  | i :: is =>
    match s5At bytes len i with
    | (some found, reads) => (found, reads)
    | (none, reads) => ((s5Loop bytes len is).1, reads ++ (s5Loop bytes len is).2)

def parseS5Package (bytes : Buf) (len : Nat) : Option (Nat × Nat) × List Nat :=
  s5Loop bytes len (List.range (len - 4))

/-- The use that `acpi_init` makes of it, with the DSDT at this address. -/
def dsdtWalk (mem : Buf) (dsdt : Nat) : Option (Nat × Nat) × List Nat :=
  let length := tableLength mem dsdt
  if dsdt = 0 then (none, [])
  else if validateChecksum mem dsdt length then
    let r := parseS5Package (fun i => mem (dsdt + (SDT_HEADER_SIZE + i))) (minusHeader length)
    (r.1, List.range length ++ r.2.map (SDT_HEADER_SIZE + ·))
  else (none, List.range length)

variable {mem bytes : Buf}

theorem compareAt_reads {p : Nat} {s : List UInt8} : ∀ a ∈ (compareAt bytes p s).2, a < p + s.length := by
  induction s generalizing p with
  | nil => exact fun a ha => absurd ha List.not_mem_nil
  | cons c s ih =>
    rw [compareAt, List.length_cons]
    split
    · intro a ha
      rcases List.mem_cons.mp ha with rfl | ha
      · omega
      · have hlt := ih a ha
        omega
    · intro a ha
      rw [List.mem_singleton.mp ha]
      omega

theorem tableLength_lt (mem : Buf) (table : Nat) : tableLength mem table < 4294967296 := le32_lt _ _

theorem minusHeader_of_le {length : Nat} (h : SDT_HEADER_SIZE ≤ length) (hlt : length < 4294967296) :
    minusHeader length = length - SDT_HEADER_SIZE := by
  unfold minusHeader u32 SDT_HEADER_SIZE at *
  omega

theorem minusHeader_of_lt {length : Nat} (h : length < SDT_HEADER_SIZE) :
    minusHeader length = length + 4294967260 := by
  unfold minusHeader u32 SDT_HEADER_SIZE at *
  omega

/-! ### The RSDT -/

/-- Inside of the RSDT; or inside of a table that an entry points to, or of its header. -/
def Access.Inside (mem : Buf) (rsdt : Nat) : Access → Prop
  | .walked offset => offset < tableLength mem rsdt
  | .referenced table offset => offset < SDT_HEADER_SIZE ∨ offset < tableLength mem table

def FindInside (mem : Buf) (rsdt : Nat) (signature : List UInt8) : Prop :=
  ∀ a ∈ (findTable mem rsdt signature).2, a.Inside mem rsdt

section

variable {rsdt : Nat} {signature : List UInt8}

theorem findLoop_inside (hsig : signature.length ≤ SDT_HEADER_SIZE) {is : List Nat}
    (h : ∀ i ∈ is, SDT_HEADER_SIZE + 4 * i + 4 ≤ tableLength mem rsdt) :
    ∀ a ∈ (findLoop mem rsdt signature is).2, a.Inside mem rsdt := by
  induction is with
  | nil => exact fun a ha => absurd ha List.not_mem_nil
  | cons i is ih =>
    obtain ⟨hi, his⟩ := List.forall_mem_cons.mp h
    have ih := ih his
    have hentry : ∀ a ∈ [Access.walked (SDT_HEADER_SIZE + 4 * i), .walked (SDT_HEADER_SIZE + 4 * i + 1),
        .walked (SDT_HEADER_SIZE + 4 * i + 2), .walked (SDT_HEADER_SIZE + 4 * i + 3)],
        a.Inside mem rsdt := by
      intro a ha
      simp only [List.mem_cons, List.not_mem_nil, or_false] at ha
      rcases ha with rfl | rfl | rfl | rfl <;> unfold Access.Inside <;> omega
    have hname : ∀ table, ∀ a ∈ (compareAt (fun k => mem (table + k)) 0 signature).2.map (Access.referenced table),
        a.Inside mem rsdt := by
      intro table a ha
      obtain ⟨k, hk, rfl⟩ := List.mem_map.mp ha
      have hlt := compareAt_reads k hk
      exact .inl (by omega)
    have hbody : ∀ table, ∀ a ∈ ([4, 5, 6, 7] ++ List.range (tableLength mem table)).map (Access.referenced table),
        a.Inside mem rsdt := by
      intro table a ha
      obtain ⟨k, hk, rfl⟩ := List.mem_map.mp ha
      rcases List.mem_append.mp hk with hk | hk
      · simp only [List.mem_cons, List.not_mem_nil, or_false] at hk
        refine .inl ?_
        unfold SDT_HEADER_SIZE
        omega
      · exact .inr (List.mem_range.mp hk)
    rw [findLoop]
    dsimp only
    split
    · split
      · split
        · simp only [List.forall_mem_append]
          exact ⟨⟨hentry, hname _⟩, hbody _⟩
        · simp only [List.forall_mem_append]
          exact ⟨⟨⟨hentry, hname _⟩, hbody _⟩, ih⟩
      · simp only [List.forall_mem_append]
        exact ⟨⟨hentry, hname _⟩, ih⟩
    · simp only [List.forall_mem_append]
      exact ⟨hentry, ih⟩

theorem findLoop_first (i : Nat) (is : List Nat) :
    .walked (SDT_HEADER_SIZE + 4 * i) ∈ (findLoop mem rsdt signature (i :: is)).2 := by
  rw [findLoop]
  dsimp only
  split
  · split
    · split
      · simp
      · simp
    · simp
  · simp

theorem findInside_iff (hsig : signature.length ≤ SDT_HEADER_SIZE) :
    FindInside mem rsdt signature ↔
      (rsdt ≠ 0 → validateChecksum mem rsdt (tableLength mem rsdt) = true →
        SDT_HEADER_SIZE ≤ tableLength mem rsdt) := by
  have hlt := tableLength_lt mem rsdt
  have hsum : ∀ a ∈ (List.range (tableLength mem rsdt)).map Access.walked, a.Inside mem rsdt := by
    intro a ha
    obtain ⟨k, hk, rfl⟩ := List.mem_map.mp ha
    exact List.mem_range.mp hk
  unfold FindInside findTable
  dsimp only
  by_cases hnull : rsdt = 0
  · rw [if_pos hnull]
    exact iff_of_true (fun a ha => absurd ha List.not_mem_nil) fun h => absurd hnull h
  · rw [if_neg hnull]
    by_cases hvalid : validateChecksum mem rsdt (tableLength mem rsdt) = true
    · rw [if_neg (by simp [hvalid])]
      dsimp only
      constructor
      · intro h _ _
        by_contra hshort
        -- The number of entries has wrapped, and there is a first one.
        have hcount := minusHeader_of_lt (Nat.not_le.mp hshort)
        obtain ⟨n, hn⟩ : ∃ n, minusHeader (tableLength mem rsdt) / 4 = n + 1 :=
          ⟨minusHeader (tableLength mem rsdt) / 4 - 1, by omega⟩
        rw [hn, List.range_succ_eq_map] at h
        have hfirst := h _ (List.mem_append_right _ (findLoop_first 0 _))
        exact hshort (Nat.le_of_lt hfirst)
      · intro h
        have hle := h hnull hvalid
        rw [minusHeader_of_le hle hlt]
        refine List.forall_mem_append.mpr ⟨hsum, findLoop_inside hsig fun i hi => ?_⟩
        have hi := List.mem_range.mp hi
        omega
    · rw [if_pos (by simpa using hvalid)]
      exact iff_of_true hsum fun _ h => absurd h hvalid

end

/-! ### The MADT -/

section

variable {madt : Nat}

/-- Where the loop finds an entry that is not empty. -/
def madtEntries (mem : Buf) (madt : Nat) : Nat → Nat → List Nat
  | 0, _ => []
  | turns + 1, p =>
    if p + 2 ≤ tableLength mem madt ∧ mem (madt + (p + 1)) ≠ 0 then
      p :: madtEntries mem madt turns (p + (mem (madt + (p + 1))).toNat)
    else []

/-- An entry of a local APIC, or of another address of it. -/
def HasFields (mem : Buf) (madt p : Nat) : Prop := mem (madt + p) = 0 ∨ mem (madt + p) = 5

theorem fields_inside (p n : Nat) : (∀ a ∈ [p + 4, p + 5, p + 6, p + 7], a < n) ↔ p + 8 ≤ n := by
  constructor
  · intro h
    exact h (p + 7) (by simp)
  · intro h a ha
    simp only [List.mem_cons, List.not_mem_nil, or_false] at ha
    omega

theorem madtEntry_reads (p : Nat) (s : MadtInfo) (n : Nat) :
    (∀ a ∈ (madtEntry mem madt p s).2, a < n) ↔ (HasFields mem madt p → p + 8 ≤ n) := by
  unfold madtEntry HasFields
  dsimp only
  split
  · rename_i htype
    rw [fields_inside]
    simp only [htype, true_or, forall_const]
  · rename_i hlocal
    split
    · rename_i htype
      simp [htype]
    · split
      · rename_i htype
        rw [fields_inside]
        simp only [htype, or_true, forall_const]
      · rename_i hother
        simp [hlocal, hother]

theorem madtLoop_reads (turns p : Nat) (s : MadtInfo) :
    (∀ a ∈ (madtLoop mem madt turns p s).2, a < tableLength mem madt) ↔
      ∀ q ∈ madtEntries mem madt turns p, HasFields mem madt q → q + 8 ≤ tableLength mem madt := by
  induction turns generalizing p s with
  | zero => exact iff_of_true (fun a ha => absurd ha List.not_mem_nil) fun q hq => absurd hq List.not_mem_nil
  | succ turns ih =>
    rw [madtLoop, madtEntries]
    by_cases hin : p + 2 ≤ tableLength mem madt
    · rw [if_pos hin]
      by_cases hempty : mem (madt + (p + 1)) = 0
      · rw [if_pos hempty, if_neg (fun h => h.2 hempty)]
        refine iff_of_true (fun a ha => ?_) fun q hq => absurd hq List.not_mem_nil
        rw [List.mem_singleton.mp ha]
        omega
      · rw [if_neg hempty, if_pos ⟨hin, hempty⟩, List.forall_mem_cons, ← madtEntry_reads p s, ← ih _ (madtEntry mem madt p s).1]
        dsimp only
        simp only [List.forall_mem_append, List.forall_mem_cons, List.not_mem_nil, false_imp_iff]
        constructor
        · rintro ⟨⟨-, hfields⟩, hrest⟩
          exact ⟨hfields, hrest⟩
        · rintro ⟨hfields, hrest⟩
          exact ⟨⟨⟨by omega, by omega, fun _ => trivial⟩, hfields⟩, hrest⟩
    · rw [if_neg hin, if_neg (fun h => hin h.1)]
      exact iff_of_true (fun a ha => absurd ha List.not_mem_nil) fun q hq => absurd hq List.not_mem_nil

theorem madtLoop_more {turns p : Nat} (s : MadtInfo) (h : tableLength mem madt ≤ p + turns) (more : Nat) :
    madtLoop mem madt (turns + more) p s = madtLoop mem madt turns p s := by
  induction turns generalizing p s with
  | zero =>
    cases more with
    | zero => rfl
    | succ more =>
      rw [Nat.zero_add, madtLoop, madtLoop, if_neg (by omega)]
  | succ turns ih =>
    rw [Nat.succ_add, madtLoop, madtLoop]
    split
    · split
      · rfl
      · rename_i hempty
        have hpos : 0 < (mem (madt + (p + 1))).toNat := by
          refine Nat.pos_of_ne_zero fun hzero => hempty ?_
          exact UInt8.toNat_inj.mp hzero
        dsimp only
        rw [ih _ (by omega)]
    · rfl

end

/-- The loop ends, and reads inside of the table. -/
structure MadtInside (mem : Buf) (madt : Nat) : Prop where
  ends : ∀ more, madtLoop mem madt (tableLength mem madt + more) MADT_SIZE ⟨le32 mem (madt + 36), 0, 0⟩ =
    madtWalk mem madt
  reads : ∀ a ∈ (madtWalk mem madt).2, a < tableLength mem madt

theorem madtInside_iff (madt : Nat) :
    MadtInside mem madt ↔
      ∀ p ∈ madtEntries mem madt (tableLength mem madt) MADT_SIZE,
        HasFields mem madt p → p + 8 ≤ tableLength mem madt := by
  rw [← madtLoop_reads _ _ ⟨le32 mem (madt + 36), 0, 0⟩]
  exact ⟨MadtInside.reads, fun h => ⟨madtLoop_more _ (Nat.le_add_left _ _), h⟩⟩

/-! ### The DSDT -/

theorem parseAmlInteger_reads (stop p : Nat) : ∀ a ∈ (parseAmlInteger bytes stop p).reads, a < stop := by
  unfold parseAmlInteger
  by_cases hstop : p ≥ stop
  · rw [if_pos hstop]
    exact fun a ha => absurd ha List.not_mem_nil
  · have hp : p < stop := Nat.not_le.mp hstop
    have hone : ∀ a ∈ [p], a < stop := by simpa using hp
    rw [if_neg hstop]
    split
    · exact hone
    split
    · exact hone
    split
    · exact hone
    split
    · split
      · simpa using ⟨hp, by omega⟩
      · exact hone
    split
    · split
      · simp
        omega
      · exact hone
    split
    · split
      · simp
        omega
      · exact hone
    · exact hone

theorem s5At_reads {len i : Nat} (hi : i + 4 < len) : ∀ a ∈ (s5At bytes len i).2, a < len := by
  have hname : ∀ a ∈ (compareAt bytes i s5Name).2, a < len := fun a ha =>
    Nat.lt_trans (compareAt_reads a ha) hi
  have hfirst : ∀ a ∈ [i + 4], a < len := by simpa using hi
  unfold s5At
  dsimp only
  split
  · split
    · exact hname
    · split
      · split
        · exact List.forall_mem_append.mpr ⟨hname, hfirst⟩
        · have hboth : ∀ a ∈ [i + 4, i + 4 + 1], a < len := by
            simp
            omega
          split
          · exact List.forall_mem_append.mpr ⟨hname, hboth⟩
          · split
            · exact List.forall_mem_append.mpr ⟨hname, hboth⟩
            · simp only [List.forall_mem_append]
              exact ⟨⟨⟨hname, hboth⟩, parseAmlInteger_reads _ _⟩, parseAmlInteger_reads _ _⟩
      · exact List.forall_mem_append.mpr ⟨hname, hfirst⟩
  · exact hname

theorem s5Loop_reads {len : Nat} {is : List Nat} (h : ∀ i ∈ is, i + 4 < len) :
    ∀ a ∈ (s5Loop bytes len is).2, a < len := by
  induction is with
  | nil => exact fun a ha => absurd ha List.not_mem_nil
  | cons i is ih =>
    obtain ⟨hi, his⟩ := List.forall_mem_cons.mp h
    have hturn : ∀ a ∈ (s5At bytes len i).2, a < len := s5At_reads hi
    rw [s5Loop]
    split
    · rename_i hfound
      rw [hfound] at hturn
      exact hturn
    · rename_i hnext
      rw [hnext] at hturn
      exact List.forall_mem_append.mpr ⟨hturn, ih his⟩

theorem parseS5Package_reads (bytes : Buf) (len : Nat) : ∀ a ∈ (parseS5Package bytes len).2, a < len := by
  refine s5Loop_reads fun i hi => ?_
  have hi := List.mem_range.mp hi
  omega

theorem s5At_compares (bytes : Buf) (len i : Nat) :
    ∀ a ∈ (compareAt bytes i s5Name).2, a ∈ (s5At bytes len i).2 := by
  intro a ha
  unfold s5At
  dsimp only
  split
  · split
    · exact ha
    · split
      · split
        · exact List.mem_append_left _ ha
        · split
          · exact List.mem_append_left _ ha
          · split
            · exact List.mem_append_left _ ha
            · simp only [List.mem_append]
              exact .inl (.inl (.inl ha))
      · exact List.mem_append_left _ ha
  · exact ha

theorem parseS5Package_first {len : Nat} (h : 4 < len) : 0 ∈ (parseS5Package bytes len).2 := by
  obtain ⟨n, hn⟩ : ∃ n, len - 4 = n + 1 := ⟨len - 5, by omega⟩
  have hname : 0 ∈ (compareAt bytes 0 s5Name).2 := by
    unfold s5Name
    rw [compareAt]
    split <;> exact List.mem_cons_self
  have hturn := s5At_compares bytes len 0 0 hname
  rw [parseS5Package, hn, List.range_succ_eq_map, s5Loop]
  split
  · rename_i hfound
    rw [hfound] at hturn
    exact hturn
  · rename_i hnext
    rw [hnext] at hturn
    exact List.mem_append_left _ hturn

def DsdtInside (mem : Buf) (dsdt : Nat) : Prop := ∀ a ∈ (dsdtWalk mem dsdt).2, a < tableLength mem dsdt

theorem dsdtInside_iff (dsdt : Nat) :
    DsdtInside mem dsdt ↔
      (dsdt ≠ 0 → validateChecksum mem dsdt (tableLength mem dsdt) = true →
        SDT_HEADER_SIZE ≤ tableLength mem dsdt) := by
  have hlt := tableLength_lt mem dsdt
  have hsum : ∀ a ∈ List.range (tableLength mem dsdt), a < tableLength mem dsdt := fun a ha => List.mem_range.mp ha
  unfold DsdtInside dsdtWalk
  dsimp only
  by_cases hnull : dsdt = 0
  · rw [if_pos hnull]
    exact iff_of_true (fun a ha => absurd ha List.not_mem_nil) fun h => absurd hnull h
  · rw [if_neg hnull]
    by_cases hvalid : validateChecksum mem dsdt (tableLength mem dsdt) = true
    · rw [if_pos hvalid]
      dsimp only
      constructor
      · intro h _ _
        by_contra hshort
        -- The length behind the header has wrapped.
        have hlen := minusHeader_of_lt (Nat.not_le.mp hshort)
        have hfirst := h _ (List.mem_append_right _
          (List.mem_map_of_mem (f := (SDT_HEADER_SIZE + ·)) (parseS5Package_first (by omega))))
        exact hshort (Nat.le_of_lt hfirst)
      · intro h
        have hle := h hnull hvalid
        refine List.forall_mem_append.mpr ⟨hsum, fun a ha => ?_⟩
        obtain ⟨k, hk, rfl⟩ := List.mem_map.mp ha
        have hin := parseS5Package_reads _ _ k hk
        rw [minusHeader_of_le hle hlt] at hin
        omega
    · rw [if_neg hvalid]
      exact iff_of_true hsum fun _ h => absurd h hvalid

/-! ### All of them -/

/-- The walks end and stay inside of their tables if and only if an RSDT and a DSDT that pass their
    checksums have room for their headers, and the entries of the MADT for the fields that are read. -/
theorem tables_inside_iff (mem : Buf) (rsdt madt dsdt : Nat) :
    (∀ signature : List UInt8, signature.length = 4 → FindInside mem rsdt signature) ∧
        MadtInside mem madt ∧ DsdtInside mem dsdt ↔
      (rsdt ≠ 0 → validateChecksum mem rsdt (tableLength mem rsdt) = true →
        SDT_HEADER_SIZE ≤ tableLength mem rsdt) ∧
        (∀ p ∈ madtEntries mem madt (tableLength mem madt) MADT_SIZE,
          HasFields mem madt p → p + 8 ≤ tableLength mem madt) ∧
        (dsdt ≠ 0 → validateChecksum mem dsdt (tableLength mem dsdt) = true →
          SDT_HEADER_SIZE ≤ tableLength mem dsdt) := by
  rw [madtInside_iff, dsdtInside_iff]
  refine and_congr_left' ⟨fun h => ?_, fun h signature hsig => ?_⟩
  · exact (findInside_iff (by decide)).mp (h [0x41, 0x50, 0x49, 0x43] rfl)
  · refine (findInside_iff ?_).mpr h
    rw [hsig]
    decide

/-- A MADT of 46 bytes, whose only entry is the head of a local APIC; its checksum is right. -/
def shortMadt : Buf := fun a =>
  if a = 4096 + 4 then 46 else if a = 4096 + 9 then 202 else if a = 4096 + 45 then 8 else 0

/-- Tables of length 0 pass their checksums, and their entries are read; and so are the flags of a local
    APIC that is cut off. -/
theorem tables_left :
    ¬FindInside (fun _ => 0) 4096 [0x41, 0x50, 0x49, 0x43] ∧ ¬DsdtInside (fun _ => 0) 4096 ∧
      validateChecksum shortMadt 4096 (tableLength shortMadt 4096) = true ∧ ¬MadtInside shortMadt 4096 := by
  refine ⟨?_, ?_, by decide, fun h => ?_⟩
  · rw [findInside_iff (by decide)]
    decide
  · rw [dsdtInside_iff]
    decide
  · exact absurd (h.reads 48 (by decide)) (by decide)

end Gemios.Acpi
