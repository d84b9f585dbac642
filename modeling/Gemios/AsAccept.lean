import Gemios.AsJumps

/-!
# The tables of an accepted source

What every action keeps of the assembler's tables: the arrays do not overflow, every field is a word
of its width, and a relocation names a section and a symbol that exist.
-/

namespace Gemios.As

/-! ### Statements -/

/-- A relocation for a 32-bit field, absolute or relative. -/
def Item.Plain : Item → Prop
  | .byte _ => True
  | .ref _ type _ => type = R_386_32 ∨ type = R_386_PC32

def PlainItems (items : List Item) : Prop := ∀ item ∈ items, item.Plain

@[simp] theorem plain_nil : PlainItems [] := fun _ h => absurd h List.not_mem_nil

@[simp] theorem plain_cons {item : Item} {items : List Item} :
    PlainItems (item :: items) ↔ item.Plain ∧ PlainItems items := List.forall_mem_cons

@[simp] theorem plain_append {xs ys : List Item} :
    PlainItems (xs ++ ys) ↔ PlainItems xs ∧ PlainItems ys := List.forall_mem_append

@[simp] theorem plain_byte (b : UInt8) : (Item.byte b).Plain := trivial

@[simp] theorem plain_ref32 (name : List UInt8) (addend : BitVec 32) :
    (Item.ref name R_386_32 addend).Plain := Or.inl rfl

@[simp] theorem plain_refPc32 (name : List UInt8) (addend : BitVec 32) :
    (Item.ref name R_386_PC32 addend).Plain := Or.inr rfl

@[simp] theorem plain_bytes (bs : List UInt8) : PlainItems (bytes bs) := by
  intro item hitem
  obtain ⟨b, -, rfl⟩ := List.mem_map.mp hitem
  trivial

@[simp] theorem plain_flatMap {α : Type} {as : List α} {f : α → List Item} (h : ∀ a, PlainItems (f a)) :
    PlainItems (as.flatMap f) := by
  intro item hitem
  obtain ⟨a, -, ha⟩ := List.mem_flatMap.mp hitem
  exact h a item ha

@[simp] theorem plain_ite {c : Prop} [Decidable c] {xs ys : List Item} :
    PlainItems (if c then xs else ys) ↔ (c → PlainItems xs) ∧ (¬c → PlainItems ys) := by
  split <;> simp [*]

@[simp] theorem plain_imm8 (op : Operand) : PlainItems (imm8 op) := by simp [imm8]

@[simp] theorem plain_imm16 (op : Operand) : PlainItems (imm16 op) := by simp [imm16]

@[simp] theorem plain_imm32 (op : Operand) : PlainItems (imm32 op) := by simp [imm32]

@[simp] theorem plain_immSym (op : Operand) : PlainItems (immSym op) := by simp [immSym]

@[simp] theorem plain_disp8Items (op : Operand) : PlainItems (disp8Items op) := by simp [disp8Items]

@[simp] theorem plain_disp32Items (op : Operand) : PlainItems (disp32Items op) := by simp [disp32Items]

@[simp] theorem plain_modrmItems (digit : Nat) (op : Operand) : PlainItems (modrmItems digit op) := by
  rw [modrmItems, plain_ite]
  constructor
  · simp
  · intro _
    split <;> simp

@[simp] theorem plain_retItems (ops : List Operand) : PlainItems (retItems ops) := by
  cases ops <;> simp [retItems]

@[simp] theorem plain_pushItems (op : Operand) : PlainItems (pushItems op) := by simp [pushItems]

@[simp] theorem plain_popItems (op : Operand) : PlainItems (popItems op) := by simp [popItems]

@[simp] theorem plain_intItems (num : BitVec 32) : PlainItems (intItems num) := by simp [intItems]

@[simp] theorem plain_farItems (opcode name : List UInt8) : PlainItems (farItems opcode name) := by
  simp [farItems]

@[simp] theorem plain_indirectItems (symbols : List Symbol) (digit : Nat) (raw : List UInt8) :
    PlainItems (indirectItems symbols digit raw) := by simp [indirectItems]

@[simp] theorem plain_movItems (token : List UInt8) (src dst : Operand) :
    PlainItems (movItems token src dst) := by simp [movItems]

@[simp] theorem plain_aluItems (opNum : Nat) (width : UInt8) (src dst : Operand) :
    PlainItems (aluItems opNum width src dst) := by simp [aluItems]

@[simp] theorem plain_testItems (isB : Bool) (src dst : Operand) : PlainItems (testItems isB src dst) := by
  simp [testItems]

@[simp] theorem plain_imulImm (src rm dst : Operand) : PlainItems (imulImm src rm dst) := by simp [imulImm]

@[simp] theorem plain_imulItems (ops : List Operand) : PlainItems (imulItems ops) := by
  unfold imulItems
  split <;> simp

@[simp] theorem plain_incDecItems (opcode : UInt8) (digit : Nat) (op : Operand) :
    PlainItems (incDecItems opcode digit op) := by simp [incDecItems]

@[simp] theorem plain_shiftItems (digit : Nat) (ops : List Operand) : PlainItems (shiftItems digit ops) := by
  unfold shiftItems
  split <;> simp

@[simp] theorem plain_shldItems (ops : List Operand) : PlainItems (shldItems ops) := by
  unfold shldItems
  split <;> simp

@[simp] theorem plain_portItems (symbols : List Symbol) (dxOpcode opcode : UInt8) (port : List UInt8) :
    PlainItems (portItems symbols dxOpcode opcode port) := by simp [portItems]

@[simp] theorem plain_longItems (symbols : List Symbol) (quad : Bool) (raw : List UInt8) (op : Operand) :
    PlainItems (longItems symbols quad raw op) := by simp [longItems]

theorem plain_instrItems (symbols : List Symbol) (token : List UInt8) (raw : List (List UInt8))
    (ops : List Operand) : PlainItems (instrItems symbols token raw ops) := by
  simp only [instrItems, plain_ite, plain_retItems, plain_imulItems, plain_shldItems, implies_true, true_and]
  intro _ _ _
  split
  · simp
  · simp
  · split
    · simp only [plain_ite, plain_pushItems, plain_popItems, plain_intItems, plain_incDecItems, implies_true,
        true_and]
      intro _ _ _ _ _
      split <;> simp
    · simp only [plain_ite, plain_movItems, plain_testItems, plain_portItems, plain_bytes, implies_true, true_and]
      intros
      split <;> simp
    · simp

def Cmd.Plain : Cmd → Prop
  | .emit items => PlainItems items
  | .switch _ type flags => (type = SHT_PROGBITS ∨ type = SHT_NOBITS) ∧ flags < 4294967296
  | .binding _ bind => bind = STB_LOCAL ∨ bind = STB_GLOBAL
  | .align n => n < 4294967296
  | _ => True

theorem Cmd.plain_ite {c : Prop} [Decidable c] {cmd cmd' : Cmd} (h : cmd.Plain) (h' : cmd'.Plain) :
    (if c then cmd else cmd').Plain := by
  split
  · exact h
  · exact h'

theorem plain_sectionCmd (name : List UInt8) : (sectionCmd name).Plain := by
  simp only [sectionCmd, Cmd.Plain]
  constructor
  · split <;> simp
  · split <;> split <;> decide

theorem plain_directive (symbols : List Symbol) (token p : List UInt8) (raw : List (List UInt8))
    (ops : List Operand) : (directive symbols token p raw ops).Plain := by
  have helim : ∀ o : Option (List UInt8), (o.elim Cmd.fault fun bs => Cmd.emit (bytes bs)).Plain := by
    intro o
    cases o with
    | none => trivial
    | some bs => exact plain_bytes bs
  have hatoi : ∀ r : List UInt8, (atoi r).toNat < 4294967296 := fun r => (atoi r).isLt
  have hshift : ∀ n, 1 <<< (n % 32) < 4294967296 := by
    intro n
    rw [Nat.one_shiftLeft]
    exact Nat.pow_lt_pow_right (by decide) (Nat.mod_lt n (by decide))
  have hemit : ∀ items, PlainItems items → (Cmd.emit items).Plain := fun _ h => h
  unfold directive
  repeat' apply Cmd.plain_ite
  · exact ⟨Or.inl rfl, by decide⟩
  · exact ⟨Or.inl rfl, by decide⟩
  · exact ⟨Or.inr rfl, by decide⟩
  · exact helim _
  · exact helim _
  · exact hemit _ (plain_flatMap fun r => plain_bytes _)
  · exact hemit _ (plain_flatMap fun r => plain_bytes _)
  · exact hemit _ (plain_flatMap fun r => plain_longItems _ _ _ _)
  · cases raw with
    | nil => exact plain_nil
    | cons r rest =>
      repeat' apply Cmd.plain_ite
      · exact plain_sectionCmd _
      · exact Or.inr rfl
      · exact Or.inl rfl
      · exact hshift _
      · exact hatoi _
      · exact hemit _ (plain_bytes _)
      · cases rest with
        | nil => exact plain_nil
        | cons r1 rest =>
          repeat' apply Cmd.plain_ite
          · trivial
          · trivial
          · exact plain_nil

theorem plain_branchCmd {symbols : List Symbol} {token : List UInt8} {raw : List (List UInt8)} {cmd : Cmd}
    (h : branchCmd symbols token raw = some cmd) : cmd.Plain := by
  unfold branchCmd at h
  split at h
  · split_ifs at h
    · obtain rfl := Option.some.inj h
      exact plain_indirectItems _ _ _
    · obtain rfl := Option.some.inj h
      exact plain_farItems _ _
    · obtain rfl := Option.some.inj h
      exact plain_indirectItems _ _ _
    · obtain rfl := Option.some.inj h
      trivial
    · obtain rfl := Option.some.inj h
      exact plain_farItems _ _
    · obtain ⟨e, -, rfl⟩ := Option.map_eq_some_iff.mp h
      exact plain_farItems _ _
  · dsimp only at h
    split at h
    · obtain rfl := Option.some.inj h
      simp [Cmd.Plain]
    · cases h
  · cases h

theorem plain_statement (st : Asm) (line : Nat) (token p : List UInt8) (raw : List (List UInt8)) :
    (statement st line token p raw).Plain := by
  unfold statement
  dsimp only
  split
  · exact plain_directive _ _ _ _ _
  · split
    · exact plain_bytes _
    · split
      · rename_i h
        exact plain_branchCmd h
      · exact plain_instrItems _ _ _ _

/-! ### The tables -/

structure Section.Sound (sec : Section) : Prop where
  type : sec.type = 0 ∨ sec.type = SHT_PROGBITS ∨ sec.type = SHT_NOBITS
  flags : sec.flags < 4294967296
  align : sec.align < 4294967296
  name : sec.name.length < 64

structure Symbol.Sound (sections : Nat) (s : Symbol) : Prop where
  value : s.value < 4294967296
  size : s.size < 4294967296
  type : s.type < 16
  binding : s.binding = STB_LOCAL ∨ s.binding = STB_GLOBAL
  sectionIdx : s.sectionIdx < sections ∨ s.sectionIdx = SHN_ABS ∨ s.sectionIdx = SHN_COMMON

structure Reloc.Sound (sections symbols : Nat) (r : Reloc) : Prop where
  offset : r.offset < 4294967296
  type : r.type = R_386_32 ∨ r.type = R_386_PC32
  sectionIdx : 0 < r.sectionIdx ∧ r.sectionIdx < sections
  symIdx : 0 < r.symIdx ∧ r.symIdx < symbols

structure Asm.Sound (st : Asm) : Prop where
  cur : 0 < st.curSection ∧ st.curSection < st.sections.length
  sections : st.sections.length ≤ MAX_SECTIONS
  symbols : 0 < st.symbols.length ∧ st.symbols.length ≤ MAX_SYMBOLS
  relocs : st.relocs.length ≤ MAX_RELOCS
  secs : ∀ sec ∈ st.sections, sec.Sound
  syms : ∀ s ∈ st.symbols, s.Sound st.sections.length
  rels : ∀ r ∈ st.relocs, r.Sound st.sections.length st.symbols.length

theorem forall_mem_modify {α : Type} {P : α → Prop} {as : List α} {f : α → α} (h : ∀ a ∈ as, P a)
    (hf : ∀ a, P a → P (f a)) (i : Nat) : ∀ a ∈ as.modify i f, P a := by
  intro a ha
  obtain ⟨j, hj⟩ := List.mem_iff_getElem?.mp ha
  rw [List.getElem?_modify] at hj
  obtain ⟨b, hb, rfl⟩ := Option.map_eq_some_iff.mp hj
  have hP := h b (List.mem_of_getElem? hb)
  split
  · exact hf b hP
  · exact hP

theorem Asm.Sound.modifySection {st : Asm} (h : st.Sound) {f : Section → Section}
    (hf : ∀ sec : Section, sec.Sound → (f sec).Sound) (i : Nat) :
    Asm.Sound { st with sections := st.sections.modify i f } := by
  have hlen : (st.sections.modify i f).length = st.sections.length := List.length_modify ..
  exact ⟨⟨h.cur.1, hlen.symm ▸ h.cur.2⟩, hlen.symm ▸ h.sections, h.symbols, h.relocs,
    forall_mem_modify h.secs hf i, hlen.symm ▸ h.syms, fun r hr => hlen.symm ▸ h.rels r hr⟩

theorem Asm.Sound.emitByte {st : Asm} (h : st.Sound) (i : Nat) (b : UInt8) : (secEmitByte st i b).Sound :=
  h.modifySection (f := (·.emit b)) (fun _ hsec => ⟨hsec.type, hsec.flags, hsec.align, hsec.name⟩) i

theorem Asm.Sound.emit {st : Asm} (h : st.Sound) (i : Nat) (bs : List UInt8) : (secEmit st i bs).Sound := by
  induction bs generalizing st with
  | nil => exact h
  | cons b bs ih => exact ih (h.emitByte i b)

theorem Asm.Sound.alignTo {st : Asm} (h : st.Sound) {n : Nat} (hn : n < 4294967296) : (st.alignTo n).Sound :=
  (h.emit _ _).modifySection (f := fun s => { s with align := max s.align n })
    (fun _ hsec => ⟨hsec.type, hsec.flags, Nat.max_lt.mpr ⟨hsec.align, hn⟩, hsec.name⟩) _

theorem Asm.Sound.modifySymbol {st : Asm} (h : st.Sound) {f : Symbol → Symbol}
    (hf : ∀ s : Symbol, s.Sound st.sections.length → (f s).Sound st.sections.length) (i : Nat) :
    (st.modifySymbol i f).Sound := by
  have hlen : (st.symbols.modify i f).length = st.symbols.length := List.length_modify ..
  exact ⟨h.cur, h.sections, hlen.symm ▸ h.symbols, h.relocs, h.secs, forall_mem_modify h.syms hf i,
    fun r hr => hlen.symm ▸ h.rels r hr⟩

theorem Asm.Sound.findOrAddSymbol {st st' : Asm} {name : List UInt8} {i : Nat} (h : st.Sound)
    (hfind : findOrAddSymbol st name = some (st', i)) :
    st'.Sound ∧ (0 < i ∧ i < st'.symbols.length) ∧ st'.sections.length = st.sections.length := by
  simp only [As.findOrAddSymbol] at hfind
  split at hfind
  · rename_i j hj
    cases hfind
    have hlt := (List.findIdx?_eq_some_iff_getElem.mp hj).1
    rw [List.length_drop] at hlt
    exact ⟨h, ⟨Nat.succ_pos j, by omega⟩, rfl⟩
  · split at hfind
    · cases hfind
    · rename_i hfull
      cases hfind
      have hroom := Nat.lt_of_not_ge hfull
      refine ⟨⟨h.cur, h.sections, ?_, h.relocs, h.secs, ?_, ?_⟩, ⟨h.symbols.1, by simp⟩, rfl⟩
      · simp only [List.length_append, List.length_singleton]
        exact ⟨Nat.succ_pos _, hroom⟩
      · rw [List.forall_mem_append, List.forall_mem_singleton]
        exact ⟨h.syms, Nat.zero_lt_succ _, Nat.zero_lt_succ _, Nat.zero_lt_succ _, Or.inl rfl,
          Or.inl (Nat.lt_trans h.cur.1 h.cur.2)⟩
      · intro r hr
        have hold := h.rels r hr
        simp only [List.length_append, List.length_singleton]
        exact ⟨hold.offset, hold.type, hold.sectionIdx, hold.symIdx.1, Nat.lt_succ_of_lt hold.symIdx.2⟩

theorem Asm.Sound.addRelocation {st st' : Asm} {r : Reloc} (h : st.Sound)
    (hr : r.Sound st.sections.length st.symbols.length) (hadd : addRelocation st r = some st') : st'.Sound := by
  unfold As.addRelocation at hadd
  split at hadd
  · cases hadd
  · rename_i hfull
    cases hadd
    refine ⟨h.cur, h.sections, h.symbols, ?_, h.secs, h.syms, ?_⟩
    · have hroom := Nat.lt_of_not_ge hfull
      simp only [List.length_append, List.length_singleton]
      exact hroom
    · rw [List.forall_mem_append, List.forall_mem_singleton]
      exact ⟨h.rels, hr⟩

theorem Asm.Sound.emitItem {st st' : Asm} {secIdx pass : Nat} {item : Item} (h : st.Sound) (hitem : item.Plain)
    (hsec : 0 < secIdx ∧ secIdx < st.sections.length) (hemit : emitItem secIdx pass st item = some st') :
    st'.Sound ∧ st'.sections.length = st.sections.length := by
  have hlen : st'.sections.length = st.sections.length := (quiet_emitItem hemit).sections.length_eq.symm
  refine ⟨?_, hlen⟩
  cases item with
  | byte b =>
    cases hemit
    exact h.emitByte secIdx b
  | ref name type addend =>
    obtain ⟨⟨st₁, i⟩, hfind, hemit⟩ := Option.bind_eq_some_iff.mp hemit
    obtain ⟨st₂, hrel, rfl⟩ := Option.map_eq_some_iff.mp hemit
    obtain ⟨hsound, hi, -⟩ := h.findOrAddSymbol hfind
    have hlen₁ := (quiet_findOrAddSymbol hfind).sections.length_eq
    apply Asm.Sound.emit
    split at hrel
    · have htype : type = R_386_32 ∨ type = R_386_PC32 := hitem
      exact hsound.addRelocation ⟨u32_lt _, htype, hlen₁ ▸ hsec, hi⟩ hrel
    · cases hrel
      exact hsound

theorem Asm.Sound.emitItems {st st' : Asm} {secIdx pass : Nat} {items : List Item} (h : st.Sound)
    (hitems : PlainItems items) (hsec : 0 < secIdx ∧ secIdx < st.sections.length)
    (hemit : emitItems secIdx pass st items = some st') : st'.Sound := by
  induction items generalizing st with
  | nil =>
    cases hemit
    exact h
  | cons item items ih =>
    obtain ⟨st₁, hitem, hrest⟩ := Option.bind_eq_some_iff.mp hemit
    obtain ⟨hplain, hplains⟩ := plain_cons.mp hitems
    obtain ⟨hsound, hlen⟩ := h.emitItem hplain hsec hitem
    exact ih hsound hplains (hlen.symm ▸ hsec) hrest

theorem Asm.Sound.symbol {st st' : Asm} {name : List UInt8} {f : Asm → Symbol → Symbol} (h : st.Sound)
    (hf : ∀ (st : Asm) (n : Nat) (s : Symbol), s.Sound n → (f st s).Sound n)
    (hcmd : (As.findOrAddSymbol st name).map (fun (st, i) => st.modifySymbol i (f st)) = some st') : st'.Sound := by
  obtain ⟨⟨st₁, i⟩, hfind, rfl⟩ := Option.map_eq_some_iff.mp hcmd
  exact (h.findOrAddSymbol hfind).1.modifySymbol (hf st₁ _) i

theorem Asm.Sound.switch {st st' : Asm} {name : List UInt8} {type flags i : Nat} (h : st.Sound)
    (htype : type = SHT_PROGBITS ∨ type = SHT_NOBITS) (hflags : flags < 4294967296)
    (hsec : getOrCreateSection st name type flags 4 = some (st', i)) :
    Asm.Sound { st' with curSection := i } := by
  unfold getOrCreateSection at hsec
  split at hsec
  · rename_i j hj
    cases hsec
    have hlt := (List.findIdx?_eq_some_iff_getElem.mp hj).1
    rw [List.length_drop] at hlt
    exact ⟨⟨Nat.succ_pos j, by dsimp only; omega⟩, h.sections, h.symbols, h.relocs, h.secs, h.syms, h.rels⟩
  · split at hsec
    · cases hsec
    · rename_i hfull
      cases hsec
      have hroom := Nat.lt_of_not_ge hfull
      have hcur := h.cur
      refine ⟨⟨?_, ?_⟩, ?_, h.symbols, h.relocs, ?_, ?_, ?_⟩
      · dsimp only
        omega
      · simp
      · simp only [List.length_append, List.length_singleton]
        exact hroom
      · rw [List.forall_mem_append, List.forall_mem_singleton]
        refine ⟨h.secs, Or.inr htype, hflags, Nat.lt_of_lt_of_le (by decide : 4 < 5) (by decide), ?_⟩
        exact Nat.lt_succ_of_le (List.length_take_le 63 name)
      · intro s hs
        have hold := h.syms s hs
        simp only [List.length_append, List.length_singleton]
        exact ⟨hold.value, hold.size, hold.type, hold.binding, hold.sectionIdx.imp_left Nat.lt_succ_of_lt⟩
      · intro r hr
        have hold := h.rels r hr
        simp only [List.length_append, List.length_singleton]
        exact ⟨hold.offset, hold.type, ⟨hold.sectionIdx.1, Nat.lt_succ_of_lt hold.sectionIdx.2⟩, hold.symIdx⟩

theorem Asm.Sound.runCmd {st st' : Asm} {pass : Nat} {cmd : Cmd} (h : st.Sound) (hcmd : cmd.Plain)
    (hrun : runCmd pass st cmd = some st') : st'.Sound := by
  cases cmd with
  | emit items => exact h.emitItems hcmd h.cur hrun
  | switch name type flags =>
    obtain ⟨⟨st₁, i⟩, hsec, rfl⟩ := Option.map_eq_some_iff.mp hrun
    exact h.switch hcmd.1 hcmd.2 hsec
  | binding name binding =>
    exact h.symbol (f := fun _ s => { s with binding })
      (fun _ _ s hs => ⟨hs.value, hs.size, hs.type, hcmd, hs.sectionIdx⟩) hrun
  | common name size align =>
    exact h.symbol (f := fun _ s => { s with
        binding := STB_GLOBAL, size := size.toNat, value := align.toNat
        sectionIdx := SHN_COMMON, defined := true })
      (fun _ _ s hs => ⟨align.isLt, size.isLt, hs.type, Or.inr rfl, Or.inr (Or.inr rfl)⟩) hrun
  | align n =>
    cases hrun
    exact h.alignTo hcmd
  | set name expr =>
    exact h.symbol (f := fun st s => { s with
        value := (evalExpr st.symbols expr).1.toNat, sectionIdx := SHN_ABS, defined := true })
      (fun st _ s hs => ⟨(evalExpr st.symbols expr).1.isLt, hs.size, hs.type, hs.binding, Or.inr (Or.inl rfl)⟩) hrun
  | fault => cases hrun

/-! ### Runs -/

theorem Asm.Sound.recordLabel {st : Asm} (h : st.Sound) (pass : Nat) (l : LabelPos) :
    (st.recordLabel pass l).Sound := by
  have hlabels : ∀ labels, Asm.Sound { st with labels } := fun _ =>
    ⟨h.cur, h.sections, h.symbols, h.relocs, h.secs, h.syms, h.rels⟩
  unfold Asm.recordLabel
  split
  · split
    · exact hlabels _
    · exact h
  · split
    · exact hlabels _
    · exact h

theorem Asm.Sound.defineLabel {st st' : Asm} {pass line : Nat} {name : List UInt8} (h : st.Sound)
    (hlabel : defineLabel pass st (st.labelPos line name) = some st') : st'.Sound := by
  obtain ⟨⟨st₁, i⟩, hfind, rfl⟩ := Option.map_eq_some_iff.mp hlabel
  obtain ⟨hsound₁, -, hlen⟩ := h.findOrAddSymbol hfind
  have hcur := h.cur.2
  have hsound := hsound₁.modifySymbol
    (f := fun s => { s with
      value := (st.labelPos line name).offset, sectionIdx := (st.labelPos line name).sectionIdx
      defined := true })
    (fun s hs => ⟨u32_lt _, hs.size, hs.type, hs.binding, Or.inl (hlen.symm ▸ hcur)⟩) i
  exact hsound.recordLabel pass _

theorem Asm.Sound.run {st st' : Asm} {pass : Nat} {a : LineAct} {log : List Event} (h : st.Sound)
    (hrun : a.run pass st = some (st', log)) : st'.Sound := by
  obtain ⟨line, act⟩ := a
  cases act with
  | label name =>
    obtain ⟨st₁, hdefine, heq⟩ := Option.map_eq_some_iff.mp hrun
    obtain ⟨rfl, -⟩ := Prod.mk.inj heq
    exact h.defineLabel hdefine
  | rep b =>
    obtain ⟨rfl, -⟩ := Prod.mk.inj (Option.some.inj hrun)
    exact h.emitByte _ b
  | stmt token p raw =>
    obtain ⟨st₁, hcmd, heq⟩ := Option.map_eq_some_iff.mp hrun
    obtain ⟨rfl, -⟩ := Prod.mk.inj heq
    exact h.runCmd (plain_statement st line token p raw) hcmd

theorem Asm.Sound.runActs {st st' : Asm} {pass : Nat} {acts : List LineAct} {log : List Event} (h : st.Sound)
    (hrun : runActs pass st acts = some (st', log)) : st'.Sound := by
  induction acts generalizing st log with
  | nil =>
    obtain ⟨rfl, -⟩ := Prod.mk.inj (Option.some.inj hrun)
    exact h
  | cons a acts ih =>
    obtain ⟨st₁, log₁, log₂, ha, hacts, -⟩ := runActs_cons hrun
    exact ih (h.run ha) hacts

theorem Asm.Sound.beginPass {st : Asm} (h : st.Sound) (pass : Nat) : (st.beginPass pass).Sound := by
  have hcur := h.cur
  have hlen : (st.beginPass pass).sections.length = st.sections.length := List.length_map _
  refine ⟨⟨Nat.one_pos, ?_⟩, hlen.symm ▸ h.sections, h.symbols, ?_, ?_, hlen.symm ▸ h.syms, ?_⟩
  · rw [hlen]
    exact Nat.lt_of_le_of_lt hcur.1 hcur.2
  · unfold Asm.beginPass
    dsimp only
    split
    · exact Nat.zero_le _
    · exact h.relocs
  · intro sec hsec
    obtain ⟨sec', hmem, rfl⟩ := List.mem_map.mp hsec
    have hold := h.secs sec' hmem
    exact ⟨hold.type, hold.flags, hold.align, hold.name⟩
  · intro r hr
    rw [hlen]
    unfold Asm.beginPass at hr
    dsimp only at hr
    split at hr
    · exact absurd hr List.not_mem_nil
    · exact h.rels r hr

theorem sound_initAsm : initAsm.Sound := by
  refine ⟨by decide, by decide, by decide, by decide, ?_, ?_, ?_⟩
  · intro sec hsec
    rcases List.mem_cons.mp hsec with rfl | hsec
    · exact ⟨by decide, by decide, by decide, by decide⟩
    · obtain rfl := List.mem_singleton.mp hsec
      exact ⟨by decide, by decide, by decide, by decide⟩
  · intro s hs
    obtain rfl := List.mem_singleton.mp hs
    exact ⟨by decide, by decide, by decide, by decide, by decide⟩
  · exact fun r hr => absurd hr List.not_mem_nil

/-- **What `as` accepts** leaves tables that are in order, and every section holds its bytes. -/
theorem assemble_sound {lines : List (List UInt8)} {st : Asm} {log₁ log₂ : List Event}
    (h : assemble lines = some (st, log₁, log₂)) : st.Sound ∧ st.Filled := by
  obtain ⟨acts, st₁, -, h₁, h₂⟩ := assemble_acts h
  have hsound := (sound_initAsm.beginPass 1).runActs h₁
  have hcur := hsound.cur
  exact ⟨(hsound.beginPass 2).runActs h₂,
    runActs_filled h₂ (beginPass_filled (Nat.lt_of_le_of_lt hcur.1 hcur.2) 2)⟩

/-! ### The fields of relocations -/

/-- Each relocation is for four bytes of its section, behind those of the relocations before it. -/
structure Asm.Apart (st : Asm) : Prop where
  inside : ∀ r ∈ st.relocs, r.offset + 4 ≤ st.secSize r.sectionIdx
  apart : st.relocs.Pairwise fun r r' => r.sectionIdx = r'.sectionIdx → r.offset + 4 ≤ r'.offset

def Asm.SmallSecs (st : Asm) : Prop := ∀ i, st.secSize i < 4294967296

theorem Grows.secSize_le {st st' : Asm} (h : Grows st st') (i : Nat) : st.secSize i ≤ st'.secSize i := by
  unfold Asm.secSize
  rw [List.getD_eq_getElem?_getD, List.getD_eq_getElem?_getD]
  cases hsec : st.sections[i]? with
  | none => exact Nat.zero_le _
  | some sec =>
    obtain ⟨sec', hsec', hgrown⟩ := h i sec hsec
    obtain ⟨bs, hsize, -⟩ := hgrown.more
    rw [hsec']
    exact hsize ▸ Nat.le_add_right _ _

theorem Grows.smallSecs {st st' : Asm} (h : Grows st st') (hsmall : st'.SmallSecs) : st.SmallSecs :=
  fun i => Nat.lt_of_le_of_lt (h.secSize_le i) (hsmall i)

theorem Asm.Apart.of_grows {st st' : Asm} (h : st.Apart) (hgrows : Grows st st') (hrelocs : st'.relocs = st.relocs) :
    st'.Apart := by
  constructor
  · intro r hr
    exact Nat.le_trans (h.inside r (hrelocs ▸ hr)) (hgrows.secSize_le _)
  · rw [hrelocs]
    exact h.apart

theorem Asm.Apart.emitItem {st st' : Asm} {secIdx pass : Nat} {item : Item} (h : st.Apart)
    (hsec : secIdx < st.sections.length) (hsmall : st.secSize secIdx < 4294967296)
    (hemit : emitItem secIdx pass st item = some st') : st'.Apart := by
  have hgrows := (quiet_emitItem hemit).grows
  cases item with
  | byte b =>
    cases hemit
    exact h.of_grows hgrows rfl
  | ref name type addend =>
    obtain ⟨hsections, i, -, hrelocs⟩ := emitItem_ref hemit
    have hsize : st'.secSize secIdx = st.secSize secIdx + 4 := by
      have hlen := secSize_secEmit st (dword addend) hsec
      rw [Asm.secSize, hsections]
      exact hlen
    split at hrelocs
    · constructor
      · intro r hr
        rw [hrelocs, List.mem_append, List.mem_singleton] at hr
        rcases hr with hr | rfl
        · exact Nat.le_trans (h.inside r hr) (hgrows.secSize_le _)
        · dsimp only
          rw [hsize, u32_of_lt hsmall]
      · rw [hrelocs, List.pairwise_append]
        refine ⟨h.apart, List.pairwise_singleton _ _, ?_⟩
        intro r hr r' hr' heq
        obtain rfl := List.mem_singleton.mp hr'
        have hin := h.inside r hr
        dsimp only at heq ⊢
        rw [u32_of_lt hsmall, ← heq]
        exact hin
    · exact h.of_grows hgrows hrelocs

theorem Asm.Apart.emitItems {st st' : Asm} {secIdx pass : Nat} {items : List Item} (h : st.Apart)
    (hsec : secIdx < st.sections.length) (hsmall : st'.SmallSecs)
    (hemit : emitItems secIdx pass st items = some st') : st'.Apart := by
  induction items generalizing st with
  | nil =>
    cases hemit
    exact h
  | cons item items ih =>
    obtain ⟨st₁, hitem, hrest⟩ := Option.bind_eq_some_iff.mp hemit
    have hquiet := quiet_emitItem hitem
    have hsmall₁ := (quiet_emitItems hrest).grows.smallSecs hsmall
    have hlen := hquiet.sections.length_eq
    exact ih (h.emitItem hsec (hquiet.grows.smallSecs hsmall₁ secIdx) hitem) (hlen ▸ hsec) hrest

theorem Asm.Apart.symbol {st st' : Asm} {name : List UInt8} {f : Asm → Symbol → Symbol} (h : st.Apart)
    (hcmd : (findOrAddSymbol st name).map (fun (st, i) => st.modifySymbol i (f st)) = some st') : st'.Apart := by
  have hgrows := (quiet_symbol hcmd).grows
  obtain ⟨⟨st₁, i⟩, hfind, rfl⟩ := Option.map_eq_some_iff.mp hcmd
  exact h.of_grows hgrows (findOrAddSymbol_spec hfind).2.1

theorem getOrCreateSection_relocs {st st' : Asm} {name : List UInt8} {type flags align i : Nat}
    (h : getOrCreateSection st name type flags align = some (st', i)) :
    Grows st st' ∧ st'.relocs = st.relocs := by
  have hrelocs : st'.relocs = st.relocs := by
    unfold getOrCreateSection at h
    split at h
    · cases h
      rfl
    · split at h
      · cases h
      · cases h
        rfl
  obtain ⟨-, ⟨heq, -⟩ | ⟨heq, -⟩⟩ := getOrCreateSection_spec h
  · exact ⟨grows_of_eq heq, hrelocs⟩
  · refine ⟨?_, hrelocs⟩
    intro i s hi
    refine ⟨s, ?_, Section.Grown.refl s⟩
    rw [heq, List.getElem?_append_left (List.getElem?_eq_some_iff.mp hi).1]
    exact hi

theorem Asm.Apart.runCmd {st st' : Asm} {pass : Nat} {cmd : Cmd} (h : st.Apart)
    (hcur : st.curSection < st.sections.length) (hsmall : st'.SmallSecs)
    (hrun : runCmd pass st cmd = some st') : st'.Apart := by
  cases cmd with
  | emit items => exact h.emitItems hcur hsmall hrun
  | switch name type flags =>
    obtain ⟨⟨st₁, i⟩, hsec, rfl⟩ := Option.map_eq_some_iff.mp hrun
    obtain ⟨hgrows, hrelocs⟩ := getOrCreateSection_relocs hsec
    exact h.of_grows hgrows hrelocs
  | binding name binding => exact h.symbol (f := fun _ s => { s with binding }) hrun
  | common name size align =>
    exact h.symbol (f := fun _ s => { s with
      binding := STB_GLOBAL, size := size.toNat, value := align.toNat
      sectionIdx := SHN_COMMON, defined := true }) hrun
  | align n =>
    cases hrun
    exact h.of_grows (quiet_alignTo st n).grows (secEmit_relocs _ _ _)
  | set name expr =>
    exact h.symbol (f := fun st s => { s with
      value := (evalExpr st.symbols expr).1.toNat, sectionIdx := SHN_ABS, defined := true }) hrun
  | fault => cases hrun

theorem recordLabel_relocs (pass : Nat) (st : Asm) (l : LabelPos) : (st.recordLabel pass l).relocs = st.relocs := by
  unfold Asm.recordLabel
  split
  · split <;> rfl
  · split <;> rfl

theorem Asm.Apart.run {st st' : Asm} {pass : Nat} {a : LineAct} {log : List Event} (h : st.Apart)
    (hcur : st.curSection < st.sections.length) (hsmall : st'.SmallSecs)
    (hrun : a.run pass st = some (st', log)) : st'.Apart := by
  have hgrows := (LineAct.run_step hrun).grows
  obtain ⟨line, act⟩ := a
  cases act with
  | label name =>
    obtain ⟨st₁, hdefine, heq⟩ := Option.map_eq_some_iff.mp hrun
    obtain ⟨rfl, -⟩ := Prod.mk.inj heq
    obtain ⟨⟨st₂, i⟩, hfind, rfl⟩ := Option.map_eq_some_iff.mp hdefine
    apply h.of_grows hgrows
    rw [recordLabel_relocs]
    exact (findOrAddSymbol_spec hfind).2.1
  | rep b =>
    obtain ⟨rfl, -⟩ := Prod.mk.inj (Option.some.inj hrun)
    exact h.of_grows hgrows rfl
  | stmt token p raw =>
    obtain ⟨st₁, hcmd, heq⟩ := Option.map_eq_some_iff.mp hrun
    obtain ⟨rfl, -⟩ := Prod.mk.inj heq
    exact h.runCmd hcur hsmall hcmd

theorem Asm.Apart.runActs {st st' : Asm} {pass : Nat} {acts : List LineAct} {log : List Event} (h : st.Apart)
    (hsound : st.Sound) (hsmall : st'.SmallSecs) (hrun : runActs pass st acts = some (st', log)) : st'.Apart := by
  induction acts generalizing st log with
  | nil =>
    obtain ⟨rfl, -⟩ := Prod.mk.inj (Option.some.inj hrun)
    exact h
  | cons a acts ih =>
    obtain ⟨st₁, log₁, log₂, ha, hacts, -⟩ := runActs_cons hrun
    exact ih (h.run hsound.cur.2 ((runActs_grows hacts).smallSecs hsmall) ha) (hsound.run ha) hacts

theorem assemble_apart {lines : List (List UInt8)} {st : Asm} {log₁ log₂ : List Event}
    (h : assemble lines = some (st, log₁, log₂)) (hsmall : st.SmallSecs) : st.Apart := by
  obtain ⟨acts, st₁, -, h₁, h₂⟩ := assemble_acts h
  have hsound := ((sound_initAsm.beginPass 1).runActs h₁).beginPass 2
  have hnone : (st₁.beginPass 2).Apart := ⟨fun r hr => absurd hr List.not_mem_nil, List.Pairwise.nil⟩
  exact hnone.runActs hsound hsmall h₂

end Gemios.As
