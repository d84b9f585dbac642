import Gemios.AsLine

/-!
# The actions of a source

A line of `src/tools/as.c` is a list of actions that its text alone determines: labels, `rep`
prefixes, and a statement.  Both passes of `assemble` run the same actions, one after the other.
-/

namespace Gemios.As

inductive Act where
  | label (name : List UInt8)
  | rep (b : UInt8)
  | stmt (token p : List UInt8) (raw : List (List UInt8))
deriving DecidableEq

def labelActs (p : List UInt8) : List Act × List UInt8 :=
  match findLabelColon p with
  | none => ([], p)
  | some (name, q) =>
    if name.length < 127 then ([.label (cleanString name)], skipWs q) else ([], p)

def lineActsFuel : Nat → List UInt8 → Option (List Act)
  | 0, _ => none
  | fuel + 1, text =>
    let p := skipWs text
    if lineEnds p ∨ p.take 2 = [0x2F, 0x2A] then some []
    else
      let (acts, p) := labelActs p
      let rest : Option (List Act) :=
        if lineEnds p then some []
        else
          let (token, p) := takeToken p
          (parseOperandsRaw p).bind fun raw =>
            if ¬ raw.all partsFit then none
            else
              match lookup repTable token with
              | some b =>
                if p = [] then some [.rep b] else (lineActsFuel fuel p).map (.rep b :: ·)
              | none => some [.stmt token p raw]
      rest.map (acts ++ ·)

def lineActs (text : List UInt8) : Option (List Act) := lineActsFuel (text.length + 1) text

structure LineAct where
  line : Nat
  act : Act
deriving DecidableEq

/-- The actions of the lines from number `line` on. -/
def sourceActs : Nat → List (List UInt8) → Option (List LineAct)
  | _, [] => some []
  | line, text :: rest =>
    (lineActs text).bind fun acts =>
      (sourceActs (line + 1) rest).map (acts.map (⟨line, ·⟩) ++ ·)

/-! ### Running actions -/

def LineAct.run (pass : Nat) (st : Asm) (a : LineAct) : Option (Asm × List Event) :=
  match a.act with
  | .label name =>
    (defineLabel pass st (st.labelPos a.line name)).map (·, [.label (st.labelPos a.line name)])
  | .rep b => some (secEmitByte st st.curSection b, [])
  | .stmt token p raw =>
    (runCmd pass st (statement st a.line token p raw)).map (·, jumpEvents a.line st token raw)

def runActs (pass : Nat) : Asm → List LineAct → Option (Asm × List Event)
  | st, [] => some (st, [])
  | st, a :: acts =>
    (a.run pass st).bind fun (st, log) =>
      (runActs pass st acts).map fun (st, log') => (st, log ++ log')

theorem runActs_append (pass : Nat) (st : Asm) (as bs : List LineAct) :
    runActs pass st (as ++ bs) =
      (runActs pass st as).bind fun r =>
        (runActs pass r.1 bs).map fun r' => (r'.1, r.2 ++ r'.2) := by
  induction as generalizing st with
  | nil =>
    rw [List.nil_append, runActs, Option.bind_some]
    cases runActs pass st bs <;> rfl
  | cons a as ih =>
    rw [List.cons_append, runActs, runActs]
    cases ha : a.run pass st with
    | none => rfl
    | some r =>
      dsimp only [Option.bind_some]
      rw [ih]
      cases has : runActs pass r.1 as with
      | none => rfl
      | some r' =>
        dsimp only [Option.bind_some, Option.map_some]
        cases hbs : runActs pass r'.1 bs with
        | none => rfl
        | some r'' => simp only [Option.map_some, List.append_assoc]

theorem runActs_singleton (pass : Nat) (st : Asm) (a : LineAct) :
    runActs pass st [a] = a.run pass st := by
  rw [runActs]
  cases a.run pass st with
  | none => rfl
  | some r => simp only [Option.bind_some, runActs, Option.map_some, List.append_nil]

theorem runActs_cons {pass : Nat} {st st' : Asm} {a : LineAct} {acts : List LineAct}
    {log : List Event} (h : runActs pass st (a :: acts) = some (st', log)) :
    ∃ st₁ log₁ log₂, a.run pass st = some (st₁, log₁) ∧
      runActs pass st₁ acts = some (st', log₂) ∧ log = log₁ ++ log₂ := by
  rw [runActs] at h
  obtain ⟨⟨st₁, log₁⟩, ha, hrest⟩ := Option.bind_eq_some_iff.mp h
  obtain ⟨⟨st₂, log₂⟩, hacts, heq⟩ := Option.map_eq_some_iff.mp hrest
  obtain ⟨rfl, rfl⟩ := Prod.mk.inj heq
  exact ⟨st₁, log₁, log₂, ha, hacts, rfl⟩

/-! ### Assembling is running the actions -/

section

variable (pass line : Nat)

theorem takeLabel_eq (st : Asm) (p : List UInt8) :
    takeLabel pass line st p =
      (runActs pass st ((labelActs p).1.map (⟨line, ·⟩))).map fun r =>
        (r.1, r.2, (labelActs p).2) := by
  unfold takeLabel labelActs
  cases findLabelColon p with
  | none => rfl
  | some r =>
    dsimp only
    split
    · rw [List.map_singleton, runActs_singleton, LineAct.run]
      dsimp only
      cases defineLabel pass st (st.labelPos line (cleanString r.1)) <;> rfl
    · rfl

theorem assembleFuel_eq (fuel : Nat) (st : Asm) (text : List UInt8) :
    assembleFuel pass line fuel st text =
      (lineActsFuel fuel text).bind fun acts => runActs pass st (acts.map (⟨line, ·⟩)) := by
  induction fuel generalizing st text with
  | zero => rfl
  | succ fuel ih =>
    rw [assembleFuel, lineActsFuel]
    dsimp only
    generalize skipWs text = p
    split
    · rfl
    · rw [takeLabel_eq]
      generalize labelActs p = la
      obtain ⟨acts, q⟩ := la
      dsimp only [Option.bind_eq_bind]
      -- what is behind the label runs in the tables that the label leaves
      have hbehind : ∀ rest : Option (List Act),
          ((rest.map (acts ++ ·)).bind fun as => runActs pass st (as.map (⟨line, ·⟩))) =
            (runActs pass st (acts.map (⟨line, ·⟩))).bind fun r =>
              rest.bind fun as =>
                (runActs pass r.1 (as.map (⟨line, ·⟩))).map fun r' => (r'.1, r.2 ++ r'.2) := by
        intro rest
        cases rest with
        | none => exact (Option.bind_fun_none _).symm
        | some as =>
          dsimp only [Option.map_some, Option.bind_some]
          rw [List.map_append, runActs_append]
      rw [hbehind]
      cases runActs pass st (acts.map (⟨line, ·⟩)) with
      | none => rfl
      | some r =>
        dsimp only [Option.map_some, Option.bind_some]
        by_cases hq : lineEnds q = true
        · rw [if_pos hq, if_pos hq]
          simp only [Option.bind_some, List.map_nil, runActs, Option.map_some, List.append_nil]
          rfl
        rw [if_neg hq, if_neg hq]
        generalize takeToken q = t
        obtain ⟨token, p'⟩ := t
        dsimp only
        cases parseOperandsRaw p' with
        | none => rfl
        | some raw =>
          dsimp only [Option.bind_some]
          by_cases hfit : raw.all partsFit = true
          · rw [if_neg (not_not.mpr hfit), if_neg (not_not.mpr hfit)]
            cases lookup repTable token with
            | none =>
              dsimp only [Option.bind_some]
              rw [List.map_singleton, runActs_singleton, LineAct.run]
              dsimp only
              cases runCmd pass r.1 (statement r.1 line token p' raw) <;> rfl
            | some b =>
              dsimp only
              by_cases hp : p' = []
              · rw [if_pos hp, if_pos hp, Option.bind_some, List.map_singleton, runActs_singleton]
                simp [LineAct.run]
              · rw [if_neg hp, if_neg hp, ih]
                cases lineActsFuel fuel p' with
                | none => rfl
                | some rest =>
                  dsimp only [Option.map_some, Option.bind_some]
                  rw [List.map_cons, runActs]
                  dsimp only [LineAct.run, Option.bind_some]
                  cases runActs pass (secEmitByte r.1 r.1.curSection b) (rest.map (⟨line, ·⟩)) <;> rfl
          · rw [if_pos hfit, if_pos hfit]
            rfl

theorem assembleLines_eq (st : Asm) (lines : List (List UInt8)) :
    assembleLines pass line st lines = (sourceActs line lines).bind (runActs pass st) := by
  induction lines generalizing line st with
  | nil => rfl
  | cons text lines ih =>
    rw [assembleLines, sourceActs, assembleLine, assembleFuel_eq]
    dsimp only [Option.bind_eq_bind, lineActs]
    cases lineActsFuel (text.length + 1) text with
    | none => rfl
    | some acts =>
      dsimp only [Option.bind_some]
      cases hsource : sourceActs (line + 1) lines with
      | none =>
        simp only [ih, hsource, Option.bind_none, Option.map_none]
        exact Option.bind_fun_none _
      | some rest =>
        simp only [ih, hsource, Option.bind_some, Option.map_some]
        rw [runActs_append]
        cases runActs pass st (acts.map (⟨line, ·⟩)) with
        | none => rfl
        | some r =>
          dsimp only [Option.bind_some]
          cases runActs pass r.1 rest <;> rfl

end

theorem assemble_acts {lines : List (List UInt8)} {st : Asm} {log₁ log₂ : List Event}
    (h : assemble lines = some (st, log₁, log₂)) :
    ∃ acts st₁, sourceActs 0 lines = some acts ∧
      runActs 1 (initAsm.beginPass 1) acts = some (st₁, log₁) ∧
      runActs 2 (st₁.beginPass 2) acts = some (st, log₂) := by
  unfold assemble at h
  simp only [assembleLines_eq] at h
  cases hacts : sourceActs 0 lines with
  | none =>
    rw [hacts] at h
    cases h
  | some acts =>
    rw [hacts] at h
    obtain ⟨⟨st₁, log⟩, h₁, h⟩ := Option.bind_eq_some_iff.mp h
    obtain ⟨⟨st₂, log'⟩, h₂, h⟩ := Option.bind_eq_some_iff.mp h
    cases h
    exact ⟨acts, st₁, rfl, h₁, h₂⟩

/-! ### The order of the actions -/

def Act.isStmt : Act → Bool
  | .stmt .. => true
  | _ => false

theorem labelActs_spec (p : List UInt8) :
    (labelActs p).1 = [] ∨ ∃ name, (labelActs p).1 = [.label name] := by
  unfold labelActs
  split
  · exact Or.inl rfl
  · split
    · exact Or.inr ⟨_, rfl⟩
    · exact Or.inl rfl

theorem lineActsFuel_stmt {fuel : Nat} {text : List UInt8} {acts : List Act}
    (h : lineActsFuel fuel text = some acts) : acts.Pairwise fun a _ => ¬ a.isStmt := by
  induction fuel generalizing text acts with
  | zero => cases h
  | succ fuel ih =>
    rw [lineActsFuel] at h
    dsimp only at h
    split at h
    · obtain rfl := Option.some.inj h
      exact List.Pairwise.nil
    · obtain ⟨rest, hrest, rfl⟩ := Option.map_eq_some_iff.mp h
      have hlabel : ∀ a ∈ (labelActs (skipWs text)).1, ¬ a.isStmt := by
        rcases labelActs_spec (skipWs text) with heq | ⟨name, heq⟩
        · rw [heq]
          exact fun a ha => nomatch ha
        · rw [heq, List.forall_mem_singleton]
          exact Bool.false_ne_true
      have htail : rest.Pairwise fun a _ => ¬ a.isStmt := by
        split at hrest
        · obtain rfl := Option.some.inj hrest
          exact List.Pairwise.nil
        · obtain ⟨raw, -, hrest⟩ := Option.bind_eq_some_iff.mp hrest
          split at hrest
          · cases hrest
          · split at hrest
            · split at hrest
              · obtain rfl := Option.some.inj hrest
                exact List.pairwise_singleton _ _
              · obtain ⟨more, hmore, rfl⟩ := Option.map_eq_some_iff.mp hrest
                exact List.pairwise_cons.mpr ⟨fun _ _ => Bool.false_ne_true, ih hmore⟩
            · obtain rfl := Option.some.inj hrest
              exact List.pairwise_singleton _ _
      exact List.pairwise_append.mpr
        ⟨List.pairwise_of_forall_mem_list fun a ha _ _ => hlabel a ha, htail,
          fun a ha _ _ => hlabel a ha⟩

/-- A later action is on the same line or one behind it, and never on that of a statement. -/
def LineAct.Before (a b : LineAct) : Prop := a.line ≤ b.line ∧ (a.act.isStmt → a.line < b.line)

theorem sourceActs_ordered {line : Nat} {lines : List (List UInt8)} {acts : List LineAct}
    (h : sourceActs line lines = some acts) :
    acts.Pairwise LineAct.Before ∧ ∀ a ∈ acts, line ≤ a.line := by
  induction lines generalizing line acts with
  | nil =>
    obtain rfl := Option.some.inj h
    exact ⟨List.Pairwise.nil, fun a ha => nomatch ha⟩
  | cons text lines ih =>
    rw [sourceActs] at h
    obtain ⟨as, has, h⟩ := Option.bind_eq_some_iff.mp h
    obtain ⟨rest, hrest, rfl⟩ := Option.map_eq_some_iff.mp h
    obtain ⟨hpair, hlines⟩ := ih hrest
    have hline : ∀ a ∈ as.map (LineAct.mk line ·), a.line = line := by
      intro a ha
      obtain ⟨act, -, rfl⟩ := List.mem_map.mp ha
      rfl
    constructor
    · refine List.pairwise_append.mpr ⟨List.pairwise_map.mpr ?_, hpair, ?_⟩
      · refine (lineActsFuel_stmt has).imp fun hnot => ?_
        exact ⟨Nat.le_refl line, fun hstmt => absurd hstmt hnot⟩
      · intro a ha b hb
        have hlt : a.line < b.line := by
          rw [hline a ha]
          exact hlines b hb
        exact ⟨Nat.le_of_lt hlt, fun _ => hlt⟩
    · intro a ha
      rcases List.mem_append.mp ha with ha | ha
      · exact Nat.le_of_eq (hline a ha).symm
      · exact Nat.le_of_succ_le (hlines a ha)

end Gemios.As
