import Gemios.MakeParse
import Mathlib.Data.List.Nodup

/-!
# Simply expanded variables

A variable that is assigned with `:=`, or on the command line, keeps its text when nothing
assigns it later and the text has no `$` that an expansion could act on.
-/

namespace Gemios.Make

/-! ### The table -/

/-- Every entry of the variable has this value, and there is one. -/
structure Holds (vars : List Var) (name : Name) (val : List UInt8) : Prop where
  exists_entry : ∃ v ∈ vars, v.name = name
  value : ∀ v ∈ vars, v.name = name → v.val = val

def Distinct (vars : List Var) : Prop := (vars.map Var.name).Nodup

/-- There is an entry for the variable, or room for one. -/
def HasRoom (vars : List Var) (name : Name) : Prop :=
  (∃ v ∈ vars, v.name = name) ∨ vars.length < MAX_VARS

section

variable {vars : List Var} {name other : Name} {val t : List UInt8}

theorem getVarRaw_of_holds (h : Holds vars name val) (environ : List (Name × List UInt8)) :
    getVarRaw vars environ name = some val := by
  unfold getVarRaw
  cases hf : vars.reverse.find? fun v => v.name == name with
  | none =>
    obtain ⟨v, hv, hname⟩ := h.exists_entry
    have hno := List.find?_eq_none.mp hf v (List.mem_reverse.mpr hv)
    simp [hname] at hno
  | some v =>
    have hmem := List.mem_reverse.mp (List.mem_of_find?_eq_some hf)
    have hname : v.name = name := by simpa using List.find?_some hf
    exact congrArg some (h.value v hmem hname)

/-- An entry of the variable gets a value, or one is added when there was none, or the table is
    full. -/
inductive Updated (vars : List Var) (name : Name) : List UInt8 → List Var → Prop
  | entry {a b : List Var} {v v' : Var} (heq : vars = a ++ v :: b) (hv : v.name = name)
    (hv' : v'.name = name) : Updated vars name v'.val (a ++ v' :: b)
  | added {v' : Var} (hno : ∀ v ∈ vars, v.name ≠ name) (hv' : v'.name = name) :
    Updated vars name v'.val (vars ++ [v'])
  | full {val : List UInt8} (hno : ∀ v ∈ vars, v.name ≠ name) (hfull : ¬ vars.length < MAX_VARS) :
    Updated vars name val vars

theorem updated_modify {i : Nat} (h : vars.findIdx? (fun v => v.name == name) = some i)
    (f : Var → Var) (hf : ∀ v, (f v).name = v.name) :
    ∃ v, v.name = name ∧ Updated vars name (f v).val (vars.modify i f) := by
  obtain ⟨hi, hp, _⟩ := List.findIdx?_eq_some_iff_getElem.mp h
  have hname : vars[i].name = name := by simpa using hp
  refine ⟨vars[i], hname, ?_⟩
  rw [List.modify_eq_take_cons_drop hi]
  refine Updated.entry (v := vars[i]) ?_ hname ((hf _).trans hname)
  rw [← List.drop_eq_getElem_cons hi, List.take_append_drop]

theorem setVar_updated (vars : List Var) (name : Name) (val : List UInt8) (isSimple : Bool) :
    Updated vars name val (setVar vars name val isSimple) := by
  unfold setVar
  cases hi : vars.findIdx? fun v => v.name == name with
  | some i =>
    obtain ⟨v, _, h⟩ := updated_modify hi (fun v => { v with val, isSimple }) fun _ => rfl
    exact h
  | none =>
    have hno : ∀ v ∈ vars, v.name ≠ name := by
      intro v hv
      simpa using List.findIdx?_eq_none_iff.mp hi v hv
    dsimp only
    split
    · have hname : (⟨name, val, isSimple⟩ : Var).name = name := rfl
      exact Updated.added hno hname
    · rename_i hfull
      exact Updated.full hno hfull

theorem appendVar_updated (vars : List Var) (name : Name) (val : List UInt8) :
    ∃ val', Updated vars name val' (appendVar vars name val) := by
  unfold appendVar
  cases hi : vars.findIdx? fun v => v.name == name with
  | some i =>
    obtain ⟨v, _, h⟩ :=
      updated_modify hi (fun v => { v with val := v.val ++ [0x20] ++ val }) fun _ => rfl
    exact ⟨_, h⟩
  | none => exact ⟨val, setVar_updated vars name val false⟩

theorem Updated.distinct {vars' : List Var} (h : Updated vars name val vars') (hd : Distinct vars) :
    Distinct vars' := by
  unfold Distinct at hd ⊢
  cases h with
  | @entry a b v v' heq hv hv' =>
    rw [heq, List.map_append, List.map_cons, hv] at hd
    rw [List.map_append, List.map_cons, hv']
    exact hd
  | @added v' hno hv' =>
    rw [List.map_append, List.nodup_append]
    refine ⟨hd, List.pairwise_singleton _ _, ?_⟩
    intro x hx y hy
    obtain ⟨v, hv, rfl⟩ := List.mem_map.mp hx
    obtain rfl := List.mem_singleton.mp hy
    rw [hv']
    exact hno v hv
  | full => exact hd

theorem Updated.frame {vars' : List Var} (h : Updated vars other t vars') (hne : name ≠ other)
    (hh : Holds vars name val) : Holds vars' name val := by
  obtain ⟨⟨v₀, hv₀, hname₀⟩, hvalue⟩ := hh
  cases h with
  | @entry a b v v' heq hv hv' =>
    subst heq
    have hkeep : ∀ u w : Var, w.name = other → u.name = name → u ∈ a ++ w :: b →
        u ∈ a ∨ u ∈ b := by
      intro u w hw hu hmem
      rw [List.mem_append, List.mem_cons] at hmem
      rcases hmem with ha | rfl | hb
      · exact Or.inl ha
      · exact absurd (hu.symm.trans hw) hne
      · exact Or.inr hb
    have hback : ∀ u w : Var, u ∈ a ∨ u ∈ b → u ∈ a ++ w :: b := by
      intro u w hu
      rw [List.mem_append, List.mem_cons]
      exact hu.imp_right Or.inr
    refine ⟨⟨v₀, hback _ _ (hkeep v₀ v hv hname₀ hv₀), hname₀⟩, fun u hu hname => ?_⟩
    exact hvalue u (hback _ _ (hkeep u v' hv' hname hu)) hname
  | @added v' hno hv' =>
    refine ⟨⟨v₀, List.mem_append_left _ hv₀, hname₀⟩, fun u hu hname => ?_⟩
    rcases List.mem_append.mp hu with hu | hu
    · exact hvalue u hu hname
    · obtain rfl := List.mem_singleton.mp hu
      exact absurd (hname.symm.trans hv') hne
  | full => exact ⟨⟨v₀, hv₀, hname₀⟩, hvalue⟩

theorem Updated.holds {vars' : List Var} (h : Updated vars name val vars') (hd : Distinct vars)
    (hroom : HasRoom vars name) : Holds vars' name val := by
  cases h with
  | @entry a b v v' heq hv hv' =>
    subst heq
    refine ⟨⟨v', by simp, hv'⟩, fun u hu hname => ?_⟩
    unfold Distinct at hd
    rw [List.map_append, List.map_cons, hv, List.nodup_middle, List.nodup_cons, List.mem_append] at hd
    rw [List.mem_append, List.mem_cons] at hu
    rcases hu with hu | rfl | hu
    · exact absurd (Or.inl (hname ▸ List.mem_map_of_mem hu)) hd.1
    · rfl
    · exact absurd (Or.inr (hname ▸ List.mem_map_of_mem hu)) hd.1
  | @added v' hno hv' =>
    refine ⟨⟨v', by simp, hv'⟩, fun u hu hname => ?_⟩
    rcases List.mem_append.mp hu with hu | hu
    · exact absurd hname (hno u hu)
    · rw [List.mem_singleton.mp hu]
  | full hno hfull =>
    rcases hroom with ⟨v, hv, hname⟩ | hlt
    · exact absurd hname (hno v hv)
    · exact absurd hlt hfull

end

/-! ### Lines -/

/-- The variable that a line assigns, whatever its value is. -/
def LineKind.assigned : LineKind → Option Name
  | .simple name _ => some name
  | .append name _ => some name
  | .recursive name _ => some name
  | _ => none

/-- The line is an assignment to the variable, other than `?=`. -/
def Assigns (name : Name) (line : List UInt8) : Prop := (lineKind false line).assigned = some name

theorem assigned_lineKind (inRule : Bool) (line : List UInt8) :
    (lineKind inRule line).assigned = (lineKind false line).assigned := by
  unfold lineKind
  generalize line.findIdx? (· == 0x3D) = eq
  generalize line.findIdx? (· == 0x3A) = colon
  dsimp only
  by_cases htab : line.head? = some 0x09
  · rw [if_pos (Or.inl htab), if_pos (Or.inl htab)]
  · have hfalse : ¬ (line.head? = some 0x09 ∨
        (line.head? = some 0x20 ∧ false = true ∧ eq.isNone = true ∧ colon.isNone = true)) := by
      rintro (h | ⟨_, h, _⟩)
      · exact htab h
      · cases h
    rw [if_neg hfalse]
    split
    · rename_i hrecipe
      obtain ⟨_, _, heq, hcolon⟩ := hrecipe.resolve_left htab
      obtain rfl := Option.isNone_iff_eq_none.mp heq
      obtain rfl := Option.isNone_iff_eq_none.mp hcolon
      split <;> rfl
    · rfl

section

variable {sys : Sys} {fuel : Nat} {st st' : Parse} {line : List UInt8} {name : Name}
  {val : List UInt8}

theorem addTarget_vars (prereqs : List Name) (st : Parse) (t : Name) :
    (st.addTarget prereqs t).vars = st.vars := by
  unfold Parse.addTarget
  dsimp only
  split
  · rfl
  · split <;> rfl

theorem addTargets_vars (prereqs ts : List Name) (st : Parse) :
    (ts.foldl (Parse.addTarget prereqs) st).vars = st.vars := by
  induction ts generalizing st with
  | nil => rfl
  | cons t ts ih => exact (ih (st.addTarget prereqs t)).trans (addTarget_vars prereqs st t)

theorem addCommand_vars (st : Parse) (line : List UInt8) : (st.addCommand line).vars = st.vars := by
  unfold Parse.addCommand
  dsimp only
  split
  · rfl
  · split <;> rfl

theorem addRule_vars {targets prereqs : List UInt8}
    (h : st.addRule sys fuel targets prereqs = .ok st') : st'.vars = st.vars := by
  unfold Parse.addRule at h
  split at h
  · obtain ⟨expanded, _, h⟩ := bind_eq_ok h
    obtain rfl := Except.ok.inj h
    rfl
  · split at h
    · obtain rfl := Except.ok.inj h
      rfl
    · obtain ⟨expandedTargets, _, h⟩ := bind_eq_ok h
      obtain ⟨expandedPrereqs, _, h⟩ := bind_eq_ok h
      obtain rfl := Except.ok.inj h
      exact addTargets_vars _ _ st

theorem processLine_vars (h : processLine sys fuel st line = .ok st') :
    st'.vars = st.vars ∨
      ∃ other t, Updated st.vars other t st'.vars ∧
        (Assigns other line ∨ getVarRaw st.vars sys.environ other = none) := by
  have hassigned := assigned_lineKind st.curRule.isSome line
  unfold Assigns
  rw [← hassigned]
  unfold processLine at h
  cases hk : lineKind st.curRule.isSome line with
  | recipe =>
    rw [hk] at h
    obtain rfl := Except.ok.inj h
    exact Or.inl (addCommand_vars st line)
  | blank =>
    rw [hk] at h
    obtain rfl := Except.ok.inj h
    exact Or.inl rfl
  | other =>
    rw [hk] at h
    obtain rfl := Except.ok.inj h
    exact Or.inl rfl
  | rule targets prereqs =>
    rw [hk] at h
    exact Or.inl (addRule_vars h)
  | simple name val =>
    rw [hk] at h
    obtain ⟨exp, _, h⟩ := bind_eq_ok h
    obtain rfl := Except.ok.inj h
    exact Or.inr ⟨name, exp, setVar_updated _ _ _ _, Or.inl rfl⟩
  | append name val =>
    rw [hk] at h
    obtain ⟨exp, _, h⟩ := bind_eq_ok h
    obtain rfl := Except.ok.inj h
    obtain ⟨t, ht⟩ := appendVar_updated st.vars name exp
    exact Or.inr ⟨name, t, ht, Or.inl rfl⟩
  | unset name val =>
    rw [hk] at h
    dsimp only at h
    split at h
    · obtain rfl := Except.ok.inj h
      exact Or.inl rfl
    · rename_i hnone
      obtain rfl := Except.ok.inj h
      exact Or.inr ⟨name, val, setVar_updated _ _ _ _, Or.inr (by simpa using hnone)⟩
  | recursive name val =>
    rw [hk] at h
    obtain rfl := Except.ok.inj h
    exact Or.inr ⟨name, val, setVar_updated _ _ _ _, Or.inl rfl⟩

theorem processLine_distinct (h : processLine sys fuel st line = .ok st') (hd : Distinct st.vars) :
    Distinct st'.vars := by
  rcases processLine_vars h with heq | ⟨other, t, hu, _⟩
  · rw [heq]
    exact hd
  · exact hu.distinct hd

theorem processLine_holds (h : processLine sys fuel st line = .ok st') (hno : ¬ Assigns name line)
    (hh : Holds st.vars name val) : Holds st'.vars name val := by
  rcases processLine_vars h with heq | ⟨other, t, hu, hassign⟩
  · rw [heq]
    exact hh
  · refine hu.frame ?_ hh
    rintro rfl
    rcases hassign with hassign | hnone
    · exact hno hassign
    · rw [getVarRaw_of_holds hh] at hnone
      cases hnone

theorem processLines_distinct {lines : List (List UInt8)}
    (h : processLines sys fuel st lines = .ok st') (hd : Distinct st.vars) : Distinct st'.vars := by
  induction lines generalizing st with
  | nil =>
    obtain rfl := Except.ok.inj h
    exact hd
  | cons line lines ih =>
    obtain ⟨st₁, h₁, h⟩ := bind_eq_ok h
    exact ih h (processLine_distinct h₁ hd)

theorem processLines_holds {lines : List (List UInt8)}
    (h : processLines sys fuel st lines = .ok st') (hno : ∀ line ∈ lines, ¬ Assigns name line)
    (hh : Holds st.vars name val) : Holds st'.vars name val := by
  induction lines generalizing st with
  | nil =>
    obtain rfl := Except.ok.inj h
    exact hh
  | cons line lines ih =>
    obtain ⟨st₁, h₁, h⟩ := bind_eq_ok h
    rw [List.forall_mem_cons] at hno
    exact ih h hno.2 (processLine_holds h₁ hno.1 hh)

end

/-! ### The command line -/

theorem takeOption_distinct {o : Options} (hd : Distinct o.vars) (arg : OptionArg) :
    Distinct (o.take arg).vars := by
  cases arg with
  | assign name val => exact (setVar_updated _ _ _ _).distinct hd
  | _ => exact hd

theorem takeOptions_distinct {o : Options} (hd : Distinct o.vars) (args : List OptionArg) :
    Distinct (args.foldl Options.take o).vars := by
  induction args generalizing o with
  | nil => exact hd
  | cons arg args ih => exact ih (takeOption_distinct hd arg)

theorem takeOptions_holds {o : Options} {name : Name} {val : List UInt8}
    (hh : Holds o.vars name val) {args : List OptionArg}
    (hno : ∀ val', OptionArg.assign name val' ∉ args) :
    Holds (args.foldl Options.take o).vars name val := by
  induction args generalizing o with
  | nil => exact hh
  | cons arg args ih =>
    refine ih ?_ fun val' hmem => hno val' (List.mem_cons_of_mem _ hmem)
    cases arg with
    | assign other t =>
      refine (setVar_updated _ _ _ _).frame ?_ hh
      rintro rfl
      exact hno t List.mem_cons_self
    | _ => exact hh

theorem startParse_distinct (argv : List Name) : Distinct (startParse argv).vars :=
  takeOptions_distinct (o := {}) List.nodup_nil _

theorem startParse_holds {argv : List Name} {before after : List OptionArg} {name : Name}
    {val : List UInt8} (h : optionArgs argv = before ++ .assign name val :: after)
    (hno : ∀ val', OptionArg.assign name val' ∉ after)
    (hroom : HasRoom (before.foldl Options.take {}).vars name) :
    Holds (startParse argv).vars name val := by
  unfold startParse parseOptions
  rw [h, List.foldl_append, List.foldl_cons]
  refine takeOptions_holds ?_ hno
  exact (setVar_updated _ _ _ _).holds (takeOptions_distinct (o := {}) List.nodup_nil _) hroom

/-! ### References -/

/-- The name is not that of an automatic variable or a function call, and its parentheses are
    closed within it. -/
structure Ordinary (name : Name) : Prop where
  closed : takeName 0x29 1 (name ++ [0x29]) = some (name, [])
  plain : ∀ ctx, refPiece ctx name = .var name

/-- Every expansion of a reference to the variable yields the text. -/
structure ReadsAs (vars : List Var) (name : Name) (t : List UInt8) : Prop where
  alone : ∀ environ shell ctx fuel,
    expandVarsCtx ⟨vars, environ, shell, ctx⟩ (fuel + 2) (str "$(" ++ name ++ str ")") = .ok t
  inside : ∀ environ shell ctx fuel,
    evalPiece ⟨vars, environ, shell, ctx⟩ (expandVarsCtx ⟨vars, environ, shell, ctx⟩ (fuel + 1))
      (.var name) = .ok t

theorem evalPieces_texts (S : Scope) (expand : List UInt8 → Except Fault (List UInt8))
    (t : List UInt8) : evalPieces S expand (t.map fun c => .text [c]) = .ok t := by
  induction t with
  | nil => rfl
  | cons c t ih =>
    rw [List.map_cons, evalPieces, ih]
    rfl

theorem piecesFrom_plain (ctx : AutoVars) {t : List UInt8} (ht : (0x24 : UInt8) ∉ t) :
    piecesFrom ctx t.length t = t.map fun c => .text [c] := by
  induction t with
  | nil => rfl
  | cons c t ih =>
    rw [List.mem_cons, not_or] at ht
    rw [List.length_cons, piecesFrom, if_neg (Ne.symm ht.1), ih ht.2]
    rfl

theorem expandVarsCtx_plain (S : Scope) (fuel : Nat) {t : List UInt8} (ht : (0x24 : UInt8) ∉ t) :
    expandVarsCtx S (fuel + 1) t = .ok t := by
  rw [expandVarsCtx, pieces, piecesFrom_plain S.ctx ht, evalPieces_texts]

theorem pieces_reference {name : Name} (h : Ordinary name) (ctx : AutoVars) :
    pieces ctx (str "$(" ++ name ++ str ")") = [.var name] := by
  have htext : str "$(" ++ name ++ str ")" = 0x24 :: 0x28 :: (name ++ [0x29]) := rfl
  have hdollar : dollarPiece ctx (0x28 :: (name ++ [0x29])) = (.var name, []) := by
    rw [dollarPiece]
    iterate 5 rw [if_neg (by decide)]
    rw [if_pos (Or.inl rfl), if_pos rfl, h.closed]
    dsimp only
    rw [h.plain]
  rw [htext, pieces, List.length_cons, piecesFrom, if_pos rfl, hdollar]
  dsimp only
  rw [List.length_cons, piecesFrom]

theorem readsAs_of_holds {vars : List Var} {name : Name} {t : List UInt8} (ho : Ordinary name)
    (ht : (0x24 : UInt8) ∉ t) (hh : Holds vars name t) : ReadsAs vars name t := by
  have hinside : ∀ environ shell ctx fuel,
      evalPiece ⟨vars, environ, shell, ctx⟩ (expandVarsCtx ⟨vars, environ, shell, ctx⟩ (fuel + 1))
        (.var name) = .ok t := by
    intro environ shell ctx fuel
    rw [evalPiece, evalVar, getVarRaw_of_holds hh]
    exact expandVarsCtx_plain _ fuel ht
  refine ⟨fun environ shell ctx fuel => ?_, hinside⟩
  rw [expandVarsCtx, pieces_reference ho, evalPieces, evalPieces, hinside]
  exact congrArg Except.ok (List.append_nil t)

/-! ### Runs -/

/-- A simply expanded variable, and one of the command line, is read as it was given in every
    state that later lines lead to, if its text has no `$`, no later line assigns it and the
    table had room for it. -/
theorem simple_vars_fixed (sys : Sys) (fuel : Nat) (argv : List Name) {name : Name}
    (ho : Ordinary name) :
    (∀ before line after st₀ st₁ st₂ rhs t,
      processLines sys fuel (startParse argv) before = .ok st₀ →
      lineKind st₀.curRule.isSome line = .simple name rhs →
      expandVarsCtx (st₀.scope sys) fuel rhs = .ok t →
      processLine sys fuel st₀ line = .ok st₁ → processLines sys fuel st₁ after = .ok st₂ →
      (∀ l ∈ after, ¬ Assigns name l) → (0x24 : UInt8) ∉ t → HasRoom st₀.vars name →
      ReadsAs st₂.vars name t) ∧
    ∀ before after val lines st,
      optionArgs argv = before ++ .assign name val :: after →
      (∀ val', OptionArg.assign name val' ∉ after) →
      processLines sys fuel (startParse argv) lines = .ok st →
      (∀ l ∈ lines, ¬ Assigns name l) → (0x24 : UInt8) ∉ val →
      HasRoom (before.foldl Options.take {}).vars name → ReadsAs st.vars name val := by
  constructor
  · intro before line after st₀ st₁ st₂ rhs t hbefore hkind hexp hline hafter hno ht hroom
    have hdistinct := processLines_distinct hbefore (startParse_distinct argv)
    have hvars : st₁.vars = setVar st₀.vars name t true := by
      unfold processLine at hline
      rw [hkind] at hline
      obtain ⟨exp, hexp', hline⟩ := bind_eq_ok hline
      obtain rfl := Except.ok.inj hline
      obtain rfl := Except.ok.inj (hexp'.symm.trans hexp)
      rfl
    have hholds : Holds st₁.vars name t := by
      rw [hvars]
      exact (setVar_updated _ _ _ _).holds hdistinct hroom
    exact readsAs_of_holds ho ht (processLines_holds hafter hno hholds)
  · intro before after val lines st hargs hlater hlines hno ht hroom
    have hholds := startParse_holds hargs hlater hroom
    exact readsAs_of_holds ho ht (processLines_holds hlines hno hholds)

/-- An environment without variables, where commands write nothing. -/
def bareSys : Sys := ⟨[], fun _ => []⟩

theorem ordinary_A : Ordinary (str "A") := ⟨by decide, fun ctx => by cases ctx; rfl⟩

theorem not_assigns_B : ∀ l ∈ [str "B = c"], ¬ Assigns (str "A") l := by
  intro l hl
  obtain rfl := List.mem_singleton.mp hl
  unfold Assigns
  decide +kernel

/-- `A := b`, or `A=b` on the command line, and then `B = c`. -/
theorem simple_vars_fixed_sample :
    ReadsAs (setVar (setVar [] (str "A") (str "b") true) (str "B") (str "c") false)
        (str "A") (str "b") ∧
      ∃ st, processLines bareSys 2 (startParse [str "A=b"]) [str "B = c"] = .ok st ∧
        ReadsAs st.vars (str "A") (str "b") := by
  constructor
  · obtain ⟨hsimple, _⟩ := simple_vars_fixed bareSys 2 [] ordinary_A
    refine hsimple [] (str "A := b") [str "B = c"] ⟨[], [], [], none, none⟩
      ⟨setVar [] (str "A") (str "b") true, [], [], none, none⟩
      ⟨_, [], [], none, none⟩ (str "b") (str "b") rfl rfl rfl rfl rfl not_assigns_B ?_ ?_
    · decide
    · exact Or.inr (by decide)
  · obtain ⟨_, hoption⟩ := simple_vars_fixed bareSys 2 [str "A=b"] ordinary_A
    refine ⟨_, rfl, hoption [] [] (str "b") [str "B = c"] _ rfl (by simp) rfl not_assigns_B ?_ ?_⟩
    · decide
    · exact Or.inr (by decide)

/-- `A := $$B` is read as the value of `B`, and `A = 2` replaces the `A=1` of the command line. -/
theorem simple_vars_reexpanded :
    (∃ st, parseMakefile bareSys 2 [] (str "A := $$B\n") = .ok st ∧
      expandVarsCtx ((startParse []).scope bareSys) 2 (str "$$B") = .ok (str "$B") ∧
      ¬ ReadsAs st.vars (str "A") (str "$B")) ∧
    ∃ st, parseMakefile bareSys 2 [str "A=1"] (str "A = 2\n") = .ok st ∧
      ¬ ReadsAs st.vars (str "A") (str "1") := by
  have hne : ∀ vars t r, expandVarsCtx ⟨vars, [], fun _ => [], {}⟩ 2 (str "$(A)") = .ok r → r ≠ t →
      ¬ ReadsAs vars (str "A") t := by
    intro vars t r hr hrt hreads
    exact hrt (Except.ok.inj (hr.symm.trans (hreads.alone [] (fun _ => []) {} 0)))
  constructor
  · refine ⟨⟨setVar [] (str "A") (str "$B") true, [], [], none, none⟩, rfl, rfl, ?_⟩
    exact hne _ _ [] rfl (by decide)
  · refine ⟨⟨setVar [] (str "A") (str "2") false, [], [], none, none⟩, rfl, ?_⟩
    exact hne _ _ (str "2") rfl (by decide)

end Gemios.Make
