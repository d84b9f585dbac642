import Gemios.AsText
import Mathlib.Algebra.GroupWithZero.Nat
import Mathlib.Data.List.GetD
import Mathlib.Data.List.MinMax

/-!
# Macro expansion

The expansion of a macro line in `preprocess_and_assemble` of `src/tools/as.c`: the loop
replaces the first reference to a parameter until there is none, one parameter after the
other.  It is compared with the substitution of all references of the original line at once.
-/

namespace Gemios.As

/-- The size of `exp` and `temp`. -/
def EXP_SIZE : Nat := 512

/-- A macro definition as the source stores it. -/
structure MacroDef where
  name : List UInt8
  params : List (List UInt8)
  lines : List (List UInt8)
  params_le : params.length ≤ 4
  param_le : ∀ p ∈ params, p.length ≤ 31
  lines_le : lines.length ≤ 128
  line_le : ∀ l ∈ lines, l.length ≤ 255

structure MacroArgs where
  args : List (List UInt8)
  args_le : args.length ≤ 4
  arg_le : ∀ a ∈ args, a.length ≤ 31

def paramRef (param : List UInt8) : List UInt8 := 0x5C :: param

/-- The loops' variables `pi` and `exp`. -/
structure ExpState where
  pi : Nat
  exp : List UInt8
deriving DecidableEq, Repr

/-- What a test of the loops' conditions leads to. -/
inductive Progress where
  | running (s : ExpState) | overflow | done (line : List UInt8)
deriving DecidableEq, Repr

section

variable (params args : List (List UInt8))

def expStep (s : ExpState) : Progress :=
  if s.pi < params.length ∧ s.pi < args.length then
    let ref := paramRef (params.getD s.pi [])
    match strstr ref s.exp with
    | some pos =>
      let temp := s.exp.take pos ++ args.getD s.pi [] ++ s.exp.drop (pos + ref.length)
      if temp.length + 1 ≤ EXP_SIZE then .running ⟨s.pi, temp⟩ else .overflow
    | none => .running ⟨s.pi + 1, s.exp⟩
  else .done s.exp

def expRun : Nat → ExpState → Option (List UInt8)
  | 0, _ => none
  | n + 1, s =>
    match expStep params args s with
    | .running s' => expRun n s'
    | .overflow => none
    | .done line => some line

inductive Reaches (line : List UInt8) : ExpState → Prop
  | start : Reaches line ⟨0, line⟩
  | step {s s' : ExpState} (h : Reaches line s) (hs : expStep params args s = .running s') :
    Reaches line s'

end

/-! ### The substitution -/

/-- A character of a line, or a reference to a parameter. -/
inductive Tok where
  | lit (c : UInt8) | ref (i : Nat)
deriving DecidableEq, Repr

/-- The parameter with the longest name that begins the text. -/
def longest (params : List (List UInt8)) (s : List UInt8) : Option Nat :=
  ((List.range params.length).filter fun i => (params.getD i []).isPrefixOf s).argmax
    fun i => (params.getD i []).length

/-- The references of a line, after some characters of the last one. -/
def tokensFrom (params : List (List UInt8)) : Nat → List UInt8 → List Tok
  | _, [] => []
  | n + 1, _ :: s => tokensFrom params n s
  | 0, c :: s =>
    match (if c = 0x5C then longest params s else none) with
    | some i => .ref i :: tokensFrom params (params.getD i []).length s
    | none => .lit c :: tokensFrom params 0 s

/-- The characters and the references of a line. -/
def tokens (params : List (List UInt8)) (line : List UInt8) : List Tok := tokensFrom params 0 line

section

variable (params args : List (List UInt8))

/-- A token when the parameters before `k` have been replaced. -/
def Tok.text (k : Nat) : Tok → List UInt8
  | .lit c => [c]
  | .ref i => if i < k then args.getD i [] else paramRef (params.getD i [])

/-- Some tokens when the parameters before `k` have been replaced. -/
def render (k : Nat) (ts : List Tok) : List UInt8 := ts.flatMap (Tok.text params args k)

/-- The number of parameters with an argument. -/
def paired : Nat := min params.length args.length

/-- The line with every reference to a parameter that has an argument replaced by it. -/
def substituted (line : List UInt8) : List UInt8 :=
  render params args (paired params args) (tokens params line)

/-- The text when the parameters before `k` have been replaced, and of `k` the references in
    `done`. -/
def stageText (k : Nat) (done rest : List Tok) : List UInt8 :=
  render params args (k + 1) done ++ render params args k rest

/-- What the macro's caller relies on: the loops end within their arrays with all references
    of the line replaced, and they never replace anything else. -/
structure Substitutes (line : List UInt8) : Prop where
  returns : ∃ n, expRun params args n ⟨0, line⟩ = some (substituted params args line)
  only : ∀ s pos, Reaches params args line s → s.pi < paired params args →
    strstr (paramRef (params.getD s.pi [])) s.exp = some pos →
    ∃ done rest, tokens params line = done ++ .ref s.pi :: rest ∧
      s.exp = stageText params args s.pi done (.ref s.pi :: rest) ∧
      pos = (render params args (s.pi + 1) done).length

end

/-- The references to `k` in `done` are replaced, and those in `rest` come next. -/
def IsStage (ts : List Tok) (k : Nat) (done rest : List Tok) : Prop :=
  ts = done ++ rest ∧ ∀ t, rest.head? = some t → t = .ref k

/-- Whatever references have been replaced: the text fits, and the parameter's name occurs in
    it first at the next reference, and not at all behind the last. -/
structure Clean (params args : List (List UInt8)) (line : List UInt8) : Prop where
  fits : ∀ k < paired params args, ∀ done rest, IsStage (tokens params line) k done rest →
    (stageText params args k done rest).length + 1 ≤ EXP_SIZE
  located : ∀ k < paired params args, ∀ done rest, IsStage (tokens params line) k done rest →
    strstr (paramRef (params.getD k [])) (stageText params args k done rest) =
      rest.head?.map fun _ => (render params args (k + 1) done).length

theorem splice_middle (a x b y : List UInt8) :
    (a ++ x ++ b).take a.length ++ y ++ (a ++ x ++ b).drop (a.length + x.length) = a ++ y ++ b := by
  rw [List.append_assoc a x b, List.take_left, ← List.drop_drop, List.drop_left, List.drop_left]

/-! ### The stages -/

section

variable {params args : List (List UInt8)} {k : Nat}

theorem render_append (k : Nat) (a b : List Tok) :
    render params args k (a ++ b) = render params args k a ++ render params args k b :=
  List.flatMap_append

theorem render_cons (k : Nat) (t : Tok) (ts : List Tok) :
    render params args k (t :: ts) = t.text params args k ++ render params args k ts := rfl

theorem Tok.text_ref : (Tok.ref k).text params args k = paramRef (params.getD k []) :=
  if_neg (Nat.lt_irrefl k)

theorem Tok.text_ref_succ : (Tok.ref k).text params args (k + 1) = args.getD k [] :=
  if_pos (Nat.lt_succ_self k)

theorem Tok.text_succ {t : Tok} (h : t ≠ .ref k) :
    t.text params args (k + 1) = t.text params args k := by
  cases t with
  | lit c => rfl
  | ref i =>
    have hi : i ≠ k := fun heq => h (heq ▸ rfl)
    exact if_congr (by omega) rfl rfl

theorem render_succ {ts : List Tok} (h : .ref k ∉ ts) :
    render params args (k + 1) ts = render params args k ts := by
  induction ts with
  | nil => rfl
  | cons t ts ih =>
    rw [List.mem_cons, not_or] at h
    rw [render_cons, render_cons, Tok.text_succ (Ne.symm h.1), ih h.2]

theorem exists_stage (k : Nat) (ts : List Tok) :
    ∃ a b, ts = a ++ b ∧ .ref k ∉ a ∧ ∀ t, b.head? = some t → t = .ref k := by
  induction ts with
  | nil => exact ⟨[], [], rfl, by simp, by simp⟩
  | cons t ts ih =>
    by_cases ht : t = .ref k
    · exact ⟨[], t :: ts, rfl, by simp, by simpa using ht⟩
    · obtain ⟨a, b, rfl, ha, hb⟩ := ih
      refine ⟨t :: a, b, rfl, ?_, hb⟩
      rw [List.mem_cons, not_or]
      exact ⟨Ne.symm ht, ha⟩

theorem stageText_skip {mid : List Tok} (h : .ref k ∉ mid) (done rest : List Tok) :
    stageText params args k (done ++ mid) rest = stageText params args k done (mid ++ rest) := by
  unfold stageText
  rw [render_append, render_append, render_succ h, List.append_assoc]

theorem stageText_ref (done rest : List Tok) :
    stageText params args k done (.ref k :: rest) =
      render params args (k + 1) done ++ paramRef (params.getD k []) ++ render params args k rest := by
  unfold stageText
  rw [render_cons, Tok.text_ref, List.append_assoc]

theorem stageText_replaced (done rest : List Tok) :
    stageText params args k (done ++ [.ref k]) rest =
      render params args (k + 1) done ++ args.getD k [] ++ render params args k rest := by
  unfold stageText
  rw [render_append]
  congr 2
  rw [render_cons, Tok.text_ref_succ]
  exact List.append_nil _

theorem stageText_nil (k : Nat) (ts : List Tok) :
    stageText params args k ts [] = render params args (k + 1) ts := List.append_nil _

theorem stageText_start (k : Nat) (ts : List Tok) :
    stageText params args k [] ts = render params args k ts := rfl

end

theorem longest_spec {params : List (List UInt8)} {s : List UInt8} {i : Nat}
    (h : longest params s = some i) :
    i < params.length ∧ params.getD i [] <+: s ∧
      ∀ j < params.length, params.getD j [] <+: s →
        (params.getD j []).length ≤ (params.getD i []).length := by
  unfold longest at h
  have hmem := List.argmax_mem h
  rw [List.mem_filter, List.mem_range] at hmem
  refine ⟨hmem.1, List.isPrefixOf_iff_prefix.mp hmem.2, fun j hj hpre => ?_⟩
  refine List.le_of_mem_argmax (f := fun i => (params.getD i []).length) ?_ h
  rw [List.mem_filter, List.mem_range]
  exact ⟨hj, List.isPrefixOf_iff_prefix.mpr hpre⟩

theorem render_tokensFrom (params args : List (List UInt8)) (n : Nat) (s : List UInt8) :
    render params args 0 (tokensFrom params n s) = s.drop n := by
  induction s generalizing n with
  | nil =>
    rw [List.drop_nil]
    cases n <;> rfl
  | cons c s ih =>
    cases n with
    | succ n => exact ih n
    | zero =>
      rw [tokensFrom]
      split
      · rename_i i hi
        split at hi
        · rename_i hc
          obtain ⟨_, ⟨rest, hrest⟩, _⟩ := longest_spec hi
          have htail : s.drop (params.getD i []).length = rest := by
            conv_lhs => rw [← hrest]
            exact List.drop_left
          rw [render_cons, ih, htail, hc]
          conv_rhs => rw [← hrest]
          rfl
        · cases hi
      · rw [render_cons, ih]
        rfl

theorem render_tokens (params args : List (List UInt8)) (line : List UInt8) :
    render params args 0 (tokens params line) = line :=
  render_tokensFrom params args 0 line

/-! ### The loops -/

section

variable {params args : List (List UInt8)} {line r : List UInt8} {s s' : ExpState}

theorem lt_paired {k : Nat} : k < paired params args ↔ k < params.length ∧ k < args.length :=
  Nat.lt_min

theorem expStep_none (hk : s.pi < paired params args)
    (h : strstr (paramRef (params.getD s.pi [])) s.exp = none) :
    expStep params args s = .running ⟨s.pi + 1, s.exp⟩ := by
  unfold expStep
  rw [if_pos (lt_paired.mp hk)]
  dsimp only
  rw [h]

theorem expStep_some {pos : Nat} (hk : s.pi < paired params args)
    (h : strstr (paramRef (params.getD s.pi [])) s.exp = some pos) {temp : List UInt8}
    (ht : temp = s.exp.take pos ++ args.getD s.pi [] ++
      s.exp.drop (pos + (paramRef (params.getD s.pi [])).length)) :
    expStep params args s =
      if temp.length + 1 ≤ EXP_SIZE then .running ⟨s.pi, temp⟩ else .overflow := by
  unfold expStep
  rw [if_pos (lt_paired.mp hk)]
  dsimp only
  rw [h, ht]

theorem expStep_done (hk : ¬ s.pi < paired params args) :
    expStep params args s = .done s.exp := by
  unfold expStep
  rw [if_neg fun hlt => hk (lt_paired.mpr hlt)]

theorem expStep_ref {k : Nat} (hk : k < paired params args) (done rest : List Tok)
    (h : strstr (paramRef (params.getD k [])) (stageText params args k done (.ref k :: rest)) =
      some (render params args (k + 1) done).length) :
    expStep params args ⟨k, stageText params args k done (.ref k :: rest)⟩ =
      if (stageText params args k (done ++ [.ref k]) rest).length + 1 ≤ EXP_SIZE then
        .running ⟨k, stageText params args k (done ++ [.ref k]) rest⟩
      else .overflow := by
  refine expStep_some hk h ?_
  dsimp only
  rw [stageText_ref, stageText_replaced, splice_middle]

theorem returns_of_step (h : expStep params args s = .running s') :
    (∃ n, expRun params args n s = some r) ↔ ∃ n, expRun params args n s' = some r := by
  constructor
  · rintro ⟨n, hn⟩
    cases n with
    | zero => cases hn
    | succ n =>
      rw [expRun, h] at hn
      exact ⟨n, hn⟩
  · rintro ⟨n, hn⟩
    refine ⟨n + 1, ?_⟩
    rw [expRun, h]
    exact hn

theorem not_returns_overflow (h : expStep params args s = .overflow) :
    ¬ ∃ n, expRun params args n s = some r := by
  rintro ⟨n, hn⟩
  cases n with
  | zero => cases hn
  | succ n =>
    rw [expRun, h] at hn
    cases hn

theorem not_returns_loop (h : expStep params args s = .running s) :
    ¬ ∃ n, expRun params args n s = some r := by
  rintro ⟨n, hn⟩
  induction n with
  | zero => cases hn
  | succ n ih =>
    rw [expRun, h] at hn
    exact ih hn

theorem Reaches.returns (h : Reaches params args line s)
    (hr : ∃ n, expRun params args n ⟨0, line⟩ = some r) :
    ∃ n, expRun params args n s = some r := by
  induction h with
  | start => exact hr
  | step _ hs ih => exact (returns_of_step hs).mp ih

theorem Reaches.fits (h : Reaches params args line s) (hl : line.length + 1 ≤ EXP_SIZE) :
    s.exp.length + 1 ≤ EXP_SIZE := by
  induction h with
  | start => exact hl
  | @step s s' _ hs ih =>
    by_cases hk : s.pi < paired params args
    · cases hp : strstr (paramRef (params.getD s.pi [])) s.exp with
      | none =>
        rw [expStep_none hk hp] at hs
        injection hs with heq
        exact heq ▸ ih
      | some pos =>
        rw [expStep_some hk hp rfl] at hs
        split at hs
        · rename_i hfit
          injection hs with heq
          exact heq ▸ hfit
        · cases hs
    · rw [expStep_done hk] at hs
      cases hs

/-! ### Clean lines -/

theorem exists_first_stage (params args : List (List UInt8)) (k : Nat) (ts : List Tok) :
    ∃ done rest, IsStage ts k done rest ∧
      stageText params args k done rest = render params args k ts := by
  obtain ⟨a, b, rfl, ha, hb⟩ := exists_stage k ts
  refine ⟨a, b, ⟨rfl, hb⟩, ?_⟩
  rw [← stageText_start, ← stageText_skip ha, List.nil_append]

theorem exists_next_stage (params args : List (List UInt8)) {k : Nat} {ts done rest : List Tok}
    (h : IsStage ts k done (.ref k :: rest)) :
    ∃ done' rest', IsStage ts k done' rest' ∧ rest'.length ≤ rest.length ∧
      stageText params args k done' rest' = stageText params args k (done ++ [.ref k]) rest := by
  obtain ⟨a, b, rfl, ha, hb⟩ := exists_stage k rest
  refine ⟨done ++ [.ref k] ++ a, b, ⟨?_, hb⟩, by simp, stageText_skip ha _ _⟩
  rw [h.1]
  simp

variable (hc : Clean params args line)

include hc

theorem Clean.step_ref {k : Nat} (hk : k < paired params args) {done rest : List Tok}
    (h : IsStage (tokens params line) k done (.ref k :: rest)) :
    expStep params args ⟨k, stageText params args k done (.ref k :: rest)⟩ =
      .running ⟨k, stageText params args k (done ++ [.ref k]) rest⟩ := by
  obtain ⟨done', rest', hnext, _, htext⟩ := exists_next_stage params args h
  rw [expStep_ref hk done rest (hc.located k hk done _ h), ← htext,
    if_pos (hc.fits k hk done' rest' hnext)]

theorem Clean.step_nil {k : Nat} (hk : k < paired params args) {done : List Tok}
    (h : IsStage (tokens params line) k done []) :
    expStep params args ⟨k, stageText params args k done []⟩ =
      .running ⟨k + 1, render params args (k + 1) (tokens params line)⟩ := by
  have hdone : tokens params line = done := by
    rw [h.1, List.append_nil]
  rw [expStep_none hk (hc.located k hk done [] h), stageText_nil, hdone]

theorem Clean.round {k : Nat} (hk : k < paired params args)
    (hr : ∃ n, expRun params args n
      ⟨k + 1, render params args (k + 1) (tokens params line)⟩ = some r)
    {done rest : List Tok} (h : IsStage (tokens params line) k done rest) :
    ∃ n, expRun params args n ⟨k, stageText params args k done rest⟩ = some r := by
  induction hn : rest.length using Nat.strong_induction_on generalizing done rest with
  | _ n ih =>
    cases rest with
    | nil => exact (returns_of_step (hc.step_nil hk h)).mpr hr
    | cons t rest =>
      obtain rfl : t = .ref k := h.2 t rfl
      obtain ⟨done', rest', hnext, hlen, htext⟩ :=
        exists_next_stage params args h
      rw [returns_of_step (hc.step_ref hk h), ← htext]
      refine ih rest'.length ?_ hnext rfl
      rw [← hn, List.length_cons]
      omega

theorem Clean.returns_from (d : Nat) {k : Nat} (hd : k + d = paired params args) :
    ∃ n, expRun params args n ⟨k, render params args k (tokens params line)⟩ =
      some (substituted params args line) := by
  induction d generalizing k with
  | zero =>
    obtain rfl : k = paired params args := hd
    refine ⟨1, ?_⟩
    rw [expRun, expStep_done (Nat.lt_irrefl _)]
    rfl
  | succ d ih =>
    obtain ⟨done, rest, hstage, htext⟩ :=
      exists_first_stage params args k (tokens params line)
    rw [← htext]
    exact hc.round (by omega) (ih (by omega)) hstage

theorem Clean.invariant (h : Reaches params args line s) (hk : s.pi < paired params args) :
    ∃ done rest, IsStage (tokens params line) s.pi done rest ∧
      s.exp = stageText params args s.pi done rest := by
  induction h with
  | start =>
    obtain ⟨done, rest, hstage, htext⟩ :=
      exists_first_stage params args 0 (tokens params line)
    refine ⟨done, rest, hstage, ?_⟩
    rw [htext, render_tokens]
  | @step s s' _ hs ih =>
    have hlt : s.pi < paired params args := by
      by_contra hge
      rw [expStep_done hge] at hs
      cases hs
    obtain ⟨done, rest, hstage, htext⟩ := ih hlt
    have hse : s = ⟨s.pi, stageText params args s.pi done rest⟩ := by rw [← htext]
    rw [hse] at hs
    cases rest with
    | nil =>
      rw [hc.step_nil hlt hstage] at hs
      injection hs with heq
      subst heq
      obtain ⟨done', rest', hstage', htext'⟩ :=
        exists_first_stage params args (s.pi + 1) (tokens params line)
      exact ⟨done', rest', hstage', htext'.symm⟩
    | cons t rest =>
      obtain rfl : t = .ref s.pi := hstage.2 t rfl
      rw [hc.step_ref hlt hstage] at hs
      injection hs with heq
      subst heq
      obtain ⟨done', rest', hnext, _, htext'⟩ :=
        exists_next_stage params args hstage
      exact ⟨done', rest', hnext, htext'.symm⟩

theorem Clean.substitutes : Substitutes params args line where
  returns := by
    have h := hc.returns_from (paired params args) (Nat.zero_add _)
    rwa [render_tokens] at h
  only := by
    intro s pos h hk hpos
    obtain ⟨done, rest, hstage, htext⟩ := hc.invariant h hk
    rw [htext, hc.located s.pi hk done rest hstage] at hpos
    cases rest with
    | nil => cases hpos
    | cons t rest =>
      obtain rfl : t = .ref s.pi := hstage.2 t rfl
      exact ⟨done, rest, hstage.1, htext, (Option.some.inj hpos).symm⟩

end

/-! ### Lines that are not clean -/

section

variable {params args : List (List UInt8)} {line r : List UInt8} {s s' : ExpState} {k : Nat}

theorem length_render_succ (params args : List (List UInt8)) (k : Nat) (ts : List Tok) :
    (render params args (k + 1) ts).length + ts.count (.ref k) * (paramRef (params.getD k [])).length =
      (render params args k ts).length + ts.count (.ref k) * (args.getD k []).length := by
  induction ts with
  | nil => simp [render]
  | cons t ts ih =>
    rw [render_cons, render_cons, List.length_append, List.length_append]
    by_cases ht : t = .ref k
    · subst ht
      rw [Tok.text_ref, Tok.text_ref_succ, List.count_cons_self, Nat.succ_mul, Nat.succ_mul]
      omega
    · rw [Tok.text_succ ht, List.count_cons_of_ne ht]
      omega

theorem stage_unique {ts done rest done' rest' : List Tok} (h : IsStage ts k done rest)
    (h' : IsStage ts k done' rest') (hlt : done.length < done'.length)
    (heq : stageText params args k done rest = stageText params args k done' rest') :
    args.getD k [] = paramRef (params.getD k []) := by
  obtain ⟨mid, rfl⟩ : done <+: done' :=
    List.prefix_of_prefix_length_le ⟨rest, h.1.symm⟩ ⟨rest', h'.1.symm⟩ (Nat.le_of_lt hlt)
  have hrest : rest = mid ++ rest' := by
    have hts := h.1.symm.trans h'.1
    rw [List.append_assoc] at hts
    exact List.append_cancel_left hts
  cases mid with
  | nil => simp at hlt
  | cons t mid =>
    obtain rfl : t = .ref k := h.2 t (by rw [hrest]; rfl)
    have hmid : render params args (k + 1) (.ref k :: mid) = render params args k (.ref k :: mid) := by
      unfold stageText at heq
      rw [hrest, render_append, render_append, List.append_assoc] at heq
      exact (List.append_cancel_right (List.append_cancel_left heq)).symm
    have hlen := length_render_succ params args k (.ref k :: mid)
    rw [hmid, List.count_cons_self] at hlen
    have hsame : (args.getD k []).length = (paramRef (params.getD k [])).length :=
      (Nat.eq_of_mul_eq_mul_left (Nat.succ_pos _) (Nat.add_left_cancel hlen)).symm
    rw [render_cons, render_cons, Tok.text_ref, Tok.text_ref_succ] at hmid
    exact (List.append_inj hmid hsame).1

theorem not_returns_self (hk : s.pi < paired params args) {pos : Nat}
    (hpos : strstr (paramRef (params.getD s.pi [])) s.exp = some pos)
    (hself : args.getD s.pi [] = paramRef (params.getD s.pi [])) :
    ¬ ∃ n, expRun params args n s = some r := by
  have hstep := expStep_some hk hpos rfl
  rw [hself, strstr_splice hpos] at hstep
  split at hstep
  · exact not_returns_loop hstep
  · exact not_returns_overflow hstep

variable (hs : Substitutes params args line)

include hs

theorem Substitutes.located (hk : k < paired params args) {done rest : List Tok}
    (h : IsStage (tokens params line) k done rest)
    (hreach : Reaches params args line ⟨k, stageText params args k done rest⟩) :
    strstr (paramRef (params.getD k [])) (stageText params args k done rest) =
      rest.head?.map fun _ => (render params args (k + 1) done).length := by
  have hreturns := hreach.returns hs.returns
  cases hpos : strstr (paramRef (params.getD k [])) (stageText params args k done rest) with
  | none =>
    cases rest with
    | nil => rfl
    | cons t rest =>
      obtain rfl : t = .ref k := h.2 t rfl
      rw [stageText_ref] at hpos
      exact absurd hpos (strstr_isSome _ _ _)
  | some pos =>
    obtain ⟨done', rest', heq, htext, hloc⟩ := hs.only _ pos hreach hk hpos
    dsimp only at heq htext hloc
    have h' : IsStage (tokens params line) k done' (.ref k :: rest') :=
      ⟨heq, fun t ht => (Option.some.inj ht).symm⟩
    have hlen : done.length = done'.length := by
      by_contra hne
      refine not_returns_self hk hpos ?_ hreturns
      rcases Nat.lt_or_gt_of_ne hne with hlt | hlt
      · exact stage_unique h h' hlt htext
      · exact stage_unique h' h hlt htext.symm
    obtain ⟨rfl, rfl⟩ := List.append_inj (h.1.symm.trans heq) hlen
    rw [hloc]
    rfl

theorem Substitutes.reaches_stage (hk : k < paired params args)
    (hround : Reaches params args line ⟨k, render params args k (tokens params line)⟩)
    {done rest : List Tok} (h : IsStage (tokens params line) k done rest) :
    Reaches params args line ⟨k, stageText params args k done rest⟩ := by
  induction hn : done.length using Nat.strong_induction_on generalizing done rest with
  | _ n ih =>
    by_cases hmem : .ref k ∈ done
    · -- the stage before the last reference in `done` has been replaced
      obtain ⟨b, a, hrev, hb⟩ := List.eq_append_cons_of_mem (List.mem_reverse.mpr hmem)
      have hdone : done = a.reverse ++ .ref k :: b.reverse := by
        rw [← List.reverse_reverse done, hrev]
        simp
      have hmid : .ref k ∉ b.reverse := fun hin => hb (List.mem_reverse.mp hin)
      have hbefore : IsStage (tokens params line) k a.reverse (.ref k :: (b.reverse ++ rest)) := by
        refine ⟨?_, fun t ht => (Option.some.inj ht).symm⟩
        rw [h.1, hdone]
        simp
      have hreach := ih a.reverse.length (by rw [← hn, hdone]; simp) hbefore rfl
      have hstep := expStep_ref hk _ _ (hs.located hk hbefore hreach)
      have htext : stageText params args k (a.reverse ++ [.ref k]) (b.reverse ++ rest) =
          stageText params args k done rest := by
        rw [← stageText_skip hmid, hdone]
        simp
      rw [htext] at hstep
      split at hstep
      · exact hreach.step hstep
      · exact absurd (hreach.returns hs.returns) (not_returns_overflow hstep)
    · have htext : stageText params args k done rest = render params args k (tokens params line) := by
        rw [h.1, ← stageText_start, ← stageText_skip hmem, List.nil_append]
      rw [htext]
      exact hround

theorem Substitutes.reaches_round (hk : k ≤ paired params args) :
    Reaches params args line ⟨k, render params args k (tokens params line)⟩ := by
  induction k with
  | zero =>
    rw [render_tokens]
    exact Reaches.start
  | succ k ih =>
    have hlast : IsStage (tokens params line) k (tokens params line) [] :=
      ⟨(List.append_nil _).symm, by simp⟩
    have hreach := hs.reaches_stage hk (ih (Nat.le_of_lt hk)) hlast
    have hstep : expStep params args ⟨k, stageText params args k (tokens params line) []⟩ =
        .running ⟨k + 1, stageText params args k (tokens params line) []⟩ :=
      expStep_none hk (hs.located hk hlast hreach)
    rw [stageText_nil] at hreach hstep
    exact hreach.step hstep

theorem Substitutes.clean (hl : line.length + 1 ≤ EXP_SIZE) : Clean params args line where
  fits := fun _ hk _ _ h => (hs.reaches_stage hk (hs.reaches_round (Nat.le_of_lt hk)) h).fits hl
  located := fun _ hk _ _ h =>
    hs.located hk h (hs.reaches_stage hk (hs.reaches_round (Nat.le_of_lt hk)) h)

end

/-! ### Plain macros -/

/-- No backslash but at the references, no parameter that begins another, and a line that fits
    whichever of its references have been replaced. -/
structure Plain (params args : List (List UInt8)) (line : List UInt8) : Prop where
  names_free : ∀ p ∈ params, (0x5C : UInt8) ∉ p
  apart : ∀ i < params.length, ∀ j < params.length,
    params.getD i [] <+: params.getD j [] → i = j
  args_free : ∀ a ∈ args, (0x5C : UInt8) ∉ a
  refs : .lit 0x5C ∉ tokens params line
  short : ((tokens params line).map fun t => max (t.text params args 0).length
    (t.text params args (paired params args)).length).sum + 1 ≤ EXP_SIZE

theorem ref_lt_of_mem {params : List (List UInt8)} {n i : Nat} {s : List UInt8}
    (h : .ref i ∈ tokensFrom params n s) : i < params.length := by
  induction s generalizing n with
  | nil => cases n <;> cases h
  | cons c s ih =>
    cases n with
    | succ n => exact ih h
    | zero =>
      rw [tokensFrom] at h
      split at h
      · rename_i j hj
        rcases List.mem_cons.mp h with heq | h
        · obtain rfl : i = j := by injection heq
          split at hj
          · exact (longest_spec hj).1
          · cases hj
        · exact ih h
      · rcases List.mem_cons.mp h with heq | h
        · cases heq
        · exact ih h

theorem not_prefix_of_free {x : List UInt8} (hx : (0x5C : UInt8) ∉ x) (param y : List UInt8)
    {i : Nat} (hi : i < x.length) : ¬ paramRef param <+: (x ++ y).drop i := by
  rintro ⟨z, hz⟩
  rw [List.drop_append_of_le_length (Nat.le_of_lt hi), List.drop_eq_getElem_cons hi] at hz
  injection hz with hhead _
  exact hx (hhead ▸ List.getElem_mem hi)

theorem free_getD {xs : List (List UInt8)} (h : ∀ x ∈ xs, (0x5C : UInt8) ∉ x) (i : Nat) :
    (0x5C : UInt8) ∉ xs.getD i [] := by
  by_cases hi : i < xs.length
  · rw [List.getD_eq_getElem _ _ hi]
    exact h _ (List.getElem_mem hi)
  · rw [List.getD_eq_default _ _ (Nat.not_lt.mp hi)]
    simp

section

variable {params args : List (List UInt8)} {line : List UInt8}

theorem Tok.length_text_le (k : Nat) (t : Tok) (hk : k ≤ paired params args) :
    (t.text params args k).length ≤ max (t.text params args 0).length
      (t.text params args (paired params args)).length := by
  cases t with
  | lit c => exact Nat.le_max_left _ _
  | ref i =>
    by_cases hi : i < k
    · refine Nat.le_trans (Nat.le_of_eq ?_) (Nat.le_max_right _ _)
      unfold Tok.text
      dsimp only
      rw [if_pos hi, if_pos (Nat.lt_of_lt_of_le hi hk)]
    · refine Nat.le_trans (Nat.le_of_eq ?_) (Nat.le_max_left _ _)
      unfold Tok.text
      dsimp only
      rw [if_neg hi, if_neg (Nat.not_lt_zero i)]

theorem length_render_le (params args : List (List UInt8)) {k : Nat} (hk : k ≤ paired params args) (ts : List Tok) :
    (render params args k ts).length ≤ (ts.map fun t => max (t.text params args 0).length
      (t.text params args (paired params args)).length).sum := by
  induction ts with
  | nil => exact Nat.le_refl 0
  | cons t ts ih =>
    rw [render_cons, List.length_append, List.map_cons, List.sum_cons]
    exact Nat.add_le_add (Tok.length_text_le k t hk) ih

variable (hp : Plain params args line)

include hp

theorem Plain.not_prefix_text {k : Nat} (hk : k < params.length) {t : Tok}
    (ht : t ∈ tokens params line) (y : List UInt8) {i : Nat}
    (hi : i < (t.text params args (k + 1)).length) :
    ¬ paramRef (params.getD k []) <+: (t.text params args (k + 1) ++ y).drop i := by
  cases t with
  | lit c =>
    refine not_prefix_of_free (fun hc => ?_) _ y hi
    obtain rfl : 0x5C = c := List.mem_singleton.mp hc
    exact hp.refs ht
  | ref j =>
    have htext : (Tok.ref j).text params args (k + 1) =
        if j < k + 1 then args.getD j [] else paramRef (params.getD j []) := rfl
    rw [htext] at hi ⊢
    by_cases hj : j < k + 1
    · rw [if_pos hj] at hi ⊢
      exact not_prefix_of_free (free_getD hp.args_free j) _ y hi
    · rw [if_neg hj] at hi ⊢
      cases i with
      | zero =>
        intro hpre
        have hname : params.getD k [] <+: params.getD j [] ++ y := (List.cons_prefix_cons.mp hpre).2
        have hjlen := ref_lt_of_mem ht
        rcases List.prefix_or_prefix_of_prefix hname (List.prefix_append _ y) with h | h
        · have := hp.apart k hk j hjlen h
          omega
        · have := hp.apart j hjlen k hk h
          omega
      | succ i =>
        exact not_prefix_of_free (free_getD hp.names_free j) _ y (Nat.lt_of_succ_lt_succ hi)

theorem Plain.not_prefix_render {k : Nat} (hk : k < params.length) {ts : List Tok}
    (hts : ∀ t ∈ ts, t ∈ tokens params line) (y : List UInt8) {i : Nat}
    (hi : i < (render params args (k + 1) ts).length) :
    ¬ paramRef (params.getD k []) <+: (render params args (k + 1) ts ++ y).drop i := by
  induction ts generalizing i with
  | nil => exact absurd hi (Nat.not_lt_zero i)
  | cons t ts ih =>
    rw [List.forall_mem_cons] at hts
    rw [render_cons, List.length_append] at hi
    rw [render_cons, List.append_assoc]
    by_cases hit : i < (t.text params args (k + 1)).length
    · exact hp.not_prefix_text hk hts.1 _ hit
    · rw [List.drop_append, List.drop_of_length_le (Nat.not_lt.mp hit), List.nil_append]
      exact ih hts.2 (by omega)

theorem Plain.clean : Clean params args line where
  fits := by
    intro k hk done rest h
    have hdone : (render params args (k + 1) done).length ≤ _ := length_render_le params args hk done
    have hrest := length_render_le params args (Nat.le_of_lt hk) rest
    have hshort := hp.short
    rw [h.1, List.map_append, List.sum_append] at hshort
    rw [stageText, List.length_append]
    omega
  located := by
    intro k hk done rest h
    have hdone : ∀ t ∈ done, t ∈ tokens params line := by
      intro t ht
      rw [h.1]
      exact List.mem_append_left _ ht
    have hfree : ∀ y, ∀ i < (render params args (k + 1) done).length,
        ¬ paramRef (params.getD k []) <+: (render params args (k + 1) done ++ y).drop i :=
      fun y _ => hp.not_prefix_render (lt_paired.mp hk).1 hdone y
    cases rest with
    | nil =>
      rw [stageText_nil]
      refine strstr_none (by simp [paramRef]) fun i hi => ?_
      have hend := hfree [] i hi
      rwa [List.append_nil] at hend
    | cons t rest =>
      obtain rfl : t = .ref k := h.2 t rfl
      rw [stageText_ref]
      refine strstr_first fun i hi => ?_
      rw [List.append_assoc]
      exact hfree _ i hi

end

/-- The lines of a macro are expanded right exactly when they are clean. -/
theorem expand_exact (m : MacroDef) (c : MacroArgs) {line : List UInt8} (h : line ∈ m.lines) :
    Substitutes m.params c.args line ↔ Clean m.params c.args line := by
  refine ⟨fun hs => hs.clean ?_, Clean.substitutes⟩
  have hle := m.line_le line h
  unfold EXP_SIZE
  omega

/-- `.macro m p` with the line `push $\p`, called with `14`. -/
def pushMacro : MacroDef where
  name := [0x6D]
  params := [[0x70]]
  lines := [[0x70, 0x75, 0x73, 0x68, 0x20, 0x24, 0x5C, 0x70]]
  params_le := by decide
  param_le := by decide
  lines_le := by decide
  line_le := by decide

def fourteen : MacroArgs := ⟨[[0x31, 0x34]], by decide, by decide⟩

theorem expand_exact_push :
    Substitutes pushMacro.params fourteen.args [0x70, 0x75, 0x73, 0x68, 0x20, 0x24, 0x5C, 0x70] := by
  refine (expand_exact pushMacro fourteen (by decide)).mpr (Plain.clean ?_)
  constructor <;> decide +kernel

/-- With the parameter's own reference for the argument the expansion does not end. -/
theorem expand_self_reference : ¬ Substitutes [[0x70]] [[0x5C, 0x70]] [0x5C, 0x70] := by
  intro hs
  exact not_returns_loop (by decide) hs.returns

end Gemios.As
