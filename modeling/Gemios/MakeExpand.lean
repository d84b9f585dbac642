import Gemios.MakeVars
import Gemios.Ranking
import Mathlib.Data.List.Sublists

/-!
# When an expansion ends

`expand_vars_ctx` is called again for the values of variables and for arguments of functions.
Which texts these are does not depend on what the calls return, so that an expansion ends
exactly when no text is expanded within its own expansion.
-/

namespace Gemios.Make

section

variable (S : Scope)

/-- The texts that `expand_vars_ctx` is called again for. -/
def Piece.calls : Piece → List (List UInt8)
  | .text _ => []
  | .var name => (getVarRaw S.vars S.environ name).toList
  | .shell cmd => [cmd]
  | .patsubst pat rep txt => [pat, rep, txt]
  | .dir arg => [arg]
  | .notdir arg => [arg]
  | .pastEnd => (getVarRaw S.vars S.environ []).toList

/-- The expansion of `s` expands `t` directly. -/
def Calls (s t : List UInt8) : Prop := ∃ piece ∈ pieces S.ctx s, t ∈ piece.calls S

/-- The expansion of `s` expands `t`, or is it. -/
def Expands : List UInt8 → List UInt8 → Prop := Relation.ReflTransGen (Calls S)

/-- The expansion of `s` expands `t` inside. -/
def ExpandsInside : List UInt8 → List UInt8 → Prop := Relation.TransGen (Calls S)

/-- The text ends in a `$` that begins a reference. -/
def EndsInDollar (s : List UInt8) : Prop := .pastEnd ∈ pieces S.ctx s

instance (s : List UInt8) : Decidable (EndsInDollar S s) :=
  inferInstanceAs (Decidable (.pastEnd ∈ pieces S.ctx s))

end

/-! ### One text -/

section

variable {S : Scope} {expand : List UInt8 → Except Fault (List UInt8)}

theorem evalVar_ok (name : Name) :
    (∃ r, evalVar S expand name = .ok r) ↔
      ∀ t ∈ (getVarRaw S.vars S.environ name).toList, ∃ r, expand t = .ok r := by
  unfold evalVar
  cases getVarRaw S.vars S.environ name with
  | none => simp
  | some val => simp

theorem bind_ok {α β : Type} {x : Except Fault α} {f : α → Except Fault β} :
    (∃ r, x >>= f = .ok r) ↔ ∃ a, x = .ok a ∧ ∃ r, f a = .ok r := by
  cases x with
  | error e =>
    constructor
    · rintro ⟨r, h⟩
      cases h
    · rintro ⟨a, h, _⟩
      cases h
  | ok a =>
    constructor
    · exact fun h => ⟨a, rfl, h⟩
    · rintro ⟨a', h, hr⟩
      injection h with h
      exact h ▸ hr

theorem return_ok {α β : Type} {x : Except Fault α} (f : α → β) :
    (∃ r, x >>= (fun a => (pure (f a) : Except Fault β)) = .ok r) ↔ ∃ r, x = .ok r := by
  rw [bind_ok]
  exact exists_congr fun a => and_iff_left ⟨f a, rfl⟩

theorem evalPiece_ok (piece : Piece) :
    (∃ r, evalPiece S expand piece = .ok r) ↔
      piece ≠ .pastEnd ∧ ∀ t ∈ piece.calls S, ∃ r, expand t = .ok r := by
  cases piece with
  | text s => exact ⟨fun _ => ⟨by simp, by simp [Piece.calls]⟩, fun _ => ⟨s, rfl⟩⟩
  | var name => exact (evalVar_ok name).trans (and_iff_right (by simp)).symm
  | shell cmd =>
    rw [evalPiece, return_ok]
    simp [Piece.calls]
  | patsubst pat rep txt =>
    rw [evalPiece, bind_ok]
    simp only [Piece.calls, List.mem_cons, List.not_mem_nil, or_false, forall_eq_or_imp, forall_eq]
    constructor
    · rintro ⟨exp1, h1, h⟩
      obtain ⟨exp2, h2, h⟩ := bind_ok.mp h
      obtain ⟨exp3, h3, _⟩ := bind_ok.mp h
      exact ⟨by simp, ⟨exp1, h1⟩, ⟨exp2, h2⟩, ⟨exp3, h3⟩⟩
    · rintro ⟨_, ⟨exp1, h1⟩, ⟨exp2, h2⟩, h3⟩
      exact ⟨exp1, h1, bind_ok.mpr ⟨exp2, h2, (return_ok _).mpr h3⟩⟩
  | dir arg =>
    rw [evalPiece, return_ok]
    simp [Piece.calls]
  | notdir arg =>
    rw [evalPiece, return_ok]
    simp [Piece.calls]
  | pastEnd =>
    rw [evalPiece, bind_ok]
    constructor
    · rintro ⟨_, _, r, h⟩
      cases h
    · exact fun h => absurd rfl h.1

theorem evalPieces_ok (ps : List Piece) :
    (∃ r, evalPieces S expand ps = .ok r) ↔
      .pastEnd ∉ ps ∧ ∀ piece ∈ ps, ∀ t ∈ piece.calls S, ∃ r, expand t = .ok r := by
  induction ps with
  | nil => exact ⟨fun _ => ⟨by simp, by simp⟩, fun _ => ⟨[], rfl⟩⟩
  | cons piece ps ih =>
    rw [evalPieces, bind_ok, List.mem_cons, not_or, List.forall_mem_cons]
    constructor
    · rintro ⟨x, hx, h⟩
      obtain ⟨hne, hcalls⟩ := (evalPiece_ok piece).mp ⟨x, hx⟩
      obtain ⟨hps, hrest⟩ := ih.mp ((return_ok _).mp h)
      exact ⟨⟨Ne.symm hne, hps⟩, hcalls, hrest⟩
    · rintro ⟨⟨hne, hps⟩, hcalls, hrest⟩
      obtain ⟨x, hx⟩ := (evalPiece_ok piece).mpr ⟨Ne.symm hne, hcalls⟩
      exact ⟨x, hx, (return_ok _).mpr (ih.mpr ⟨hps, hrest⟩)⟩

end

/-! ### Nested texts -/

section

variable {S : Scope} {fuel : Nat} {s t : List UInt8}

/-- The expansion of a text ends with calls nested at most `fuel` deep. -/
def EndsWithin (S : Scope) (fuel : Nat) (s : List UInt8) : Prop :=
  ∃ r, expandVarsCtx S fuel s = .ok r

theorem endsWithin_succ :
    EndsWithin S (fuel + 1) s ↔ ¬ EndsInDollar S s ∧ ∀ t, Calls S s t → EndsWithin S fuel t := by
  refine (evalPieces_ok (pieces S.ctx s)).trans (and_congr_right fun _ => ?_)
  constructor
  · rintro h t ⟨piece, hp, ht⟩
    exact h piece hp t ht
  · exact fun h piece hp t ht => h t ⟨piece, hp, ht⟩

theorem EndsWithin.mono {fuel' : Nat} (h : EndsWithin S fuel s) (hle : fuel ≤ fuel') :
    EndsWithin S fuel' s := by
  induction fuel generalizing fuel' s with
  | zero =>
    obtain ⟨r, hr⟩ := h
    cases hr
  | succ fuel ih =>
    cases fuel' with
    | zero => omega
    | succ fuel' =>
      rw [endsWithin_succ] at h ⊢
      exact ⟨h.1, fun t ht => ih (h.2 t ht) (by omega)⟩

theorem EndsWithin.inside (h : EndsWithin S fuel s) (ht : ExpandsInside S s t) :
    ∃ fuel' < fuel, EndsWithin S fuel' t := by
  have hone : ∀ {fuel : Nat} {a b : List UInt8}, EndsWithin S fuel a → Calls S a b →
      ∃ fuel' < fuel, EndsWithin S fuel' b := by
    intro fuel a b ha hab
    cases fuel with
    | zero =>
      obtain ⟨r, hr⟩ := ha
      cases hr
    | succ fuel => exact ⟨fuel, Nat.lt_succ_self fuel, (endsWithin_succ.mp ha).2 b hab⟩
  induction ht with
  | single hst => exact hone h hst
  | tail _ hbc ih =>
    obtain ⟨fuel₁, hlt₁, h₁⟩ := ih
    obtain ⟨fuel₂, hlt₂, h₂⟩ := hone h₁ hbc
    exact ⟨fuel₂, Nat.lt_trans hlt₂ hlt₁, h₂⟩

theorem EndsWithin.acyclic (h : EndsWithin S fuel s) : ¬ ExpandsInside S s s := by
  induction fuel using Nat.strong_induction_on with
  | _ fuel ih =>
    intro hcycle
    obtain ⟨fuel', hlt, h'⟩ := h.inside hcycle
    exact ih fuel' hlt h' hcycle

theorem EndsWithin.expands (h : EndsWithin S fuel s) (ht : Expands S s t) :
    ∃ fuel', EndsWithin S fuel' t := by
  rcases Relation.reflTransGen_iff_eq_or_transGen.mp ht with rfl | ht
  · exact ⟨fuel, h⟩
  · obtain ⟨fuel', _, h'⟩ := h.inside ht
    exact ⟨fuel', h'⟩

theorem EndsWithin.not_dollar (h : EndsWithin S fuel s) : ¬ EndsInDollar S s := by
  cases fuel with
  | zero =>
    obtain ⟨r, hr⟩ := h
    cases hr
  | succ fuel => exact (endsWithin_succ.mp h).1

end

/-! ### The texts of an expansion -/

def Piece.args : Piece → List (List UInt8)
  | .shell cmd => [cmd]
  | .patsubst pat rep txt => [pat, rep, txt]
  | .dir arg => [arg]
  | .notdir arg => [arg]
  | _ => []

/-- The arguments of a piece are parts of a text. -/
def ArgsIn (s : List UInt8) (piece : Piece) : Prop := ∀ a ∈ piece.args, a.Sublist s

theorem ArgsIn.ite {s : List UInt8} {c : Prop} [Decidable c] {x y : Piece} (hx : ArgsIn s x)
    (hy : ArgsIn s y) : ArgsIn s (if c then x else y) :=
  iteInduction (fun _ => hx) fun _ => hy

theorem ArgsIn.of_nil {s : List UInt8} {piece : Piece} (h : piece.args = []) : ArgsIn s piece := by
  intro a ha
  rw [h] at ha
  cases ha

theorem ArgsIn.mono {s s' : List UInt8} {piece : Piece} (h : ArgsIn s piece) (hs : s.Sublist s') :
    ArgsIn s' piece :=
  fun a ha => (h a ha).trans hs

theorem takeName_eq {close : UInt8} {depth : Nat} {p vname q : List UInt8}
    (h : takeName close depth p = some (vname, q)) : ∃ c, p = vname ++ c :: q := by
  induction p generalizing depth vname with
  | nil => cases h
  | cons c p ih =>
    have hmore : ∀ d, ((takeName close d p).map fun r => (c :: r.1, r.2)) = some (vname, q) →
        ∃ c', c :: p = vname ++ c' :: q := by
      intro d hd
      obtain ⟨r, hr, heq⟩ := Option.map_eq_some_iff.mp hd
      obtain ⟨rfl, rfl⟩ := Prod.mk.inj heq
      obtain ⟨c', hp⟩ := ih hr
      exact ⟨c', congrArg (c :: ·) hp⟩
    rw [takeName] at h
    split at h
    · exact hmore _ h
    · split at h
      · split at h
        · obtain ⟨rfl, rfl⟩ := Prod.mk.inj (Option.some.inj h)
          exact ⟨c, rfl⟩
        · exact hmore _ h
      · exact hmore _ h

theorem patsubstPiece_args (args : List UInt8) : ArgsIn args (patsubstPiece args) := by
  unfold patsubstPiece
  split
  · exact ArgsIn.of_nil rfl
  · rename_i c behind heq
    have hbehind : behind.Sublist args :=
      (List.sublist_cons_self c behind).trans (heq ▸ List.dropWhile_sublist _)
    split
    · exact ArgsIn.of_nil rfl
    · rename_i d txt heq'
      have htxt : txt.Sublist behind :=
        (List.sublist_cons_self d txt).trans (heq' ▸ List.dropWhile_sublist _)
      intro a ha
      simp only [Piece.args, List.mem_cons, List.not_mem_nil, or_false] at ha
      rcases ha with rfl | rfl | rfl
      · exact List.takeWhile_sublist _
      · exact (List.takeWhile_sublist _).trans hbehind
      · exact htxt.trans hbehind

theorem refPiece_args (ctx : AutoVars) (vname : Name) : ArgsIn vname (refPiece ctx vname) := by
  have hdrop : ∀ n piece, Piece.args piece = [vname.drop n] → ArgsIn vname piece := by
    intro n piece heq a ha
    rw [heq, List.mem_singleton] at ha
    exact ha ▸ List.drop_sublist n vname
  unfold refPiece
  iterate 7 refine ArgsIn.ite (ArgsIn.of_nil rfl) ?_
  refine ArgsIn.ite (hdrop 6 _ rfl) ?_
  refine ArgsIn.ite ((patsubstPiece_args _).mono (List.drop_sublist _ _)) ?_
  exact ArgsIn.ite (hdrop 4 _ rfl) (ArgsIn.ite (hdrop 7 _ rfl) (ArgsIn.of_nil rfl))

theorem dollarPiece_args (ctx : AutoVars) (p : List UInt8) :
    ArgsIn p (dollarPiece ctx p).1 ∧ (dollarPiece ctx p).2.Sublist p := by
  cases p with
  | nil => exact ⟨ArgsIn.of_nil rfl, List.Sublist.refl _⟩
  | cons c p =>
    have hplain : ∀ piece : Piece, piece.args = [] →
        ArgsIn (c :: p) (piece, p).1 ∧ (piece, p).2.Sublist (c :: p) :=
      fun piece hargs => ⟨ArgsIn.of_nil hargs, List.sublist_cons_self c p⟩
    rw [dollarPiece]
    repeat' split
    all_goals try exact hplain _ rfl
    · rename_i vname q htake
      obtain ⟨c', hp⟩ := takeName_eq htake
      have hname : vname.Sublist p := by
        rw [hp]
        exact List.sublist_append_left _ _
      have hrest : q.Sublist p := by
        rw [hp]
        exact (List.sublist_cons_self c' q).trans (List.sublist_append_right _ _)
      exact ⟨(refPiece_args ctx vname).mono (hname.cons c), hrest.cons c⟩
    · exact ⟨ArgsIn.of_nil rfl, List.nil_sublist _⟩

theorem piecesFrom_args {ctx : AutoVars} {n : Nat} {p : List UInt8} {piece : Piece}
    (hp : piece ∈ piecesFrom ctx n p) : ArgsIn p piece := by
  induction n generalizing p with
  | zero => cases p <;> cases hp
  | succ n ih =>
    cases p with
    | nil => cases hp
    | cons c p =>
      rw [piecesFrom] at hp
      split at hp
      · obtain ⟨hargs, hrest⟩ := dollarPiece_args ctx p
        rcases List.mem_cons.mp hp with rfl | hp
        · exact hargs.mono (List.sublist_cons_self c p)
        · exact (ih hp).mono (hrest.cons c)
      · rcases List.mem_cons.mp hp with rfl | hp
        · exact ArgsIn.of_nil rfl
        · exact (ih hp).mono (List.sublist_cons_self c p)

section

variable {S : Scope} {s t : List UInt8}

def Scope.values (S : Scope) : List (List UInt8) := S.vars.map Var.val ++ S.environ.map Prod.snd

theorem getVarRaw_mem {name : Name} (h : t ∈ (getVarRaw S.vars S.environ name).toList) :
    t ∈ S.values := by
  unfold getVarRaw at h
  rw [Scope.values, List.mem_append]
  split at h
  · rename_i v hv
    obtain rfl : t = v.val := by simpa using h
    have hmem := List.mem_of_find?_eq_some hv
    rw [List.mem_reverse] at hmem
    exact Or.inl (List.mem_map_of_mem hmem)
  · rw [Option.mem_toList, Option.map_eq_some_iff] at h
    obtain ⟨e, he, rfl⟩ := h
    exact Or.inr (List.mem_map_of_mem (List.mem_of_find?_eq_some he))

theorem calls_cases {piece : Piece} (h : t ∈ piece.calls S) : t ∈ piece.args ∨ t ∈ S.values := by
  cases piece with
  | text s => cases h
  | var name => exact Or.inr (getVarRaw_mem h)
  | shell cmd => exact Or.inl h
  | patsubst pat rep txt => exact Or.inl h
  | dir arg => exact Or.inl h
  | notdir arg => exact Or.inl h
  | pastEnd => exact Or.inr (getVarRaw_mem h)

/-- All texts that the expansion of `s` can expand. -/
def texts (S : Scope) (s : List UInt8) : Finset (List UInt8) :=
  ((s :: S.values).flatMap List.sublists).toFinset

theorem mem_texts : t ∈ texts S s ↔ ∃ u ∈ s :: S.values, t.Sublist u := by
  rw [texts, List.mem_toFinset, List.mem_flatMap]
  exact exists_congr fun u => and_congr_right fun _ => List.mem_sublists

theorem Calls.mem_texts {a b : List UInt8} (h : Calls S a b) (ha : a ∈ texts S s) :
    b ∈ texts S s := by
  rw [Make.mem_texts] at ha ⊢
  obtain ⟨piece, hp, hb⟩ := h
  rcases calls_cases hb with hb | hb
  · obtain ⟨u, hu, hau⟩ := ha
    exact ⟨u, hu, (piecesFrom_args hp b hb).trans hau⟩
  · exact ⟨b, List.mem_cons_of_mem _ hb, List.Sublist.refl b⟩

theorem endsWithin_of_acyclic {root : List UInt8} (hroot : s ∈ texts S root)
    (h : ∀ t, Expands S s t → ¬ ExpandsInside S t t ∧ ¬ EndsInDollar S t) :
    EndsWithin S ((descendants (Calls S) (texts S root) s).card + 1) s := by
  induction hn : (descendants (Calls S) (texts S root) s).card using Nat.strong_induction_on
    generalizing s with
  | _ n ih =>
    refine endsWithin_succ.mpr ⟨(h s Relation.ReflTransGen.refl).2, fun t ht => ?_⟩
    have htroot := ht.mem_texts hroot
    have hfewer := card_descendants_lt_of_rel htroot (h t (Relation.ReflTransGen.single ht)).1 ht
    rw [hn] at hfewer
    refine (ih _ hfewer htroot (fun u hu => ?_) rfl).mono hfewer
    exact h u (Relation.ReflTransGen.head ht hu)

theorem endsWithin_card (h : ∀ t, Expands S s t → ¬ ExpandsInside S t t ∧ ¬ EndsInDollar S t) :
    EndsWithin S (texts S s).card s := by
  have hself : s ∈ texts S s := mem_texts.mpr ⟨s, List.mem_cons_self, List.Sublist.refl s⟩
  exact (endsWithin_of_acyclic hself h).mono
    (card_descendants_lt hself (h s Relation.ReflTransGen.refl).1)

/-- An expansion ends within its text exactly when no text is expanded inside its own
    expansion, and none ends in a `$` that begins a reference. -/
theorem expand_ends_iff (S : Scope) (s : List UInt8) :
    (∃ fuel r, expandVarsCtx S fuel s = .ok r) ↔
      ∀ t, Expands S s t → ¬ ExpandsInside S t t ∧ ¬ EndsInDollar S t := by
  constructor
  · rintro ⟨fuel, r, hr⟩ t ht
    have hs : EndsWithin S fuel s := ⟨r, hr⟩
    obtain ⟨fuel', h'⟩ := hs.expands ht
    exact ⟨h'.acyclic, h'.not_dollar⟩
  · exact fun h => ⟨_, endsWithin_card h⟩

end

/-- The table after the line `A = $(A)`. -/
def selfScope : Scope := ⟨setVar [] (str "A") (str "$(A)") false, [], fun _ => [], {}⟩

/-- `A = $(A)` is expanded for ever, and `a$` is read behind its end. -/
theorem expand_self_and_dollar :
    (¬ ∃ fuel r, expandVarsCtx selfScope fuel (str "$(A)") = .ok r) ∧
      ¬ ∃ fuel r, expandVarsCtx selfScope fuel (str "a$") = .ok r := by
  constructor
  · rintro ⟨fuel, hends⟩
    have hself : Calls selfScope (str "$(A)") (str "$(A)") := ⟨.var (str "A"), by decide, by decide⟩
    exact EndsWithin.acyclic hends (Relation.TransGen.single hself)
  · rintro ⟨fuel, hends⟩
    have hdollar : EndsInDollar selfScope (str "a$") := by decide
    exact EndsWithin.not_dollar hends hdollar

end Gemios.Make
