import Mathlib.Data.List.Induction
import Mathlib.Logic.Function.Basic

/-!
# Trees of names

Directories of any kind, each of which gives some names a meaning: another directory or a file.
Where every directory has one name in one directory, a path is the only one to where it leads,
and a change of one name changes what a single path leads to.
-/

namespace Gemios

inductive Names.Node (D F : Type)
  | sub (dir : D)
  | file (data : F)

inductive Names.Item (F : Type)
  | dir
  | file (data : F)
deriving DecidableEq

def Names.Node.item {D F : Type} : Names.Node D F → Names.Item F
  | .sub _ => .dir
  | .file data => .file data

def Names.Node.dir? {D F : Type} : Names.Node D F → Option D
  | .sub dir => some dir
  | .file _ => none

/-- The directories with what their names stand for. -/
abbrev Names (D N F : Type) := D → N → Option (Names.Node D F)

namespace Names

variable {D N F : Type}

def step (look : Names D N F) (E : D) (x : N) : Option D := (look E x).bind Node.dir?

def walk (look : Names D N F) : D → List N → Option D
  | E, [] => some E
  | E, x :: xs => (look.step E x).bind fun C => walk look C xs

/-- What a name behind a path from the root stands for. -/
def nodeAt (look : Names D N F) (root : D) (p : List N) (x : N) : Option (Node D F) :=
  (look.walk root p).bind fun E => look E x

def itemAt (look : Names D N F) (root : D) (p : List N) : Option (Item F) :=
  match p.getLast? with
  | none => some .dir
  | some x => (look.nodeAt root p.dropLast x).map Node.item

section

variable (look : Names D N F) (root : D)

@[simp] theorem walk_nil : look.walk root [] = some root := rfl

@[simp] theorem walk_concat (p : List N) (x : N) :
    look.walk root (p ++ [x]) = (look.nodeAt root p x).bind Node.dir? := by
  induction p generalizing root with
  | nil => simp [walk, nodeAt, step]
  | cons y p ih =>
    simp only [List.cons_append, walk, nodeAt, Option.bind_assoc] at ih ⊢
    congr
    funext C
    apply ih

@[simp] theorem itemAt_nil : look.itemAt root [] = some .dir := rfl

@[simp] theorem itemAt_concat (p : List N) (x : N) :
    look.itemAt root (p ++ [x]) = (look.nodeAt root p x).map Node.item := by
  simp [itemAt]

theorem itemAt_eq_dir (p : List N) :
    look.itemAt root p = some .dir ↔ ∃ E, look.walk root p = some E := by
  induction p using List.reverseRecOn with
  | nil => simp
  | append_singleton p x _ =>
    simp only [itemAt_concat, walk_concat]
    cases look.nodeAt root p x with
    | none => simp
    | some node => cases node <;> simp [Node.item, Node.dir?]

end

/-- The directories `L` are those of a tree: the root, and each other one under one name of one of
    them. -/
structure IsTree (look : Names D N F) (root : D) (L : D → Prop) : Prop where
  top : L root
  sub : ∀ {E x C}, L E → look E x = some (.sub C) → L C
  noRoot : ∀ {E x}, L E → look E x ≠ some (.sub root)
  oneName : ∀ {E E' x x' C}, L E → L E' → look E x = some (.sub C) → look E' x' = some (.sub C) →
    E = E' ∧ x = x'

section

variable {look : Names D N F} {root : D} {L : D → Prop} (h : look.IsTree root L)

theorem dir?_eq_some {o : Option (Node D F)} {C : D} :
    o.bind Node.dir? = some C ↔ o = some (.sub C) := by
  cases o with
  | none => simp
  | some node => cases node <;> simp [Node.dir?]

theorem walk_concat_eq_some {p : List N} {x : N} {C : D} : look.walk root (p ++ [x]) = some C ↔
    ∃ E, look.walk root p = some E ∧ look E x = some (.sub C) := by
  rw [walk_concat, dir?_eq_some, nodeAt, Option.bind_eq_some_iff]

include h

theorem IsTree.walk_mem {p : List N} {E : D} (hp : look.walk root p = some E) : L E := by
  induction p using List.reverseRecOn generalizing E with
  | nil =>
    cases hp
    exact h.top
  | append_singleton p x ih =>
    obtain ⟨E', hE', hx⟩ := walk_concat_eq_some.mp hp
    exact h.sub (ih hE') hx

/-- **One path.**  Two paths to one directory are the same. -/
theorem IsTree.walk_inj {p q : List N} {E : D} (hp : look.walk root p = some E)
    (hq : look.walk root q = some E) : p = q := by
  induction p using List.reverseRecOn generalizing q E with
  | nil =>
    cases hp
    cases q using List.reverseRecOn with
    | nil => rfl
    | append_singleton q y =>
      obtain ⟨Q, hQ, hy⟩ := walk_concat_eq_some.mp hq
      exact absurd hy (h.noRoot (h.walk_mem hQ))
  | append_singleton p x ih =>
    obtain ⟨P, hP, hx⟩ := walk_concat_eq_some.mp hp
    cases q using List.reverseRecOn with
    | nil =>
      cases hq
      exact absurd hx (h.noRoot (h.walk_mem hP))
    | append_singleton q y =>
      obtain ⟨Q, hQ, hy⟩ := walk_concat_eq_some.mp hq
      obtain ⟨rfl, rfl⟩ := h.oneName (h.walk_mem hP) (h.walk_mem hQ) hx hy
      rw [ih hP hQ]

end

/-! ### One name changed -/

/-- `look'` is `look` with a new meaning for the name `n` of the directory `P`: a file, or a
    directory without names. -/
structure Edited (look look' : Names D N F) (L : D → Prop) (P : D) (n : N) (new : Node D F) :
    Prop where
  here : look' P n = some new
  there : ∀ {E x}, L E → ¬(E = P ∧ x = n) → look' E x = look E x
  wasNoDir : ∀ {C}, look P n ≠ some (.sub C)
  empty : ∀ {C}, new = .sub C → ∀ x, look' C x = none

section

variable {look look' : Names D N F} {root : D} {L : D → Prop} (h : look.IsTree root L) {P : D} {n : N}
  {new : Node D F} (he : look.Edited look' L P n new) {p : List N} (hp : look.walk root p = some P)

include h he hp

theorem IsTree.nodeAt_edited [DecidableEq N] {q : List N}
    (hq : look'.walk root q = if q = p ++ [n] then new.dir? else look.walk root q) (x : N) :
    look'.nodeAt root q x = if q ++ [x] = p ++ [n] then some new else look.nodeAt root q x := by
  have hiff : q ++ [x] = p ++ [n] ↔ q = p ∧ x = n := List.append_singleton_inj
  unfold nodeAt
  rw [hq]
  simp only [hiff]
  by_cases hnew : q = p ++ [n]
  · -- below the new name there is nothing, and there was nothing
    have hnot : ¬(q = p ∧ x = n) := by
      rintro ⟨rfl, -⟩
      simp at hnew
    have hold : look.walk root q = none := by
      rw [Option.eq_none_iff_forall_ne_some, hnew]
      intro C hC
      obtain ⟨P', hP', hn⟩ := walk_concat_eq_some.mp hC
      rw [hp] at hP'
      cases hP'
      exact he.wasNoDir hn
    rw [if_pos hnew, if_neg hnot, hold]
    cases hnode : new with
    | file data => rfl
    | sub C => exact he.empty hnode x
  · rw [if_neg hnew]
    cases hE : look.walk root q with
    | none =>
      have hnot : ¬(q = p ∧ x = n) := by
        rintro ⟨rfl, -⟩
        rw [hp] at hE
        cases hE
      rw [if_neg hnot]
      rfl
    | some E =>
      by_cases hx : E = P ∧ x = n
      · obtain ⟨rfl, rfl⟩ := hx
        have hqp : q = p := h.walk_inj hE hp
        rw [if_pos ⟨hqp, rfl⟩]
        exact he.here
      · have hnot : ¬(q = p ∧ x = n) := by
          rintro ⟨rfl, hxn⟩
          rw [hp] at hE
          cases hE
          exact hx ⟨rfl, hxn⟩
        rw [if_neg hnot]
        exact he.there (h.walk_mem hE) hx

theorem IsTree.walk_edited [DecidableEq N] (q : List N) :
    look'.walk root q = if q = p ++ [n] then new.dir? else look.walk root q := by
  induction q using List.reverseRecOn with
  | nil => simp
  | append_singleton q x ih =>
    rw [walk_concat, h.nodeAt_edited he hp ih, walk_concat]
    split
    · rfl
    · rfl

/-- **One name, one path.**  What every other path leads to is as it was. -/
theorem IsTree.itemAt_edited [DecidableEq N] : look'.itemAt root =
    Function.update (look.itemAt root) (p ++ [n]) (some new.item) := by
  funext q
  rw [Function.update_apply]
  cases q using List.reverseRecOn with
  | nil => simp
  | append_singleton q x =>
    rw [itemAt_concat, h.nodeAt_edited he hp (h.walk_edited he hp q), itemAt_concat]
    split
    · rfl
    · rfl

end

end Names

end Gemios
