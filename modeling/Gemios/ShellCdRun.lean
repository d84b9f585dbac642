import Gemios.FatMount
import Gemios.FatPath
import Gemios.FatNames
import Gemios.FatFile
import Gemios.FatMirrorRun
import Gemios.FatPathSpec

/-!
# Where a sequence of `cd` commands leads

`shell_build_path` and `cmd_cd` of `src/src/shell/shell.c`.  A path is checked as one string, but
what is stored follows four rules of its own: `/`, an absolute path, `..`, and everything else.

Every rule for the stored text but one follows the directory tree.  The rule for `..` cuts the text
at its last `/`, which is the parent only if the text ends in one name.
-/

namespace Gemios.Shell

/-- `g_shell_dev` and `g_shell_cwd`. -/
structure Place where
  dev : List UInt8
  cwd : List UInt8
deriving DecidableEq

/-- The block devices by name, with the content of each, and what may fail. -/
structure System where
  env : Env
  blockdevGet : List UInt8 → Option (Nat × Disk)

/-- `strncpy` to a buffer of `n` bytes, and a NUL at its end. -/
def strncpy (n : Nat) (s : List UInt8) : List UInt8 := s.take (n - 1)

/-- A path of the user behind the working directory. -/
def joinPath (cwd path : List UInt8) : List UInt8 :=
  if path = [] then cwd
  else if path.head? = some 0x2F ∨ path.head? = some 0x5C then path
  else if cwd = [0x2F] then 0x2F :: path
  else cwd ++ 0x2F :: path

def shellBuildPath (cwd path : List UInt8) (outMax : Nat) : List UInt8 := strncpy outMax (joinPath cwd path)

/-- The text before the last `/`, which is not the first byte: `*strrchr(g_shell_cwd, '/') = '\0'`. -/
def cutLast (cwd : List UInt8) : List UInt8 :=
  match lastIndexOf 0x2F cwd with
  | some (k + 1) => cwd.take (k + 1)
  | _ => [0x2F]

/-- What is stored for a target that was found. -/
def storedPath (cwd target full : List UInt8) : List UInt8 :=
  if target = [0x2F] then [0x2F]
  else if target.head? = some 0x2F then strncpy 256 target
  else if target = [0x2E, 0x2E] then cutLast cwd
  else if target = [0x2E] then cwd
  else strncpy 256 full

def cdArgs (sys : System) (p : Place) : List (List UInt8) → List UInt8 × List UInt8
  | [] => (p.dev, [0x2F])
  | [a] => if (sys.blockdevGet a).isSome then (a, [0x2F]) else (p.dev, a)
  | a :: target :: _ => (a, target)

def System.mount (sys : System) (dev : List UInt8) : Option (FatFs × Disk) :=
  (sys.blockdevGet dev).bind fun (bdev, d) => (fatMount sys.env bdev d).map fun fs => (fs, d)

/-- `cmd_cd` with the arguments behind its name: is no error reported, and the place then. -/
def cmdCd (sys : System) (p : Place) (args : List (List UInt8)) : Bool × Place :=
  let (dev, target) := cdArgs sys p args
  match sys.mount dev with
  | none => (false, p)
  | some (fs, d) =>
    let full := shellBuildPath p.cwd target 256
    if fatIsDir sys.env fs d full then (true, ⟨strncpy 32 dev, storedPath p.cwd target full⟩)
    else (false, p)

variable {sys : System}

/-! ### One command -/

/-- The directory that a target leads to, from a directory. -/
def targetFrom (env : Env) (fs : FatFs) (d : Disk) (cur : FatDir) (target : List UInt8) : Option FatDir :=
  if target.head? = some 0x2F ∨ target.head? = some 0x5C then fatResolveDir env fs d target
  else resolveFrom env fs d cur (pathComponents target [])

/-- The directory that the stored text names. -/
def Place.dir (sys : System) (p : Place) : Option FatDir :=
  (sys.mount p.dev).bind fun (fs, d) => fatResolveDir sys.env fs d p.cwd

/-- A shell, with the directory that its commands have led to. -/
structure Session where
  place : Place
  cur : Option FatDir

namespace Session

variable (sys) in
/-- A `cd` that reports no error changes the directory to the one its target leads to. -/
def step (s : Session) (args : List (List UInt8)) : Session :=
  let r := cmdCd sys s.place args
  if r.1 then
    ⟨r.2, (sys.mount s.place.dev).bind fun (fs, d) =>
      s.cur.bind fun cur => targetFrom sys.env fs d cur (cdArgs sys s.place args).2⟩
  else ⟨r.2, s.cur⟩

variable (sys) in
def Right (s : Session) : Prop := s.cur.isSome = true ∧ s.place.dir sys = s.cur

variable (sys) in
/-- The command stays on the device, and its path fits into a path string. -/
def Admits (s : Session) (args : List (List UInt8)) : Prop :=
  (cdArgs sys s.place args).1 = s.place.dev ∧
    (joinPath s.place.cwd (cdArgs sys s.place args).2).length ≤ 255

instance (s : Session) : Decidable (s.Right sys) := inferInstanceAs (Decidable (_ ∧ _))

instance (s : Session) (args : List (List UInt8)) : Decidable (s.Admits sys args) :=
  inferInstanceAs (Decidable (_ ∧ _))

variable (sys) in
/-- If the command is a `cd ..`, the text before the last `/` names the parent of the directory. -/
def NamesParent (s : Session) (args : List (List UInt8)) : Prop :=
  (cdArgs sys s.place args).2 = [0x2E, 0x2E] →
    ∀ fs d cur, sys.mount s.place.dev = some (fs, d) → s.cur = some cur →
      fatIsDir sys.env fs d (shellBuildPath s.place.cwd [0x2E, 0x2E] 256) = true →
        fatResolveDir sys.env fs d (cutLast s.place.cwd) = some (parentDir sys.env fs d cur)

end Session

theorem cmdCd_error {p : Place} {args : List (List UInt8)} (h : (cmdCd sys p args).1 = false) :
    (cmdCd sys p args).2 = p := by
  unfold cmdCd at h ⊢
  dsimp only at h ⊢
  split
  · rfl
  · rename_i hmount
    rw [hmount] at h
    dsimp only at h ⊢
    split at h
    · cases h
    · rename_i hdir
      rw [if_neg hdir]

theorem resolve_joinPath (env : Env) (fs : FatFs) (d : Disk) (cwd : List UInt8) {target : List UInt8}
    (hrel : ¬(target.head? = some 0x2F ∨ target.head? = some 0x5C)) :
    fatResolveDir env fs d (joinPath cwd target) =
      (fatResolveDir env fs d cwd).bind fun cur => resolveFrom env fs d cur (pathComponents target []) := by
  have hslash : isSlash 0x2F = true := by decide
  unfold joinPath
  by_cases hnil : target = []
  · rw [if_pos hnil, hnil]
    cases fatResolveDir env fs d cwd <;> rfl
  rw [if_neg hnil, if_neg hrel]
  unfold fatResolveDir
  by_cases hroot : cwd = [0x2F]
  · rw [if_pos hroot, hroot]
    exact congrArg (resolveFrom env fs d (fatRootDir fs)) (pathComponents_append hslash target [] [])
  · rw [if_neg hroot, pathComponents_append hslash, resolveFrom_append]

theorem head?_slash_of_absolute {path : List UInt8} (h : path.head? = some 0x2F ∨ path.head? = some 0x5C)
    (cwd : List UInt8) : joinPath cwd path = path := by
  cases path with
  | nil => simp at h
  | cons c cs => rw [joinPath, if_neg (List.cons_ne_nil c cs), if_pos h]

section

variable {env : Env} {fs : FatFs} {d : Disk} {cwd target : List UInt8} {cur : FatDir}

theorem targetFrom_eq (hcwd : fatResolveDir env fs d cwd = some cur) :
    targetFrom env fs d cur target = fatResolveDir env fs d (joinPath cwd target) := by
  unfold targetFrom
  split
  · rename_i habs
    rw [head?_slash_of_absolute habs]
  · rename_i hrel
    rw [resolve_joinPath env fs d cwd hrel, hcwd, Option.bind_some]

theorem targetFrom_dotdot : targetFrom env fs d cur [0x2E, 0x2E] = some (parentDir env fs d cur) := by
  have hcomps : pathComponents [0x2E, 0x2E] [] = [[0x2E, 0x2E]] := by decide
  rw [targetFrom, if_neg (by decide), hcomps, resolveFrom_singleton, resolveStep, if_neg (by decide),
    if_pos rfl]

theorem resolve_storedPath (hcwd : fatResolveDir env fs d cwd = some cur)
    (hfits : (joinPath cwd target).length ≤ 255) (hup : target ≠ [0x2E, 0x2E]) :
    fatResolveDir env fs d (storedPath cwd target (joinPath cwd target)) = targetFrom env fs d cur target := by
  rw [targetFrom_eq hcwd]
  unfold storedPath
  by_cases hroot : target = [0x2F]
  · rw [if_pos hroot, hroot]
    rfl
  rw [if_neg hroot]
  by_cases habs : target.head? = some 0x2F
  · have hjoin := head?_slash_of_absolute (.inl habs) cwd
    rw [hjoin] at hfits
    rw [if_pos habs, hjoin, strncpy, List.take_of_length_le hfits]
  rw [if_neg habs, if_neg hup]
  by_cases hdot : target = [0x2E]
  · have hcomps : pathComponents [0x2E] [] = [[0x2E]] := by decide
    rw [if_pos hdot, hdot, resolve_joinPath env fs d cwd (by decide), hcwd, Option.bind_some, hcomps,
      resolveFrom_singleton, resolveStep, if_pos rfl]
  · rw [if_neg hdot, strncpy, List.take_of_length_le hfits]

end

/-- **One command.**  After it the text names the directory again, unless it is a `cd ..` that cuts
    the text somewhere else. -/
theorem right_step_iff {s : Session} {args : List (List UInt8)} (hdev : s.place.dev.length ≤ 31)
    (hright : s.Right sys) (hadmits : s.Admits sys args) :
    (s.step sys args).Right sys ↔ s.NamesParent sys args := by
  obtain ⟨hsame, hfits⟩ := hadmits
  have hdevice : strncpy 32 s.place.dev = s.place.dev := List.take_of_length_le hdev
  unfold Session.step Session.NamesParent cmdCd
  dsimp only
  rw [hsame]
  generalize (cdArgs sys s.place args).2 = target at hfits ⊢
  cases hmount : sys.mount s.place.dev with
  | none => exact iff_of_true hright fun _ _ _ _ h => by cases h
  | some v =>
    obtain ⟨fs, d⟩ := v
    have hbuild : shellBuildPath s.place.cwd target 256 = joinPath s.place.cwd target :=
      List.take_of_length_le hfits
    dsimp only
    rw [hbuild]
    by_cases hdir : fatIsDir sys.env fs d (joinPath s.place.cwd target) = true
    · obtain ⟨hsome, hplace⟩ := hright
      obtain ⟨cur, hcur⟩ := Option.isSome_iff_exists.mp hsome
      rw [Place.dir, hmount, hcur] at hplace
      have hcwd : fatResolveDir sys.env fs d s.place.cwd = some cur := hplace
      have hleads : (targetFrom sys.env fs d cur target).isSome = true := by
        rw [targetFrom_eq hcwd]
        exact hdir
      simp only [if_pos hdir, if_true, hcur, hdevice, Session.Right, Place.dir, hmount, Option.bind_some,
        hleads, true_and]
      by_cases hup : target = [0x2E, 0x2E]
      · subst hup
        rw [targetFrom_dotdot]
        constructor
        · intro h _ fs' d' cur' hv hc _
          cases hv
          cases hc
          exact h
        · intro h
          exact h rfl fs d cur rfl rfl (hbuild ▸ hdir)
      · exact iff_of_true (resolve_storedPath hcwd hfits hup) fun h => absurd h hup
    · simp only [if_neg hdir, Bool.false_eq_true, if_false]
      refine iff_of_true hright ?_
      rintro rfl fs' d' cur hv _ hdir'
      cases hv
      exact absurd (hbuild ▸ hdir') hdir

/-! ### Sequences of commands -/

namespace Session

variable (sys) in
/-- The property holds before, between and after the commands. -/
def AllRight : Session → List (List (List UInt8)) → Prop
  | s, [] => s.Right sys
  | s, args :: cmds => s.Right sys ∧ AllRight (s.step sys args) cmds

variable (sys) in
/-- The condition holds for each command, where it is given. -/
def Each (P : Session → List (List UInt8) → Prop) : Session → List (List (List UInt8)) → Prop
  | _, [] => True
  | s, args :: cmds => P s args ∧ Each P (s.step sys args) cmds

theorem AllRight.right {s : Session} {cmds : List (List (List UInt8))} (h : s.AllRight sys cmds) :
    s.Right sys := by
  cases cmds with
  | nil => exact h
  | cons args cmds => exact h.1

theorem step_dev {s : Session} {args : List (List UInt8)} (hdev : s.place.dev.length ≤ 31) :
    (s.step sys args).place.dev.length ≤ 31 := by
  have hplace : (s.step sys args).place = (cmdCd sys s.place args).2 := by
    unfold step
    dsimp only
    split <;> rfl
  rw [hplace]
  unfold cmdCd
  dsimp only
  split
  · exact hdev
  · split
    · exact List.length_take_le 31 _
    · exact hdev

end Session

/-- **The working directory follows `cd`.**  In every sequence of commands on a device it does, up to
    every command, exactly if each `cd ..` is given where the text before the last `/` names the
    parent.  A command that reports an error changes nothing. -/
theorem cd_follows_iff {s : Session} (hdev : s.place.dev.length ≤ 31) (hright : s.Right sys)
    {cmds : List (List (List UInt8))} (hadmits : s.Each sys (Session.Admits sys) cmds) :
    (∀ p args, (cmdCd sys p args).1 = false → (cmdCd sys p args).2 = p) ∧
      (s.AllRight sys cmds ↔ s.Each sys (Session.NamesParent sys) cmds) := by
  refine ⟨fun p args => cmdCd_error, ?_⟩
  induction cmds generalizing s with
  | nil => exact iff_of_true hright trivial
  | cons args cmds ih =>
    obtain ⟨hcmd, hrest⟩ := hadmits
    have hstep := right_step_iff hdev hright hcmd
    constructor
    · rintro ⟨-, hall⟩
      exact ⟨hstep.mp hall.right, (ih (Session.step_dev hdev) hall.right hrest).mp hall⟩
    · rintro ⟨hnames, hall⟩
      have hright' := hstep.mpr hnames
      exact ⟨hright, (ih (Session.step_dev hdev) hright' hrest).mpr hall⟩

/-- `usb0`, an empty volume in which `/A` was made. -/
def oneDirectory : System :=
  ⟨Env.ideal, fun dev =>
    if dev = [0x75, 0x73, 0x62, 0x30] then
      some (0, (fatMkdir Env.ideal (plainFs 2) (plainDisk 2) [0x2F, 0x41]).2)
    else none⟩

def atTop : Session := ⟨⟨[0x75, 0x73, 0x62, 0x30], [0x2F]⟩, some (fatRootDir (plainFs 2))⟩

/-- `cd A` and `cd ..`. -/
theorem cd_follows_iff_top :
    (∀ p args, (cmdCd oneDirectory p args).1 = false → (cmdCd oneDirectory p args).2 = p) ∧
      (atTop.AllRight oneDirectory [[[0x41]], [[0x2E, 0x2E]]] ↔
        atTop.Each oneDirectory (Session.NamesParent oneDirectory) [[[0x41]], [[0x2E, 0x2E]]]) :=
  cd_follows_iff (by decide) (by decide +kernel) ⟨by decide +kernel, by decide +kernel, trivial⟩

/-- After `cd /A/` the text ends in `/`, and `cd ..` leaves the shell where it is. -/
theorem cd_trailing_slash :
    let s := (atTop.step oneDirectory [[0x2F, 0x41, 0x2F]]).step oneDirectory [[0x2E, 0x2E]]
    s.place.dir oneDirectory = some ⟨false, 2⟩ ∧ s.cur = some (fatRootDir (plainFs 2)) ∧
      ¬atTop.AllRight oneDirectory [[[0x2F, 0x41, 0x2F]], [[0x2E, 0x2E]]] := by
  have hdrift : ¬((atTop.step oneDirectory [[0x2F, 0x41, 0x2F]]).step oneDirectory [[0x2E, 0x2E]]).Right
      oneDirectory := by decide +kernel
  exact ⟨by decide +kernel, by decide +kernel, fun h => hdrift h.2.2⟩

/-! ### Texts that end in one name -/

/-- The text is `/`, or behind its last `/` there is one name, and no dot name. -/
def EndsInName (cwd : List UInt8) : Prop :=
  cwd = [0x2F] ∨ ∃ parent name, cwd = parent ++ 0x2F :: name ∧ name ∉ reservedNames ∧
    (∀ c ∈ name, isSlash c = false) ∧ name.length ≤ 255

theorem lastIndexOf_eq {c : UInt8} {xs ys : List UInt8} (h : c ∉ ys) :
    lastIndexOf c (xs ++ c :: ys) = some xs.length := by
  have hnone : lastIndexOf c ys = none := by
    induction ys with
    | nil => rfl
    | cons y ys ih =>
      obtain ⟨hy, hys⟩ := not_or.mp (mt List.mem_cons.mpr h)
      rw [lastIndexOf, ih hys]
      exact if_neg (Ne.symm hy)
  induction xs with
  | nil =>
    rw [List.nil_append, lastIndexOf, hnone]
    exact if_pos rfl
  | cons x xs ih =>
    rw [List.cons_append, lastIndexOf, ih]
    rfl

section

variable {fs : FatFs} {d : Disk} (hw : WellFormed fs d) (env : Env) [env.NoFault]

include hw

theorem parentDir_resolveStep {dir dir' : FatDir} (hdir : LiveDir fs d dir) {name : List UInt8}
    (hname : name ≠ [0x2E] ∧ name ≠ [0x2E, 0x2E]) (hstep : resolveStep env fs d dir name = some dir') :
    parentDir env fs d dir' = dir := by
  rw [resolveStep, if_neg hname.1, if_neg hname.2] at hstep
  cases hfind : fatDirFindEntry env fs d dir name with
  | none =>
    rw [hfind] at hstep
    cases hstep
  | some loc =>
    rw [hfind] at hstep
    dsimp only at hstep
    split at hstep
    · rename_i hsub
      have hchild := hw.find_child env hdir hname hfind
      have hentry := (hw.find_live env hdir hfind).2
      rw [hentry] at hsub hstep
      obtain ⟨L, hL⟩ := (hw.subdir _ hdir _ hchild hsub).1
      rw [dirOfCluster, if_neg (Nat.not_lt.mpr hL.head_inRange.1)] at hstep
      cases hstep
      exact hw.parentDir_sub env hdir hchild hsub
    · cases hstep

theorem resolve_cutLast {cwd : List UInt8} {cur : FatDir} (hends : EndsInName cwd)
    (hcwd : fatResolveDir env fs d cwd = some cur) :
    fatResolveDir env fs d (cutLast cwd) = some (parentDir env fs d cur) := by
  rcases hends with rfl | ⟨parent, name, rfl, hreserved, hslash, hlen⟩
  · have hroot : cur = fatRootDir fs := (Option.some.inj hcwd).symm
    rw [hroot, parentDir, if_pos (atRoot_root fs)]
    rfl
  · have hname : name ≠ [] ∧ name ≠ [0x2E] ∧ name ≠ [0x2E, 0x2E] := by
      simpa [reservedNames] using hreserved
    have hlast : lastIndexOf 0x2F (parent ++ 0x2F :: name) = some parent.length :=
      lastIndexOf_eq fun hmem => absurd (hslash 0x2F hmem) (by decide)
    have hcut : fatResolveDir env fs d (cutLast (parent ++ 0x2F :: name)) = fatResolveDir env fs d parent := by
      unfold cutLast
      rw [hlast]
      cases parent with
      | nil => rfl
      | cons c cs =>
        exact congrArg (fatResolveDir env fs d) (List.take_left' rfl)
    obtain ⟨rest, hpieces, hrest⟩ := pathComponents_name name [] hslash (by decide) hname.1
    rw [List.nil_append] at hpieces hrest
    rw [hrest hlen, List.take_of_length_le hlen] at hpieces
    rw [fatResolveDir, pathComponents_append (by decide), hpieces, resolveFrom_append] at hcwd
    rw [hcut]
    cases hparent : resolveFrom env fs d (fatRootDir fs) (pathComponents parent []) with
    | none =>
      rw [hparent] at hcwd
      cases hcwd
    | some dir =>
      rw [hparent, Option.bind_some, resolveFrom_singleton] at hcwd
      have hdir := hw.resolveFrom_live env LiveDir.root hparent
      rw [parentDir_resolveStep hw env hdir hname.2 hcwd]
      exact hparent

end

variable (sys) in
/-- A `cd ..` is given where the text ends in one name. -/
def Session.AtName (s : Session) (args : List (List UInt8)) : Prop :=
  (cdArgs sys s.place args).2 = [0x2E, 0x2E] → EndsInName s.place.cwd

/-- On a well-formed volume such commands are followed. -/
theorem cd_follows_names [sys.env.NoFault] (hw : ∀ dev fs d, sys.mount dev = some (fs, d) → WellFormed fs d)
    {s : Session} (hdev : s.place.dev.length ≤ 31) (hright : s.Right sys)
    {cmds : List (List (List UInt8))} (hadmits : s.Each sys (Session.Admits sys) cmds)
    (hnames : s.Each sys (Session.AtName sys) cmds) : s.AllRight sys cmds := by
  induction cmds generalizing s with
  | nil => exact hright
  | cons args cmds ih =>
    obtain ⟨hcmd, hrest⟩ := hadmits
    obtain ⟨hname, hnames⟩ := hnames
    refine ⟨hright, ih (Session.step_dev hdev) ?_ hrest hnames⟩
    refine (right_step_iff hdev hright hcmd).mpr fun hup fs d cur hmount hcur _ => ?_
    have hplace := hright.2
    rw [Place.dir, hmount, hcur] at hplace
    exact resolve_cutLast (hw _ fs d hmount) sys.env (hname hup) hplace

end Gemios.Shell
