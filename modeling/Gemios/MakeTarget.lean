import Gemios.MakeVars

/-!
# Building a target

`build_target_internal` of `src/tools/make.c` with the look-up of rules, the recipes, the cache of
built targets and the call stack.  The file system is the modification time of each file that
exists.  What commands write and return is the environment's; when a recipe goes well, a target
that is not phony then has a time that is newer than all others.  A log records the order of
events.  The commands that are printed are not part of it.
-/

namespace Gemios.Make

def MAX_CALL_DEPTH : Nat := 128

/-- What the makefile left: the rules, the phony targets and `g_vars`. -/
structure Makefile where
  rules : List Rule
  phony : List Name
  vars : List Var
deriving DecidableEq

/-- The modification times of the files that exist, and a time that none is later than. -/
structure Files where
  mtime : Name → Option Nat
  latest : Nat
  le_latest : ∀ n m, mtime n = some m → m ≤ latest

instance : CoeFun Files fun _ => Name → Option Nat := ⟨Files.mtime⟩

def getMtime (fs : Files) (path : Name) : Nat := (fs path).getD 0

def Files.set (fs : Files) (t : Name) (time : Nat) : Files where
  mtime n := if n = t then some time else fs n
  latest := max fs.latest time
  le_latest := by
    intro n m h
    split at h
    · exact Option.some.inj h ▸ Nat.le_max_right _ _
    · exact Nat.le_trans (fs.le_latest n m h) (Nat.le_max_left _ _)

@[simp] theorem Files.set_apply (fs : Files) (t : Name) (time : Nat) (n : Name) :
    fs.set t time n = if n = t then some time else fs n := rfl

/-- What the build does, in order: a target is looked at, with the prerequisites of its rule
    and whether the rule has commands; a prerequisite is called for and done; the recipe of a
    target runs. -/
inductive Event where
  | visit (target : Name) (prereqs : List Name) (recipe : Bool)
  | call (target : Name) (i : Nat) (prereq : Name)
  | done (target : Name) (i : Nat) (prereq : Name)
  | recipe (target : Name) (prereqs : List Name)
deriving DecidableEq

/-- The files, `g_built_targets`, the entries of `g_call_stack` below `g_call_depth`, and the
    log. -/
structure State where
  fs : Files
  built : List (Name × Bool)
  stack : List Name
  log : List Event

/-- What surrounds the build: the variables of the environment, and for command number `i` in
    the recipe of a target what `$(shell …)` writes and what `system` returns; and the time of a
    target that was made. -/
structure Env where
  environ : List (Name × List UInt8)
  shell : State → Name → Nat → List UInt8 → List UInt8
  system : State → Name → Nat → List UInt8 → Int
  time : State → Name → Nat
  newer : ∀ st t n m, st.fs n = some m → m < time st t

/-! ### Rules -/

def Makefile.isPhony (mk : Makefile) (t : Name) : Bool := mk.phony.contains t

def Makefile.findExplicitRule (mk : Makefile) (t : Name) : Option Rule :=
  mk.rules.find? fun r => !r.isPattern && r.target == t

/-- `match_pattern` as it is called for the rules, with an array `stem`. -/
def matchStem (pattern str : Name) : Except Fault (Option Name) :=
  match matchPatternBuf pattern str with
  | some r => .ok r
  | none => .error .stem

/-- `can_build_or_exists`, with `fuel` levels left of the 21 of the source. -/
def canBuildOrExists (mk : Makefile) (fs : Files) : Nat → Name → Except Fault Bool
  | fuel, t =>
    if (fs t).isSome || mk.isPhony t || (mk.findExplicitRule t).isSome then .ok true
    else
      match fuel with
      | 0 => .ok false
      | fuel + 1 =>
        mk.rules.anyM fun r =>
          if r.isPattern then do
            match ← matchStem r.target t with
            | none => return false
            | some stem =>
              match r.prereqs with
              | [] => return true
              | p :: _ => canBuildOrExists mk fs fuel (substStem p stem)
          else return false

def Makefile.matchPatternRule (mk : Makefile) (fs : Files) (t : Name) :
    Except Fault (Option (Rule × Name)) :=
  mk.rules.findSomeM? fun r =>
    if r.isPattern then do
      match ← matchStem r.target t with
      | none => return none
      | some stem =>
        match r.prereqs with
        | [] => return some (r, stem)
        | p :: _ =>
          return if ← canBuildOrExists mk fs 21 (substStem p stem) then some (r, stem) else none
    else return none

/-- The rule for a target, with `actual_prereqs` and `stem`. -/
structure Found where
  rule : Rule
  prereqs : List Name
  stem : Name
deriving DecidableEq

def Makefile.findRule (mk : Makefile) (fs : Files) (t : Name) : Except Fault (Option Found) :=
  match mk.findExplicitRule t with
  | some r => .ok (some ⟨r, r.prereqs, []⟩)
  | none => do
    let r ← mk.matchPatternRule fs t
    return r.map fun (r, stem) => ⟨r, r.prereqs.map (substStem · stem), stem⟩

/-- The rule that a look-up finds; none when it writes past the end of a stem. -/
def Makefile.ruleFor (mk : Makefile) (fs : Files) (t : Name) : Option Found :=
  (mk.findRule fs t).toOption.join

def actualPrereqs (found : Option Found) : List Name := (found.map Found.prereqs).getD []

def hasCommands (found : Option Found) : Bool := found.any fun f => !f.rule.commands.isEmpty

/-! ### Recipes -/

/-- `ctx`. -/
def Found.autoVars (f : Found) (t : Name) : AutoVars where
  target := some t
  firstPrereq := some (f.prereqs.headD [])
  allPrereqs := some (List.intercalate [0x20] f.prereqs)
  stem := some f.stem

/-- `ignore_err`, and the command behind the marks `@` and `-`. -/
def takeMarks : Nat → Bool → List UInt8 → Bool × List UInt8
  | 0, ignoreErr, cmd => (ignoreErr, cmd)
  | _ + 1, ignoreErr, [] => (ignoreErr, [])
  | n + 1, ignoreErr, c :: cmd =>
    if c = 0x40 ∨ c = 0x2D then takeMarks n (ignoreErr || c == 0x2D) (trimWhitespace cmd)
    else (ignoreErr, c :: cmd)

section

variable (mk : Makefile) (env : Env)

/-- What the expansion of command number `i` of a recipe depends on. -/
def recipeScope (st : State) (t : Name) (f : Found) (i : Nat) : Scope where
  vars := mk.vars
  environ := env.environ
  shell := env.shell st t i
  ctx := f.autoVars t

/-- The loop over the commands of a recipe, from number `i` on, with expansions nested at most
    `depth` deep; the result is whether it gets to its end. -/
def runCommands (depth : Nat) (st : State) (t : Name) (f : Found) :
    Nat → List (List UInt8) → Except Fault Bool
  | _, [] => .ok true
  | i, raw :: cmds =>
    match expandVarsCtx (recipeScope mk env st t f i) depth raw with
    | .error e => .error e
    | .ok expanded =>
      let (ignoreErr, cmd) := takeMarks expanded.length false (trimWhitespace expanded)
      if cmd ≠ [] ∧ env.system st t i cmd ≠ 0 ∧ ignoreErr = false then .ok false
      else runCommands depth st t f (i + 1) cmds

end

/-! ### The state -/

def State.emit (st : State) (e : Event) : State := { st with log := st.log ++ [e] }

/-- The push on the call stack, left out when it is full. -/
def State.push (st : State) (t : Name) : State :=
  if st.stack.length < MAX_CALL_DEPTH then { st with stack := st.stack ++ [t] } else st

def State.pop (st : State) : State := { st with stack := st.stack.dropLast }

/-- `find_built_target`: the `built` field of the entry. -/
def State.findBuilt (st : State) (t : Name) : Option Bool :=
  (st.built.find? (·.1 == t)).map (·.2)

def State.mark (st : State) (t : Name) (built : Bool) : State :=
  match st.built.findIdx? (·.1 == t) with
  | some i => { st with built := st.built.modify i fun e => (e.1, built) }
  | none =>
    if st.built.length < MAX_RULES * 2 then { st with built := st.built ++ [(t.take 511, built)] }
    else st

def State.setTime (st : State) (t : Name) (time : Nat) : State := { st with fs := st.fs.set t time }

/-! ### The build -/

section

variable (mk : Makefile) (env : Env) (depth : Nat)

/-- The loop over the prerequisites of `t`, from number `i` on; `build` is the recursive call,
    and `none` stands for a prerequisite that failed. -/
def buildPrereqs (build : State → Name → Except Fault (State × Bool)) (t : Name)
    (targetMtime : Nat) : State → Bool → Nat → List Name → Except Fault (State × Option Bool)
  | st, needs, _, [] => .ok (st, some needs)
  | st, needs, i, p :: ps =>
    match build (st.emit (.call t i p)) p with
    | .error e => .error e
    | .ok (st, false) => .ok (st, none)
    | .ok (st, true) =>
      let needs :=
        if mk.isPhony t then needs
        else needs || (st.findBuilt p).getD false || decide (getMtime st.fs p > targetMtime)
      buildPrereqs build t targetMtime (st.emit (.done t i p)) needs (i + 1) ps

/-- The end of the build of `t`: its recipe runs if it is needed. -/
def finish (st : State) (t : Name) (found : Option Found) (existed needs : Bool) :
    Except Fault (State × Bool) :=
  let recipe := hasCommands found
  if !(needs || mk.isPhony t || !existed || ((actualPrereqs found).isEmpty && recipe)) then
    .ok (st.mark t false, true)
  else
    match found with
    | none => .ok (st.mark t true, true)
    | some f =>
      if recipe then
        let st := st.emit (.recipe t f.prereqs)
        match runCommands mk env depth st t f 0 f.rule.commands with
        | .error e => .error e
        | .ok false => .ok (st, false)
        | .ok true =>
          .ok ((if mk.isPhony t then st else st.setTime t (env.time st t)).mark t true, true)
      else .ok (st.mark t true, true)

/-- `build_target_internal`, with calls nested at most `fuel` deep; the result is whether it
    returns 0. -/
def buildTarget : Nat → State → Name → Except Fault (State × Bool)
  | 0, _, _ => .error .deep
  | fuel + 1, st, t =>
    if st.stack.contains t then .ok (st, true)
    else if (st.findBuilt t).isSome && !mk.isPhony t then .ok (st, true)
    else
      match mk.findRule st.fs t with
      | .error e => .error e
      | .ok found =>
        if found.isNone && (st.fs t).isNone && !mk.isPhony t then .ok (st, false)
        else
          let existed := (st.fs t).isSome
          match buildPrereqs mk (buildTarget fuel) t (getMtime st.fs t)
              ((st.emit (.visit t (actualPrereqs found) (hasCommands found))).push t) false 0
              (actualPrereqs found) with
          | .error e => .error e
          | .ok (st', none) => .ok (st'.pop, false)
          | .ok (st', some needs) => finish mk env depth st'.pop t found existed needs

end

def start (fs : Files) : State := ⟨fs, [], [], []⟩

end Gemios.Make
