import Gemios.MakeVars
import Gemios.TextLines

/-!
# Reading a makefile

`main` of `src/tools/make.c` up to the build: the command line and `parse_makefile`.  The
state is the one of `g_vars`, `g_rules`, `g_phony_targets`, `g_default_target` and `cur_rule`.
A simply expanded variable is stored with the text of its right-hand side, but every reference
expands that text again.
-/

namespace Gemios.Make

def MAX_LINE_LEN : Nat := 16384
def MAX_PREREQS : Nat := 1024
def MAX_COMMANDS : Nat := 256
def MAX_PHONY : Nat := 128

/-! ### Lines -/

/-- The complete lines; `cur` is what `cur_line` holds.  A line that is continued at the end of
    the file is dropped. -/
def joinLines (cur : List UInt8) : List (List UInt8) → List (List UInt8)
  | [] => []
  | buf :: rest =>
    let l := (buf.takeWhile (· ≠ 0)).rdropWhile fun c => c = 0x0D ∨ c = 0x0A
    if l.getLast? = some 0x5C then joinLines (cur ++ l.dropLast ++ [0x20]) rest
    else (cur ++ l) :: joinLines [] rest

def logicalLines (text : List UInt8) : List (List UInt8) :=
  joinLines [] (bufLines MAX_LINE_LEN text.length text)

inductive LineKind where
  | recipe | blank | other
  | rule (targets prereqs : List UInt8)
  /-- `:=` -/
  | simple (name : Name) (val : List UInt8)
  /-- `+=` -/
  | append (name : Name) (val : List UInt8)
  /-- `?=` -/
  | unset (name : Name) (val : List UInt8)
  /-- `=` -/
  | recursive (name : Name) (val : List UInt8)
deriving DecidableEq, Repr

/-- An assignment with its `=` at `eq`. -/
def assignKind (l : List UInt8) (eq : Nat) : LineKind :=
  let val := trimWhitespace (l.drop (eq + 1))
  let before := trimWhitespace (l.take (eq - 1))
  if eq > 0 ∧ l[eq - 1]? = some 0x2B then .append before val
  else if eq > 0 ∧ l[eq - 1]? = some 0x3A then .simple before val
  else if eq > 0 ∧ l[eq - 1]? = some 0x3F then .unset before val
  else .recursive (trimWhitespace (l.take eq)) val

/-- The tests of `parse_makefile` on a line; `inRule` says that `cur_rule` is set. -/
def lineKind (inRule : Bool) (l : List UInt8) : LineKind :=
  let trimmed := trimWhitespace l
  let colon := l.findIdx? (· == 0x3A)
  let eq := l.findIdx? (· == 0x3D)
  if l.head? = some 0x09 ∨ (l.head? = some 0x20 ∧ inRule ∧ eq.isNone ∧ colon.isNone) then
    .recipe
  else if trimmed.head? = some 0x23 ∨ trimmed = [] then .blank
  else
    match colon, eq with
    | none, none => .other
    | none, some eq => assignKind l eq
    | some colon, eq =>
      if l[colon + 1]? = some 0x3D then
        .simple (trimWhitespace (l.take colon)) (trimWhitespace (l.drop (colon + 2)))
      else if eq.all (colon < ·) then
        .rule (trimWhitespace (l.take colon)) (trimWhitespace (l.drop (colon + 1)))
      else assignKind l (eq.getD 0)

/-! ### The state -/

structure Parse where
  vars : List Var
  rules : List Rule
  phony : List Name
  defaultTarget : Option Name
  curRule : Option Nat

/-- What `getenv` and commands give. -/
structure Sys where
  environ : List (Name × List UInt8)
  shell : List UInt8 → List UInt8

/-- What `expand_vars` depends on. -/
def Parse.scope (st : Parse) (sys : Sys) : Scope := ⟨st.vars, sys.environ, sys.shell, {}⟩

def nextTokens : Nat → List UInt8 → List Name
  | 0, _ => []
  | n + 1, p =>
    match nextToken p with
    | none => []
    | some (tok, p) => tok :: nextTokens n p

def tokensOf (text : List UInt8) : List Name := nextTokens (text.length + 1) text

def addPhony (phony : List Name) (t : Name) : List Name :=
  if phony.length < MAX_PHONY ∧ ¬ phony.contains t then phony ++ [t] else phony

/-- The prerequisites of a rule line for the rule at `i`, which becomes `cur_rule`. -/
def Parse.addPrereqs (st : Parse) (i : Nat) (prereqs : List Name) : Parse :=
  { st with
    rules := st.rules.modify i fun r => { r with prereqs := (r.prereqs ++ prereqs).take MAX_PREREQS }
    curRule := some i }

def Parse.addTarget (prereqs : List Name) (st : Parse) (t : Name) : Parse :=
  let isPat := t.contains 0x25
  let found := if isPat then none else st.rules.findIdx? fun r => !r.isPattern && r.target == t
  match found with
  | some i => st.addPrereqs i prereqs
  | none =>
    if st.rules.length < MAX_RULES then
      let first := st.defaultTarget.isNone && !isPat && t.head? != some 0x2E
      let added : Parse :=
        { st with
          rules := st.rules ++ [⟨t, [], [], isPat⟩]
          defaultTarget := if first then some t else st.defaultTarget }
      added.addPrereqs st.rules.length prereqs
    else st

def Parse.addCommand (st : Parse) (line : List UInt8) : Parse :=
  let trimmed := trimWhitespace line
  match st.curRule with
  | none => st
  | some i =>
    if trimmed = [] ∨ trimmed.head? = some 0x23 then st
    else
      let cmd := if line.head? = some 0x09 then line.drop 1 else line.dropWhile isSpace
      { st with
        rules := st.rules.modify i fun r =>
          if r.commands.length < MAX_COMMANDS then { r with commands := r.commands ++ [cmd] } else r }

section

variable (sys : Sys) (fuel : Nat)

def Parse.addRule (st : Parse) (targets prereqs : List UInt8) : Except Fault Parse :=
  if targets = str ".PHONY" then do
    let expanded ← expandVarsCtx (st.scope sys) fuel prereqs
    return { st with phony := (tokensOf expanded).foldl addPhony st.phony, curRule := none }
  else if targets = str ".SECONDARY" ∨ targets = str ".PRECIOUS" then
    .ok { st with curRule := none }
  else do
    let expandedTargets ← expandVarsCtx (st.scope sys) fuel targets
    let expandedPrereqs ← expandVarsCtx (st.scope sys) fuel prereqs
    return (tokensOf expandedTargets).foldl (Parse.addTarget (tokensOf expandedPrereqs)) st

/-- A complete line of `parse_makefile`. -/
def processLine (st : Parse) (line : List UInt8) : Except Fault Parse :=
  match lineKind st.curRule.isSome line with
  | .recipe => .ok (st.addCommand line)
  | .blank => .ok st
  | .other => .ok st
  | .rule targets prereqs => st.addRule sys fuel targets prereqs
  | .simple name val => do
    let exp ← expandVarsCtx (st.scope sys) fuel val
    return { st with vars := setVar st.vars name exp true, curRule := none }
  | .append name val => do
    let exp ← expandVarsCtx (st.scope sys) fuel val
    return { st with vars := appendVar st.vars name exp, curRule := none }
  | .unset name val =>
    if (getVarRaw st.vars sys.environ name).isSome then .ok { st with curRule := none }
    else .ok { st with vars := setVar st.vars name val false, curRule := none }
  | .recursive name val => .ok { st with vars := setVar st.vars name val false, curRule := none }

def processLines (st : Parse) (lines : List (List UInt8)) : Except Fault Parse :=
  lines.foldlM (processLine sys fuel) st

end

/-- What `main` takes an argument for. -/
inductive OptionArg where
  | makefile (file : Name) | target (t : Name) | assign (name : Name) (val : List UInt8) | ignored
deriving DecidableEq, Repr

/-- The loop of `main` over the arguments.  A directory for `-C` is taken to exist. -/
def optionArgs : List Name → List OptionArg
  | [] => []
  | arg :: rest =>
    if arg = str "-f" ∧ rest ≠ [] then
      match rest with
      | [] => []
      | file :: rest => .makefile file :: optionArgs rest
    else if (str "-f").isPrefixOf arg then .makefile (arg.drop 2) :: optionArgs rest
    else if arg = str "-C" ∧ rest ≠ [] then
      match rest with
      | [] => []
      | _ :: rest => .ignored :: optionArgs rest
    else if arg.head? = some 0x2D then .ignored :: optionArgs rest
    else if arg.contains 0x3D then
      .assign (arg.takeWhile (· ≠ 0x3D)) ((arg.dropWhile (· ≠ 0x3D)).drop 1) :: optionArgs rest
    else .target arg :: optionArgs rest

structure Options where
  vars : List Var := []
  makefile : Name := str "Makefile"
  target : Option Name := none

def Options.take (o : Options) : OptionArg → Options
  | .makefile file => { o with makefile := file }
  | .target t => { o with target := some t }
  | .assign name val => { o with vars := setVar o.vars name val true }
  | .ignored => o

def parseOptions (argv : List Name) : Options := (optionArgs argv).foldl Options.take {}

def startParse (argv : List Name) : Parse := ⟨(parseOptions argv).vars, [], [], none, none⟩

/-- `parse_makefile` after the command line. -/
def parseMakefile (sys : Sys) (fuel : Nat) (argv : List Name) (text : List UInt8) :
    Except Fault Parse :=
  processLines sys fuel (startParse argv) (logicalLines text)

end Gemios.Make
