import Gemios.Elf
import Gemios.MakePattern
import Mathlib.Data.List.DropRight

/-!
# Variables of a makefile

The variable table of `src/tools/make.c` and `expand_vars_ctx`.  A round of its loop takes one
piece off the text: characters that are appended as they are, or a reference whose value the
function is called for again.  What a command of `$(shell …)` writes is a parameter.
-/

namespace Gemios.Make

structure Var where
  name : Name
  val : List UInt8
  isSimple : Bool
deriving DecidableEq, Repr

def MAX_VARS : Nat := 1024

/-- `auto_vars_t`; a null pointer to it has no fields either. -/
structure AutoVars where
  target : Option Name := none
  firstPrereq : Option Name := none
  allPrereqs : Option (List UInt8) := none
  stem : Option Name := none
deriving DecidableEq

/-- What an expansion depends on: `g_vars`, the environment, what commands write, and the
    automatic variables. -/
structure Scope where
  vars : List Var
  environ : List (Name × List UInt8)
  shell : List UInt8 → List UInt8
  ctx : AutoVars

def getVarRaw (vars : List Var) (environ : List (Name × List UInt8)) (name : Name) :
    Option (List UInt8) :=
  match vars.reverse.find? fun v => v.name == name with
  | some v => some v.val
  | none => (environ.find? fun e => e.1 == name).map (·.2)

def setVar (vars : List Var) (name : Name) (val : List UInt8) (isSimple : Bool) : List Var :=
  match vars.findIdx? fun v => v.name == name with
  | some i => vars.modify i fun v => { v with val, isSimple }
  | none => if vars.length < MAX_VARS then vars ++ [⟨name, val, isSimple⟩] else vars

def appendVar (vars : List Var) (name : Name) (val : List UInt8) : List Var :=
  match vars.findIdx? fun v => v.name == name with
  | some i => vars.modify i fun v => { v with val := v.val ++ [0x20] ++ val }
  | none => setVar vars name val false

/-! ### Functions -/

def trimWhitespace (s : List UInt8) : List UInt8 := (s.dropWhile isSpace).rdropWhile isSpace

/-- `eval_shell`: a string ends at its first zero byte. -/
def evalShell (out : List UInt8) : List UInt8 :=
  ((out.map fun c => if c = 0x0D ∨ c = 0x0A then 0x20 else c).rdropWhile isSpace).takeWhile (· ≠ 0)

def wordLoop (f : Name → Name) : Nat → List UInt8 → List UInt8 → List UInt8
  | 0, sb, _ => sb
  | fuel + 1, sb, ptr =>
    match nextToken ptr with
    | none => sb
    | some (tok, ptr) => wordLoop f fuel ((if sb.length > 0 then sb ++ [0x20] else sb) ++ f tok) ptr

def evalDir (text : List UInt8) : List UInt8 :=
  wordLoop (fun tok => if tok.contains 0x2F then tok.rdropWhile (· ≠ 0x2F) else str "./")
    (text.length + 1) [] text

def evalNotdir (text : List UInt8) : List UInt8 :=
  wordLoop (fun tok => if tok.contains 0x2F then tok.rtakeWhile (· ≠ 0x2F) else tok)
    (text.length + 1) [] text

/-- The directory without the slash at its end, for `@D` and `<D`. -/
def autoDir (name : Name) : List UInt8 :=
  let d := evalDir name
  if d.length > 1 ∧ d.getLast? = some 0x2F then d.dropLast else d

/-! ### Pieces -/

inductive Piece where
  /-- as it is -/
  | text (s : List UInt8)
  | var (name : Name)
  | shell (cmd : List UInt8)
  | patsubst (pat rep txt : List UInt8)
  | dir (arg : List UInt8)
  | notdir (arg : List UInt8)
  /-- the name is the zero byte behind a last `$`, and the loop goes on behind it -/
  | pastEnd
deriving DecidableEq, Repr

/-- The name up to the parenthesis that closes it, and the text behind. -/
def takeName (close : UInt8) : Nat → List UInt8 → Option (Name × List UInt8)
  | _, [] => none
  | depth, c :: p =>
    if c = 0x28 ∨ c = 0x7B then (takeName close (depth + 1) p).map fun r => (c :: r.1, r.2)
    else if c = close then
      if depth ≤ 1 then some ([], p)
      else (takeName close (depth - 1) p).map fun r => (c :: r.1, r.2)
    else (takeName close depth p).map fun r => (c :: r.1, r.2)

/-- The arguments of `patsubst`; with fewer than two commas nothing is appended. -/
def patsubstPiece (args : List UInt8) : Piece :=
  match args.dropWhile (· ≠ 0x2C) with
  | [] => .text []
  | _ :: behind =>
    match behind.dropWhile (· ≠ 0x2C) with
    | [] => .text []
    | _ :: txt => .patsubst (args.takeWhile (· ≠ 0x2C)) (behind.takeWhile (· ≠ 0x2C)) txt

/-- What `$(vname)` stands for. -/
def refPiece (ctx : AutoVars) (vname : Name) : Piece :=
  if vname = str "@" then .text (ctx.target.getD [])
  else if vname = str "@D" then .text (ctx.target.elim [] autoDir)
  else if vname = str "@F" then .text (ctx.target.elim [] evalNotdir)
  else if vname = str "<" then .text (ctx.firstPrereq.getD [])
  else if vname = str "<D" then .text (ctx.firstPrereq.elim [] autoDir)
  else if vname = str "^" then .text (ctx.allPrereqs.getD [])
  else if vname = str "*" then .text (ctx.stem.getD [])
  else if (str "shell ").isPrefixOf vname then .shell (vname.drop 6)
  else if (str "patsubst ").isPrefixOf vname then patsubstPiece (vname.drop 9)
  else if (str "dir ").isPrefixOf vname then .dir (vname.drop 4)
  else if (str "notdir ").isPrefixOf vname then .notdir (vname.drop 7)
  else .var vname

/-- What stands behind a `$`, up to the text that the next round begins with. -/
def dollarPiece (ctx : AutoVars) : List UInt8 → Piece × List UInt8
  | [] => (.pastEnd, [])
  | c :: p =>
    if c = 0x24 then (.text [0x24], p)
    else if c = 0x40 then (.text (ctx.target.getD []), p)
    else if c = 0x3C then (.text (ctx.firstPrereq.getD []), p)
    else if c = 0x5E then (.text (ctx.allPrereqs.getD []), p)
    else if c = 0x2A then (.text (ctx.stem.getD []), p)
    else if c = 0x28 ∨ c = 0x7B then
      match takeName (if c = 0x28 then 0x29 else 0x7D) 1 p with
      | some (vname, p) => (refPiece ctx vname, p)
      | none => (.text [], [])
    else (.var [c], p)

/-- The pieces of a text.  Every round takes a character at least. -/
def piecesFrom (ctx : AutoVars) : Nat → List UInt8 → List Piece
  | _, [] => []
  | 0, _ => []
  | n + 1, c :: p =>
    if c = 0x24 then
      let (piece, p) := dollarPiece ctx p
      piece :: piecesFrom ctx n p
    else .text [c] :: piecesFrom ctx n p

def pieces (ctx : AutoVars) (text : List UInt8) : List Piece := piecesFrom ctx text.length text

/-! ### Expansion -/

/-- Why an expansion or a build has no result. -/
inductive Fault where
  /-- a read behind the end of the text -/
  | pastEnd
  /-- the calls are nested deeper than the fuel -/
  | deep
  /-- a write past the end of a stem -/
  | stem
deriving DecidableEq, Repr

section

variable (S : Scope)

/-- The value of a variable, for a call `expand` of `expand_vars_ctx`. -/
def evalVar (expand : List UInt8 → Except Fault (List UInt8)) (name : Name) :
    Except Fault (List UInt8) :=
  match getVarRaw S.vars S.environ name with
  | some val => expand val
  | none => .ok []

def evalPiece (expand : List UInt8 → Except Fault (List UInt8)) : Piece → Except Fault (List UInt8)
  | .text s => .ok s
  | .var name => evalVar S expand name
  | .shell cmd => return evalShell (S.shell (← expand cmd))
  | .patsubst pat rep txt => do
    let exp1 ← expand pat
    let exp2 ← expand rep
    let exp3 ← expand txt
    return evalPatsubst (trimWhitespace exp1) (trimWhitespace exp2) (trimWhitespace exp3)
  | .dir arg => return evalDir (← expand arg)
  | .notdir arg => return evalNotdir (← expand arg)
  | .pastEnd => do
    let _ ← evalVar S expand []
    throw .pastEnd

/-- The loop of `expand_vars_ctx`, which appends the pieces. -/
def evalPieces (expand : List UInt8 → Except Fault (List UInt8)) :
    List Piece → Except Fault (List UInt8)
  | [] => .ok []
  | piece :: rest => return (← evalPiece S expand piece) ++ (← evalPieces expand rest)

/-- `expand_vars_ctx`, with calls nested at most `fuel` deep. -/
def expandVarsCtx : Nat → List UInt8 → Except Fault (List UInt8)
  | 0, _ => .error .deep
  | fuel + 1, text => evalPieces S (expandVarsCtx fuel) (pieces S.ctx text)

end

theorem bind_eq_ok {α β : Type} {x : Except Fault α} {f : α → Except Fault β} {r : β}
    (h : x >>= f = .ok r) : ∃ a, x = .ok a ∧ f a = .ok r := by
  cases x with
  | error e => cases h
  | ok a => exact ⟨a, rfl, h⟩

end Gemios.Make
