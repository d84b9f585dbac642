import Gemios.AsMacro
import Gemios.TextLines

/-!
# Reading an assembler source

The first half of `preprocess_and_assemble` of `src/tools/as.c`: comments are dropped, macros
are recorded and their calls expanded.  A write outside an array has no result; neither has an
expansion that is not done after so many tests.
-/

namespace Gemios.As

def LINE_SIZE : Nat := 4096

def MAX_MACROS : Nat := 64
def MAX_MACRO_LINES : Nat := 128

/-- The macros, the one that is being defined, whether a comment is open, and
    `expanded_lines`. -/
structure Source where
  macros : List MacroDef
  inMacro : Option MacroDef
  inComment : Bool
  lines : List (List UInt8)

/-- Nothing is left of the names of parameters or arguments. -/
def namesEnd (p : List UInt8) : Bool := p.head?.all fun c => c == 0x23 || c == 0x0A || c == 0x0D

/-- The loop over the parameters of a definition, and over the arguments of a call, with room
    for `n`. -/
def parseNames : Nat → List UInt8 → Option (List (List UInt8))
  | 0, p => if namesEnd p then some [] else none
  | n + 1, p =>
    if namesEnd p then some []
    else
      let q := p.dropWhile fun c => c != 0x2C && !isSpace c
      (parseNames n (skipWs (if q.head? = some 0x2C then q.drop 1 else q))).map
        (cleanString ((p.takeWhile fun c => c != 0x2C && !isSpace c).take 31) :: ·)

theorem parseNames_length {n : Nat} {p : List UInt8} {names : List (List UInt8)}
    (h : parseNames n p = some names) : names.length ≤ n := by
  induction n generalizing p names with
  | zero =>
    rw [parseNames] at h
    split at h
    · obtain rfl := Option.some.inj h
      exact Nat.le_refl 0
    · cases h
  | succ n ih =>
    rw [parseNames] at h
    split at h
    · obtain rfl := Option.some.inj h
      exact Nat.zero_le _
    · obtain ⟨rest, hrest, rfl⟩ := Option.map_eq_some_iff.mp h
      exact Nat.succ_le_succ (ih hrest)

theorem parseNames_le {n : Nat} {p : List UInt8} {names : List (List UInt8)}
    (h : parseNames n p = some names) : ∀ a ∈ names, a.length ≤ 31 := by
  induction n generalizing p names with
  | zero =>
    rw [parseNames] at h
    split at h
    · obtain rfl := Option.some.inj h
      simp
    · cases h
  | succ n ih =>
    rw [parseNames] at h
    split at h
    · obtain rfl := Option.some.inj h
      simp
    · obtain ⟨rest, hrest, rfl⟩ := Option.map_eq_some_iff.mp h
      rw [List.forall_mem_cons]
      refine ⟨Nat.le_trans (List.rdropWhile_prefix isBlank _).length_le ?_, ih hrest⟩
      rw [List.length_take]
      omega

def parseArgs (p : List UInt8) : Option MacroArgs :=
  match h : parseNames 4 p with
  | some args => some ⟨args, parseNames_length h, parseNames_le h⟩
  | none => none

/-- A macro without lines, from the text behind `.macro`; without a name it is undefined. -/
def parseMacroDef (p : List UInt8) : Option MacroDef :=
  let p := skipWs p
  let name := ((p.dropWhile isSpace).takeWhile (!isSpace ·)).take 63
  if name = [] then none
  else
    match h : parseNames 4 (skipWs (p.drop name.length)) with
    | some params =>
      some
        { name := cleanString name, params, lines := []
          params_le := parseNames_length h, param_le := parseNames_le h
          lines_le := by simp, line_le := by simp }
    | none => none

/-- Another line of a macro, if there is room. -/
def MacroDef.addLine (m : MacroDef) (line : List UInt8) : MacroDef :=
  if h : m.lines.length < MAX_MACRO_LINES then
    { m with
      lines := m.lines ++ [line.take 255]
      lines_le := by
        rw [List.length_append]
        exact h
      line_le := by
        intro l hl
        rcases List.mem_append.mp hl with hl | hl
        · exact m.line_le l hl
        · rw [List.mem_singleton.mp hl, List.length_take]
          omega }
  else m

/-- The token that is looked up among the macros, and the text behind it. -/
def macroToken (p : List UInt8) : List UInt8 × List UInt8 :=
  (cleanString ((p.takeWhile (!isSpace ·)).take 63), skipWs (p.dropWhile (!isSpace ·)))

/-- A line of the source, as `fgets` hands it out. -/
def readLine (fuel : Nat) (src : Source) (buf : List UInt8) : Option Source :=
  let line := cleanString buf
  let p := skipWs line
  if src.inComment then some { src with inComment := (strstr (str "*/") line).isNone }
  else if (str "/*").isPrefixOf p then
    some { src with inComment := (strstr (str "*/") p).isNone }
  else if lineEnds p ∨ (str "//").isPrefixOf p then some src
  else if (str ".macro").isPrefixOf p then
    if src.macros.length < MAX_MACROS then
      (parseMacroDef (p.drop 6)).map fun m => { src with inMacro := some m }
    else none
  else if (str ".endm").isPrefixOf p then
    some { src with macros := src.macros ++ src.inMacro.toList, inMacro := none }
  else
    match src.inMacro with
    | some m => some { src with inMacro := some (m.addLine line) }
    | none =>
      let (token, rest) := macroToken p
      match src.macros.find? fun m => m.name == token with
      | none => some { src with lines := src.lines ++ [line] }
      | some m => do
        let args ← parseArgs rest
        let expanded ← m.lines.mapM fun l => expRun m.params args.args fuel ⟨0, l⟩
        return { src with lines := src.lines ++ expanded }

def readText (fuel : Nat) (src : Source) (text : List UInt8) : Option Source :=
  (bufLines LINE_SIZE text.length text).foldlM
    (fun src buf => readLine fuel src (buf.takeWhile (· ≠ 0))) src

def preprocess (fuel : Nat) (text : List UInt8) : Option (List (List UInt8)) :=
  (readText fuel ⟨[], none, false, []⟩ text).map (·.lines)

end Gemios.As
