import Gemios.Bytes

/-!
# Rules and patterns

The rules of `src/tools/make.c`, and `match_pattern` and `subst_stem` on strings.
-/

namespace Gemios.Make

abbrev Name := List UInt8

/-- `rule_t`, without `is_phony`, which the build does not read. -/
structure Rule where
  target : Name
  prereqs : List Name
  commands : List (List UInt8)
  isPattern : Bool
deriving DecidableEq

def MAX_RULES : Nat := 2048

/-- `match_pattern`: the stem, whatever its length. -/
def matchPattern (pattern str : Name) : Option Name :=
  if !pattern.contains 0x25 then none
  else
    let pre := pattern.takeWhile (· != 0x25)
    let suf := (pattern.dropWhile (· != 0x25)).drop 1
    if str.length < pre.length + suf.length then none
    else if str.take pre.length != pre then none
    else if str.drop (str.length - suf.length) != suf then none
    else some ((str.drop pre.length).take (str.length - pre.length - suf.length))

def substStem (pattern stem : Name) : Name :=
  if pattern.contains 0x25 then
    pattern.takeWhile (· != 0x25) ++ stem ++ (pattern.dropWhile (· != 0x25)).drop 1
  else pattern

end Gemios.Make
