import Sigil.Group

/-!
# What can be wrong with the brackets and mappings of a text
-/

namespace Sigil

/-- A fault in the structure of a text. Brackets are named by their group, and `line` is where the
group starts if it is the group that lacks its bracket. -/
inductive ParseError where
  | missingClosing (group : Group) (line : Nat)
  | unclosed (group : Group) (line : Nat)
  | mismatchedClosing (found expected : Group) (line : Nat)
  | unexpectedClosing (group : Group) (line : Nat)
  | invalidKey (found : String) (line : Nat)
  | missingValue (key : String) (line : Nat)
  deriving DecidableEq

namespace ParseError

def line : ParseError → Nat
  | missingClosing _ line => line
  | unclosed _ line => line
  | mismatchedClosing _ _ line => line
  | unexpectedClosing _ line => line
  | invalidKey _ line => line
  | missingValue _ line => line

/-- Brackets that leave the top level unbalanced: a text with such a fault is not worth
evaluating. -/
def isFatal : ParseError → Bool
  | unclosed .. | unexpectedClosing .. => true
  | _ => false

def quoted (c : Char) : String :=
  "'" ++ c.toString ++ "'"

def message : ParseError → String
  | missingClosing g line =>
    "missing ending bracket " ++ quoted g.closing ++ " for " ++ g.name ++ " (starting at line " ++
      toString line ++ ")"
  | unclosed g line =>
    "unclosed " ++ g.name ++ ", expected " ++ quoted g.closing ++
      " before end of input (starting at line " ++ toString line ++ ")"
  | mismatchedClosing found expected line =>
    "unexpected closing bracket " ++ quoted found.closing ++ ", expected " ++
      quoted expected.closing ++ " (line " ++ toString line ++ ")"
  | unexpectedClosing g line =>
    "unexpected closing bracket " ++ quoted g.closing ++ " (line " ++ toString line ++ ")"
  | invalidKey found line =>
    "expected key, word or string for mapping assignment, got " ++ found ++ " (line " ++
      toString line ++ ")"
  | missingValue key line =>
    "missing value for mapping key '" ++ key ++ "' (line " ++ toString line ++ ")"

end ParseError

end Sigil
