import Sigil.Decimal.Text

/-!
# Syntax trees

A node keeps the line it starts on. The keys of a mapping are nodes too, so that trees with keys
that no source text can have are values of this type as well.
-/

namespace Sigil

inductive Literal where
  | number (value : Float)
  | string (text : String)
  | boolean (value : Bool)
  deriving DecidableEq

/-- The words that stand for the two truth values. -/
def Literal.booleanWord (b : Bool) : String :=
  if b then "ok" else "no"

def Literal.text : Literal → String
  | number x => Number.plain x
  | string s => "'" ++ s ++ "'"
  | boolean b => booleanWord b

inductive Node where
  | literal (value : Literal) (line : Nat)
  | reference (name : String) (line : Nat)
  | call (head : Node) (args : List Node) (line : Nat)
  | scope (body : List Node) (line : Nat)
  | collection (items : List Node) (line : Nat)
  | mapping (pairs : List (Node × Node)) (line : Nat)
  deriving Inhabited

namespace Node

def line : Node → Nat
  | literal _ line => line
  | reference _ line => line
  | call _ _ line => line
  | scope _ line => line
  | collection _ line => line
  | mapping _ line => line

/-- The name that a bare reference gives. -/
def name? : Node → Option String
  | reference name _ => some name
  | _ => none

/-- The name that a node gives as the key of a mapping. -/
def key? : Node → Option String
  | reference name _ => some name
  | literal (.string s) _ => some s
  | _ => none

mutual

/-- The text of a node. Calls and scopes are written in full brackets, and the statements of a scope
are divided by semicolons. -/
def text : Node → String
  | literal value _ => value.text
  | reference name _ => name
  | call head args _ => "(" ++ String.intercalate " " (head.text :: texts args) ++ ")"
  | scope body _ => "(" ++ String.intercalate "; " (texts body) ++ ")"
  | collection items _ => "[" ++ String.intercalate " " (texts items) ++ "]"
  | mapping pairs _ => "\x7b" ++ String.intercalate ", " (pairTexts pairs) ++ "\x7d"

def texts : List Node → List String
  | [] => []
  | n :: ns => n.text :: texts ns

def pairTexts : List (Node × Node) → List String
  | [] => []
  | (key, value) :: pairs => (key.text ++ " " ++ value.text) :: pairTexts pairs

end

theorem texts_eq_map (ns : List Node) : texts ns = ns.map text := by
  induction ns with
  | nil => rfl
  | cons n ns ih => simp [texts, ih]

/-- The text of the statements of a program, one a line. -/
def programText (statements : List Node) : String :=
  String.intercalate "\n" (texts statements)

end Node

end Sigil
