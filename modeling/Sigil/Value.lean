import Sigil.Builtin
import Sigil.Node
import Sigil.Table

/-!
# Values

A function keeps its parameters and its body and no environment: the body runs among the frames that
are active where it is called. Two functions are the same only if they come from one evaluation of
one definition, which `id` tells apart.
-/

namespace Sigil

structure Function where
  id : Nat
  parameters : List String
  body : Node

def Function.text (f : Function) : String :=
  "(~ " ++ String.intercalate " " f.parameters ++ " " ++ f.body.text ++ ")"

inductive Operator where
  | builtin (b : Builtin)
  | function (f : Function)

inductive Value where
  | number (x : Float)
  | string (s : String)
  | boolean (b : Bool)
  | collection (items : List Value)
  | mapping (entries : List (String × Value))
  | operator (op : Operator)
  | nothing
  deriving Inhabited

inductive Kind where
  | number
  | string
  | boolean
  | collection
  | mapping
  | operator
  | nothing
  deriving DecidableEq, Repr

def Kind.name : Kind → String
  | number => "Number"
  | string => "String"
  | boolean => "Boolean"
  | collection => "Collection"
  | mapping => "Mapping"
  | operator => "Operator"
  | nothing => "Nothing"

namespace Value

def kind : Value → Kind
  | number _ => .number
  | string _ => .string
  | boolean _ => .boolean
  | collection _ => .collection
  | mapping _ => .mapping
  | operator _ => .operator
  | nothing => .nothing

def isNothing : Value → Bool
  | nothing => true
  | _ => false

def ofLiteral : Literal → Value
  | .number x => number x
  | .string s => string s
  | .boolean b => boolean b

/-- The number that tests give: one for true and zero for false. -/
def ofTruth (b : Bool) : Value :=
  number (if b then 1 else 0)

/-- Whether a value counts as true. Nothing, false, zero, what is not a number and the empty string
do not; collections and mappings do, even empty ones. -/
def truth : Value → Bool
  | nothing => false
  | boolean b => b
  | number x => !(x == 0) && !x.isNaN
  | string s => !s.isEmpty
  | collection _ | mapping _ | operator _ => true

/-- The character of a string of one character. -/
def char? : Value → Option Char
  | string s =>
    match s.toList with
    | [c] => some c
    | _ => none
  | _ => none

/-- The text of a string, or of a collection of characters that is not empty. -/
def asText? : Value → Option String
  | string s => some s
  | collection items => if items.isEmpty then none else (items.mapM char?).map String.ofList
  | _ => none

/-- The number of characters, items or entries. -/
def length? : Value → Option Nat
  | string s => some s.length
  | collection items => some items.length
  | mapping entries => some entries.length
  | _ => none

/-- Items with their positions, counted from zero. -/
def indexed (items : List Value) : List (Value × Value) :=
  items.zipIdx.map fun (item, i) => (number (Float.ofNat i), item)

/-- What a loop goes over: items and characters by position, entries of a mapping by key. -/
def entries? : Value → Option (List (Value × Value))
  | collection items => some (indexed items)
  | string s => some (indexed (s.toList.map fun c => string c.toString))
  | mapping entries => some (entries.map fun (key, value) => (string key, value))
  | _ => none

def compareFloat? (x y : Float) : Option Ordering :=
  if x < y then some .lt
  else if x == y then some .eq
  else if y < x then some .gt
  else none

/-- Numbers are ordered by size and strings by code points; nothing else is ordered. -/
def compare? : Value → Value → Option Ordering
  | number x, number y => compareFloat? x y
  | string x, string y => some (if x < y then .lt else if x = y then .eq else .gt)
  | _, _ => none

end Value

end Sigil
