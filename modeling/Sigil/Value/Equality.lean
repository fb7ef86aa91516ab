import Sigil.Value

/-!
# Equality of values

A string equals the collection of its characters. Mappings are equal if they bind the same keys to
equal values, in whatever order. Builtin operators are equal by symbol and functions by identity. A
number that is not one equals nothing, itself included.
-/

namespace Sigil

def Operator.equal : Operator → Operator → Bool
  | builtin b, builtin c => b == c
  | function f, function g => f.id == g.id
  | _, _ => false

namespace Value

/-- Whether two values have the same text. -/
def sameText (v w : Value) : Bool :=
  match v.asText?, w.asText? with
  | some s, some t => s == t
  | _, _ => false

mutual

def equal : Value → Value → Bool
  | number x, number y => x == y
  | string s, string t => s == t
  | boolean b, boolean c => b == c
  | collection xs, collection ys => equalItems xs ys
  | mapping xs, mapping ys => xs.length == ys.length && equalEntries xs ys
  | operator o, operator p => o.equal p
  | nothing, nothing => true
  | string s, collection ys => sameText (string s) (collection ys)
  | collection xs, string t => sameText (collection xs) (string t)
  | _, _ => false

def equalItems : List Value → List Value → Bool
  | [], [] => true
  | x :: xs, y :: ys => x.equal y && equalItems xs ys
  | _, _ => false

/-- Whether every entry of the first table has an equal one in the second. -/
def equalEntries : List (String × Value) → List (String × Value) → Bool
  | [], _ => true
  | (key, x) :: xs, ys =>
    (match Table.get? key ys with
      | some y => x.equal y
      | none => false) && equalEntries xs ys

end

instance : BEq Value := ⟨equal⟩

end Value

end Sigil
