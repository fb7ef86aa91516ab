import Sigil.Double.Arithmetic
import Sigil.Machine

/-!
# Operators that fold

All arguments are evaluated and combined from left to right. A single collection is folded item by
item; any other single argument goes through a rule for one value. An operand that cannot be
combined with what came before it is reported and skipped.
-/

namespace Sigil

namespace Fold

/-- The operator on two numbers. -/
def numbers : Fold → Float → Float → Float
  | add, x, y => x + y
  | subtract, x, y => x - y
  | multiply, x, y => x * y
  | divide, x, y => x / y
  | remainder, x, y => Double.remainder x y
  | power, x, y => x.pow y
  | floorDivide, x, y => (x / y).floor
  | max, x, y => Double.larger x y
  | min, x, y => Double.smaller x y

/-- The operator on two values. All operators combine numbers, and addition also joins strings and
collections. -/
def combine? (op : Fold) : Value → Value → Option Value
  | .number x, .number y => some (.number (op.numbers x y))
  | .string s, .string t => if op = add then some (.string (s ++ t)) else none
  | .collection xs, .collection ys => if op = add then some (.collection (xs ++ ys)) else none
  | _, _ => none

/-- The operator on a single number, where it has a meaning of its own. -/
def single? : Fold → Option (Float → Float)
  | subtract => some fun x => -x
  | divide => some fun x => 1 / x
  | max => some Float.ceil
  | min => some Float.floor
  | _ => none

variable [Generator]

/-- The operator on a single value that is no collection. Without a meaning of its own it leaves the
value as it is. -/
def one (op : Fold) (line : Nat) (v : Value) : Eval Value :=
  match op.single?, v with
  | none, v => return v
  | some f, .number x => return .number (f x)
  | some _, v => Eval.reject line (.unsupportedArgument (.fold op) v.kind)

/-- Combines `acc` with the operands after it. -/
def operands (op : Fold) (line : Nat) : Value → List Value → Eval Value
  | acc, [] => return acc
  | acc, v :: vs =>
    match op.combine? acc v with
    | some w => operands op line w vs
    | none => do
      Eval.report line (.operands (.fold op) acc.kind v.kind)
      operands op line acc vs

def items (op : Fold) (line : Nat) : List Value → Eval Value
  | [] => return .nothing
  | v :: vs => op.operands line v vs

def call (op : Fold) (ev : Node → Eval Value) (args : List Node) (line : Nat) : Eval Value := do
  match ← Eval.all ev args with
  | [.collection vs] => op.items line vs
  | [v] => op.one line v
  | vs => op.items line vs

end Fold

end Sigil
