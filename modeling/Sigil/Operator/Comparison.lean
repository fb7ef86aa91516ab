import Sigil.Machine

/-!
# Operators that compare

A comparison goes through its arguments and stops at the first pair of neighbours that fails;
arguments after it are not evaluated. The tests of truth stop as soon as they are decided. All of
them give the numbers one and zero.
-/

namespace Sigil

namespace Relation

/-- The orderings that a relation accepts. -/
def accepts : Relation → Ordering → Bool
  | equal, o => o.isEq
  | notEqual, o => o.isNe
  | less, o => o.isLT
  | greater, o => o.isGT
  | lessEqual, o => o.isLE
  | greaterEqual, o => o.isGE

/-- Whether a relation holds between values that are ordered. Two numbers of which one is not a
number are in no order; other values have none, and then there is no answer. -/
def ordered? (rel : Relation) (v w : Value) : Option Bool :=
  match v.compare? w, v, w with
  | some o, _, _ => some (rel.accepts o)
  | none, .number _, .number _ => some false
  | none, _, _ => none

/-- Whether a relation holds between two values. -/
def holds? : Relation → Value → Value → Option Bool
  | equal, v, w => some (v == w)
  | notEqual, v, w => some (v != w)
  | rel, v, w => rel.ordered? v w

variable [Generator]

/-- Goes on with the neighbour of `v`. -/
def chain (rel : Relation) (ev : Node → Eval Value) (line : Nat) : Value → List Node → Eval Value
  | _, [] => return .ofTruth true
  | v, n :: ns => do
    let w ← ev n
    match rel.holds? v w with
    | some true => chain rel ev line w ns
    | some false => return .ofTruth false
    | none =>
      Eval.report line (.operands (.compare rel) v.kind w.kind)
      return .ofTruth false

def call (rel : Relation) (ev : Node → Eval Value) (args : List Node) (line : Nat) :
    Eval Value :=
  match args with
  | [] => return .ofTruth true
  | n :: ns => do
    let v ← ev n
    rel.chain ev line v ns

end Relation

namespace Operator

variable [Generator]

/-- Whether every node is true; the first that is not decides. -/
def every (ev : Node → Eval Value) : List Node → Eval Value
  | [] => return .ofTruth true
  | n :: ns => do
    let v ← ev n
    if v.truth then every ev ns else return .ofTruth false

/-- Whether any node is true; the first that is decides. -/
def any (ev : Node → Eval Value) : List Node → Eval Value
  | [] => return .ofTruth false
  | n :: ns => do
    let v ← ev n
    if v.truth then return .ofTruth true else any ev ns

end Operator

end Sigil
