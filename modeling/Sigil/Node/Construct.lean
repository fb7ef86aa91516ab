import Sigil.Node
import Sigil.Node.Error

/-!
# Open constructs

A call or group that has begun and not ended, with the nodes it has so far. A mapping reads keys and
values in turn; a pair whose key is no name is read like any other and then dropped.
-/

namespace Sigil

/-- What a mapping waits for. A pair with a key that is no name is read and dropped; `found` and
`line` are those of the key's first token. -/
inductive Slot where
  | key
  | value (key : Node)
  | droppedKey (found : String) (line : Nat)
  | droppedValue (found : String) (line : Nat)

/-- A construct that has begun and not ended. What it holds so far is newest first. -/
inductive Construct where
  | call (name : String) (line : Nat) (args : List Node)
  | scope (line : Nat) (body : List Node) (head : Bool)
  | collection (line : Nat) (items : List Node)
  | mapping (line : Nat) (pairs : List (Node × Node)) (slot : Slot)

namespace Construct

/-- A group that has just been opened. -/
def ofGroup (g : Group) (line : Nat) : Construct :=
  match g with
  | .scope => .scope line [] true
  | .collection => .collection line []
  | .mapping => .mapping line [] .key

/-- The brackets of a construct; a call has none. -/
def group? : Construct → Option Group
  | call .. => none
  | scope .. => some .scope
  | collection .. => some .collection
  | mapping .. => some .mapping

def line : Construct → Nat
  | call _ line _ => line
  | scope line _ _ => line
  | collection line _ => line
  | mapping line _ _ => line

/-- The construct with one more node in it. -/
def add (n : Node) : Construct → Construct
  | call name line args => call name line (n :: args)
  | scope line body _ => scope line (n :: body) false
  | collection line items => collection line (n :: items)
  | mapping line pairs slot =>
    match slot with
    | .key => mapping line pairs (.value n)
    | .value key => mapping line ((key, n) :: pairs) .key
    | .droppedKey found start => mapping line pairs (.droppedValue found start)
    | .droppedValue _ _ => mapping line pairs .key

/-- The node of a construct that ends. A scope of one node is that node. -/
def node : Construct → Node
  | call name line args => .call (.reference name line) args.reverse line
  | scope _ [n] _ => n
  | scope line body _ => .scope body.reverse line
  | collection line items => .collection items.reverse line
  | mapping line pairs _ => .mapping pairs.reverse line

/-- The fault of a dropped pair, known once its value is there or cannot come. -/
def dropped : Construct → List ParseError
  | mapping _ _ (.droppedValue found line) => [.invalidKey found line]
  | _ => []

/-- The fault of a mapping that ends after a key. -/
def lacking : Construct → List ParseError
  | mapping _ _ (.value key) => [.missingValue key.text key.line]
  | _ => []

end Construct

end Sigil
