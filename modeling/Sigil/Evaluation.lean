import Sigil.Operator.Call

/-!
# Evaluation

Evaluating a node deeper than the limit reports once and exhausts the machine; from then on every
node is nothing, and whatever is under way winds down in silence.

`evaluate` recurses on fuel alone. Its one other argument that changes is the node, and the rules
for a node (`Eval.node`) are stated over any way to evaluate the nodes in it.
-/

namespace Sigil

variable [Generator]

namespace Eval

/-- Evaluates statements in the innermost frame, with the last result under `^`. -/
def sequence (ev : Node → Eval Value) : Value → List Node → Eval Value
  | last, [] => return last
  | _, n :: ns => do
    let v ← ev n
    set previousName v
    sequence ev v ns

def statements (ev : Node → Eval Value) (ns : List Node) : Eval Value := do
  set previousName .nothing
  sequence ev .nothing ns

/-- A collection of values of one kind. Of values of several kinds there is none, and the first
that differs from the first of all is reported. -/
def collection (line : Nat) (vs : List Value) : Eval Value :=
  match vs with
  | [] => return .collection []
  | v :: rest =>
    match rest.find? (·.kind ≠ v.kind) with
    | none => return .collection vs
    | some w => do
      report line (.mixedCollection v.kind w.kind)
      return .collection []

/-- The entries of a mapping, added to those before them. A pair with a key that is no name is
reported, and its value is not evaluated. -/
def mapping (ev : Node → Eval Value) : Table Value → List (Node × Node) → Eval Value
  | entries, [] => return .mapping entries
  | entries, (key, value) :: pairs =>
    match key.key? with
    | some name => do
      let v ← ev value
      mapping ev (Table.insert name v entries) pairs
    | none => do
      report key.line (.invalidKey key.text)
      mapping ev entries pairs

/-- Calls a value. -/
def apply (ev : Node → Eval Value) (fuel : Nat) (head : Value) (args : List Node) (line : Nat) :
    Eval Value :=
  match head with
  | .operator op => op.call ev fuel args line
  | v => reject line (.notCallable v.kind)

/-- Evaluates a call. A head that is a bare name is looked up rather than evaluated. -/
def call (ev : Node → Eval Value) (fuel : Nat) (head : Node) (args : List Node) (line : Nat) :
    Eval Value := do
  match head.name? with
  | some name =>
    match ← get? name with
    | some v => apply ev fuel v args line
    | none => reject line (.notAFunction name)
  | none =>
    let v ← ev head
    apply ev fuel v args line

/-- The value of a node, by the values of the nodes in it. -/
def node (ev : Node → Eval Value) (fuel : Nat) : Node → Eval Value
  | .literal value _ => return .ofLiteral value
  | .reference name line => do
    match ← lookup name with
    | .ok v => return v
    | .error e => reject line e
  | .call head args line => call ev fuel head args line
  | .scope body _ => inFrame (statements ev body)
  | .collection items line => do
    let vs ← all ev items
    collection line vs
  | .mapping pairs _ => mapping ev [] pairs

/-- Reports that the limit is reached, and exhausts the machine. -/
def exhaust (limit line : Nat) : Eval Value := do
  report line (.depthLimit limit)
  modify fun m => { m with exhausted := true }
  return .nothing

/-- Runs one level deeper. -/
def deeper (body : Eval Value) : Eval Value := do
  modify fun m => { m with depth := m.depth + 1 }
  let v ← body
  modify fun m => { m with depth := m.depth - 1 }
  return v

end Eval

/-- The value of a node, at most `limit` nodes deep. -/
def evaluate (limit : Nat) : Nat → Node → Eval Value
  | 0, _ => Eval.outOfFuel
  | fuel + 1, n => do
    let m ← get
    if m.exhausted then return .nothing
    else if limit ≤ m.depth then Eval.exhaust limit n.line
    else Eval.deeper (Eval.node (evaluate limit fuel) fuel n)

end Sigil
