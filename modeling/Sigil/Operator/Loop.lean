import Sigil.Machine

/-!
# Loops

The loop operator has three forms. With one argument it evaluates the argument until it is not true,
with two it evaluates the second while the first is true, and with more it goes through the entries
of a collection, string or mapping. Only the first two can go on for ever, and they use up fuel.
-/

namespace Sigil.Operator

variable [Generator]

/-- Evaluates a node until it is not true, and gives that last value. -/
def untilFalse (ev : Node → Eval Value) (n : Node) : Nat → Eval Value
  | 0 => Eval.outOfFuel
  | fuel + 1 => do
    let v ← ev n
    if v.truth then untilFalse ev n fuel else return v

/-- Evaluates `body` while `condition` is true, and gives the last value of `body`. -/
def whileTrue (ev : Node → Eval Value) (condition body : Node) : Nat → Value → Eval Value
  | 0, _ => Eval.outOfFuel
  | fuel + 1, last => do
    let v ← ev condition
    if v.truth then
      let last ← ev body
      whileTrue ev condition body fuel last
    else return last

/-- Binds the names of a loop for one entry: the last result, the index, and the value if it has a
name. -/
def bindEntry (index : String) (value? : Option String) (last key item : Value) : Eval Unit := do
  Eval.set previousName last
  Eval.set index key
  match value? with
  | some name => Eval.set name item
  | none => return ()

/-- Evaluates `body` once per entry, and gives its last value. -/
def entries (ev : Node → Eval Value) (index : String) (value? : Option String) (body : Node) :
    Value → List (Value × Value) → Eval Value
  | last, [] => return last
  | last, (key, item) :: rest => do
    bindEntry index value? last key item
    let last ← ev body
    entries ev index value? body last rest

/-- The name of the value in a loop over entries: there may be none to give. -/
def valueName : Option Node → Eval (Option (Option String))
  | none => return some none
  | some n => do
    match ← Eval.nameOf .loop n with
    | none => return none
    | some name => return some (some name)

/-- Goes through the entries of a value, in a frame of its own. -/
def iterate (ev : Node → Eval Value) (line : Nat) (source index : Node) (value? : Option Node)
    (body : Node) : Eval Value := do
  let v ← ev source
  match v.entries? with
  | none => Eval.reject line (.unsupportedArgument .loop v.kind)
  | some es =>
    match ← Eval.nameOf .loop index with
    | none => return .nothing
    | some name =>
      match ← valueName value? with
      | none => return .nothing
      | some value? => Eval.inFrame (entries ev name value? body .nothing es)

def loop (ev : Node → Eval Value) (fuel : Nat) (args : List Node) (line : Nat) : Eval Value :=
  match args with
  | [n] => untilFalse ev n fuel
  | [condition, body] => whileTrue ev condition body fuel .nothing
  | [source, index, body] => iterate ev line source index none body
  | [source, index, value, body] => iterate ev line source index (some value) body
  | _ => Eval.reject line (.wrongArity .loop args.length (.between 1 4))

end Sigil.Operator
