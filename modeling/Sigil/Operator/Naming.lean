import Sigil.Machine

/-!
# Operators that bind names

Definitions go to the innermost frame, assignments to the nearest frame that binds the name. Both
take their arguments in pairs of a name and a value; a last name without a value is bound to
nothing. A pair whose name is none, or may not be bound, is reported and skipped.
-/

namespace Sigil.Operator

variable [Generator]

/-- The value for a name: that of the node after it, if there is one. -/
def optional (ev : Node → Eval Value) : Option Node → Eval Value
  | some n => ev n
  | none => return .nothing

/-- Goes through pairs of a name and a value. `bind` makes a binding and gives the result of the
pair; the result of the last pair without a fault is that of the whole. -/
def pairs (op : Builtin) (bind : String → Value → Eval (Except EvalError Value))
    (ev : Node → Eval Value) (line : Nat) : Value → List Node → Eval Value
  | result, [] => return result
  | result, [n] => pair result n none
  | result, n :: value :: ns => do
    let result ← pair result n (some value)
    pairs op bind ev line result ns
where
  pair (result : Value) (n : Node) (value? : Option Node) : Eval Value := do
    match ← Eval.nameOf op n with
    | none => return result
    | some name =>
      let v ← optional ev value?
      match ← bind name v with
      | .ok w => return w
      | .error e =>
        Eval.report line e
        return result

/-- Defines a name, with the value as the result. -/
def defining (name : String) (v : Value) : Eval (Except EvalError Value) := do
  match ← Eval.define name v with
  | .ok () => return .ok v
  | .error e => return .error e

def define (ev : Node → Eval Value) (args : List Node) (line : Nat) : Eval Value :=
  pairs .define defining ev line .nothing args

/-- The result of an assignment is the value that the name had before. -/
def assign (ev : Node → Eval Value) (args : List Node) (line : Nat) : Eval Value :=
  pairs .assign Eval.assign ev line .nothing args

/-- The names that parameters give, up to the first that gives none. -/
def parameters : List Node → Eval (Option (List String))
  | [] => return some []
  | n :: ns => do
    match ← Eval.nameOf .function n with
    | none => return none
    | some name =>
      match ← parameters ns with
      | none => return none
      | some names => return some (name :: names)

/-- Makes a function of parameters and a body. -/
def makeFunction (args : List Node) (line : Nat) : Eval Value := do
  match args.getLast? with
  | none => Eval.reject line (.wrongArity .function 0 (.atLeast 1))
  | some body =>
    match ← parameters args.dropLast with
    | none => return .nothing
    | some names =>
      let id ← Eval.freshId
      return .operator (.function ⟨id, names, body⟩)

/-- Adds `delta` to the number that a name is bound to. -/
def advance (op : Builtin) (delta : Float) (name : String) (line : Nat) : Eval Value := do
  match ← Eval.get? name with
  | none => Eval.reject line (.undeclared name)
  | some (.number x) =>
    match ← Eval.assign name (.number (x + delta)) with
    | .ok _ => return .number (x + delta)
    | .error e => Eval.reject line e
  | some v => Eval.reject line (.unsupportedArgument op v.kind)

def step (op : Builtin) (delta : Float) (args : List Node) (line : Nat) : Eval Value := do
  match args with
  | [n] =>
    match ← Eval.nameOf op n with
    | none => return .nothing
    | some name => advance op delta name line
  | _ => Eval.reject line (.wrongArity op args.length (.exactly 1))

end Sigil.Operator
