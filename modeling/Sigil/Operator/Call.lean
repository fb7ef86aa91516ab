import Sigil.Operator.Choice
import Sigil.Operator.Comparison
import Sigil.Operator.Folding
import Sigil.Operator.Loop
import Sigil.Operator.Naming
import Sigil.Operator.Range
import Sigil.Value.Text

/-!
# Calls

Operators get their arguments as nodes, together with the means to evaluate them (`ev`), and decide
which to evaluate, in what order and how often. `fuel` bounds the loops.
-/

namespace Sigil

variable [Generator]

namespace Operator

/-- Prints the values on one line, divided by tabs, and gives the last. -/
def print (ev : Node → Eval Value) (args : List Node) : Eval Value := do
  let vs ← Eval.all ev args
  Eval.print (String.intercalate "\t" (vs.map Value.format))
  return vs.getLast?.getD .nothing

/-- Gives the value of a single argument to `f`, which may refuse it. -/
def unary (op : Builtin) (f : Value → Option Value) (ev : Node → Eval Value) (args : List Node)
    (line : Nat) : Eval Value := do
  match args with
  | [n] =>
    let v ← ev n
    match f v with
    | some w => return w
    | none => Eval.reject line (.unsupportedArgument op v.kind)
  | _ => Eval.reject line (.wrongArity op args.length (.exactly 1))

/-- A function of numbers, which refuses everything else. -/
def onNumber (f : Float → Float) : Value → Option Value
  | .number x => some (.number (f x))
  | _ => none

def lengthOf (v : Value) : Option Value :=
  v.length?.map fun n => .number (Float.ofNat n)

/-- Defines a parameter; a fault is reported at the given line. -/
def bindParameter (line : Nat) (name : String) (v : Value) : Eval Unit := do
  match ← Eval.define name v with
  | .ok () => return ()
  | .error e => Eval.report line e

/-- Binds the parameters of a function in the innermost frame, one after the other, so that an
argument can refer to the parameters before it. Parameters without an argument are nothing. -/
def bindParameters (ev : Node → Eval Value) (line : Nat) : List String → List Node → Eval Unit
  | [], _ => return ()
  | name :: names, args => do
    let v ← optional ev args.head?
    bindParameter line name v
    bindParameters ev line names args.tail

end Operator

def Function.call (f : Function) (ev : Node → Eval Value) (args : List Node) : Eval Value :=
  Eval.inFrame do
    Operator.bindParameters ev f.body.line f.parameters args
    ev f.body

def Builtin.call (b : Builtin) (ev : Node → Eval Value) (fuel : Nat) (args : List Node)
    (line : Nat) : Eval Value :=
  match b with
  | .print => Operator.print ev args
  | .choose => Operator.choose ev args
  | .loop => Operator.loop ev fuel args line
  | .random => Operator.random ev args
  | .define => Operator.define ev args line
  | .assign => Operator.assign ev args line
  | .function => Operator.makeFunction args line
  | .increment => Operator.step .increment 1 args line
  | .decrement => Operator.step .decrement (-1) args line
  | .fold op => op.call ev args line
  | .magnitude => Operator.unary .magnitude (Operator.onNumber Float.abs) ev args line
  | .sign => Operator.unary .sign (Operator.onNumber Double.sign) ev args line
  | .compare rel => rel.call ev args line
  | .not => Operator.unary .not (fun v => some (.ofTruth !v.truth)) ev args line
  | .every => Operator.every ev args
  | .any => Operator.any ev args
  | .length => Operator.unary .length Operator.lengthOf ev args line
  | .range => Operator.range ev fuel args line

def Operator.call (op : Operator) (ev : Node → Eval Value) (fuel : Nat) (args : List Node)
    (line : Nat) : Eval Value :=
  match op with
  | .builtin b => b.call ev fuel args line
  | .function f => f.call ev args

end Sigil
