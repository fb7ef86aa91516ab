import Sigil.Environment
import Sigil.Generator

/-!
# The state of an evaluation

An evaluation changes a `Machine`, and has no answer at all if its fuel runs out (`Eval.outOfFuel`)
or a draw from the generator does not end. The operations of this module are the only ones that
touch the state; everything above them is put together from these.

Once the machine is exhausted nothing more is reported or printed.
-/

namespace Sigil

/-- The name of the previous result in a frame. -/
def previousName : String := "^"

variable [Generator]

structure Machine where
  env : Environment
  random : Generator.State
  /-- The identity of the next function. -/
  nextId : Nat
  /-- The number of nodes whose evaluation is under way. -/
  depth : Nat := 0
  /-- Whether the depth limit was reached. -/
  exhausted : Bool := false
  /-- What happened so far, the latest first. -/
  trace : List Event := []

/-- A computation on the machine that gives an `α` if its fuel is enough. -/
abbrev Eval := StateT Machine Option

namespace Machine

def emit (m : Machine) (e : Event) : Machine :=
  if m.exhausted then m else { m with trace := e :: m.trace }

end Machine

namespace Eval

variable {α : Type}

def outOfFuel : Eval α :=
  fun _ => none

def report (line : Nat) (e : EvalError) : Eval Unit :=
  modify fun m => m.emit (.report (.eval e line))

def print (text : String) : Eval Unit :=
  modify fun m => m.emit (.print text)

/-- Reports a fault and goes on with nothing. -/
def reject (line : Nat) (e : EvalError) : Eval Value := do
  report line e
  return .nothing

def get? (name : String) : Eval (Option Value) := do
  return (← get).env.get? name

def lookup (name : String) : Eval (Except EvalError Value) := do
  return (← get).env.lookup name

def set (name : String) (v : Value) : Eval Unit :=
  modify fun m => { m with env := m.env.set name v }

def define (name : String) (v : Value) : Eval (Except EvalError Unit) := do
  let m ← get
  let (answer, env) := m.env.define name v
  StateT.set { m with env }
  return answer

def assign (name : String) (v : Value) : Eval (Except EvalError Value) := do
  let m ← get
  let (answer, env) := m.env.assign name v
  StateT.set { m with env }
  return answer

/-- Runs in a frame of its own, which is gone afterwards. -/
def inFrame (body : Eval α) : Eval α := do
  modify fun m => { m with env := m.env.push }
  let a ← body
  modify fun m => { m with env := m.env.pop }
  return a

/-- Draws from the generator. A draw that does not end has no answer, whatever the fuel. -/
def draw (d : Draw) : Eval d.Result := fun m =>
  (Generator.draw d m.random).map fun (a, random) => (a, { m with random })

/-- An identity that no function has had. -/
def freshId : Eval Nat := do
  let m ← get
  StateT.set { m with nextId := m.nextId + 1 }
  return m.nextId

/-- Evaluates nodes from left to right. -/
def all (ev : Node → Eval Value) : List Node → Eval (List Value)
  | [] => return []
  | n :: ns => do
    let v ← ev n
    let vs ← all ev ns
    return v :: vs

/-- The name that an argument of `op` gives; anything but a bare reference is reported. -/
def nameOf (op : Builtin) (n : Node) : Eval (Option String) :=
  match n.name? with
  | some name => return some name
  | none => do
    report n.line (.invalidName op)
    return none

end Eval

end Sigil
