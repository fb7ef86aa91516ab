import Sigil.Evaluation
import Sigil.Node.Reader

/-!
# Interpreters

An interpreter keeps its names from one source text to the next. A text with no tokens, or with
brackets that leave its top level unbalanced, gives a single diagnostic and is not evaluated; other
faults of its structure are reported before it is.
-/

namespace Sigil

structure Interpreter [Generator] where
  env : Environment := .initial
  random : Generator.State
  limit : Nat
  nextId : Nat := 0

/-- What came of a run: its value, and what happened, in order. -/
structure Outcome where
  value : Value
  events : List Event

namespace Outcome

def diagnostics (o : Outcome) : List Diagnostic :=
  o.events.filterMap Event.diagnostic?

def output (o : Outcome) : List String :=
  o.events.filterMap Event.printed?

/-- Whether two runs came to equal values, diagnostics and output. -/
def equal (o p : Outcome) : Bool :=
  o.value == p.value && o.diagnostics == p.diagnostics && o.output == p.output

/-- A run that evaluates nothing. -/
def refused (d : Diagnostic) : Outcome :=
  ⟨.nothing, [.report d]⟩

end Outcome

namespace Interpreter

variable [Generator]

/-- The machine on which a text is evaluated after the given events. -/
def machine (i : Interpreter) (events : List Event) : Machine :=
  { env := i.env, random := i.random, nextId := i.nextId, trace := events.reverse }

/-- The interpreter with what an evaluation left behind. -/
def keep (i : Interpreter) (m : Machine) : Interpreter :=
  { i with env := m.env, random := m.random, nextId := m.nextId }

/-- Evaluates the statements of a text with the given faults. -/
def evaluateProgram (fuel : Nat) (i : Interpreter) (statements : List Node)
    (errors : List ParseError) : Option (Outcome × Interpreter) :=
  let start := i.machine (errors.map fun e => .report (.parse e))
  (Eval.statements (evaluate i.limit fuel) statements start).map fun (v, m) =>
    (⟨v, m.trace.reverse⟩, i.keep m)

/-- Runs a source text. -/
def run (fuel : Nat) (i : Interpreter) (source : String) : Option (Outcome × Interpreter) :=
  match Token.lex source with
  | .error e => some (.refused (.lex e), i)
  | .ok tokens =>
    let (statements, errors) := parse tokens
    match errors.find? ParseError.isFatal with
    | some e => some (.refused (.parse e), i)
    | none => i.evaluateProgram fuel statements errors

/-- Runs source texts one after the other. -/
def runAll (fuel : Nat) (i : Interpreter) : List String → Option (List Outcome × Interpreter)
  | [] => some ([], i)
  | source :: sources =>
    (i.run fuel source).bind fun (o, i) =>
      (runAll fuel i sources).map fun (os, i) => (o :: os, i)

end Interpreter

/-- Whether two sequences of runs came to the same, run by run. -/
def sameOutcomes : List Outcome → List Outcome → Bool
  | [], [] => true
  | o :: os, p :: ps => o.equal p && sameOutcomes os ps
  | _, _ => false

end Sigil
