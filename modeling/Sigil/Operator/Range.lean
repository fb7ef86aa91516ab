import Sigil.Machine

/-!
# Ranges

The numbers `first`, `first + step`, `first + step * 2`, … below `last`. How many there are is
decided by rounded arithmetic, so that the search for the end uses up fuel.
-/

namespace Sigil

structure Range where
  first : Float
  last : Float
  step : Float

namespace Range

/-- The range of up to three bounds. With one it starts at zero, and the step is one unless it is
given. -/
def ofBounds? : List Float → Option Range
  | [last] => some ⟨0, last, 1⟩
  | [first, last] => some ⟨first, last, 1⟩
  | [first, last, step] => some ⟨first, last, step⟩
  | _ => none

/-- Whether a range goes upwards between finite bounds. -/
def isValid (r : Range) : Bool :=
  !(r.last < r.first) && !(r.step ≤ 0) &&
    (r.first.isFinite && r.last.isFinite && r.step.isFinite)

/-- The numbers from the `k`-th on, behind those in `seen`, which is newest first. Here `k` never
overflows. Counted by a signed number of 32 bits it would, behind the first `2 ^ 31` numbers. -/
def numbersFrom? (r : Range) : Nat → Nat → List Value → Option (List Value)
  | 0, _, _ => none
  | fuel + 1, k, seen =>
    let x := r.first + r.step * Float.ofNat k
    if x < r.last then numbersFrom? r fuel (k + 1) (.number x :: seen) else some seen.reverse

end Range

namespace Operator

variable [Generator]

/-- The numbers that nodes evaluate to, up to the first that does not. -/
def bounds (ev : Node → Eval Value) (line : Nat) : List Node → Eval (Option (List Float))
  | [] => return some []
  | n :: ns => do
    match ← ev n with
    | .number x =>
      match ← bounds ev line ns with
      | none => return none
      | some xs => return some (x :: xs)
    | v =>
      Eval.report line (.unsupportedArgument .range v.kind)
      return none

/-- The collection of a range that is not empty by rule. -/
def numbers (fuel : Nat) (r : Range) (line : Nat) : Eval Value :=
  if r.isValid then
    match r.numbersFrom? fuel 0 [] with
    | none => Eval.outOfFuel
    | some vs => return .collection vs
  else do
    Eval.report line (.invalidRange r.first r.last r.step)
    return .collection []

def range (ev : Node → Eval Value) (fuel : Nat) (args : List Node) (line : Nat) : Eval Value := do
  if 3 < args.length then
    Eval.report line (.wrongArity .range args.length (.between 0 3))
    return .collection []
  else
    match (← bounds ev line args).bind Range.ofBounds? with
    | none => return .collection []
    | some r => numbers fuel r line

end Operator

end Sigil
