/-!
# Generators of random numbers

Where random numbers come from is left open. A generator is seeded with a word, and then answers
draws one after the other, each from the state that the one before it left.

A draw may be a search that throws numbers away until one will do. Nothing says that it ends but
`Generator.Ends`, which is a premise of the theorems that need it.
-/

namespace Sigil

/-- What can be drawn. -/
inductive Draw where
  /-- A number from zero up to, and without, one. -/
  | fraction
  /-- One of the numbers from zero to `n`. -/
  | upTo (n : Nat)

abbrev Draw.Result : Draw → Type
  | fraction => Float
  | upTo n => Fin (n + 1)

class Generator where
  State : Type
  ofSeed : UInt64 → State
  /-- What is drawn and the state after it, if the draw ends. -/
  draw (d : Draw) : State → Option (d.Result × State)

/-- Every draw ends. -/
def Generator.Ends [Generator] : Prop :=
  ∀ (d : Draw) (s : State), (draw d s).isSome = true

end Sigil
