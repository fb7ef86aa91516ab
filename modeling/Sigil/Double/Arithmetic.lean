import Sigil.Double

/-!
# Arithmetic on doubles

The operations on numbers that the machine does not give directly: the exact remainder, the larger
and the smaller of two numbers, and the sign.
-/

namespace Sigil.Double

/-- The remainder of two magnitudes on their common grid `2 ^ exponent`. -/
def Binary.remainder (x y : Binary) : Binary :=
  let e := min x.exponent y.exponent
  ⟨(x.mantissa <<< (x.exponent - e).toNat) % (y.mantissa <<< (y.exponent - e).toNat), e⟩

/-- A magnitude with a mantissa below `2 ^ 53`, as a double: the product is exact. -/
def Binary.toFloat (b : Binary) : Float :=
  Float.ofNat b.mantissa * powerOfTwo b.exponent

def withSign (negative : Bool) (x : Float) : Float :=
  if negative then -x else x

def notANumber : Float := 0 / 0

/-- What is left of `x` after taking `y` away a whole number of times, with the sign of `x`.
There is none if `x` is infinite or `y` is zero; an infinite `y` is never taken away. -/
def remainder (x y : Float) : Float :=
  match parts x, parts y with
  | .finite negative a, .finite _ b =>
    if b.mantissa = 0 then notANumber else withSign negative (a.remainder b).toFloat
  | .finite .., .infinite _ => x
  | _, _ => notANumber

/-- The larger of two numbers. One that is not a number gives way to the other, and of two equal
numbers the first is kept. -/
def larger (x y : Float) : Float :=
  if x.isNaN || x < y then y else x

/-- The smaller of two numbers, with the same preferences as `larger`. -/
def smaller (x y : Float) : Float :=
  if x.isNaN || y < x then y else x

/-- One with the sign of `x`; zero has sign zero, and what is not a number has no sign. -/
def sign (x : Float) : Float :=
  if x == 0 then 0 else if x.isNaN then x else if x < 0 then -1 else 1

end Sigil.Double
