import Sigil.Double

/-!
# The shortest decimal of a double

A double stands for every real that rounds to it. Among the decimals `digits · 10 ^ exponent` in
that window, `Decimal.ofBinary` takes one on the coarsest grid `10 ^ exponent` that has a point
there, and on that grid the point nearest to the double; halfway, the larger one.

It is enough to test the two neighbours of the double on each grid: if any point of a grid lies in
the window, so does one of them.
-/

namespace Sigil

/-- The number `digits · 10 ^ exponent`. -/
structure Decimal where
  digits : Nat
  exponent : Int
  deriving DecidableEq, Repr

namespace Decimal

open Double (Binary)

/-- The reals from `low / unit` to `high / unit` around `value / unit`. -/
structure Window where
  low : Nat
  value : Nat
  high : Nat
  unit : Nat
  /-- Whether the two ends belong to the window. -/
  closed : Bool

/-- The reals that round to a positive magnitude: half the distance to the neighbour on either
side. Below a power of two the neighbours are twice as close. A tie rounds to the even mantissa, so
the ends belong to an even one. -/
def Window.around (b : Binary) : Window :=
  let scale := 1 <<< (b.exponent - 2).toNat
  let below := if b.mantissa = Double.leadingBit ∧ Double.leastExponent < b.exponent then 1 else 2
  { low := (4 * b.mantissa - below) * scale
    value := 4 * b.mantissa * scale
    high := (4 * b.mantissa + 2) * scale
    unit := 1 <<< (2 - b.exponent).toNat
    closed := b.mantissa % 2 == 0 }

/-- The same window in units of `10 ^ k`. -/
def Window.rescale (w : Window) (k : Int) : Window :=
  let finer := Nat.pow 10 (-k).toNat
  { w with
    low := w.low * finer
    value := w.value * finer
    high := w.high * finer
    unit := w.unit * Nat.pow 10 k.toNat }

/-- Whether the whole number `c` lies in the window. -/
def Window.contains (w : Window) (c : Nat) : Bool :=
  if w.closed then w.low ≤ c * w.unit && c * w.unit ≤ w.high
  else w.low < c * w.unit && c * w.unit < w.high

/-- The whole number of the window next to its value, if there is one. -/
def Window.nearest? (w : Window) : Option Nat :=
  let c := w.value / w.unit
  match w.contains c, w.contains (c + 1) with
  | true, true => some (if w.unit ≤ 2 * (w.value - c * w.unit) then c + 1 else c)
  | true, false => some c
  | false, true => some (c + 1)
  | false, false => none

/-- Tries the grids `10 ^ k`, `10 ^ (k - 1)`, …; the last one is taken as it falls. -/
def Window.search (w : Window) : Nat → Int → Decimal
  | 0, k => ⟨(w.rescale k).value / (w.rescale k).unit, k⟩
  | tries + 1, k =>
    match (w.rescale k).nearest? with
    | some c => ⟨c, k⟩
    | none => w.search tries (k - 1)

/-- An exponent `k` with `b < 10 ^ k`: `3 / 10` and `4 / 13` enclose the logarithm of 2. -/
def ceilingExponent (b : Binary) : Int :=
  let bits : Int := b.mantissa.log2 + 1 + b.exponent
  if 0 ≤ bits then bits * 4 / 13 + 1 else bits * 3 / 10 + 1

/-- The shortest decimal that rounds to a positive magnitude. Seventeen digits are always enough,
and the first grid is at most ten places too coarse. -/
def ofBinary (b : Binary) : Decimal :=
  (Window.around b).search 30 (ceilingExponent b)

end Decimal

end Sigil
