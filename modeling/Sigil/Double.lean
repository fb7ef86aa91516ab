/-!
# The parts of a double

A finite double is `± mantissa · 2 ^ exponent` with a natural mantissa below `2 ^ 53`. Exact
arithmetic on doubles (`Sigil.Double.Arithmetic`) and their decimal text (`Sigil.Decimal`) are
computed from these parts.
-/

namespace Sigil.Double

/-- The number `mantissa · 2 ^ exponent`. -/
structure Binary where
  mantissa : Nat
  exponent : Int
  deriving DecidableEq, Repr

/-- What a double stands for. -/
inductive Parts where
  | nan
  | infinite (negative : Bool)
  | finite (negative : Bool) (magnitude : Binary)
  deriving DecidableEq, Repr

/-- The least exponent of a finite double. -/
def leastExponent : Int := -1074

/-- The least mantissa of a normal double. -/
def leadingBit : Nat := 1 <<< 52

/-- Reads the sign, exponent and fraction fields of the 64-bit encoding. -/
def parts (x : Float) : Parts :=
  let bits := x.toBits.toNat
  let negative := decide (1 <<< 63 ≤ bits)
  let biased := bits / leadingBit % (1 <<< 11)
  let fraction := bits % leadingBit
  if biased = (1 <<< 11) - 1 then
    if fraction = 0 then .infinite negative else .nan
  else if biased = 0 then
    .finite negative ⟨fraction, leastExponent⟩
  else
    .finite negative ⟨leadingBit + fraction, leastExponent + (biased - 1 : Nat)⟩

/-- The double `2 ^ e`, for `e` from `leastExponent` to 1023. -/
def powerOfTwo (e : Int) : Float :=
  if -1022 ≤ e then Float.ofBits ((e + 1023).toNat * leadingBit).toUInt64
  else Float.ofBits (1 <<< (e - leastExponent).toNat : Nat).toUInt64

end Sigil.Double
