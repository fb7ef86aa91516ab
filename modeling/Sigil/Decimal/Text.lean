import Sigil.Decimal.Shortest

/-!
# Texts of numbers

Two texts are in use. `Number.plain` is positional for every number and keeps the sign of zero; it
names numbers in trees and messages. `Number.format` is what a program prints: numbers from `1e21`
and below `1e-6` have an exponent, zero has no sign, and the infinities are spelled out.
-/

namespace Sigil

namespace Decimal

def zeros (n : Nat) : List Char :=
  List.replicate n '0'

/-- The digits with a point in place and no exponent. -/
def positional (d : Decimal) : String :=
  let ds := Nat.toDigits 10 d.digits
  let whole : Int := ds.length + d.exponent
  if 0 ≤ d.exponent then
    String.ofList (ds ++ zeros d.exponent.toNat)
  else if 0 < whole then
    String.ofList (ds.take whole.toNat ++ '.' :: ds.drop whole.toNat)
  else
    String.ofList ('0' :: '.' :: (zeros (-whole).toNat ++ ds))

/-- One digit before the point, and the exponent after `mark`. -/
def scientific (mark : String) (d : Decimal) : String :=
  let ds := Nat.toDigits 10 d.digits
  let fraction := if ds.length = 1 then [] else '.' :: ds.drop 1
  String.ofList (ds.take 1 ++ fraction) ++ mark ++
    toString ((ds.length : Int) - 1 + d.exponent)

end Decimal

namespace Number

def signText (negative : Bool) : String :=
  if negative then "-" else ""

/-- The shortest text that reads back as the same number, without an exponent. -/
def plain (x : Float) : String :=
  match Double.parts x with
  | .nan => "NaN"
  | .infinite negative => signText negative ++ "inf"
  | .finite negative b =>
    signText negative ++ if b.mantissa = 0 then "0" else (Decimal.ofBinary b).positional

/-- The text of a number in the output of a program. -/
def format (x : Float) : String :=
  match Double.parts x with
  | .nan => "NaN"
  | .infinite negative => signText negative ++ "Infinity"
  | .finite negative b =>
    if b.mantissa = 0 then "0"
    else
      let d := Decimal.ofBinary b
      signText negative ++
        if 1e21 ≤ x.abs then d.scientific "e+"
        else if x.abs < 1e-6 then d.scientific "e"
        else d.positional

end Number

end Sigil
