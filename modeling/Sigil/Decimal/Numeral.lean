/-!
# Numerals

A numeral is a decimal `-?digits`, `-?digits.digits` or `-?.digits`, or a whole number in base 16
after `0x` or in base 2 after `0b`. A whole number in one of these bases may have a sign of its own
after the mark, and it has to fit in 64 bits with a sign. Every numeral is read as the nearest
double, a tie going to the even one.
-/

namespace Sigil.Numeral

/-- The value of a character as a digit of a base up to 16. -/
def digit? (base : Nat) (c : Char) : Option Nat :=
  let value? :=
    if '0' ≤ c ∧ c ≤ '9' then some (c.toNat - '0'.toNat)
    else if 'a' ≤ c ∧ c ≤ 'f' then some (c.toNat - 'a'.toNat + 10)
    else if 'A' ≤ c ∧ c ≤ 'F' then some (c.toNat - 'A'.toNat + 10)
    else none
  value?.filter (· < base)

/-- The number that the digits of a base spell, from the value `acc` of those before them. -/
def digitsFrom? (base acc : Nat) : List Char → Option Nat
  | [] => some acc
  | c :: cs => (digit? base c).bind fun d => digitsFrom? base (acc * base + d) cs

/-- A natural number of at least one digit. -/
def natural? (base : Nat) (cs : List Char) : Option Nat :=
  if cs.isEmpty then none else digitsFrom? base 0 cs

/-- A whole number with an optional sign that fits in 64 bits. -/
def whole? (base : Nat) (cs : List Char) : Option Int :=
  let unbounded? : Option Int :=
    match cs with
    | '-' :: cs => (natural? base cs).map fun n => -(n : Int)
    | '+' :: cs => (natural? base cs).map fun n => (n : Int)
    | cs => (natural? base cs).map fun n => (n : Int)
  unbounded?.filter fun n => Int64.minValue.toInt ≤ n && n ≤ Int64.maxValue.toInt

/-- A decimal without its sign: the digits before the point may be missing, those after it not. -/
def unsigned? (cs : List Char) : Option Float :=
  let whole := cs.takeWhile (· ≠ '.')
  match cs.dropWhile (· ≠ '.') with
  | [] => (natural? 10 whole).map fun n => Float.ofScientific n false 0
  | _ :: fraction =>
    if fraction.isEmpty then none
    else (digitsFrom? 10 0 (whole ++ fraction)).map fun n =>
      Float.ofScientific n true fraction.length

def decimal? : List Char → Option Float
  | '-' :: cs => (unsigned? cs).map (- ·)
  | cs => unsigned? cs

/-- The number that a numeral spells; none for any other text. -/
def read? : List Char → Option Float
  | '0' :: 'x' :: cs => (whole? 16 cs).map Float.ofInt
  | '0' :: 'b' :: cs => (whole? 2 cs).map Float.ofInt
  | cs => decimal? cs

end Sigil.Numeral
