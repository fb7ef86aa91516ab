import Sigil.Generator

/-!
# The generator of the program

A generator of 64-bit words with a counter for a state: the counter goes up by an odd constant, and
each value of it is mixed by multiplications and shifts that can be undone. Every draw takes one
word.

It is an instance only where it is opened: in the program, and for runs on fixed texts.
-/

namespace Sigil

structure Random where
  state : UInt64

namespace Random

def mix (z : UInt64) : UInt64 :=
  let z := (z ^^^ (z >>> 30)) * 0xbf58476d1ce4e5b9
  let z := (z ^^^ (z >>> 27)) * 0x94d049bb133111eb
  z ^^^ (z >>> 31)

/-- The next word, and the generator after it. -/
def next (r : Random) : UInt64 × Random :=
  let state := r.state + 0x9e3779b97f4a7c15
  (mix state, ⟨state⟩)

/-- What a word gives for a draw; the fraction is that of its upper 53 bits. -/
def ofWord (word : UInt64) : (d : Draw) → d.Result
  | .fraction => (word >>> 11).toFloat / 9007199254740992
  | .upTo n => Fin.ofNat (n + 1) word.toNat

scoped instance : Generator where
  State := Random
  ofSeed seed := ⟨seed⟩
  draw d r := some (ofWord r.next.1 d, r.next.2)

theorem ends : Generator.Ends :=
  fun _ _ => rfl

end Random

end Sigil
