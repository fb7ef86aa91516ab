import Sigil.Decimal.Numeral
import Sigil.Interpreter
import Sigil.Text.Blank

/-!
# Configuration
-/

namespace Sigil

structure Config where
  /-- The seed of the random numbers, if it is fixed. -/
  seed : Option UInt64 := none
  /-- How deep evaluation may go. -/
  limit : Nat := 256

namespace Config

/-- The variable of the surroundings that fixes the seed. -/
def seedVariable : String := "JOC_SEED"

/-- A seed is a natural number of 64 bits, with blanks around it and a plus sign before it if one
likes. -/
def seed? (text : String) : Option UInt64 :=
  let digits :=
    match Text.trim text with
    | '+' :: cs => cs
    | cs => cs
  ((Numeral.natural? 10 digits).filter (· < UInt64.size)).map Nat.toUInt64

/-- The configuration for a text of the seed, if there is any. A text that is no seed counts for
nothing. -/
def ofSeedText (text? : Option String) : Config :=
  { seed := text?.bind seed? }

/-- A new interpreter. `fresh` is the state of its generator if no seed is fixed. -/
def interpreter [Generator] (c : Config) (fresh : Generator.State) : Interpreter where
  random := c.seed.elim fresh Generator.ofSeed
  limit := c.limit

end Config

end Sigil
