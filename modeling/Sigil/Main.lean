import Sigil.Config
import Sigil.Random
import Sigil.Session

/-!
# The interactive interpreter
-/

namespace Sigil.Session

/-- Enough for every evaluation that ends in a lifetime. -/
def fuel : Nat := 1 <<< 60

/-- Reads and runs lines until the input ends. -/
partial def talk [Generator] (i : Interpreter) : IO Unit := do
  let out ← IO.getStdout
  out.putStr prompt
  out.flush
  let line ← try (← IO.getStdin).getLine catch _ => pure ""
  if line.isEmpty then return
  match i.run fuel line with
  | none => return
  | some (o, i) =>
    out.putStr o.transcript
    talk i

end Sigil.Session

open scoped Sigil.Random

def main : IO Unit := do
  IO.println "Hello! This is the joc programming language!"
  IO.println "Feel free to type in commands"
  let config := Sigil.Config.ofSeedText (← IO.getEnv Sigil.Config.seedVariable)
  let bytes ← IO.getRandomBytes 8
  let entropy := bytes.toList.foldl (fun n b => n * 256 + b.toUInt64) 0
  Sigil.Session.talk (config.interpreter (Sigil.Generator.ofSeed entropy))
