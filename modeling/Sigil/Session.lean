import Sigil.Interpreter

/-!
# Sessions

A session reads lines, runs each of them, and writes what came of it behind a prompt. It ends with
its input, or with a line that is not valid text.
-/

namespace Sigil

namespace Outcome

/-- What a session writes for a run: the printed lines, the diagnostics behind a tab, the value. -/
def transcript (o : Outcome) : String :=
  String.join (o.output.map (· ++ "\n")) ++
    String.join (o.diagnostics.map fun d => "\t" ++ d.message ++ "\n") ++
    "--> " ++ o.value.format ++ "\n"

end Outcome

namespace Session

def prompt : String := ">> "

/-- The lines of an input, each with the newline at its end; the last may be without one. `seen` is
the part of the current line before the input, newest first. -/
def lines (seen : List UInt8) : List UInt8 → List (List UInt8)
  | [] => if seen.isEmpty then [] else [seen.reverse]
  | b :: bs => if b = 10 then (b :: seen).reverse :: lines [] bs else lines (b :: seen) bs

/-- The lines before the first that is not valid text. -/
def readable : List (List UInt8) → List String
  | [] => []
  | line :: rest =>
    match String.fromUTF8? ⟨line.toArray⟩ with
    | some text => text :: readable rest
    | none => []

variable [Generator]

/-- What a session writes for lines of text. -/
def transcriptOfLines (fuel : Nat) (i : Interpreter) : List String → Option String
  | [] => some prompt
  | line :: rest =>
    (i.run fuel line).bind fun (o, i) =>
      (transcriptOfLines fuel i rest).map fun text => prompt ++ o.transcript ++ text

/-- What a session writes for an input. -/
def transcript (fuel : Nat) (i : Interpreter) (input : List UInt8) : Option String :=
  transcriptOfLines fuel i (readable (lines [] input))

end Session

end Sigil
