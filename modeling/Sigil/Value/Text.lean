import Sigil.Value

/-!
# Texts of values

What a program prints for a value. A collection inside another starts on a line of its own, two
spaces deeper than the one around it, unless it is the text of its characters. A mapping has a line
for each entry.
-/

namespace Sigil.Value

/-- The start of a collection that lies `level` collections deep. -/
def indent (level : Nat) : String :=
  (if level = 0 then "" else "\n") ++ String.ofList (List.replicate (2 * level) ' ')

mutual

def formatAt (level : Nat) : Value → String
  | number x => Number.format x
  | string s => s
  | boolean b => Literal.booleanWord b
  | collection items =>
    match asText? (collection items) with
    | some s => s
    | none =>
      indent level ++ "[ " ++ String.intercalate " " (formatItems (level + 1) items) ++ " ]"
  | mapping entries => "\x7b\n" ++ String.join (formatEntries entries) ++ "\x7d"
  | operator _ => "(~ ...)"
  | nothing => "∅"

def formatItems (level : Nat) : List Value → List String
  | [] => []
  | v :: vs => formatAt level v :: formatItems level vs

def formatEntries : List (String × Value) → List String
  | [] => []
  | (key, v) :: entries => (key ++ " → " ++ formatAt 0 v ++ "\n") :: formatEntries entries

end

/-- The text of a value in the output of a program. -/
def format (v : Value) : String :=
  formatAt 0 v

theorem formatItems_eq_map (level : Nat) (vs : List Value) :
    formatItems level vs = vs.map (formatAt level) := by
  induction vs with
  | nil => rfl
  | cons v vs ih => simp [formatItems, ih]

end Sigil.Value
