/-!
# Bracketed groups

Three pairs of brackets make groups of nodes: a scope `( )`, a collection `[ ]` and a mapping
`{ }`.
-/

namespace Sigil

inductive Group where
  | scope
  | collection
  | mapping
  deriving DecidableEq, Repr

namespace Group

def opening : Group → Char
  | scope => '('
  | collection => '['
  | mapping => '\x7b'

def closing : Group → Char
  | scope => ')'
  | collection => ']'
  | mapping => '\x7d'

def name : Group → String
  | scope => "scope"
  | collection => "collection"
  | mapping => "mapping"

theorem opening_injective {g h : Group} (e : g.opening = h.opening) : g = h := by
  cases g <;> cases h <;> first | rfl | exact absurd e (by decide)

theorem closing_injective {g h : Group} (e : g.closing = h.closing) : g = h := by
  cases g <;> cases h <;> first | rfl | exact absurd e (by decide)

end Group

end Sigil
