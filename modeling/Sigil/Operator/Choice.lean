import Sigil.Machine

/-!
# Operators that choose what to evaluate
-/

namespace Sigil.Operator

variable [Generator]

/-- Takes conditions and results in turn, and evaluates the result of the first condition that is
true. A last node without a partner is what is left if none is. -/
def choose (ev : Node → Eval Value) : List Node → Eval Value
  | [] => return .nothing
  | [n] => ev n
  | condition :: result :: ns => do
    let v ← ev condition
    if v.truth then ev result else choose ev ns

/-- Evaluates one of the nodes at random; without any, draws a number. -/
def random (ev : Node → Eval Value) : List Node → Eval Value
  | [] => do
    let x ← Eval.draw .fraction
    return .number x
  | n :: ns => do
    let i ← Eval.draw (.upTo ns.length)
    ev ((n :: ns).get i)

end Sigil.Operator
