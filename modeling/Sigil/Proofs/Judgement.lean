import Sigil.Proofs.Congruence

/-!
# Judgements about evaluation

A `Judgement` compares two computations of one type, where `P` is what their results satisfy. It is
`Closed` if it holds of the operations on the machine and passes from the parts of a computation to
the whole. It is then a congruent correspondence in which no line is renumbered, and holds of
statements and, once it survives the depth limit, of `evaluate` itself (`Closed.evaluate`).

Most judgements look at one of the two computations only. The two sides may have different limits,
and the second may have more fuel.
-/

namespace Sigil

variable [Generator]

abbrev Judgement := {α : Type} → (α → Prop) → Eval α → Eval α → Prop

namespace Judgement

/-- A judgement that holds of every operation of the machine and passes from parts to the whole. -/
structure Closed (V : Vocabulary) (J : Judgement) : Prop where
  pure : ∀ {α : Type} {P : α → Prop} {a : α}, P a → J P (pure a) (pure a)
  bind : ∀ {α β : Type} {P : α → Prop} {Q : β → Prop} {x y : Eval α} {f g : α → Eval β},
    J P x y → (∀ a, P a → J Q (f a) (g a)) → J Q (x >>= f) (y >>= g)
  outOfFuel : ∀ {α : Type} {P : α → Prop}, J P Eval.outOfFuel Eval.outOfFuel
  /-- The first computation may run out of fuel where the second goes on. -/
  cut : ∀ {α : Type} {P : α → Prop} {x y : Eval α}, J P x y → J P Eval.outOfFuel y
  report : ∀ {line : Nat} {e : EvalError}, V.line line → V.fault e →
    J (fun _ => True) (Eval.report line e) (Eval.report line e)
  print : ∀ {text : String}, J (fun _ => True) (Eval.print text) (Eval.print text)
  get? : ∀ {name : String}, V.name name →
    J (fun o => ∀ v, o = some v → V.value v) (Eval.get? name) (Eval.get? name)
  callee : ∀ {name : String}, V.callee name →
    J (fun o => ∀ v, o = some v → V.callable v) (Eval.get? name) (Eval.get? name)
  set : ∀ {name : String} {v : Value}, V.name name → V.value v →
    J (fun _ => True) (Eval.set name v) (Eval.set name v)
  define : ∀ {name : String} {v : Value}, V.name name → V.value v →
    J (Answers fun _ => True) (Eval.define name v) (Eval.define name v)
  assign : ∀ {name : String} {v : Value}, V.name name → V.value v →
    J (Answers V.value) (Eval.assign name v) (Eval.assign name v)
  inFrame : ∀ {α : Type} {P : α → Prop} {x y : Eval α}, J P x y →
    J P (Eval.inFrame x) (Eval.inFrame y)
  draw : ∀ {d : Draw}, J (fun _ => True) (Eval.draw d) (Eval.draw d)
  freshId : J (fun _ => True) Eval.freshId Eval.freshId

namespace Closed

variable {V : Vocabulary} {J : Judgement} (h : J.Closed V)

include h

theorem congruent : Correspondence.Congruent V id fun P x y => J P x y where
  pure ha := by rw [Lined.renumber_id]; exact h.pure ha
  bind hx hf := h.bind hx fun a ha => by
    have := hf a ha
    rwa [Lined.renumber_id] at this
  report := h.report
  print := h.print
  get? := h.get?
  callee := h.callee
  set hn hv := by rw [Lined.renumber_id]; exact h.set hn hv
  define hn hv := by rw [Lined.renumber_id]; exact h.define hn hv
  assign hn hv := by rw [Lined.renumber_id]; exact h.assign hn hv
  inFrame := h.inFrame
  draw hf := h.bind h.draw fun a _ => hf a
  freshId hf := h.bind h.freshId fun id _ => hf id

theorem statements {ev ev' : Node → Eval Value} (hev : ∀ n, V.node n → J V.value (ev n) (ev' n))
    {ns : List Node} (hn : ∀ n ∈ ns, V.node n) :
    J V.value (Eval.statements ev ns) (Eval.statements ev' ns) := by
  have whole := h.congruent.framed.statements
    (fun n hn => by rw [Lined.renumber_id]; exact hev n hn) hn
  rwa [Lined.renumber_id] at whole

/-- A judgement on the nodes that an operator is given passes to the call, in which the second side
may have more fuel. -/
theorem call {ev ev' : Node → Eval Value} (hev : ∀ n, V.node n → J V.value (ev n) (ev' n))
    {f f' : Nat} (hf : f ≤ f') {op : Operator} (hop : V.callable (.operator op))
    {args : List Node} (ha : ∀ n ∈ args, V.node n) {line : Nat} (hl : V.line line) :
    J V.value (op.call ev f args line) (op.call ev' f' args line) := by
  have parts : ∀ n, V.node n → J V.value (ev n) (ev' (renumber id n)) := fun n hn => by
    rw [Lined.renumber_id]; exact hev n hn
  have loops := h.congruent.framed.unbounded h.outOfFuel parts (.inr ⟨hf, h.cut⟩)
  have whole := h.congruent.framed.apply parts loops hop ha hl
  rwa [Lined.renumber_id, Lined.renumber_id] at whole

/-- What is left to show of a closed judgement to have it of `evaluate`: that it survives the limits
of the two sides. -/
theorem evaluate {limit limit' : Nat}
    (hlim : ∀ {line : Nat} {x y : Eval Value}, V.line line → J V.value x y →
      J V.value (Eval.limited limit line x) (Eval.limited limit' line y))
    {f f' : Nat} (hf : f ≤ f') {n : Node} (hn : V.node n) :
    J V.value (Sigil.evaluate limit f n) (Sigil.evaluate limit' f' n) := by
  have whole := h.congruent.framed.evaluate h.outOfFuel hlim (.inr ⟨hf, h.cut⟩) hn
  rwa [Lined.renumber_id] at whole

end Closed

end Judgement

end Sigil
