import Sigil.Proofs.BuiltinFrame

/-!
# Points of a run

Operators and nodes get the means to evaluate the nodes in them as an argument. A computation comes
to a node, on some machine, if its outcome depends on what that evaluation gives
(`Eval.ComesTo`): no matter how the operators find their way there, and whether or not the run ends.
The points of a run are the nodes that its statements come to, those that these come to, and so on,
each with the machine on which its evaluation begins (`Interpreter.Point`).

What a contract says of nodes and frames holds at every point of a run (`Interpreter.Point.kept`).
-/

namespace Sigil

variable [Generator]

/-- Another answer for `n` on `m'` changes what comes of the computation `x` on `m`. An answer may
leave the machine exhausted, and then all that is left to do winds down: so what comes after cannot
hide a difference, even if it would never end. -/
def Eval.ComesTo (x : (Node → Eval Value) → Eval Value) (ev : Node → Eval Value) (m : Machine)
    (n : Node) (m' : Machine) : Prop :=
  ∃ ev' : Node → Eval Value, (∀ k m₁, ¬(k = n ∧ m₁ = m') → ev' k m₁ = ev k m₁) ∧ x ev' m ≠ x ev m

namespace Contract

variable {V : Vocabulary} {limit fuel k : Nat} {c : Contract}

theorem Kept.apply_eq {P : Value → Prop} {x y : Eval Value} (hx : c.Kept fuel P x y)
    (hy : c.Kept fuel P y x) {m : Machine} (hm : m.env.Plain c.value k) : x m = y m := by
  refine Option.ext fun p => ⟨fun e => ?_, fun e => ?_⟩
  · exact ((hx k m hm).2 p.1 p.2 e).1
  · exact ((hy k m hm).2 p.1 p.2 e).1

/-- A computation that keeps to a contract comes to nodes of its vocabulary only, and among plain
frames: what is evaluated elsewhere makes no difference to it. -/
theorem Closed.of_comesTo (h : c.Closed V limit) (x : (Node → Eval Value) → Eval Value)
    (hx : ∀ {ev ev' : Node → Eval Value},
      (∀ n, V.node n → c.Kept fuel c.value (ev n) (ev' n)) → c.Kept fuel c.value (x ev) (x ev'))
    {m m' : Machine} {n : Node} (hm : m.env.Plain c.value k)
    (hc : Eval.ComesTo x (Sigil.evaluate limit fuel) m n m') :
    V.node n ∧ ∃ k, m'.env.Plain c.value k := by
  obtain ⟨ev', agree, differ⟩ := hc
  refine Classical.byContradiction fun elsewhere => ?_
  have same : ∀ n₁, V.node n₁ → ∀ k m₁, m₁.env.Plain c.value k →
      ev' n₁ m₁ = Sigil.evaluate limit fuel n₁ m₁ := by
    intro n₁ hn₁ k m₁ hm₁
    refine agree n₁ m₁ ?_
    rintro ⟨rfl, rfl⟩
    exact elsewhere ⟨hn₁, k, hm₁⟩
  have forth : ∀ n, V.node n → c.Kept fuel c.value (Sigil.evaluate limit fuel n) (ev' n) := by
    intro n hn k m hm
    rw [same n hn k m hm]
    exact h.evaluate fuel hn k m hm
  have back : ∀ n, V.node n → c.Kept fuel c.value (ev' n) (Sigil.evaluate limit fuel n) := by
    intro n hn k m hm
    rw [same n hn k m hm]
    exact h.evaluate fuel hn k m hm
  exact differ ((hx back).apply_eq (hx forth) hm)

end Contract

namespace Interpreter

/-- The points of a run: the nodes that it comes to, and the machines on which their evaluation
begins. -/
inductive Point (i : Interpreter) (source : String) : Node → Machine → Prop where
  | statement {ts : List Token} {fuel : Nat} {n : Node} {m : Machine} :
      Token.lex source = .ok ts → (parse ts).2.find? ParseError.isFatal = none →
      Eval.ComesTo (Eval.statements · (parse ts).1) (evaluate i.limit fuel)
        (i.machine ((parse ts).2.map fun e => .report (.parse e))) n m →
      Point i source n m
  | within {fuel : Nat} {n n' : Node} {m m' : Machine} : Point i source n m →
      m.exhausted = false → m.depth < i.limit →
      Eval.ComesTo (Eval.node · fuel n) (evaluate i.limit fuel)
        { m with depth := m.depth + 1 } n' m' →
      Point i source n' m'

theorem Point.kept {i : Interpreter} {source : String} {n : Node} {m : Machine} {V : Vocabulary}
    {c : Contract} (hp : i.Point source n m) (h : c.Closed V i.limit)
    (hi : i.env.Plain c.value 0)
    (hs : ∀ ts, Token.lex source = .ok ts → ∀ n ∈ (parse ts).1, V.node n) :
    V.node n ∧ ∃ k, m.env.Plain c.value k := by
  induction hp with
  | statement hts _ hc =>
    exact h.of_comesTo (Eval.statements · _) (fun hev => h.kept_statements hev (hs _ hts)) hi hc
  | @within fuel n n' m m' _ _ _ hc ih =>
    obtain ⟨hn, k, hm⟩ := ih
    have hm' : ({ m with depth := m.depth + 1 } : Machine).env.Plain c.value k := hm
    exact h.of_comesTo (Eval.node · fuel n) (fun hev => h.node hev hn) hm' hc

theorem Point.plain {i : Interpreter} {source : String} {n : Node} {m : Machine}
    (hp : i.Point source n m) (hi : i.Reachable) :
    Vocabulary.source.node n ∧ ∃ k, m.env.Plain Vocabulary.source.value k :=
  hp.kept (Contract.closed_plain i.limit) hi.plain fun _ hts =>
    references_parse (Token.lex_word hts)

/-- The machine on which the first statement of a text is evaluated. -/
def entry (i : Interpreter) (events : List Event) : Machine :=
  { i.machine events with env := i.env.set previousName .nothing }

theorem Point.first {i j : Interpreter} {source : String} {o : Outcome} {ts : List Token}
    {n : Node} {ns : List Node} (h : i.RunsTo source o j) (hts : Token.lex source = .ok ts)
    (hf : (parse ts).2.find? ParseError.isFatal = none) (hn : (parse ts).1 = n :: ns) :
    i.Point source n (i.entry ((parse ts).2.map fun e => .report (.parse e))) := by
  classical
  obtain ⟨fuel, h⟩ := h
  rw [run_of_not_fatal hts hf] at h
  obtain ⟨v, m, hs, -, -⟩ := evaluateProgram_eq_some_iff.1 h
  let start := i.entry ((parse ts).2.map fun e => .report (.parse e))
  -- without an answer there, the run has none
  let silent : Node → Eval Value :=
    fun k m₁ => if k = n ∧ m₁ = start then none else evaluate i.limit fuel k m₁
  have unanswered : silent n start = none := if_pos ⟨rfl, rfl⟩
  refine .statement (n := n) (m := start) hts hf ⟨silent, fun k m₁ ne => if_neg ne, ?_⟩
  change Eval.statements silent (parse ts).1 _ ≠
    Eval.statements (evaluate i.limit fuel) (parse ts).1 _
  rw [hs, hn]
  change Option.bind (silent n start) _ ≠ some (v, m)
  rw [unanswered]
  exact fun e => by cases e

end Interpreter

end Sigil
