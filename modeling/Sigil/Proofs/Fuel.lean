import Sigil.Config
import Sigil.Proofs.Transition

/-!
# Fuel

More fuel never changes an answer (`evaluate_mono`, `Interpreter.run_mono`), so a run that ends has
one outcome, whatever fuel it takes. `i.RunsTo source o j` says that the run of `source` ends with
the outcome `o` and leaves the interpreter `j`; `j.Reachable` says that runs led to `j` from a new
interpreter.
-/

namespace Sigil

variable [Generator]

/-- The second computation ends as the first does, wherever the first ends. -/
def Eval.Extended {α : Type} (x y : Eval α) : Prop :=
  ∀ m a m', x m = some (a, m') → y m = some (a, m')

theorem Machine.lawful_true : Lawful fun _ _ => True where
  toAllows := by constructor <;> intros <;> trivial
  assign _ _ _ _ _ _ := trivial

theorem Eval.comparison_extended : Comparison (fun _ _ => True) Extended where
  refl _ _ _ _ e := e
  bind hx _ he _ _ hf m b m' e := by
    obtain ⟨a, m₁, e₁, e₂⟩ := bind_eq_some_iff.1 e
    exact bind_eq_some_iff.2 ⟨a, m₁, he m a m₁ e₁, hf a (hx m a m₁ e₁).1 m₁ b m' e₂⟩
  cut _ _ _ _ e := by cases e
  inFrame he m a m' e := by
    obtain ⟨m₁, e₁, rfl⟩ := inFrame_eq_some_iff.1 e
    exact inFrame_eq_some_iff.2 ⟨m₁, he _ a m₁ e₁, rfl⟩

theorem Eval.extended_limited {limit line : Nat} {x y : Eval Value} (h : Extended x y) :
    Extended (limited limit line x) (limited limit line y) := by
  intro m v m' e
  rw [limited_apply] at e ⊢
  split at e
  · next hm => rw [if_pos hm]; exact e
  split at e
  · next hm hl => rw [if_neg hm, if_pos hl]; exact e
  · next hm hl =>
    rw [if_neg hm, if_neg hl]
    obtain ⟨m₁, e₁, rfl⟩ := deeper_eq_some_iff.1 e
    exact deeper_eq_some_iff.2 ⟨m₁, h _ v m₁ e₁, rfl⟩

theorem both_evaluate_extended (limit : Nat) {f f' : Nat} (hf : f ≤ f') (n : Node) :
    Eval.Both (fun _ _ => True) Eval.Extended Vocabulary.any.value (evaluate limit f n)
      (evaluate limit f' n) := by
  refine (Machine.lawful_true.closed_comparison Eval.comparison_extended).evaluate ?_ hf trivial
  rintro line x y - ⟨hx, hy, he⟩
  exact ⟨Machine.lawful_true.keeps_limited Vocabulary.value_nothing hx,
    Machine.lawful_true.keeps_limited Vocabulary.value_nothing hy, Eval.extended_limited he⟩

/-- More fuel gives the same value and the same machine. -/
theorem evaluate_mono {limit f f' : Nat} (hf : f ≤ f') {n : Node} {m m' : Machine} {v : Value}
    (e : evaluate limit f n m = some (v, m')) : evaluate limit f' n m = some (v, m') :=
  (both_evaluate_extended limit hf n).2.2 m v m' e

theorem call_mono {limit f f' : Nat} (hf : f ≤ f') {op : Operator} {args : List Node}
    {line : Nat} {m m' : Machine} {v : Value}
    (e : op.call (evaluate limit f) f args line m = some (v, m')) :
    op.call (evaluate limit f') f' args line m = some (v, m') := by
  have here : Vocabulary.any.line line := trivial
  have h := (Machine.lawful_true.closed_comparison Eval.comparison_extended).call
    (fun n _ => both_evaluate_extended limit hf n) hf (Vocabulary.any_value (.operator op)).callable
    (fun n (_ : n ∈ args) => trivial) here
  exact h.2.2 m v m' e

theorem statements_mono {limit f f' : Nat} (hf : f ≤ f') {ns : List Node} {m m' : Machine}
    {v : Value} (e : Eval.statements (evaluate limit f) ns m = some (v, m')) :
    Eval.statements (evaluate limit f') ns m = some (v, m') := by
  have h := (Machine.lawful_true.closed_comparison Eval.comparison_extended).statements
    (fun n _ => both_evaluate_extended limit hf n) (fun n (_ : n ∈ ns) => trivial)
  exact h.2.2 m v m' e

namespace Interpreter

theorem evaluateProgram_eq_some_iff {fuel : Nat} {i j : Interpreter} {ns : List Node}
    {errors : List ParseError} {o : Outcome} :
    i.evaluateProgram fuel ns errors = some (o, j) ↔
      ∃ v m, Eval.statements (evaluate i.limit fuel) ns
          (i.machine (errors.map fun e => .report (.parse e))) = some (v, m) ∧
        o = ⟨v, m.trace.reverse⟩ ∧ j = i.keep m := by
  unfold evaluateProgram
  rw [Option.map_eq_some_iff]
  constructor
  · rintro ⟨⟨v, m⟩, hs, e⟩
    cases e
    exact ⟨v, m, hs, rfl, rfl⟩
  · rintro ⟨v, m, hs, rfl, rfl⟩
    exact ⟨(v, m), hs, rfl⟩

/-! ## The three kinds of source text -/

theorem run_of_lexError {fuel : Nat} {i : Interpreter} {source : String} {e : LexError}
    (h : Token.lex source = .error e) : i.run fuel source = some (.refused (.lex e), i) := by
  unfold run; rw [h]

theorem run_of_fatal {fuel : Nat} {i : Interpreter} {source : String} {ts : List Token}
    {e : ParseError} (h : Token.lex source = .ok ts)
    (he : (parse ts).2.find? ParseError.isFatal = some e) :
    i.run fuel source = some (.refused (.parse e), i) := by
  unfold run; rw [h]; simp only [he]

theorem run_of_not_fatal {fuel : Nat} {i : Interpreter} {source : String} {ts : List Token}
    (h : Token.lex source = .ok ts) (he : (parse ts).2.find? ParseError.isFatal = none) :
    i.run fuel source = i.evaluateProgram fuel (parse ts).1 (parse ts).2 := by
  unfold run; rw [h]; simp only [he]

/-- Either a text is refused, whatever the interpreter and its fuel, or its statements are
evaluated. -/
theorem run_cases (source : String) :
    (∃ d, ∀ (fuel : Nat) (i : Interpreter), i.run fuel source = some (.refused d, i)) ∨
      ∃ ts, Token.lex source = .ok ts ∧ ∀ (fuel : Nat) (i : Interpreter),
        i.run fuel source = i.evaluateProgram fuel (parse ts).1 (parse ts).2 := by
  cases h : Token.lex source with
  | error e => exact .inl ⟨.lex e, fun _ _ => run_of_lexError h⟩
  | ok ts =>
    cases he : (parse ts).2.find? ParseError.isFatal with
    | some e => exact .inl ⟨.parse e, fun _ _ => run_of_fatal h he⟩
    | none => exact .inr ⟨ts, rfl, fun _ _ => run_of_not_fatal h he⟩

/-! ## Runs -/

theorem run_mono {f f' : Nat} (hf : f ≤ f') {i j : Interpreter} {source : String} {o : Outcome}
    (h : i.run f source = some (o, j)) : i.run f' source = some (o, j) := by
  rcases run_cases source with ⟨d, hd⟩ | ⟨ts, -, hr⟩
  · rw [hd] at h ⊢; exact h
  · rw [hr] at h ⊢
    obtain ⟨v, m, hs, ho, hj⟩ := evaluateProgram_eq_some_iff.1 h
    exact evaluateProgram_eq_some_iff.2 ⟨v, m, statements_mono hf hs, ho, hj⟩

/-- A run that ends, with what came of it and the interpreter it leaves. -/
def RunsTo (i : Interpreter) (source : String) (o : Outcome) (j : Interpreter) : Prop :=
  ∃ fuel, i.run fuel source = some (o, j)

theorem RunsTo.unique {i j j' : Interpreter} {source : String} {o o' : Outcome}
    (h : i.RunsTo source o j) (h' : i.RunsTo source o' j') : o = o' ∧ j = j' := by
  obtain ⟨f, h⟩ := h
  obtain ⟨f', h'⟩ := h'
  have e := run_mono (Nat.le_max_left f f') h
  rw [run_mono (Nat.le_max_right f f') h'] at e
  cases e
  exact ⟨rfl, rfl⟩

/-- What a run that ends was: of a text that is refused for its characters or its brackets, or of
one that is evaluated. -/
theorem RunsTo.cases {i j : Interpreter} {source : String} {o : Outcome}
    (h : i.RunsTo source o j) :
    (∃ e, Token.lex source = .error e ∧ o = .refused (.lex e) ∧ j = i) ∨
      ∃ ts, Token.lex source = .ok ts ∧
        ((∃ e ∈ (parse ts).2, o = .refused (.parse e) ∧ j = i) ∨
          ∃ fuel, i.evaluateProgram fuel (parse ts).1 (parse ts).2 = some (o, j)) := by
  obtain ⟨fuel, h⟩ := h
  cases hts : Token.lex source with
  | error e =>
    rw [run_of_lexError hts] at h
    cases h
    exact .inl ⟨e, rfl, rfl, rfl⟩
  | ok ts =>
    refine .inr ⟨ts, rfl, ?_⟩
    cases he : (parse ts).2.find? ParseError.isFatal with
    | some e =>
      rw [run_of_fatal hts he] at h
      cases h
      exact .inl ⟨e, List.mem_of_find?_eq_some he, rfl, rfl⟩
    | none =>
      rw [run_of_not_fatal hts he] at h
      exact .inr ⟨fuel, h⟩

/-- The interpreters that sources lead to from a new one. -/
inductive Reachable : Interpreter → Prop where
  | new (c : Config) (fresh : Generator.State) : Reachable (c.interpreter fresh)
  | run {i j : Interpreter} {source : String} {o : Outcome} : Reachable i →
      i.RunsTo source o j → Reachable j

end Interpreter

end Sigil
