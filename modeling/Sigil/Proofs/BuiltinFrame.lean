import Sigil.Proofs.PlainFrames
import Sigil.Random

/-!
# Builtin operators stay where they are

Nothing in the environment protects the builtin operators. What does is that source text cannot name
them but to call them: its references are words (`references_parse`), and the symbols of the builtin
operators are keys. So no frame over the outermost ever binds a key or holds a builtin operator, and
the outermost is never assigned to (`Environment.Plain`), from one run to the next.
-/

namespace Sigil

/-- What holds of every evaluation of source text. -/
def Contract.plain [Generator] : Contract where
  value := Vocabulary.source.value
  change _ _ := True
  ends _ _ := False

theorem Contract.lawful_plain [Generator] (limit : Nat) : plain.Lawful .source limit :=
  .of_never id id Vocabulary.source.admits Machine.lawful_true.toAllows id

theorem Contract.closed_plain [Generator] (limit : Nat) : plain.Closed .source limit :=
  (lawful_plain limit).closed_of_never rfl (fun _ => trivial) Machine.lawful_true.assign id

namespace Interpreter

section

variable [Generator]

theorem RunsTo.plain {i j : Interpreter} {source : String} {o : Outcome}
    (hi : i.env.Plain Vocabulary.source.value 0) (h : i.RunsTo source o j) :
    j.env.Plain Vocabulary.source.value 0 ∧ Vocabulary.source.value o.value := by
  obtain ⟨fuel, h⟩ := h
  rcases run_cases source with ⟨d, hd⟩ | ⟨ts, hts, hr⟩
  · rw [hd] at h
    cases h
    exact ⟨hi, Vocabulary.value_nothing⟩
  · rw [hr] at h
    obtain ⟨v, m, hs, rfl, rfl⟩ := evaluateProgram_eq_some_iff.1 h
    have closed := Contract.closed_plain i.limit
    have kept := closed.kept_statements (fun _ hn => closed.evaluate fuel hn)
      (references_parse (Token.lex_word hts))
    obtain ⟨-, hv, hm, -⟩ := (kept 0 (i.machine _) hi).2 v m hs
    exact ⟨hm, hv⟩

theorem Reachable.plain {i : Interpreter} (h : i.Reachable) :
    i.env.Plain Vocabulary.source.value 0 := by
  induction h with
  | new c fresh => exact Environment.plain_initial
  | run _ hr ih => exact (hr.plain ih).1

/-- **Builtin operators are neither rebound nor had as values**: after every run, the environment is
the globals over the builtin frame as it was at first, no global has a name that starts like a key,
and neither a global nor the value of the run holds a builtin operator, at any depth. -/
theorem Reachable.builtins_unchanged {i j : Interpreter} {source : String} {o : Outcome}
    (hi : i.Reachable) (h : i.RunsTo source o j) :
    j.env.frames = [j.env.inner, Environment.builtins] ∧
      (∀ p ∈ j.env.inner, isKeyName p.1 = false ∧ ∀ b, .builtin b ∉ p.2.operators) ∧
      ∀ b, .builtin b ∉ o.value.operators := by
  obtain ⟨hj, hv⟩ := h.plain hi.plain
  obtain ⟨hf, gs, he, hl, -⟩ := Environment.PlainFrames.of_cons hj
  obtain rfl := List.length_eq_zero_iff.1 hl
  refine ⟨congrArg (_ :: ·) he, fun p hp => ?_, Vocabulary.source_value hv⟩
  exact ⟨(hf p hp).1, Vocabulary.source_value (hf p hp).2⟩

end

open scoped Sigil.Random

/-- A session that defines a function by `+`, tries to bind and to assign `+` itself, and then puts
the function into a collection. -/
theorem Reachable.builtins_unchanged_session :
    ∃ (i j : Interpreter) (o : Outcome), i.Reachable ∧ i.RunsTo "[add add]" o j ∧
      Table.names j.env.inner = ["^", "add"] ∧ o.value.operators.length = 2 ∧
      j.env.frames = [j.env.inner, Environment.builtins] ∧
      (∀ p ∈ j.env.inner, isKeyName p.1 = false ∧ ∀ b, .builtin b ∉ p.2.operators) ∧
      ∀ b, .builtin b ∉ o.value.operators := by
  have h : ((({} : Config).interpreter (Generator.ofSeed 0)).run 9
      ": add ~ a b (+ a b)\n: + ok\n. + ok").bind (fun p =>
        (p.2.run 9 "[add add]").map fun q =>
          (Table.names q.2.env.inner, q.1.value.operators.length)) =
      some (["^", "add"], 2) := by decide +kernel
  obtain ⟨⟨_, i⟩, h₁, h⟩ := Option.bind_eq_some_iff.1 h
  obtain ⟨⟨o, j⟩, h₂, h⟩ := Option.map_eq_some_iff.1 h
  have hi : i.Reachable := .run (.new {} (Generator.ofSeed 0)) ⟨9, h₁⟩
  obtain ⟨hnames, hlength⟩ := Prod.mk.inj h
  exact ⟨i, j, o, hi, ⟨9, h₂⟩, hnames, hlength, hi.builtins_unchanged ⟨9, h₂⟩⟩

end Interpreter

end Sigil
