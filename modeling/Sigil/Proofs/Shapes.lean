import Sigil.Proofs.Points
import Sigil.Proofs.Reports
import Sigil.Proofs.Calls
import Sigil.Proofs.WellFormed

/-!
# The shapes of trees that are evaluated

Evaluation has a rule for every tree, also for calls whose head is no name and for mappings with
keys that are none. The reader makes no such trees, whatever is wrong with a text
(`wellFormed_parse`), and evaluation makes no trees at all: it takes them apart, and keeps some of
them as the bodies of functions. So among frames whose functions have well-formed bodies
(`Vocabulary.formed`), every node that a run comes to is well-formed, and a key is never refused.
-/

namespace Sigil

/-- The rules of a node are meant for it: the head of a call is a reference, and the keys of a
mapping are references or strings. -/
def Node.Shaped : Node → Prop
  | call head _ _ => ∃ name line, head = .reference name line
  | mapping pairs _ => ∀ p ∈ pairs,
      (∃ name line, p.1 = .reference name line) ∨ ∃ s line, p.1 = .literal (.string s) line
  | _ => True

theorem Node.eq_reference_of_name? {n : Node} (h : n.name?.isSome) :
    ∃ name line, n = .reference name line := by
  cases n with
  | reference name line => exact ⟨name, line, rfl⟩
  | literal | call | scope | collection | mapping => cases h

theorem Node.eq_of_key? {n : Node} (h : n.key?.isSome) :
    (∃ name line, n = .reference name line) ∨ ∃ s line, n = .literal (.string s) line := by
  cases n with
  | reference name line => exact .inl ⟨name, line, rfl⟩
  | literal value line =>
    cases value with
    | string s => exact .inr ⟨s, line, rfl⟩
    | number | boolean => cases h
  | call | scope | collection | mapping => cases h

theorem Node.shaped_of_wellFormed {n : Node} (h : n.wellFormed) : n.Shaped := by
  cases n with
  | call head args line =>
    rw [wellFormed, Bool.and_eq_true] at h
    exact eq_reference_of_name? h.1
  | mapping pairs line => exact fun p hp => eq_of_key? (pairsWellFormed_iff.1 h p hp).1
  | literal | reference | scope | collection => trivial

/-- What source text leads to: well-formed trees, and no refused key. -/
def Vocabulary.formed : Vocabulary where
  node n := source.node n ∧ n.wellFormed
  name := source.name
  callee _ := True
  line _ := True
  fault e := ∀ found, e ≠ .invalidKey found
  builtin _ := False
  name_previous := source.name_previous
  fault_operator := by
    rintro _ h found rfl
    cases h
  line_node _ := trivial
  name_reference h := source.name_reference h.1
  callee_head _ _ := trivial
  node_head := by
    rintro head args l ⟨-, h⟩ hn
    rw [Node.wellFormed, hn] at h
    cases h
  node_arg := by
    rintro head args l ⟨words, h⟩ n hn
    rw [Node.wellFormed, Bool.and_eq_true, Node.allWellFormed_iff] at h
    exact ⟨source.node_arg words n hn, h.2 n hn⟩
  node_statement := by
    rintro body l ⟨words, h⟩ n hn
    have statements := (Node.wellFormedProgram_iff.1 (Node.wellFormed_scope_iff.1 h).2).2
    exact ⟨source.node_statement words n hn, statements n hn⟩
  node_item h n hn := ⟨source.node_item h.1 n hn, Node.allWellFormed_iff.1 h.2 n hn⟩
  line_key _ _ _ := trivial
  fault_key := by
    rintro pairs l ⟨-, h⟩ p hp hk
    have key := (Node.pairsWellFormed_iff.1 h p hp).1
    rw [hk] at key
    cases key
  node_entry h p hp := ⟨source.node_entry h.1 p hp, (Node.pairsWellFormed_iff.1 h.2 p hp).2⟩

section

variable [Generator]

/-- What holds of every evaluation of well-formed trees. -/
def Contract.formed : Contract where
  value := Vocabulary.formed.value
  change := Machine.Adds Vocabulary.formed.fault
  ends _ _ := False

theorem Contract.closed_formed (limit : Nat) : formed.Closed .formed limit := by
  have lawful : formed.Lawful .formed limit :=
    .of_never id id (Vocabulary.admits _) (Machine.allows_adds fun _ _ e => by cases e) id
  exact lawful.closed_of_never rfl (fun _ => trivial) (fun m _ _ _ _ _ => m.adds_assign _) id

end

theorem formed_parse {source : String} {ts : List Token} (h : Token.lex source = .ok ts) :
    ∀ n ∈ (parse ts).1, Vocabulary.formed.node n := fun n hn =>
  ⟨references_parse (Token.lex_word h) n hn,
    (Node.wellFormedProgram_iff.1 (wellFormed_parse ts)).2 n hn⟩

theorem Environment.Plain.function {V : Vocabulary} {k : Nat} {e : Environment}
    (h : e.Plain V.value k) {f : Function} (hf : f ∈ e.functions) : V.function f := by
  obtain ⟨gs, he, -, hg⟩ := h
  obtain ⟨frame, hm, ⟨name, v⟩, hp, hf⟩ := mem_functions.1 hf
  rw [Value.mem_functions] at hf
  rw [he] at hm
  rcases List.mem_append.1 hm with hm | hm
  · exact (hg frame hm _ hp).2 _ hf
  · rw [List.mem_singleton.1 hm] at hp
    obtain ⟨b, -, rfl⟩ := mem_builtins hp
    cases List.mem_singleton.1 hf

namespace Interpreter

section

variable [Generator]

/-- A run of well-formed trees leaves functions with well-formed bodies, and refuses no key. -/
theorem RunsTo.formed {i j : Interpreter} {source : String} {o : Outcome}
    (hi : i.env.Plain Vocabulary.formed.value 0) (h : i.RunsTo source o j) :
    j.env.Plain Vocabulary.formed.value 0 ∧
      ∀ found line, .eval (.invalidKey found) line ∉ o.diagnostics := by
  rcases h.cases with ⟨e, -, rfl, rfl⟩ | ⟨ts, hts, ⟨e, -, rfl, rfl⟩ | ⟨fuel, h⟩⟩
  · exact ⟨hi, fun found line hd => by cases List.mem_singleton.1 hd⟩
  · exact ⟨hi, fun found line hd => by cases List.mem_singleton.1 hd⟩
  · obtain ⟨v, m, hs, rfl, rfl⟩ := evaluateProgram_eq_some_iff.1 h
    have closed := Contract.closed_formed i.limit
    have kept := closed.kept_statements (fun _ hn => closed.evaluate fuel hn) (formed_parse hts)
    obtain ⟨-, -, hm, added⟩ := (kept 0 (i.machine _) hi).2 v m hs
    refine ⟨hm, fun found line hd => ?_⟩
    obtain ⟨-, ⟨e, -, he⟩ | ⟨e, _, he, fault⟩⟩ := Outcome.diagnostic_of_adds added hd
    · cases he
    · cases he
      exact fault found rfl

theorem Reachable.formed {i : Interpreter} (h : i.Reachable) :
    i.env.Plain Vocabulary.formed.value 0 := by
  induction h with
  | new c fresh => exact Environment.plain_initial
  | run _ hr ih => exact (hr.formed ih).1

/-- **Ill-shaped trees are never evaluated**: at every point of a run after any other runs, the head
of a call is a reference and the keys of a mapping are references or strings, and so it is
throughout the bodies of the functions that are bound there; and no run reports that a key is none.
Faults of the text that the reader recovers from make no difference. -/
theorem Reachable.shapes {i : Interpreter} (hi : i.Reachable) (source : String) :
    (∀ n m, i.Point source n m → n.Shaped ∧ ∀ f ∈ m.env.functions, f.body.wellFormed) ∧
    ∀ o j, i.RunsTo source o j → ∀ found line, .eval (.invalidKey found) line ∉ o.diagnostics := by
  refine ⟨fun n m hp => ?_, fun o j h => (h.formed hi.formed).2⟩
  obtain ⟨⟨-, formed⟩, k, hm⟩ :=
    hp.kept (Contract.closed_formed i.limit) hi.formed fun _ hts => formed_parse hts
  exact ⟨Node.shaped_of_wellFormed formed, fun f hf => (hm.function hf).2.2⟩

end

open scoped Sigil.Random

/-- A function that makes a mapping, kept in a collection too, is called in the next run with a
mapping that had a key that is none. -/
theorem Reachable.shapes_session :
    let source := "f \x7b[] no key ok\x7d"
    let n : Node := .call (.reference "f" 1)
      [.mapping [(.reference "key" 1, .literal (.boolean true) 1)] 1] 1
    ∃ (i j : Interpreter) (m : Machine) (o : Outcome), i.Reachable ∧ i.Point source n m ∧
      m.env.functions.length = 3 ∧ i.RunsTo source o j ∧ o.diagnostics.length = 1 ∧ n.Shaped ∧
      (∀ f ∈ m.env.functions, f.body.wellFormed) ∧
      ∀ found line, .eval (.invalidKey found) line ∉ o.diagnostics := by
  intro source n
  have computed : ((({} : Config).interpreter (Generator.ofSeed 0)).run 9
      ": f ~ a (\x7bkey a 'text' [a]\x7d)\n: all [f f]").bind (fun p =>
        (p.2.run 9 source).map fun q =>
          (q.1.diagnostics.length, (p.2.entry []).env.functions.length)) = some (1, 3) := by
    decide +kernel
  obtain ⟨⟨_, i⟩, first, computed⟩ := Option.bind_eq_some_iff.1 computed
  obtain ⟨⟨o, j⟩, second, counts⟩ := Option.map_eq_some_iff.1 computed
  obtain ⟨diagnostics, functions⟩ := Prod.mk.inj counts
  have reachable : i.Reachable := .run (.new {} (Generator.ofSeed 0)) ⟨9, first⟩
  have lexed : Token.lex "f \x7b[] no key ok\x7d" = .ok _ := rfl
  have point : i.Point source n (i.entry _) := .first (n := n) ⟨9, second⟩ lexed rfl rfl
  have shapes := reachable.shapes source
  exact ⟨i, j, _, o, reachable, point, functions, ⟨9, second⟩, diagnostics,
    (shapes.1 n _ point).1, (shapes.1 n _ point).2, shapes.2 o j ⟨9, second⟩⟩

end Interpreter

end Sigil
