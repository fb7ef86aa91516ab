import Sigil.Proofs.BuiltinFrame

/-!
# Collections of one kind

A collection literal with values of several kinds is reported and gives an empty collection. Ranges
hold numbers, and every other operator but one passes collections on as they are. Addition joins any
two collections without looking at what they hold, also in a fold over the items of one, and so the
rule does not survive it (`Interpreter.addition_mixes`).

Nothing else breaks the rule. `evaluateUnmixed` is evaluation with the check that addition lacks: it
has no answer once an addition gives a value that breaks the rule, and agrees with `evaluate` where
it has one. After runs in which it has, every collection is of one kind, at any depth, in what they
gave and in what is bound (`Interpreter.Unmixed.collections_uniform`).
-/

namespace Sigil

namespace Value

mutual

/-- Whether every collection in a value, at any depth, has items of one kind. -/
def isUniform : Value → Bool
  | collection items => sameKind items && itemsUniform items
  | mapping entries => entriesUniform entries
  | number _ | string _ | boolean _ | operator _ | nothing => true

def itemsUniform : List Value → Bool
  | [] => true
  | v :: vs => v.isUniform && itemsUniform vs

def entriesUniform : List (String × Value) → Bool
  | [] => true
  | (_, v) :: entries => v.isUniform && entriesUniform entries

end

theorem itemsUniform_iff {vs : List Value} :
    itemsUniform vs = true ↔ ∀ v ∈ vs, v.isUniform = true := by
  induction vs with
  | nil => simp [itemsUniform]
  | cons v vs ih => simp [itemsUniform, ih]

theorem entriesUniform_iff {entries : List (String × Value)} :
    entriesUniform entries = true ↔ ∀ p ∈ entries, p.2.isUniform = true := by
  induction entries with
  | nil => simp [entriesUniform]
  | cons p entries ih => simp [entriesUniform, ih]

@[simp] theorem isUniform_collection {vs : List Value} :
    (collection vs).isUniform = true ↔ sameKind vs = true ∧ ∀ v ∈ vs, v.isUniform = true := by
  rw [isUniform, Bool.and_eq_true, itemsUniform_iff]

@[simp] theorem isUniform_mapping {entries : List (String × Value)} :
    (mapping entries).isUniform = true ↔ ∀ p ∈ entries, p.2.isUniform = true := by
  rw [isUniform, entriesUniform_iff]

end Value

/-- The name that a call is headed by. -/
def Node.callee? : Node → Option String
  | call head _ _ => head.name?
  | _ => none

section

variable [Generator]

/-- Evaluation that has no answer once an addition gives a value with a collection of several
kinds. -/
def evaluateUnmixed (limit : Nat) : Nat → Node → Eval Value
  | 0, _ => Eval.outOfFuel
  | fuel + 1, n => do
    let v ← Eval.limited limit n.line (Eval.node (evaluateUnmixed limit fuel) fuel n)
    if n.callee? = some "+" ∧ v.isUniform = false then Eval.outOfFuel else return v

namespace Contract

/-- Evaluations that deal in collections of one kind. -/
def uniform : Contract where
  value v := Vocabulary.source.value v ∧ v.isUniform = true
  change _ _ := True
  ends _ _ := False

theorem admits_uniform : Vocabulary.source.Admits uniform.value where
  number x := ⟨Vocabulary.value_number x, rfl⟩
  string s := ⟨Vocabulary.value_string s, rfl⟩
  boolean b := ⟨Vocabulary.value_boolean b, rfl⟩
  nothing := ⟨Vocabulary.value_nothing, rfl⟩
  function h := ⟨Vocabulary.value_operator.2 h, rfl⟩
  callable h := h.1.callable
  builtin h := Vocabulary.value_operator.1 h.1
  item h v hv := ⟨Vocabulary.value_collection.1 h.1 v hv, (Value.isUniform_collection.1 h.2).2 v hv⟩
  collection hs h := ⟨Vocabulary.value_collection.2 fun v hv => (h v hv).1,
    Value.isUniform_collection.2 ⟨hs, fun v hv => (h v hv).2⟩⟩
  entry h p hp := ⟨Vocabulary.value_mapping.1 h.1 p hp, Value.isUniform_mapping.1 h.2 p hp⟩
  mapping h := ⟨Vocabulary.value_mapping.2 fun p hp => (h p hp).1,
    Value.isUniform_mapping.2 fun p hp => (h p hp).2⟩

theorem lawful_uniform (limit : Nat) : uniform.Lawful .source limit :=
  .of_never id id admits_uniform Machine.lawful_true.toAllows id

section

variable {limit fuel : Nat} {ev ev' : Node → Eval Value}
  (hev : ∀ n, Vocabulary.source.node n → uniform.Kept fuel uniform.value (ev n) (ev' n))

include hev

/-- An addition of values of one kind may give a value of several. -/
theorem kept_addition {n : Node} (hn : Vocabulary.source.node n) (hc : n.callee? = some "+") :
    uniform.Kept fuel Vocabulary.source.value (Eval.node ev fuel n) (Eval.node ev' fuel n) := by
  cases n with
  | call head args line =>
    have added : uniform.Kept fuel Vocabulary.source.value (Fold.add.call ev args line)
        (Fold.add.call ev' args line) :=
      (lawful_uniform 0).kept_fold hev (Vocabulary.source.node_arg hn) (fun _ hv => hv.1)
        Vocabulary.value_combine? trivial
    have symbol : head.name? = some (Builtin.fold .add).symbol := hc
    intro k m hm
    rw [Eval.node_symbol hm symbol, Eval.node_symbol hm symbol]
    exact added k m hm
  | literal | reference | scope | collection | mapping => cases hc

/-- Every other node gives values of one kind. -/
theorem kept_unadded {n : Node} (hn : Vocabulary.source.node n) (hc : n.callee? ≠ some "+") :
    uniform.Kept fuel uniform.value (Eval.node ev fuel n) (Eval.node ev' fuel n) := by
  have lawful := lawful_uniform 0
  refine lawful.kept_node hev hn ?_
  rintro b head args line rfl hb special
  have ha := Vocabulary.source.node_arg hn
  simp only [Builtin.isSpecial, Bool.or_eq_true, beq_iff_eq] at special
  rcases special with (uses | assigns) | rfl
  · exact lawful.kept_usesFuel hev ha (fun _ h => h) trivial uses
  · exact lawful.kept_assigning hev ha Machine.lawful_true.assign trivial assigns
  · exact absurd hb hc

end

/-- Where evaluation with the check has an answer, evaluation has the same, of one kind. -/
theorem kept_unmixed (limit fuel : Nat) {n : Node} (hn : Vocabulary.source.node n) :
    uniform.Kept fuel uniform.value (evaluateUnmixed limit fuel n) (evaluate limit fuel n) := by
  induction fuel generalizing n with
  | zero => exact fun _ _ _ => ⟨fun he => he.elim, fun _ _ e => by cases e⟩
  | succ fuel ih =>
    have kept : uniform.Kept fuel
        (fun v => Vocabulary.source.value v ∧ (n.callee? ≠ some "+" → v.isUniform = true))
        (Eval.node (evaluateUnmixed limit fuel) fuel n)
        (Eval.node (evaluate limit fuel) fuel n) := by
      by_cases hc : n.callee? = some "+"
      · exact (kept_addition (fun _ hn => ih hn) hn hc).mono fun v hv => ⟨hv, fun h => absurd hc h⟩
      · exact (kept_unadded (fun _ hn => ih hn) hn hc).mono fun v hv => ⟨hv.1, fun _ => hv.2⟩
    intro k m hm
    refine ⟨fun he => he.elim, fun v m' e => ?_⟩
    obtain ⟨w, m₁, e₁, e₂⟩ := Eval.bind_eq_some_iff.1 e
    have whole := (lawful_uniform limit).kept_limited ⟨Vocabulary.value_nothing, fun _ => rfl⟩
      n.line kept
    obtain ⟨same, ⟨hw, unadded⟩, rest⟩ := (whole k m hm).2 w m₁ e₁
    split at e₂
    · cases e₂
    · next checked =>
      cases e₂
      refine ⟨same, ⟨hw, ?_⟩, rest⟩
      by_cases hc : n.callee? = some "+"
      · simpa [hc] using checked
      · exact unadded hc

end Contract

end

namespace Interpreter

section

variable [Generator]

/-- Whether evaluation with the check has an answer for a text. Of a text that is refused nothing is
evaluated. -/
def addsAlike (fuel : Nat) (i : Interpreter) (source : String) : Bool :=
  match Token.lex source with
  | .error _ => true
  | .ok ts =>
    ((parse ts).2.find? ParseError.isFatal).isSome ||
      (Eval.statements (evaluateUnmixed i.limit fuel) (parse ts).1
        (i.machine ((parse ts).2.map fun e => .report (.parse e)))).isSome

/-- No addition in the run of a text gives a value with a collection of several kinds. -/
def AddsAlike (i : Interpreter) (source : String) : Prop :=
  ∃ fuel, i.addsAlike fuel source = true

/-- The interpreters that runs lead to in which no addition mixes kinds. -/
inductive Unmixed : Interpreter → Prop where
  | new (c : Config) (fresh : Generator.State) : Unmixed (c.interpreter fresh)
  | run {i j : Interpreter} {source : String} {o : Outcome} : Unmixed i → i.AddsAlike source →
      i.RunsTo source o j → Unmixed j

theorem RunsTo.uniform {i j : Interpreter} {source : String} {o : Outcome}
    (hi : i.env.Plain Contract.uniform.value 0) (ha : i.AddsAlike source)
    (h : i.RunsTo source o j) :
    j.env.Plain Contract.uniform.value 0 ∧ Contract.uniform.value o.value := by
  have refused : ∀ d, i.RunsTo source (.refused d) i →
      j.env.Plain Contract.uniform.value 0 ∧ Contract.uniform.value o.value := by
    intro d hd
    obtain ⟨rfl, rfl⟩ := h.unique hd
    exact ⟨hi, Contract.admits_uniform.nothing⟩
  cases hts : Token.lex source with
  | error e => exact refused _ ⟨0, run_of_lexError hts⟩
  | ok ts =>
    cases hf : (parse ts).2.find? ParseError.isFatal with
    | some e => exact refused _ ⟨0, run_of_fatal hts hf⟩
    | none =>
      obtain ⟨fuel, ends⟩ := ha
      simp only [addsAlike, hts, hf, Option.isSome_none, Bool.false_or] at ends
      obtain ⟨⟨v, m⟩, e⟩ := Option.isSome_iff_exists.1 ends
      have kept := (Contract.lawful_uniform i.limit).kept_statements
        (fun _ hn => Contract.kept_unmixed i.limit fuel hn) (references_parse (Token.lex_word hts))
      obtain ⟨e', hv, hm, -⟩ := (kept 0 (i.machine _) hi).2 v m e
      have run : i.RunsTo source ⟨v, m.trace.reverse⟩ (i.keep m) := by
        refine ⟨fuel, ?_⟩
        rw [run_of_not_fatal hts hf]
        exact evaluateProgram_eq_some_iff.2 ⟨v, m, e', rfl, rfl⟩
      obtain ⟨rfl, rfl⟩ := h.unique run
      exact ⟨hm, hv⟩

theorem Unmixed.uniform {i : Interpreter} (h : i.Unmixed) :
    i.env.Plain Contract.uniform.value 0 := by
  induction h with
  | new c fresh => exact Environment.plain_initial
  | run _ ha hr ih => exact (hr.uniform ih ha).1

/-- **Collections hold one kind of value, additions apart**: after runs in which no addition mixes
kinds, every collection in the value of the last run and in what the environment binds has items of
one kind, at any depth. -/
theorem Unmixed.collections_uniform {i j : Interpreter} {source : String} {o : Outcome}
    (hi : i.Unmixed) (ha : i.AddsAlike source) (h : i.RunsTo source o j) :
    o.value.isUniform = true ∧ ∀ frame ∈ j.env.frames, ∀ p ∈ frame, p.2.isUniform = true := by
  obtain ⟨⟨gs, he, -, hg⟩, hv⟩ := h.uniform hi.uniform ha
  refine ⟨hv.2, fun frame hf p hp => ?_⟩
  rw [he, List.mem_append, List.mem_singleton] at hf
  rcases hf with hf | rfl
  · exact (hg frame hf p hp).2.2
  · obtain ⟨b, -, hb⟩ := Environment.mem_builtins hp
    rw [hb]
    rfl

end

open scoped Sigil.Random

/-- A function that makes a collection of its arguments, a range, and additions of numbers and of
collections of collections. -/
theorem Unmixed.collections_uniform_session :
    let source := "pair [(+ 1 2)]\n: rows + ^ [(.. 3)]\n+ rows rows"
    ∃ (i j : Interpreter) (o : Outcome), i.Unmixed ∧ i.AddsAlike source ∧ i.RunsTo source o j ∧
      o.value.length? = some 6 ∧ o.value.isUniform = true ∧
      ∀ frame ∈ j.env.frames, ∀ p ∈ frame, p.2.isUniform = true := by
  intro source
  have first : (({} : Config).interpreter (Generator.ofSeed 0)).AddsAlike ": pair ~ x [x x]" :=
    ⟨9, by decide +kernel⟩
  have computed : ((({} : Config).interpreter (Generator.ofSeed 0)).run 9 ": pair ~ x [x x]").map
      (fun p => (p.2.addsAlike 9 source, (p.2.run 9 source).map (·.1.value.length?))) =
      some (true, some (some 6)) := by decide +kernel
  obtain ⟨⟨_, i⟩, hi, computed⟩ := Option.map_eq_some_iff.1 computed
  obtain ⟨second, hr⟩ := Prod.mk.inj computed
  obtain ⟨⟨o, j⟩, hr, length⟩ := Option.map_eq_some_iff.1 hr
  have unmixed : i.Unmixed := .run (.new {} (Generator.ofSeed 0)) first ⟨9, hi⟩
  have alike : i.AddsAlike source := ⟨9, second⟩
  exact ⟨i, j, o, unmixed, alike, ⟨9, hr⟩, length, unmixed.collections_uniform alike ⟨9, hr⟩⟩

/-- Addition makes a collection of a number and a string, and reports nothing. -/
theorem addition_mixes :
    ∃ o j, (({} : Config).interpreter (Generator.ofSeed 0)).RunsTo "+ [1] ['a']" o j ∧
      o.events.length = 0 ∧ o.value.isUniform = false := by
  have computed : ((({} : Config).interpreter (Generator.ofSeed 0)).run 9 "+ [1] ['a']").map
      (fun p => (p.1.events.length, p.1.value.isUniform)) = some (0, false) := by decide +kernel
  obtain ⟨⟨o, j⟩, h, computed⟩ := Option.map_eq_some_iff.1 computed
  obtain ⟨silent, mixed⟩ := Prod.mk.inj computed
  exact ⟨o, j, ⟨9, h⟩, silent, mixed⟩

end Interpreter

end Sigil
