import Sigil.Proofs.BuiltinFrame
import Sigil.Proofs.DepthLimit

/-!
# Winding down

Once the depth limit is reached, every node is nothing and leaves the machine as it is
(`evaluate_of_exhausted`). The operators that are still under way go on with nothing for the values
of their arguments: `Eval.Settles` says that they come to an end and show nothing more. Of the
operators this needs an argument only where fuel is used up, and there nothing ends the loop at its
first test.

So the report of the limit is the last event of a run, and the next run starts afresh
(`Interpreter.Reachable.winds_down`).
-/

namespace Sigil

section

variable [Generator]

theorem evaluate_of_exhausted {m : Machine} (hm : m.exhausted = true) (limit fuel : Nat)
    (n : Node) : evaluate limit (fuel + 1) n m = some (.nothing, m) := by
  rw [evaluate_succ, Eval.limited_apply, if_pos hm]

namespace Eval

theorem report_of_exhausted {m : Machine} (hm : m.exhausted = true) (line : Nat) (e : EvalError) :
    report line e m = some ((), m) :=
  congrArg (fun m' => some ((), m')) (if_pos hm)

theorem print_of_exhausted {m : Machine} (hm : m.exhausted = true) (text : String) :
    print text m = some ((), m) :=
  congrArg (fun m' => some ((), m')) (if_pos hm)

/-- The computations that, once the limit is reached, end with a result with `P` and show
nothing. -/
def Settles {α : Type} (P : α → Prop) (x : Eval α) : Prop :=
  ∀ m : Machine, m.exhausted = true →
    ∃ a m', x m = some (a, m') ∧ P a ∧ m'.exhausted = true ∧ m'.trace = m.trace

theorem settles_bind {α β : Type} {P : α → Prop} {Q : β → Prop} {x : Eval α} {f : α → Eval β}
    (hx : Settles P x) (hf : ∀ a, P a → Settles Q (f a)) : Settles Q (x >>= f) := by
  intro m hm
  obtain ⟨a, m₁, e₁, ha, hm₁, ht₁⟩ := hx m hm
  obtain ⟨b, m₂, e₂, hb, hm₂, ht₂⟩ := hf a ha m₁ hm₁
  exact ⟨b, m₂, bind_eq_some_iff.2 ⟨a, m₁, e₁, e₂⟩, hb, hm₂, ht₂.trans ht₁⟩

theorem settles_draw (draws : Generator.Ends) (d : Draw) : Settles (fun _ => True) (draw d) := by
  intro m hm
  obtain ⟨⟨drawn, random⟩, e⟩ := Option.isSome_iff_exists.1 (draws d m.random)
  exact ⟨drawn, { m with random }, draw_eq_some_iff.2 ⟨random, e, rfl⟩, trivial, hm, rfl⟩

theorem congruent_settles (draws : Generator.Ends) :
    Correspondence.Congruent .any id fun P x _ => Settles P x where
  pure {_ _ _ a} ha m hm := ⟨a, m, rfl, ha, hm, rfl⟩
  bind := settles_bind
  report _ _ m hm := ⟨(), m, report_of_exhausted hm _ _, trivial, hm, rfl⟩
  print m hm := ⟨(), m, print_of_exhausted hm _, trivial, hm, rfl⟩
  get? _ m hm := ⟨_, m, rfl, fun v _ => Vocabulary.any_value v, hm, rfl⟩
  callee _ m hm := ⟨_, m, rfl, fun v _ => (Vocabulary.any_value v).callable, hm, rfl⟩
  set _ _ m hm := ⟨(), _, rfl, trivial, hm, rfl⟩
  define {name v} _ _ m hm := by
    rw [define_apply]
    rcases m.env.define_cases name v with he | ⟨err, he, fault⟩ <;> rw [he]
    · exact ⟨_, _, rfl, trivial, hm, rfl⟩
    · exact ⟨_, _, rfl, fault, hm, rfl⟩
  assign {name v} _ _ m hm := by
    rw [assign_apply]
    rcases m.env.assign_cases name v with ⟨old, env, he, -⟩ | ⟨err, he, fault⟩ <;> rw [he]
    · exact ⟨_, _, rfl, Vocabulary.any_value old, hm, rfl⟩
    · exact ⟨_, _, rfl, fault, hm, rfl⟩
  inFrame hx m hm := by
    obtain ⟨a, m', e, ha, hm', ht⟩ := hx { m with env := m.env.push } hm
    exact ⟨a, _, inFrame_eq_some_iff.2 ⟨m', e, rfl⟩, ha, hm', ht⟩
  draw hf := settles_bind (settles_draw draws _) fun drawn _ => hf drawn
  freshId hf m hm := hf _ { m with nextId := m.nextId + 1 } hm

theorem settles_evaluate (limit fuel : Nat) (n : Node) :
    Settles Vocabulary.any.value (evaluate limit (fuel + 1) n) := fun m hm =>
  ⟨.nothing, m, evaluate_of_exhausted hm limit fuel n, Vocabulary.value_nothing, hm, rfl⟩

/-- A computation that ends at once on an exhausted machine. -/
theorem settles_of_eq {x : Eval Value} (v : Value)
    (hx : ∀ m, m.exhausted = true → x m = some (v, m)) : Settles Vocabulary.any.value x :=
  fun m hm => ⟨v, m, hx m hm, Vocabulary.any_value v, hm, rfl⟩

/-- Nothing is not true, so no loop is entered again, and it is no bound of a range. -/
theorem unbounded_settles (limit fuel : Nat) :
    Correspondence.Unbounded .any Vocabulary.any.value id (fun P x _ => Settles P x)
      (evaluate limit (fuel + 1)) (evaluate limit (fuel + 1)) (fuel + 1) (fuel + 1) where
  untilFalse {n} _ := by
    refine settles_of_eq .nothing fun m hm => ?_
    exact bind_eq_some_iff.2 ⟨.nothing, m, evaluate_of_exhausted hm limit fuel n, rfl⟩
  whileTrue {condition body} _ _ := by
    refine settles_of_eq .nothing fun m hm => ?_
    exact bind_eq_some_iff.2 ⟨.nothing, m, evaluate_of_exhausted hm limit fuel condition, rfl⟩
  range {args line} _ _ := by
    refine settles_of_eq (.collection []) fun m hm => ?_
    unfold Operator.range
    split
    · exact bind_eq_some_iff.2 ⟨(), m, report_of_exhausted hm line _, rfl⟩
    · cases args with
      | nil => rfl
      | cons n ns =>
        refine bind_eq_some_iff.2 ⟨none, m, ?_, rfl⟩
        exact bind_eq_some_iff.2 ⟨.nothing, m, evaluate_of_exhausted hm limit fuel n,
          bind_eq_some_iff.2 ⟨(), m, report_of_exhausted hm line _, rfl⟩⟩

/-- Any operator that is called, or goes on, once the limit is reached ends and shows nothing. -/
theorem settles_call (draws : Generator.Ends) (op : Operator) (limit fuel : Nat) (args : List Node)
    (line : Nat) :
    Settles Vocabulary.any.value (op.call (evaluate limit (fuel + 1)) (fuel + 1) args line) := by
  have all : ∀ n ∈ args, Vocabulary.any.node n := fun _ _ => trivial
  have here : Vocabulary.any.line line := trivial
  exact (congruent_settles draws).framed.apply (fun n _ => settles_evaluate limit fuel n)
    (unbounded_settles limit fuel) (Vocabulary.any_value (.operator op)).callable all here

end Eval

end

/-! ## Runs -/

/-- Events of which only the last can be the report of the limit. -/
theorem Event.limit_last {es : List Event} (h : ∀ e ∈ es.dropLast, e.isLimit = false) :
    es.countP (·.isLimit) ≤ 1 ∧ ∀ e ∈ es, e.isLimit = true → es.getLast? = some e := by
  rcases List.eq_nil_or_concat es with rfl | ⟨before, last, rfl⟩
  · exact ⟨Nat.zero_le 1, fun e he => by cases he⟩
  rw [List.concat_eq_append, List.dropLast_concat] at h
  rw [List.concat_eq_append]
  constructor
  · have none : before.countP (·.isLimit) = 0 :=
      List.countP_eq_zero.2 fun e he => by rw [h e he]; exact Bool.false_ne_true
    rw [List.countP_append, none, Nat.zero_add]
    exact List.countP_le_length
  · intro e he hl
    rcases List.mem_append.1 he with he | he
    · rw [h e he] at hl; cases hl
    · rw [List.mem_singleton.1 he]; exact List.getLast?_concat

theorem Machine.Winding.limit_latest [Generator] {m m' : Machine} (h : Winding m m')
    (hx : m.exhausted = false) (hm : ∀ e ∈ m.trace, e.isLimit = false) :
    ∀ e ∈ m'.trace.tail, e.isLimit = false := by
  intro e he
  rw [← Bool.not_eq_true]
  intro hl
  have old : e ∈ m.trace := by
    cases hx' : m'.exhausted with
    | false => exact h.below hx' e (List.mem_of_mem_tail he) hl
    | true =>
      obtain ⟨_, es, ht, -, hes⟩ := h.reached hx hx'
      rw [ht] at he
      exact hes e he hl
  rw [hm e old] at hl
  cases hl

namespace Interpreter

theorem RunsTo.limit_last [Generator] {i j : Interpreter} {source : String} {o : Outcome}
    (h : i.RunsTo source o j) : ∀ e ∈ o.events.dropLast, e.isLimit = false := by
  obtain ⟨fuel, h⟩ := h
  rcases run_cases source with ⟨d, hd⟩ | ⟨ts, -, hr⟩
  · rw [hd] at h
    cases h
    intro e he
    cases he
  · rw [hr] at h
    obtain ⟨v, m, hs, rfl, -⟩ := evaluateProgram_eq_some_iff.1 h
    have hw := (Machine.lawful_winding.keeps_statements i.limit fuel _ _ v m hs).2
    rw [List.dropLast_reverse]
    intro e he
    refine hw.limit_latest rfl (fun e he => ?_) e (List.mem_reverse.1 he)
    obtain ⟨p, -, rfl⟩ := List.mem_map.1 (List.mem_reverse.1 he)
    rfl

/-- **Winding down**: the events of a run report the limit at most once, and last. On a machine that
has reached the limit, a node is nothing and changes nothing, and every call of an operator ends and
shows nothing, however little fuel there is, if every draw of a random number ends. The next run
starts with two frames and without having reached the limit. -/
theorem Reachable.winds_down [Generator] {i j : Interpreter} {limit : Nat} {source : String}
    {o : Outcome} (hi : i.Reachable) (h : (i.withLimit limit).RunsTo source o j) :
    (o.events.countP (·.isLimit) ≤ 1 ∧
      ∀ e ∈ o.events, e.isLimit = true → o.events.getLast? = some e) ∧
    (∀ (m : Machine) (limit fuel : Nat), m.exhausted = true →
      (∀ n, evaluate limit (fuel + 1) n m = some (.nothing, m)) ∧
      (Generator.Ends → ∀ (op : Operator) (args : List Node) (line : Nat), ∃ v m',
        op.call (evaluate limit (fuel + 1)) (fuel + 1) args line m = some (v, m') ∧
          m'.exhausted = true ∧ m'.trace = m.trace)) ∧
    ∀ events, (j.machine events).env.depth = 2 ∧ (j.machine events).exhausted = false := by
  refine ⟨Event.limit_last h.limit_last, fun m limit fuel hm => ?_, fun events => ⟨?_, rfl⟩⟩
  · refine ⟨evaluate_of_exhausted hm limit fuel, fun draws op args line => ?_⟩
    obtain ⟨v, m', e, -, hm', ht⟩ := Eval.settles_call draws op limit fuel args line m hm
    exact ⟨v, m', e, hm', ht⟩
  · have start : (i.withLimit limit).env.Plain Vocabulary.source.value 0 := hi.plain
    exact (h.plain start).1.depth

open scoped Sigil.Random

/-- A loop without end prints what a function gives that calls itself without end. After the limit,
an operator that draws its argument gives nothing. -/
theorem Reachable.winds_down_recursion :
    ∃ (i j : Interpreter) (o : Outcome),
      i.Reachable ∧ (i.withLimit 12).RunsTo "; 'a'\n@ ok (; (f 1) 'b')" o j ∧
      o.output = ["a"] ∧ o.events.countP (·.isLimit) = 1 ∧
      (∀ e ∈ o.events, e.isLimit = true → o.events.getLast? = some e) ∧
      (∃ v m', (Operator.builtin .random).call (evaluate 12 1) 1 [.reference "x" 1] 1
          { j.machine [] with exhausted := true } = some (v, m') ∧
        m'.exhausted = true ∧ m'.trace = []) ∧
      (j.machine []).env.depth = 2 ∧ (j.machine []).exhausted = false := by
  have h : ((({} : Config).interpreter (Generator.ofSeed 0)).run 12 ": f ~ x ((: y x) (f y))").bind
      (fun p => ((p.2.withLimit 12).run 20 "; 'a'\n@ ok (; (f 1) 'b')").map fun q =>
        (q.1.output, q.1.events.countP (·.isLimit))) = some (["a"], 1) := by decide +kernel
  obtain ⟨⟨_, i⟩, h₁, h⟩ := Option.bind_eq_some_iff.1 h
  obtain ⟨⟨o, j⟩, h₂, h⟩ := Option.map_eq_some_iff.1 h
  obtain ⟨hout, hcount⟩ := Prod.mk.inj h
  have hi : i.Reachable := .run (.new {} (Generator.ofSeed 0)) ⟨12, h₁⟩
  have whole := hi.winds_down ⟨20, h₂⟩
  have after := (whole.2.1 { j.machine [] with exhausted := true } 12 0 rfl).2 Random.ends
  exact ⟨i, j, o, hi, ⟨20, h₂⟩, hout, hcount, whole.1.2, after _ _ _, whole.2.2 []⟩

end Interpreter

end Sigil
