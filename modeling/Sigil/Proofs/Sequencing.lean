import Sigil.Proofs.DepthLimit
import Sigil.Proofs.Frames
import Sigil.Proofs.Seam
import Sigil.Random

/-!
# Running texts one after the other

Evaluation looks neither at the lines of what it evaluates nor at what has happened before: on a
machine whose lines are renumbered, after other events, it does the same with its own lines
renumbered, after those events (`Eval.carried_evaluate`). So a text that stands below another, in
one source with it, does what it does in a run of its own (`Interpreter.runsTo_join`), if the one
above ends with nothing and does not reach the depth limit: that is all that a new run resets.
-/

namespace Sigil

theorem Node.erase_renumber (ρ : Nat → Nat) (n : Node) : erase (renumber ρ n) = erase n := by
  have all : ∀ ns : List Node, (∀ n ∈ ns, erase (renumber ρ n) = erase n) →
      renumber (fun _ => 0) (renumber ρ ns) = renumber (fun _ => 0) ns :=
    fun ns h => List.map_map.trans (List.map_congr_left h)
  unfold erase at *
  induction n using Node.induction with
  | literal | reference => rfl
  | call head args l hh ha => simp only [renumber_call, hh, all args ha]
  | scope body l hb => simp only [renumber_scope, all body hb]
  | collection items l hi => simp only [renumber_collection, all items hi]
  | mapping pairs l hp =>
    have pairs' : renumber (fun _ => 0) (renumber ρ pairs) = renumber (fun _ => 0) pairs := by
      refine List.map_map.trans (List.map_congr_left fun p h => ?_)
      exact Prod.ext (hp p h).1 (hp p h).2
    simp only [renumber_mapping, pairs']

theorem erase_nodes_renumber (ρ : Nat → Nat) (ns : List Node) :
    erase (renumber ρ ns) = erase ns :=
  List.map_map.trans (List.map_congr_left fun n _ => n.erase_renumber ρ)

theorem Table.insert_insert {α : Type} (name : String) (entry : α) (t : Table α) :
    insert name entry (insert name entry t) = insert name entry t := by
  induction t with
  | nil => simp [insert]
  | cons p t ih => by_cases h : p.1 = name <;> simp [insert, h, ih]

section

variable [Generator]

namespace Machine

/-- The machine with its lines renumbered, after the events `T`, which are latest first. -/
def after (ρ : Nat → Nat) (T : List Event) (m : Machine) : Machine :=
  { m with env := renumber ρ m.env, trace := renumber ρ m.trace ++ T }

variable {ρ : Nat → Nat} {T : List Event}

theorem after_emit (m : Machine) (e : Event) :
    (m.after ρ T).emit (renumber ρ e) = (m.emit e).after ρ T := by
  unfold emit
  change (if m.exhausted then _ else _) = _
  split <;> rfl

end Machine

namespace Eval

variable {ρ : Nat → Nat} {T : List Event}

/-- On a machine with its lines renumbered, after the events `T`, the second computation does what
the first does. -/
def Carried (ρ : Nat → Nat) (T : List Event) : Correspondence := fun P x y =>
  ∀ m, y (m.after ρ T) = (x m).map (fun p => (renumber ρ p.1, p.2.after ρ T)) ∧
    ∀ a m', x m = some (a, m') → P a

theorem carried_bind {α β : Type} [Lined α] [Lined β] {P : α → Prop} {Q : β → Prop}
    {x y : Eval α} {f g : α → Eval β} (hx : Carried ρ T P x y)
    (hf : ∀ a, P a → Carried ρ T Q (f a) (g (renumber ρ a))) :
    Carried ρ T Q (x >>= f) (y >>= g) := by
  intro m
  obtain ⟨ex, hP⟩ := hx m
  change (y (m.after ρ T)).bind (fun p => g p.1 p.2) = ((x m).bind fun p => f p.1 p.2).map _ ∧
    ∀ a m', (x m).bind (fun p => f p.1 p.2) = some (a, m') → Q a
  rw [ex]
  cases h : x m with
  | none => exact ⟨rfl, fun a m' e => by cases e⟩
  | some p => exact hf p.1 (hP p.1 p.2 h) p.2

theorem congruent_carried : Correspondence.Congruent .any ρ (Carried ρ T) where
  pure ha m := ⟨rfl, fun _ _ e => by cases e; exact ha⟩
  bind := carried_bind
  report {line err} _ _ m :=
    ⟨congrArg (fun m' => some ((), m')) (m.after_emit (.report (.eval err line))),
      fun _ _ _ => trivial⟩
  print {text} m :=
    ⟨congrArg (fun m' => some ((), m')) (m.after_emit (.print text)), fun _ _ _ => trivial⟩
  get? {name} _ m :=
    ⟨congrArg (fun o => some (o, m.after ρ T)) (m.env.get?_renumber ρ name),
      fun _ _ _ v _ => Vocabulary.any_value v⟩
  callee {name} _ m :=
    ⟨congrArg (fun o => some (o, m.after ρ T)) (m.env.get?_renumber ρ name),
      fun _ _ _ v _ => (Vocabulary.any_value v).callable⟩
  set {name v} _ _ m := by
    refine ⟨?_, fun _ _ _ => trivial⟩
    change some ((), { m.after ρ T with env := (renumber ρ m.env).set name (renumber ρ v) }) = _
    rw [← Environment.renumber_set]
    rfl
  define {name v} _ _ m := by
    have e : (m.after ρ T).env.define name (renumber ρ v) = renumber ρ (m.env.define name v) :=
      m.env.define_renumber ρ name v
    rw [define_apply, define_apply, e]
    refine ⟨rfl, fun _ _ e => ?_⟩
    cases e
    rcases m.env.define_cases name v with h | ⟨err, h, hop⟩ <;> rw [h]
    · trivial
    · exact hop
  assign {name v} _ _ m := by
    have e : (m.after ρ T).env.assign name (renumber ρ v) = renumber ρ (m.env.assign name v) :=
      m.env.assign_renumber ρ name v
    rw [assign_apply, assign_apply, e]
    refine ⟨rfl, fun _ _ e => ?_⟩
    cases e
    rcases m.env.assign_cases name v with ⟨old, _, h, -⟩ | ⟨err, h, hop⟩ <;> rw [h]
    · exact Vocabulary.any_value old
    · exact hop
  inFrame {_ _ P x y} hx m := by
    obtain ⟨ex, hP⟩ := hx { m with env := m.env.push }
    rw [inFrame_apply, inFrame_apply]
    change (y (Machine.after ρ T { m with env := m.env.push })).map _ = _ ∧ _
    rw [ex]
    cases h : x { m with env := m.env.push } with
    | none => exact ⟨rfl, fun _ _ e => by cases e⟩
    | some p =>
      refine ⟨?_, fun _ _ e => by cases e; exact hP _ _ h⟩
      change some (renumber ρ p.1, { p.2.after ρ T with env := (renumber ρ p.2.env).pop }) = _
      rw [← Environment.renumber_pop]
      rfl
  draw {d _ _ _ f g} hf m := by
    change (draw d (m.after ρ T)).bind (fun p => g p.1 p.2) =
      ((draw d m).bind fun p => f p.1 p.2).map _ ∧
        ∀ a m', (draw d m).bind (fun p => f p.1 p.2) = some (a, m') → _
    unfold draw
    change (Option.map _ (Generator.draw d m.random)).bind _ = _ ∧ _
    cases Generator.draw d m.random with
    | none => exact ⟨rfl, fun _ _ e => by cases e⟩
    | some p => exact hf p.1 { m with random := p.2 }
  freshId hf m := hf _ { m with nextId := m.nextId + 1 }

theorem carried_limited {P : Value → Prop} (hP : P .nothing) {limit line : Nat} {x y : Eval Value}
    (h : Carried ρ T P x y) :
    Carried ρ T P (limited limit line x) (limited limit (ρ line) y) := by
  intro m
  rw [limited_apply, limited_apply]
  change (if m.exhausted then _ else if limit ≤ m.depth then _ else _) = _ ∧ _
  split
  · exact ⟨rfl, fun _ _ e => by cases e; exact hP⟩
  split
  · refine ⟨?_, fun _ _ e => by cases e; exact hP⟩
    have emitted := m.after_emit (ρ := ρ) (T := T) (.report (.eval (.depthLimit limit) line))
    exact congrArg (fun m' => some (Value.nothing, { m' with exhausted := true })) emitted
  · obtain ⟨e, hP⟩ := h { m with depth := m.depth + 1 }
    rw [deeper_apply, deeper_apply]
    change (y (Machine.after ρ T { m with depth := m.depth + 1 })).map _ = _ ∧ _
    rw [e]
    cases hx : x { m with depth := m.depth + 1 } with
    | none => exact ⟨rfl, fun _ _ e => by cases e⟩
    | some p => exact ⟨rfl, fun _ _ e => by cases e; exact hP _ _ hx⟩

/-- Evaluation depends neither on lines nor on what has happened. -/
theorem carried_evaluate (limit fuel : Nat) (n : Node) :
    Carried ρ T Vocabulary.any.value (evaluate limit fuel n)
      (evaluate limit fuel (renumber ρ n)) :=
  congruent_carried.framed.evaluate (fun m => ⟨rfl, fun _ _ e => by cases e⟩)
    (fun _ h => carried_limited Vocabulary.value_nothing h) (.refl _ fuel) trivial

theorem carried_sequence (limit fuel : Nat) (last : Value) (ns : List Node) :
    Carried ρ T Vocabulary.any.value (sequence (evaluate limit fuel) last ns)
      (sequence (evaluate limit fuel) (renumber ρ last) (renumber ρ ns)) :=
  congruent_carried.framed.sequence (fun n _ => carried_evaluate limit fuel n)
    (Vocabulary.any_value last) fun _ _ => trivial

/-! ## Statements after statements -/

theorem sequence_append (ev : Node → Eval Value) (last : Value) (ns ms : List Node) :
    sequence ev last (ns ++ ms) = sequence ev last ns >>= fun v => sequence ev v ms := by
  induction ns generalizing last with
  | nil => rw [List.nil_append, sequence, pure_bind]
  | cons n ns ih => simp only [List.cons_append, sequence, ih, bind_assoc]

theorem statements_append (ev : Node → Eval Value) (ns ms : List Node) :
    statements ev (ns ++ ms) = statements ev ns >>= fun v => sequence ev v ms := by
  simp only [statements, sequence_append, bind_assoc]

/-- After statements, the last result is what they gave. -/
theorem set_previous_of_statements {ev : Node → Eval Value} {ns : List Node} {m m' : Machine}
    {v : Value} (h : statements ev ns m = some (v, m')) :
    m'.env.set previousName v = m'.env := by
  have again : ∀ (e : Environment) (w : Value),
      (e.set previousName w).set previousName w = e.set previousName w := by
    intro e w
    exact congrArg (Environment.mk · e.outer) (Table.insert_insert previousName w e.inner)
  have run : ∀ (ns : List Node) (last : Value) (m : Machine),
      m.env.set previousName last = m.env → sequence ev last ns m = some (v, m') →
      m'.env.set previousName v = m'.env := by
    intro ns
    induction ns with
    | nil => intro last m hm e; cases e; exact hm
    | cons n ns ih =>
      intro last m hm e
      obtain ⟨w, m₁, -, e⟩ := bind_eq_some_iff.1 e
      obtain ⟨_, m₂, e₁, e₂⟩ := bind_eq_some_iff.1 e
      cases e₁
      exact ih w _ (again m₁.env w) e₂
  obtain ⟨_, m₁, e₁, e₂⟩ := bind_eq_some_iff.1 h
  cases e₁
  exact run ns .nothing _ (again m.env .nothing) e₂

/-- Nodes moved to other lines do, without lines, what they do where they were; and what has
happened before makes no difference but for being there. -/
theorem sequence_moved (limit fuel : Nat) (ρ : Nat → Nat) (ns : List Node) (m : Machine) :
    (sequence (evaluate limit fuel) .nothing (renumber ρ ns) m).map
        (fun p => (erase p.1, p.2.after (fun _ => 0) [])) =
      (sequence (evaluate limit fuel) .nothing ns { m with trace := [] }).map
        fun p => (erase p.1, p.2.after (fun _ => 0) (erase m.trace)) := by
  have same : renumber (fun _ => 0) (renumber ρ ns) = renumber (fun _ => 0) ns :=
    erase_nodes_renumber ρ ns
  have moved := (carried_sequence (ρ := fun _ => 0) (T := []) limit fuel .nothing
    (renumber ρ ns) m).1
  have here := (carried_sequence (ρ := fun _ => 0) (T := erase m.trace) limit fuel .nothing ns
    { m with trace := [] }).1
  have start : m.after (fun _ => 0) [] =
      Machine.after (fun _ => 0) (erase m.trace) { m with trace := [] } := by
    simp only [Machine.after, List.append_nil, renumber_nil, List.nil_append]
    rfl
  rw [same, start, here] at moved
  exact moved.symm

end Eval

end

namespace Event

theorem printed_erase (es : List Event) :
    (erase es).filterMap printed? = es.filterMap printed? := by
  refine List.filterMap_map.trans (congrArg (List.filterMap · es) (funext fun e => ?_))
  cases e <;> rfl

theorem diagnostics_erase (es : List Event) :
    (erase es).filterMap diagnostic? = erase (es.filterMap diagnostic?) := by
  refine List.filterMap_map.trans (Eq.trans ?_ List.map_filterMap.symm)
  refine congrArg (List.filterMap · es) (funext fun e => ?_)
  cases e <;> rfl

end Event

namespace Interpreter

section

variable [Generator]

/-- What a run that comes after the given events shows and leaves behind, without lines. -/
def residue (before : List Event) (p : Outcome × Interpreter) :
    Value × List Event × Environment × Generator.State × Nat :=
  (erase p.1.value, erase (before ++ p.1.events), erase p.2.env, p.2.random, p.2.nextId)

/-- The same of the value and the machine that an evaluation ends with. -/
def shown (p : Value × Machine) : Value × List Event × Environment × Generator.State × Nat :=
  (p.1, p.2.trace.reverse, p.2.env, p.2.random, p.2.nextId)

section

variable {i j : Interpreter} {a b : String} {ns ms : List Node} {o : Outcome} (ha : Reads a ns)
  (hb : Reads b ms) (hv : o.value = .nothing) (hl : ∀ d ∈ o.diagnostics, d.isLimit = false)

include ha hb hv hl

/-- With any fuel that is enough for the first text, the run of both together ends if and as that of
the second does after the first. -/
theorem run_join {fuel : Nat} (h : i.run fuel a = some (o, j)) :
    (i.run fuel (a ++ "\n" ++ b)).map (residue []) = (j.run fuel b).map (residue o.events) := by
  obtain ⟨ρ, hab⟩ := ha.join hb
  rw [ha.run] at h
  obtain ⟨v, m, hs, rfl, rfl⟩ := evaluateProgram_eq_some_iff.1 h
  have nothing : v = .nothing := hv
  subst nothing
  have depth : m.depth = 0 :=
    (Machine.lawful_sameFrames.keeps_statements i.limit fuel ns _ _ m hs).2.depth
  have below : m.exhausted = false := by
    have hw := (Machine.lawful_winding.keeps_statements i.limit fuel ns _ _ m hs).2
    rw [← Bool.not_eq_true, exhausted_iff .nothing hw]
    rintro ⟨d, hd, hdl⟩
    rw [hl d hd] at hdl
    cases hdl
  have first : Eval.statements (evaluate i.limit fuel) (ns ++ renumber ρ ms) (i.machine []) =
      Eval.sequence (evaluate i.limit fuel) .nothing (renumber ρ ms) m := by
    rw [Eval.statements_append]
    change (Eval.statements (evaluate i.limit fuel) ns (i.machine [])).bind _ = _
    rw [show Eval.statements (evaluate i.limit fuel) ns (i.machine []) = some (.nothing, m) from hs]
    rfl
  have second : Eval.statements (evaluate i.limit fuel) ms ((i.keep m).machine []) =
      Eval.sequence (evaluate i.limit fuel) .nothing ms { m with trace := [] } := by
    have start : { (i.keep m).machine [] with env := m.env.set previousName .nothing } =
        { m with trace := [] } := by
      rw [Eval.set_previous_of_statements hs]
      unfold machine keep
      rw [← depth, ← below]
      rfl
    rw [← start]
    rfl
  have moved := congrArg (Option.map shown) (Eval.sequence_moved i.limit fuel ρ ms m)
  rw [Option.map_map, Option.map_map, ← first, ← second] at moved
  rw [hab.run, hb.run]
  unfold evaluateProgram
  rw [Option.map_map, Option.map_map]
  refine (congrArg (Option.map · _) (funext fun p => ?_)).trans
    (moved.trans (congrArg (Option.map · _) (funext fun p => ?_)))
  · simp [residue, shown, Machine.after, erase, keep]
  · simp [residue, shown, Machine.after, erase, keep]

/-- **Joining runs**: if the run of a text ends with nothing and without reaching the limit, running
it and a second text joined by a newline ends exactly if running the second after it does, and comes
to the same but for lines. -/
theorem runsTo_join (h : i.RunsTo a o j) :
    ((∃ p k, i.RunsTo (a ++ "\n" ++ b) p k) ↔ ∃ q l, j.RunsTo b q l) ∧
    ∀ p k q l, i.RunsTo (a ++ "\n" ++ b) p k → j.RunsTo b q l →
      erase p.value = erase q.value ∧ p.output = o.output ++ q.output ∧
      erase p.diagnostics = erase (o.diagnostics ++ q.diagnostics) ∧
      erase k.env = erase l.env ∧ k.random = l.random ∧ k.nextId = l.nextId := by
  obtain ⟨f₀, h⟩ := h
  have joined : ∀ f, f₀ ≤ f → (i.run f (a ++ "\n" ++ b)).map (residue []) =
      (j.run f b).map (residue o.events) :=
    fun f hf => run_join ha hb hv hl (run_mono hf h)
  refine ⟨⟨?_, ?_⟩, ?_⟩
  · rintro ⟨p, k, f, hp⟩
    have both := joined (max f₀ f) (Nat.le_max_left ..)
    rw [run_mono (Nat.le_max_right f₀ f) hp] at both
    obtain ⟨⟨q, l⟩, hq, -⟩ := Option.map_eq_some_iff.1 both.symm
    exact ⟨q, l, _, hq⟩
  · rintro ⟨q, l, f, hq⟩
    have both := joined (max f₀ f) (Nat.le_max_left ..)
    rw [run_mono (Nat.le_max_right f₀ f) hq] at both
    obtain ⟨⟨p, k⟩, hp, -⟩ := Option.map_eq_some_iff.1 both
    exact ⟨p, k, _, hp⟩
  · rintro p k q l ⟨f, hp⟩ ⟨f', hq⟩
    have both := joined (max f₀ (max f f')) (Nat.le_max_left ..)
    rw [run_mono (by omega) hp, run_mono (by omega) hq] at both
    obtain ⟨value, rest⟩ := Prod.mk.inj (Option.some.inj both)
    obtain ⟨events, rest⟩ := Prod.mk.inj rest
    obtain ⟨env, rest⟩ := Prod.mk.inj rest
    obtain ⟨random, nextId⟩ := Prod.mk.inj rest
    rw [List.nil_append] at events
    refine ⟨value, ?_, ?_, env, random, nextId⟩
    · have out := congrArg (List.filterMap Event.printed?) events
      rw [Event.printed_erase, Event.printed_erase, List.filterMap_append] at out
      exact out
    · have reports := congrArg (List.filterMap Event.diagnostic?) events
      rw [Event.diagnostics_erase, Event.diagnostics_erase, List.filterMap_append] at reports
      exact reports

end

end

open scoped Sigil.Random

/-- A function and a comment above, a call of the function in a failing sum below, and a value that
is a function. -/
theorem runsTo_join_session :
    let i := ({} : Config).interpreter (Generator.ofSeed 0)
    let a := ": f ~ x (+ x y) , adds\n; 'a'\n@ no f , nothing"
    let b := ": y 1\n; (f 2) (f 'b')\n~ z (+ z y)"
    ∃ (o p q : Outcome) (j k l : Interpreter),
      i.RunsTo a o j ∧ j.RunsTo b q l ∧ i.RunsTo (a ++ "\n" ++ b) p k ∧
      p.output = ["a", "3\tb"] ∧ p.diagnostics.length = 1 ∧
      erase p.value = erase q.value ∧ p.output = o.output ++ q.output ∧
      erase p.diagnostics = erase (o.diagnostics ++ q.diagnostics) ∧
      erase k.env = erase l.env ∧ k.random = l.random ∧ k.nextId = l.nextId := by
  intro i a b
  have reads : ∀ s, (Token.lex s).toOption.map (fun ts => (parse ts).2) = some [] →
      ∃ ns, Reads s ns := by
    intro s h
    obtain ⟨ts, hl, hp⟩ := Option.map_eq_some_iff.1 h
    cases hs : Token.lex s with
    | error e => rw [hs] at hl; cases hl
    | ok us => rw [hs] at hl; cases hl; exact ⟨_, ts, hs, Prod.ext rfl hp⟩
  have first : (i.run 9 a).map (fun r => (r.1.value.isNothing, r.1.diagnostics.all (!·.isLimit))) =
      some (true, true) := by decide +kernel
  have both : (i.run 9 (a ++ "\n" ++ b)).map (fun r => (r.1.output, r.1.diagnostics.length)) =
      some (["a", "3\tb"], 1) := by decide +kernel
  obtain ⟨ns, ha⟩ := reads a (by decide +kernel)
  obtain ⟨ms, hb⟩ := reads b (by decide +kernel)
  obtain ⟨⟨o, j⟩, ho, hn⟩ := Option.map_eq_some_iff.1 first
  obtain ⟨⟨p, k⟩, hp, hout⟩ := Option.map_eq_some_iff.1 both
  obtain ⟨hn, hl⟩ := Prod.mk.inj hn
  obtain ⟨hout, hd⟩ := Prod.mk.inj hout
  have nothing : o.value = .nothing := by
    cases hv : o.value with
    | nothing => rfl
    | number | string | boolean | collection | mapping | operator =>
      simp [hv, Value.isNothing] at hn
  simp only [List.all_eq_true, Bool.not_eq_true'] at hl
  obtain ⟨ends, same⟩ := runsTo_join ha hb nothing hl ⟨9, ho⟩
  obtain ⟨q, l, hq⟩ := ends.1 ⟨p, k, 9, hp⟩
  exact ⟨o, p, q, j, k, l, ⟨9, ho⟩, hq, ⟨9, hp⟩, hout, hd, same p k q l ⟨9, hp⟩ hq⟩

end Interpreter

end Sigil
