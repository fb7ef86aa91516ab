import Sigil.Proofs.Calls
import Sigil.Proofs.Points

/-!
# Surroundings

Scopes and calls of functions have a frame of their own, and definitions, parameters and the names
of loops go to the innermost frame. Only assignments reach further. So code that calls no operator
that assigns leaves all frames but the innermost as they are (`Contract.contained`), and once its
frame is dropped nothing is left of it.

That such code comes to no assignment by way of a function it is handed, or finds in a collection,
is what the contract says of the values that are bound.
-/

namespace Sigil

/-- A call of anything but an operator that assigns. -/
def Unassigning (name : String) (_ : Nat) : Prop :=
  name ≠ "." ∧ name ≠ "++" ∧ name ≠ "--"

instance (name : String) (args : Nat) : Decidable (Unassigning name args) :=
  inferInstanceAs (Decidable (name ≠ "." ∧ name ≠ "++" ∧ name ≠ "--"))

theorem Builtin.assigns_of_unassigning {b : Builtin} {args : Nat}
    (h : Unassigning b.symbol args) : b.assigns = false := by
  cases b with
  | assign => exact absurd rfl h.1
  | increment => exact absurd rfl h.2.1
  | decrement => exact absurd rfl h.2.2
  | print | choose | loop | random | define | function | fold | magnitude | sign | compare | not
  | every | any | length | range => rfl

theorem Environment.pop_eq_of_outer {d e : Environment} (h : e.outer = d.frames) : e.pop = d := by
  obtain ⟨inner, outer⟩ := e
  cases h
  rfl

section

variable [Generator]

/-- The frames around the innermost are those from before. -/
def Machine.SameOuter (m m' : Machine) : Prop :=
  m'.env.outer = m.env.outer

theorem Machine.allows_sameOuter : Allows (fun e => e.isLimit = false) SameOuter where
  refl m := rfl
  trans h₁ h₂ := h₂.trans h₁
  report m e line _ := by unfold SameOuter; rw [env_emit]
  print m text := by unfold SameOuter; rw [env_emit]
  set m name v := rfl
  draw m random := rfl
  freshId m nextId := rfl
  frame h := congrArg Environment.outer (Environment.pop_eq_of_outer h)
  deeper h := h
  exhaust m limit line _ := by
    show (m.emit _).env.outer = m.env.outer
    rw [env_emit]

namespace Contract

/-- Evaluations that change nothing but the innermost frame. -/
def contained : Contract where
  value := (Vocabulary.calling Unassigning).value
  change := Machine.SameOuter
  ends _ _ := False

theorem lawful_contained (limit : Nat) : contained.Lawful (.calling Unassigning) limit :=
  .of_never id id (Vocabulary.admits _) Machine.allows_sameOuter id

theorem closed_contained (limit : Nat) : contained.Closed (.calling Unassigning) limit where
  toLawful := lawful_contained limit
  special hev hn hb special := by
    have ha := (Vocabulary.calling Unassigning).node_arg hn
    rw [Builtin.isSpecial, Builtin.assigns_of_unassigning (hn.2.named hb), Bool.or_false,
      Bool.or_eq_true, beq_iff_eq] at special
    rcases special with uses | rfl
    · exact (lawful_contained limit).kept_usesFuel hev ha (fun _ h => h) trivial uses
    · exact (lawful_contained limit).kept_fold hev ha (fun _ hv => hv) Vocabulary.value_combine?
        trivial

end Contract

end

/-- The nodes that have a frame of their own: scopes, and calls of functions. -/
inductive Node.OwnFrame (e : Environment) : Node → Prop where
  | scope (body : List Node) (line : Nat) : OwnFrame e (.scope body line)
  | call {name : String} {f : Function} (h : e.get? name = some (.operator (.function f)))
      (l : Nat) (args : List Node) (line : Nat) : OwnFrame e (.call (.reference name l) args line)

section

variable [Generator] {limit fuel k : Nat} {m m' : Machine} {v : Value}

theorem env_of_inFrame {x : Eval Value} {P : Value → Prop} (hx : Contract.contained.Kept fuel P x x)
    (hm : m.env.Plain Contract.contained.value k) (e : Eval.inFrame x m = some (v, m')) :
    m'.env = m.env := by
  obtain ⟨m₁, e₁, rfl⟩ := Eval.inFrame_eq_some_iff.1 e
  obtain ⟨-, -, -, same⟩ := (hx (k + 1) { m with env := m.env.push } hm.push).2 v m₁ e₁
  exact Environment.pop_eq_of_outer same

theorem env_of_node {n : Node} (hn : (Vocabulary.calling Unassigning).node n)
    (hm : m.env.Plain Contract.contained.value k) (ho : n.OwnFrame m.env)
    (e : Eval.node (evaluate limit fuel) fuel n m = some (v, m')) : m'.env = m.env := by
  have closed := Contract.closed_contained limit
  have hev : ∀ n, (Vocabulary.calling Unassigning).node n → Contract.contained.Kept fuel
      Contract.contained.value (evaluate limit fuel n) (evaluate limit fuel n) :=
    fun n hn => closed.evaluate fuel hn
  cases ho with
  | scope body line =>
    have kept := closed.kept_statements hev ((Vocabulary.calling Unassigning).node_statement hn)
    exact env_of_inFrame kept hm e
  | @call name f hf l args line =>
    have reached : (Vocabulary.calling Unassigning).function f := by
      rcases Environment.PlainFrames.find? hm hf with hv | ⟨b, -, hb⟩
      · exact Vocabulary.value_operator.1 hv
      · cases hb
    rw [Eval.node_named rfl hf] at e
    have ha := (Vocabulary.calling Unassigning).node_arg hn
    exact env_of_inFrame (closed.kept_invocation hev reached ha) hm e

theorem env_of_ownFrame {n : Node} (hn : (Vocabulary.calling Unassigning).node n)
    (hm : m.env.Plain Contract.contained.value k) (ho : n.OwnFrame m.env)
    (e : evaluate limit fuel n m = some (v, m')) : m'.env = m.env := by
  cases fuel with
  | zero => cases e
  | succ fuel =>
    rw [evaluate_succ, Eval.limited_apply] at e
    split at e
    · cases e; rfl
    split at e
    · cases e; exact Machine.env_emit m _
    · obtain ⟨m₁, e₁, rfl⟩ := Eval.deeper_eq_some_iff.1 e
      have same := env_of_node hn (m := { m with depth := m.depth + 1 }) hm ho e₁
      exact same

end

namespace Interpreter

/-- **Code without assignments cannot change its surroundings**: at any point of a run, a scope or a
call of a function that returns leaves every frame as it was, binding by binding, if neither it nor
a function in the environment calls an operator that assigns. -/
theorem Reachable.surroundings_unchanged [Generator] {i : Interpreter} (hi : i.Reachable)
    {source : String} {n : Node} {m m' : Machine} (hp : i.Point source n m) (ho : n.OwnFrame m.env)
    (hn : n.Calls Unassigning) (he : ∀ f ∈ m.env.functions, f.body.Calls Unassigning)
    {fuel : Nat} {v : Value} (e : evaluate i.limit fuel n m = some (v, m')) :
    m'.env = m.env := by
  obtain ⟨words, k, hm⟩ := hp.plain hi
  exact env_of_ownFrame ⟨words, hn⟩ (hm.calling he) ho e

open scoped Sigil.Random

/-- A function that defines a name of its surroundings, loops over its argument, and calls a
function that it is given. -/
theorem Reachable.surroundings_unchanged_call :
    let n : Node := .call (.reference "keep" 1) [.literal (.boolean true) 1, .reference "id" 1] 1
    ∃ (i : Interpreter) (m m' : Machine) (v : Value), i.Reachable ∧ i.Point "keep ok id" n m ∧
      n.OwnFrame m.env ∧ n.Calls Unassigning ∧ (∀ f ∈ m.env.functions, f.body.Calls Unassigning) ∧
      evaluate i.limit 20 n m = some (v, m') ∧ v.truth = true ∧ m'.env = m.env := by
  intro n
  have computed : ((({} : Config).interpreter (Generator.ofSeed 0)).run 20
      ": total no\n: keep ~ a f (: total a\n@ [a a] k v (: total v)\nf total)\n: id ~ x x").map
      (fun p =>
        (((p.2.entry []).env.get? "keep").map fun v => (v.kind, v.functions.length),
          decide (∀ f ∈ (p.2.entry []).env.functions, f.body.Calls Unassigning),
          (evaluate p.2.limit 20 n (p.2.entry [])).map (·.1.truth),
          (p.2.run 20 "keep ok id").isSome)) =
      some (some (.operator, 1), true, some true, true) := by decide +kernel
  obtain ⟨⟨_, i⟩, hi, computed⟩ := Option.map_eq_some_iff.1 computed
  simp only [Prod.mk.injEq] at computed
  obtain ⟨bound, he, hv, hr⟩ := computed
  have reachable : i.Reachable := .run (.new {} (Generator.ofSeed 0)) ⟨20, hi⟩
  obtain ⟨⟨o, j⟩, hr⟩ := Option.isSome_iff_exists.1 hr
  obtain ⟨⟨v, m'⟩, e, hv⟩ := Option.map_eq_some_iff.1 hv
  have point : i.Point "keep ok id" n (i.entry []) :=
    .first (n := n) ⟨20, hr⟩ (rfl : Token.lex "keep ok id" = .ok _) rfl rfl
  have own : n.OwnFrame (i.entry []).env := by
    obtain ⟨w, hw, hf⟩ := Option.map_eq_some_iff.1 bound
    cases w with
    | operator op =>
      cases op with
      | function f => exact .call hw 1 _ 1
      | builtin b => cases hf
    | number | string | boolean | collection | mapping | nothing => cases hf
  have hn : n.Calls Unassigning := by decide
  have he := of_decide_eq_true he
  exact ⟨i, i.entry [], m', v, reachable, point, own, hn, he, e, hv,
    reachable.surroundings_unchanged point own hn he e⟩

end Interpreter

end Sigil
