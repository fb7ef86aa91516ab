import Sigil.Proofs.Calls
import Sigil.Proofs.DepthLimit

/-!
# Termination

A function may call itself, or be handed to itself, without end; what ends such a program is the
depth limit. A node evaluates the nodes in it one level deeper, finitely many times unless it is a
loop without a count, and once the limit is reached every node ends at once. So fuel for one level
more than are left is enough (`Contract.bounded`), whatever is bound to whatever.

Loops without a count are left out, and ranges, whose end is up to rounding.
-/

namespace Sigil

/-- A call that does not go on by itself: neither a loop without a count nor a range. -/
def Counted (name : String) (args : Nat) : Prop :=
  ¬(name = "@" ∧ (args = 1 ∨ args = 2)) ∧ name ≠ ".."

instance (name : String) (args : Nat) : Decidable (Counted name args) :=
  inferInstanceAs (Decidable (¬(name = "@" ∧ (args = 1 ∨ args = 2)) ∧ name ≠ ".."))

theorem Builtin.usesFuel_of_counted {b : Builtin} {args : Nat} (h : Counted b.symbol args) :
    b.usesFuel args = false := by
  cases b with
  | loop => simpa [Counted, symbol, usesFuel] using h
  | range => exact absurd rfl h.2
  | print | choose | random | define | assign | function | increment | decrement | fold | magnitude
  | sign | compare | not | every | any | length => rfl

section

variable [Generator]

/-- The machine is as deep as before, and stays exhausted. -/
structure Machine.Level (m m' : Machine) : Prop where
  depth : m'.depth = m.depth
  exhausted : m.exhausted = true → m'.exhausted = true

theorem Machine.lawful_level : Lawful Level where
  refl m := ⟨rfl, id⟩
  trans h₁ h₂ := ⟨h₂.depth.trans h₁.depth, fun h => h₂.exhausted (h₁.exhausted h)⟩
  report m e line _ := by unfold emit; split <;> exact ⟨rfl, id⟩
  print m text := by unfold emit; split <;> exact ⟨rfl, id⟩
  set m name v := ⟨rfl, id⟩
  assign m _ _ _ _ _ := ⟨rfl, id⟩
  draw m random := ⟨rfl, id⟩
  freshId m nextId := ⟨rfl, id⟩
  frame h := ⟨h.depth, h.exhausted⟩
  deeper h := ⟨by rw [h.depth]; exact Nat.add_sub_cancel .., h.exhausted⟩
  exhaust m limit line _ := by unfold emit; split <;> exact ⟨rfl, fun _ => rfl⟩

namespace Contract

/-- Evaluations that end if their fuel is enough for the levels that are left. -/
def bounded (limit : Nat) : Contract where
  value := (Vocabulary.calling Counted).value
  change := Machine.Level
  ends fuel m := 0 < fuel ∧ (m.exhausted = true ∨ limit < m.depth + fuel)

theorem lawful_bounded (draws : Generator.Ends) (limit : Nat) :
    (bounded limit).Lawful (.calling Counted) limit where
  word h := h
  outside h := h
  admits := Vocabulary.admits _
  allows := Machine.lawful_level.toAllows
  ends_change := by
    rintro fuel m m' ⟨hf, he⟩ h
    refine ⟨hf, he.imp h.exhausted fun hd => ?_⟩
    rw [h.depth]
    exact hd
  ends_push h := h
  ends_zero h := absurd h.1 (Nat.lt_irrefl 0)
  ends_deeper := by
    rintro fuel m ⟨-, he⟩ hm hd
    have left : limit < m.depth + (fuel + 1) := by
      rcases he with he | he
      · rw [hm] at he; cases he
      · exact he
    show 0 < fuel ∧ (_ ∨ limit < m.depth + 1 + fuel)
    omega
  ends_draw _ := draws

theorem closed_bounded (draws : Generator.Ends) (limit : Nat) :
    (bounded limit).Closed (.calling Counted) limit where
  toLawful := lawful_bounded draws limit
  special hev hn hb special := by
    have ha := (Vocabulary.calling Counted).node_arg hn
    rw [Builtin.isSpecial, Builtin.usesFuel_of_counted (hn.2.named hb), Bool.false_or,
      Bool.or_eq_true, beq_iff_eq] at special
    rcases special with assigns | rfl
    · exact (lawful_bounded draws limit).kept_assigning hev ha Machine.lawful_level.assign trivial
        assigns
    · exact (lawful_bounded draws limit).kept_fold hev ha (fun _ hv => hv)
        Vocabulary.value_combine? trivial

end Contract

end

namespace Interpreter

/-- **Every run without loops that are not counted ends**, whatever the limit, if every draw of a
random number does: also if functions call themselves or each other without end, are passed as
arguments, or a loop over entries changes what it goes through. -/
theorem Reachable.terminates [Generator] (draws : Generator.Ends) {i : Interpreter}
    (hi : i.Reachable) (limit : Nat) {source : String}
    (hs : ∀ ts, Token.lex source = .ok ts → ∀ n ∈ (parse ts).1, n.Calls Counted)
    (he : ∀ f ∈ i.env.functions, f.body.Calls Counted) :
    ∃ o j, (i.withLimit limit).RunsTo source o j := by
  rcases run_cases source with ⟨d, hd⟩ | ⟨ts, hts, hr⟩
  · exact ⟨_, _, 0, hd 0 _⟩
  have words := references_parse (Token.lex_word hts)
  have closed := Contract.closed_bounded draws limit
  have kept := closed.kept_statements (fun _ hn => closed.evaluate (limit + 1) hn)
    fun n hn => ⟨words n hn, hs ts hts n hn⟩
  let start := (i.withLimit limit).machine ((parse ts).2.map fun e => .report (.parse e))
  have enough : (Contract.bounded limit).ends (limit + 1) start :=
    ⟨Nat.succ_pos limit, .inr (Nat.lt_of_lt_of_eq (Nat.lt_succ_self limit) (Nat.zero_add _).symm)⟩
  obtain ⟨⟨v, m⟩, e⟩ :=
    Option.isSome_iff_exists.1 ((kept 0 start (hi.plain.calling he)).1 enough)
  refine ⟨⟨v, m.trace.reverse⟩, (i.withLimit limit).keep m, limit + 1, ?_⟩
  rw [hr]
  exact evaluateProgram_eq_some_iff.2 ⟨v, m, e, rfl, rfl⟩

open scoped Sigil.Random

/-- A function that calls what it is given, given itself; two functions that call each other; and a
loop that empties what it goes through. -/
theorem Reachable.terminates_selfApplication :
    ∃ i : Interpreter, i.Reachable ∧ i.env.functions.length = 3 ∧
      (∀ ts, Token.lex "even ok\napply apply\n@ xs k v (. xs [])" = .ok ts →
        ∀ n ∈ (parse ts).1, n.Calls Counted) ∧
      (∀ f ∈ i.env.functions, f.body.Calls Counted) ∧
      ∃ o j, (i.withLimit 40).RunsTo "even ok\napply apply\n@ xs k v (. xs [])" o j := by
  have h : ((({} : Config).interpreter (Generator.ofSeed 0)).run 9
      ": even ~ x (odd x)\n: odd ~ x (even x)\n: apply ~ x (x x)\n: xs [ok no]").map
      (fun p => (p.2.env.functions.length,
        decide (∀ f ∈ p.2.env.functions, f.body.Calls Counted))) = some (3, true) := by
    decide +kernel
  have hs : (Token.lex "even ok\napply apply\n@ xs k v (. xs [])").toOption.all (fun ts =>
      decide (∀ n ∈ (parse ts).1, n.Calls Counted)) = true := by decide +kernel
  obtain ⟨⟨_, i⟩, h₁, h⟩ := Option.map_eq_some_iff.1 h
  obtain ⟨hlength, hf⟩ := Prod.mk.inj h
  have hi : i.Reachable := .run (.new {} (Generator.ofSeed 0)) ⟨9, h₁⟩
  have hs' : ∀ ts, Token.lex "even ok\napply apply\n@ xs k v (. xs [])" = .ok ts →
      ∀ n ∈ (parse ts).1, n.Calls Counted := by
    intro ts hts
    rw [hts] at hs
    exact of_decide_eq_true hs
  have he := of_decide_eq_true hf
  exact ⟨i, hi, hlength, hs', he, hi.terminates Random.ends 40 hs' he⟩

end Interpreter

end Sigil
