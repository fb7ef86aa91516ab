import Mathlib.Data.List.Basic
import Sigil.Config
import Sigil.Proofs.Arithmetic
import Sigil.Proofs.Transition
import Sigil.Random

/-!
# Folds

A fold keeps the kind of its first operand, whatever comes after it. So which operands it takes is
known before it starts: those of that kind, if the operator combines the kind at all
(`Fold.takes`). The others are reported, each at its place, and leave no mark on what is combined.
What two operands come to is said of numbers by `Fold.Makes`; texts and items are put one after the
other.

`Fold.operands_eq` says this of the loop, by an induction in which the accumulator changes and its
kind does not. `fold_operands` is what it comes to for a kind that is combined and for one that is
not.
-/

namespace Sigil

namespace Value

def number? : Value → Option Float
  | number x => some x
  | _ => none

def string? : Value → Option String
  | string s => some s
  | _ => none

def items? : Value → Option (List Value)
  | collection items => some items
  | _ => none

/-- Two values of one kind as one: numbers by `f`, texts and items one after the other. -/
def join (f : Float → Float → Float) : Value → Value → Value
  | number x, number y => number (f x y)
  | string s, string t => string (s ++ t)
  | collection xs, collection ys => collection (xs ++ ys)
  | v, _ => v

theorem kind_join (f : Float → Float → Float) (v w : Value) : (join f v w).kind = v.kind := by
  unfold join
  split <;> rfl

theorem kind_foldl_join (f : Float → Float → Float) (v : Value) (vs : List Value) :
    (vs.foldl (join f) v).kind = v.kind := by
  induction vs generalizing v with
  | nil => rfl
  | cons w ws ih => rw [List.foldl_cons, ih, kind_join]

section

variable {f : Float → Float → Float} {k : Kind}

/-- What is joined, for one kind of value: `get?` takes out what `mk` puts in, and `g` is what is
done to it. -/
theorem foldl_join_filter {α : Type} {mk : α → Value} {get? : Value → Option α} {g : α → α → α}
    (hget : ∀ w, if w.kind = k then ∃ a, get? w = some a ∧ w = mk a else get? w = none)
    (hjoin : ∀ a b, join f (mk a) (mk b) = mk (g a b)) (a : α) (vs : List Value) :
    (vs.filter (·.kind = k)).foldl (join f) (mk a) = mk ((vs.filterMap get?).foldl g a) := by
  induction vs generalizing a with
  | nil => rfl
  | cons w ws ih =>
    have hw := hget w
    split at hw
    · next hk =>
      obtain ⟨b, hb, rfl⟩ := hw
      rw [List.filter_cons_of_pos (by simpa using hk), List.filterMap_cons_some hb, List.foldl_cons,
        List.foldl_cons, hjoin, ih]
    · next hk =>
      rw [List.filter_cons_of_neg (by simpa using hk), List.filterMap_cons_none hw, ih]

theorem foldl_join_number (x : Float) (vs : List Value) :
    (vs.filter (·.kind = .number)).foldl (join f) (.number x) =
      .number ((vs.filterMap number?).foldl f x) :=
  foldl_join_filter (fun w => by cases w <;> simp [kind, number?]) (fun _ _ => rfl) x vs

theorem foldl_append_eq_join (s : String) (ts : List String) :
    ts.foldl (· ++ ·) s = s ++ String.join ts := by
  induction ts generalizing s with
  | nil => simp
  | cons t ts ih => rw [List.foldl_cons, ih, String.join_cons, String.append_assoc]

theorem foldl_join_string (s : String) (vs : List Value) :
    (vs.filter (·.kind = .string)).foldl (join f) (.string s) =
      .string (s ++ String.join (vs.filterMap string?)) := by
  rw [← foldl_append_eq_join]
  exact foldl_join_filter (fun w => by cases w <;> simp [kind, string?]) (fun _ _ => rfl) s vs

theorem foldl_join_collection (xs vs : List Value) :
    (vs.filter (·.kind = .collection)).foldl (join f) (.collection xs) =
      .collection (xs ++ (vs.filterMap items?).flatten) := by
  rw [← List.map_id (vs.filterMap items?), ← List.foldl_append_eq_append]
  exact foldl_join_filter (fun w => by cases w <;> simp [kind, items?]) (fun _ _ => rfl) xs vs

end

end Value

namespace Fold

/-- The kinds of values that an operator combines. -/
def kinds : Fold → List Kind
  | add => [.number, .string, .collection]
  | _ => [.number]

/-- Whether an operand is combined with what is of kind `k`. -/
def takes (op : Fold) (k : Kind) (w : Value) : Bool :=
  k ∈ op.kinds ∧ w.kind = k

variable {op : Fold} {k : Kind}

theorem takes_of_mem (h : k ∈ op.kinds) : op.takes k = fun w => decide (w.kind = k) :=
  funext fun w => by simp [takes, h]

theorem takes_of_not_mem (h : k ∉ op.kinds) : op.takes k = fun _ => false :=
  funext fun w => by simp [takes, h]

theorem number_mem_kinds (op : Fold) : .number ∈ op.kinds := by
  cases op <;> decide

theorem combine?_eq (op : Fold) (v w : Value) :
    op.combine? v w = if op.takes v.kind w then some (v.join op.numbers w) else none := by
  cases v <;> cases w <;> cases op <;> rfl

end Fold

section

variable [Generator]

/-- The machine after faults at one line are reported one after the other. -/
def Machine.reporting (m : Machine) (line : Nat) (es : List EvalError) : Machine :=
  { m with trace := (es.map fun e => .report (.eval e line)).reverse ++ m.trace }

/-- A report, followed by others. -/
theorem Machine.reporting_emit {m : Machine} (hm : m.exhausted = false) (line : Nat)
    (e : EvalError) (es : List EvalError) :
    (m.emit (.report (.eval e line))).reporting line es = m.reporting line (e :: es) := by
  simp [emit, reporting, hm]

theorem Machine.exhausted_emit (m : Machine) (e : Event) :
    (m.emit e).exhausted = m.exhausted := by
  unfold emit
  split <;> rfl

namespace Fold

/-- What a fold comes to: the operands it takes are joined, and the others are reported. -/
theorem operands_eq (op : Fold) (line : Nat) (acc : Value) (vs : List Value) {m : Machine}
    (hm : m.exhausted = false) :
    op.operands line acc vs m = some ((vs.filter (op.takes acc.kind)).foldl (.join op.numbers) acc,
      m.reporting line ((vs.filter (!op.takes acc.kind ·)).map fun w =>
        .operands (.fold op) acc.kind w.kind)) := by
  induction vs generalizing acc m with
  | nil => rfl
  | cons w ws ih =>
    unfold operands
    rw [combine?_eq]
    cases h : op.takes acc.kind w with
    | true =>
      -- The accumulator is another value and has the same kind, so the rest is split as before.
      have step := ih (acc.join op.numbers w) hm
      rw [Value.kind_join] at step
      simpa [h] using step
    | false =>
      let fault := EvalError.operands (.fold op) acc.kind w.kind
      have step := ih acc ((m.exhausted_emit (.report (.eval fault line))).trans hm)
      rw [Machine.reporting_emit hm] at step
      simpa [h] using Eval.bind_eq_some_iff.2 ⟨(), _, rfl, step⟩

/-- Several arguments, or the items of a single one, are the operands of the fold. -/
theorem call_eq (op : Fold) (line : Nat) {ev : Node → Eval Value} {args : List Node}
    {vs later : List Value} {first : Value} {m m' : Machine}
    (he : Eval.all ev args m = some (vs, m'))
    (hvs : vs = first :: later ∧ later ≠ [] ∨ vs = [.collection (first :: later)]) :
    op.call ev args line m = op.operands line first later m' := by
  refine (congrArg (Option.bind · _) he : op.call ev args line m = _).trans ?_
  obtain ⟨rfl, hl⟩ | rfl := hvs
  · obtain ⟨w, ws, rfl⟩ := List.exists_cons_of_ne_nil hl
    cases first <;> rfl
  · rfl

end Fold

/-- **A fold takes the operands of the first one's kind**: if the operator combines that kind, the
result is the left fold over the first operand and those after it that have its kind, and each of
the others is reported, in their order and after all arguments are evaluated. If it does not, the
result is the first operand and all others are reported. Numbers are combined by a function that
makes of any two what the operator does. -/
theorem fold_operands (op : Fold) (limit fuel line : Nat) {args : List Node}
    {vs later : List Value} {first : Value} {m m' : Machine}
    (he : Eval.all (evaluate limit fuel) args m = some (vs, m')) (hm : m'.exhausted = false)
    (hvs : vs = first :: later ∧ later ≠ [] ∨ vs = [.collection (first :: later)]) :
    ∃ f v faults,
      (∀ x y, op.Makes x y (f x y)) ∧
      Builtin.call (.fold op) (evaluate limit fuel) fuel args line m =
        some (v, m'.reporting line faults) ∧
      v.kind = first.kind ∧
      (first.kind ∈ op.kinds →
        v = (later.filter (·.kind = first.kind)).foldl (.join f) first ∧
        faults = (later.filter (·.kind ≠ first.kind)).map fun w =>
          .typeMismatch (.fold op) first.kind w.kind) ∧
      (first.kind ∉ op.kinds →
        v = first ∧
        faults = later.map fun w =>
          if w.kind = first.kind then .unsupportedOperands (.fold op) first.kind w.kind
          else .typeMismatch (.fold op) first.kind w.kind) ∧
      (∀ x, first = .number x →
        v = .number ((later.filterMap Value.number?).foldl f x)) ∧
      (op = .add → ∀ s, first = .string s →
        v = .string (s ++ String.join (later.filterMap Value.string?))) ∧
      (op = .add → ∀ xs, first = .collection xs →
        v = .collection (xs ++ (later.filterMap Value.items?).flatten)) := by
  have called := (op.call_eq line he hvs).trans (op.operands_eq line first later hm)
  have joined {k : Kind} (hk : first.kind = k) (hop : k ∈ op.kinds) :
      (later.filter (op.takes first.kind)).foldl (.join op.numbers) first =
        (later.filter (·.kind = k)).foldl (.join op.numbers) first := by
    rw [hk, Fold.takes_of_mem hop]
  refine ⟨op.numbers, _, _, op.makes_numbers, called, Value.kind_foldl_join _ first _,
    fun hk => ⟨joined rfl hk, ?_⟩, fun hk => ⟨?_, ?_⟩, ?_, ?_, ?_⟩
  · rw [Fold.takes_of_mem hk, List.filter_congr fun w _ => (decide_not).symm]
    refine List.map_congr_left fun w hw => if_neg fun e => ?_
    exact of_decide_eq_true (List.mem_filter.1 hw).2 e.symm
  · rw [Fold.takes_of_not_mem hk, List.filter_false, List.foldl_nil]
  · simp only [Fold.takes_of_not_mem hk, Bool.not_false, List.filter_true]
    exact List.map_congr_left fun w _ => if_congr eq_comm rfl rfl
  · rintro x rfl
    exact (joined rfl op.number_mem_kinds).trans (Value.foldl_join_number x later)
  · rintro rfl s rfl
    exact (joined (k := .string) rfl (by decide)).trans (Value.foldl_join_string s later)
  · rintro rfl xs rfl
    exact (joined (k := .collection) rfl (by decide)).trans (Value.foldl_join_collection xs later)

end

open scoped Sigil.Random

/-- Addition of texts with an unknown name and a number among them: the name is reported while the
arguments are evaluated, and its operand afterwards. Multiplication leaves texts as they are.
Subtraction goes on after a text, and the largest item of a collection is found. -/
theorem fold_operands_mixture :
    let m := (({} : Config).interpreter (Generator.ofSeed 0)).machine []
    let m' := m.reporting 2 [.notFound "x"]
    let a := Node.literal (.string "a") 1
    let b := Node.literal (.string "b") 3
    let number (x : Float) := Node.literal (.number x) 4
    let args := [a, .reference "x" 2, b, number 1]
    let vs : List Value := [.string "a", .nothing, .string "b", .number 1]
    Eval.all (evaluate 9 9) args m = some (vs, m') ∧
    Builtin.call (.fold .add) (evaluate 9 9) 9 args 5 m =
      some (.string "ab", m'.reporting 5 [.typeMismatch (.fold .add) .string .nothing,
        .typeMismatch (.fold .add) .string .number]) ∧
    Eval.all (evaluate 9 9) [.collection [a, b] 1] m =
      some ([.collection [.string "a", .string "b"]], m) ∧
    Builtin.call (.fold .multiply) (evaluate 9 9) 9 [.collection [a, b] 1] 5 m =
      some (.string "a",
        m.reporting 5 [.unsupportedOperands (.fold .multiply) .string .string]) ∧
    Eval.all (evaluate 9 9) [number 10, a, number 4, number 1] m =
      some ([.number 10, .string "a", .number 4, .number 1], m) ∧
    Builtin.call (.fold .subtract) (evaluate 9 9) 9 [number 10, a, number 4, number 1] 5 m =
      some (.number 5, m.reporting 5 [.typeMismatch (.fold .subtract) .number .string]) ∧
    Eval.all (evaluate 9 9) [.collection [number 3, number 8] 1] m =
      some ([.collection [.number 3, .number 8]], m) ∧
    Builtin.call (.fold .max) (evaluate 9 9) 9 [.collection [number 3, number 8] 1] 5 m =
      some (.number 8, m) := by
  intro m m' a b number args vs
  have values : Eval.all (evaluate 9 9) args m = some (vs, m') := rfl
  have items : Eval.all (evaluate 9 9) [.collection [a, b] 1] m =
    some ([.collection [.string "a", .string "b"]], m) := rfl
  have mixed : Eval.all (evaluate 9 9) [number 10, a, number 4, number 1] m =
    some ([.number 10, .string "a", .number 4, .number 1], m) := rfl
  have pair : Eval.all (evaluate 9 9) [.collection [number 3, number 8] 1] m =
    some ([.collection [.number 3, .number 8]], m) := rfl
  obtain ⟨_, v, faults, -, added, -, taken, -⟩ :=
    fold_operands .add 9 9 5 values rfl (.inl ⟨rfl, List.cons_ne_nil _ _⟩)
  obtain ⟨rfl, rfl⟩ := taken (by decide)
  obtain ⟨_, w, faults, -, multiplied, -, -, refused, -⟩ :=
    fold_operands .multiply 9 9 5 items rfl (.inr rfl)
  obtain ⟨rfl, rfl⟩ := refused (by decide)
  obtain ⟨f, d, faults, makes, subtracted, -, skipped, -, left, -⟩ :=
    fold_operands .subtract 9 9 5 mixed rfl (.inl ⟨rfl, List.cons_ne_nil _ _⟩)
  have difference : f (f 10 4) 1 = 5 := by
    rw [show f (f 10 4) 1 = f 10 4 - 1 from makes _ 1, show f 10 4 = 10 - 4 from makes 10 4]
    decide +kernel
  obtain rfl : d = .number 5 := (left 10 rfl).trans (congrArg Value.number difference)
  obtain ⟨-, rfl⟩ := skipped (by decide)
  obtain ⟨g, e, faults, most, found, -, none, -, largest, -⟩ :=
    fold_operands .max 9 9 5 pair rfl (.inr rfl)
  obtain ⟨three | eight, -, above⟩ := most 3 8
  · have low := above (by decide +kernel)
    rw [three] at low
    exact absurd low (by decide +kernel)
  obtain rfl : e = .number 8 := (largest 3 rfl).trans (congrArg Value.number eight)
  obtain ⟨-, rfl⟩ := none (by decide)
  exact ⟨values, added, items, multiplied, mixed, subtracted, pair, found⟩

end Sigil
