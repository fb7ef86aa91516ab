import Sigil.Proofs.ByteOrder
import Sigil.Proofs.DoubleFormat
import Sigil.Proofs.Folds
import Sigil.Proofs.Likeness
import Sigil.Random

/-!
# Chained comparisons

A comparison evaluates its arguments one after the other and tests each with its left neighbour, up
to the first pair that fails. `Relation.Holds` says what a pair is tested for: numbers by the order
of doubles, texts by that of their bytes. `Relation.Decides` says what the values of the arguments
that were evaluated come to.

`chain_eq_some_iff` is an induction on the arguments that are left, with the last value as what the
next one is tested with. The order of texts is transitive, and so texts of which all neighbours are
in order are in order altogether (`comparison_chain`).
-/

namespace Sigil

/-! ## The relations -/

namespace Value

/-- Below in the order of numbers, or in that of the bytes of texts. -/
def Below : Value → Value → Prop
  | number x, number y => x < y
  | string s, string t => utf8Bytes s < utf8Bytes t
  | _, _ => False

/-- Below, or in the same place. -/
def AtMost : Value → Value → Prop
  | number x, number y => x ≤ y
  | string s, string t => ¬utf8Bytes t < utf8Bytes s
  | _, _ => False

/-- Two numbers, or two texts. -/
def areOrdered : Value → Value → Bool
  | number _, number _ | string _, string _ => true
  | _, _ => false

theorem areOrdered_comm (v w : Value) : v.areOrdered w = w.areOrdered v := by
  cases v <;> cases w <;> rfl

theorem Below.areOrdered {v w : Value} (h : v.Below w) : v.areOrdered w = true := by
  unfold Below at h
  split at h
  · rfl
  · rfl
  · exact h.elim

theorem AtMost.areOrdered {v w : Value} (h : v.AtMost w) : v.areOrdered w = true := by
  unfold AtMost at h
  split at h
  · rfl
  · rfl
  · exact h.elim

theorem compareFloat?_eq (x y : Float) :
    compareFloat? x y = x.toModel.unpack.compare y.toModel.unpack := by
  unfold compareFloat?
  simp only [Double.lt_iff_compare, Double.beq_iff_compare, Double.compare_swap x.toModel.unpack]
  generalize x.toModel.unpack.compare y.toModel.unpack = o
  rcases o with _ | _ | _ | _ <;> simp

end Value

namespace Relation

/-- What is tested of two neighbours. -/
def Holds : Relation → Value → Value → Prop
  | equal, v, w => (v == w) = true
  | notEqual, v, w => (v == w) = false
  | less, v, w => v.Below w
  | greater, v, w => w.Below v
  | lessEqual, v, w => v.AtMost w
  | greaterEqual, v, w => w.AtMost v

/-- Whether a relation asks for an order. -/
def isOrdering : Relation → Bool
  | equal | notEqual => false
  | less | greater | lessEqual | greaterEqual => true

/-- What is reported of a pair that fails. -/
def faults (rel : Relation) (v w : Value) : List EvalError :=
  if rel.isOrdering = true ∧ v.areOrdered w = false then
    [if v.kind = w.kind then .unsupportedOperands (.compare rel) v.kind w.kind
      else .typeMismatch (.compare rel) v.kind w.kind]
  else []

theorem ordered?_number {rel : Relation} (hr : rel.isOrdering = true) (x y : Float) :
    ∃ b, rel.ordered? (.number x) (.number y) = some b ∧
      (b = true ↔ rel.Holds (.number x) (.number y)) := by
  have swap := Double.compare_swap x.toModel.unpack y.toModel.unpack
  unfold ordered? Value.compare?
  simp only [Value.compareFloat?_eq]
  cases rel with
  | equal | notEqual => cases hr
  | less | greater | lessEqual | greaterEqual =>
    simp only [Holds, Value.Below, Value.AtMost, Double.lt_iff_compare, Double.le_iff_compare, swap]
    generalize x.toModel.unpack.compare y.toModel.unpack = o
    rcases o with _ | _ | _ | _ <;> simp [accepts]

theorem ordered?_string {rel : Relation} (hr : rel.isOrdering = true) (s t : String) :
    ∃ b, rel.ordered? (.string s) (.string t) = some b ∧
      (b = true ↔ rel.Holds (.string s) (.string t)) := by
  refine ⟨_, rfl, ?_⟩
  cases rel with
  | equal | notEqual => cases hr
  | less | greater | lessEqual | greaterEqual =>
    simp only [Holds, Value.Below, Value.AtMost, utf8Bytes_lt_iff]
    rcases lt_trichotomy s t with below | rfl | above
    · simp [accepts, below, below.not_gt]
    · simp [accepts]
    · simp [accepts, above, above.not_gt, above.ne']

theorem Holds.areOrdered {rel : Relation} {v w : Value} (h : rel.Holds v w)
    (hr : rel.isOrdering = true) : v.areOrdered w = true := by
  cases rel with
  | equal | notEqual => cases hr
  | less => exact Value.Below.areOrdered h
  | lessEqual => exact Value.AtMost.areOrdered h
  | greater => rw [Value.areOrdered_comm]; exact Value.Below.areOrdered h
  | greaterEqual => rw [Value.areOrdered_comm]; exact Value.AtMost.areOrdered h

theorem ordered?_of_not_areOrdered (rel : Relation) {v w : Value} (h : v.areOrdered w = false) :
    rel.ordered? v w = none := by
  cases v <;> cases w <;> first | rfl | cases h

theorem holds?_of_isOrdering {rel : Relation} (hr : rel.isOrdering = true) (v w : Value) :
    rel.holds? v w = rel.ordered? v w := by
  cases rel with
  | equal | notEqual => cases hr
  | less | greater | lessEqual | greaterEqual => rfl

theorem holds?_eq_some (rel : Relation) {v w : Value}
    (h : rel.isOrdering = true → v.areOrdered w = true) :
    ∃ b, rel.holds? v w = some b ∧ (b = true ↔ rel.Holds v w) := by
  cases hr : rel.isOrdering with
  | true =>
    rw [holds?_of_isOrdering hr]
    have both := h hr
    unfold Value.areOrdered at both
    split at both
    · exact ordered?_number hr _ _
    · exact ordered?_string hr _ _
    · cases both
  | false =>
    cases rel with
    | equal => exact ⟨_, rfl, .rfl⟩
    | notEqual => exact ⟨_, rfl, by simp [Holds, bne]⟩
    | less | greater | lessEqual | greaterEqual => cases hr

/-- A pair passes, or it fails and is reported if it has no order. -/
theorem holds?_cases (rel : Relation) (v w : Value) :
    (rel.Holds v w ∧ rel.holds? v w = some true) ∨
    (¬rel.Holds v w ∧ rel.holds? v w = some false ∧ rel.faults v w = []) ∨
    (¬rel.Holds v w ∧ rel.holds? v w = none ∧
      rel.faults v w = [.operands (.compare rel) v.kind w.kind]) := by
  by_cases h : rel.isOrdering = true ∧ v.areOrdered w = false
  · refine .inr (.inr ⟨fun holds => ?_, ?_, if_pos h⟩)
    · rw [holds.areOrdered h.1] at h
      cases h.2
    · rw [holds?_of_isOrdering h.1, rel.ordered?_of_not_areOrdered h.2]
  · have ordered (hr : rel.isOrdering = true) : v.areOrdered w = true := by simpa [hr] using h
    obtain ⟨b, hb, iff⟩ := rel.holds?_eq_some ordered
    cases b with
    | true => exact .inl ⟨iff.1 rfl, hb⟩
    | false =>
      exact .inr (.inl ⟨fun holds => Bool.false_ne_true (iff.2 holds), hb, if_neg h⟩)

theorem isChain_string_iff (rel : Relation) (R : String → String → Prop) [Trans R R R]
    (h : ∀ s t, rel.Holds (.string s) (.string t) ↔ R s t) (ss : List String) :
    (ss.map Value.string).IsChain rel.Holds ↔ ss.Pairwise R := by
  rw [List.isChain_map, ← List.isChain_iff_pairwise]
  simp only [h]

end Relation

/-! ## Arguments one after the other -/

section

variable [Generator]

theorem Eval.eq_of_all_nil {ev : Node → Eval Value} {ns : List Node} {m m' : Machine}
    (h : Eval.all ev ns m = some ([], m')) : m = m' := by
  cases ns with
  | nil => cases h; rfl
  | cons n ns =>
    obtain ⟨v, m₁, ws, -, -, e⟩ := all_cons_eq_some_iff.1 h
    cases e

namespace Relation

/-- What the values of arguments come to if others are left: the relation holds between all
neighbours, and no argument is left, or the last two are the first between which it does not. -/
def Decides (rel : Relation) (line : Nat) (vs : List Value) (left : List Node) (m : Machine)
    (v : Value) (m' : Machine) : Prop :=
  (left = [] ∧ vs.IsChain rel.Holds ∧ v = .number 1 ∧ m' = m) ∨
  ∃ before x y, vs = before ++ [x, y] ∧ (before ++ [x]).IsChain rel.Holds ∧ ¬rel.Holds x y ∧
    v = .number 0 ∧ m' = m.reporting line (rel.faults x y)

variable {rel : Relation} {line : Nat} {left : List Node} {m m' : Machine} {u v w : Value}
  {ws : List Value}

theorem decides_nil : rel.Decides line [] left m u m' ↔ left = [] ∧ u = .number 1 ∧ m' = m := by
  constructor
  · rintro (⟨hl, -, hu, hm⟩ | ⟨before, x, y, e, -⟩)
    · exact ⟨hl, hu, hm⟩
    · cases before <;> cases e
  · rintro ⟨hl, hu, hm⟩
    exact .inl ⟨hl, .nil, hu, hm⟩

theorem decides_singleton :
    rel.Decides line [v] left m u m' ↔ left = [] ∧ u = .number 1 ∧ m' = m := by
  constructor
  · rintro (⟨hl, -, hu, hm⟩ | ⟨before, x, y, e, -⟩)
    · exact ⟨hl, hu, hm⟩
    · rcases before with _ | ⟨_, _ | _⟩ <;> cases e
  · rintro ⟨hl, hu, hm⟩
    exact .inl ⟨hl, .singleton v, hu, hm⟩

theorem decides_cons_of_holds (h : rel.Holds v w) :
    rel.Decides line (v :: w :: ws) left m u m' ↔ rel.Decides line (w :: ws) left m u m' := by
  unfold Decides
  refine or_congr ?_ ⟨?_, ?_⟩
  · rw [List.isChain_cons_cons, and_iff_right h]
  · rintro ⟨_ | ⟨v', before⟩, x, y, e, chain, fails, hu, hm⟩
    · cases e
      exact absurd h fails
    · exact ⟨before, x, y, (List.cons.inj e).2, chain.tail, fails, hu, hm⟩
  · rintro ⟨before, x, y, e, chain, fails, hu, hm⟩
    refine ⟨v :: before, x, y, congrArg (v :: ·) e, ?_, fails, hu, hm⟩
    rcases before with _ | ⟨w', before⟩
    · cases e
      exact .cons_cons h chain
    · cases e
      exact .cons_cons h chain

theorem decides_cons_of_fails (h : ¬rel.Holds v w) :
    rel.Decides line (v :: w :: ws) left m u m' ↔
      ws = [] ∧ u = .number 0 ∧ m' = m.reporting line (rel.faults v w) := by
  constructor
  · rintro (⟨-, chain, -⟩ | ⟨_ | ⟨v', _ | ⟨w', before⟩⟩, x, y, e, chain, -, hu, hm⟩)
    · exact absurd (List.isChain_cons_cons.1 chain).1 h
    · cases e
      exact ⟨rfl, hu, hm⟩
    · cases e
      exact absurd (List.isChain_cons_cons.1 chain).1 h
    · cases e
      exact absurd (List.isChain_cons_cons.1 chain).1 h
  · rintro ⟨rfl, hu, hm⟩
    exact .inr ⟨[], v, w, rfl, .singleton v, h, hu, hm⟩

section

variable {ev : Node → Eval Value} {n : Node} {ns : List Node} {m₁ : Machine}

/-- A pair that passes: the comparison goes on with its second value. -/
theorem chain_of_holds (hw : ev n m = some (w, m₁)) (h : rel.Holds v w) :
    rel.chain ev line v (n :: ns) m = rel.chain ev line w ns m₁ := by
  obtain ⟨-, e⟩ | ⟨fails, -⟩ | ⟨fails, -⟩ := rel.holds?_cases v w
  · refine (congrArg (Option.bind · _) hw : rel.chain ev line v (n :: ns) m = _).trans ?_
    simp only [Option.bind_some, e]
  · exact absurd h fails
  · exact absurd h fails

/-- A pair that fails: the comparison ends with it, and what is reported is not shown if the limit
was reached before. -/
theorem chain_of_fails (hw : ev n m = some (w, m₁)) (h : ¬rel.Holds v w) :
    rel.chain ev line v (n :: ns) m = some (.number 0,
      if m₁.exhausted then m₁ else m₁.reporting line (rel.faults v w)) := by
  refine (congrArg (Option.bind · _) hw : rel.chain ev line v (n :: ns) m = _).trans ?_
  obtain ⟨holds, -⟩ | ⟨-, e, quiet⟩ | ⟨-, e, loud⟩ := rel.holds?_cases v w
  · exact absurd holds h
  · simp only [Option.bind_some, e, quiet]
    exact congrArg (fun m => some (Value.number 0, m)) (ite_self m₁).symm
  · simp only [Option.bind_some, e, loud]
    rfl

/-- The comparison of a value with the arguments after it ends, below the limit, exactly if it is
decided by some of these, evaluated one after the other. -/
theorem chain_eq_some_iff :
    rel.chain ev line v ns m = some (u, m') ∧ m'.exhausted = false ↔
      ∃ done left ws m₁, ns = done ++ left ∧ Eval.all ev done m = some (ws, m₁) ∧
        m₁.exhausted = false ∧ rel.Decides line (v :: ws) left m₁ u m' := by
  induction ns generalizing v m with
  | nil =>
    constructor
    · rintro ⟨h, hm⟩
      cases h
      exact ⟨[], [], [], _, rfl, rfl, hm, decides_singleton.2 ⟨rfl, rfl, rfl⟩⟩
    · rintro ⟨done, left, ws, m₁, e, he, hm, decided⟩
      obtain ⟨rfl, rfl⟩ := List.append_eq_nil_iff.1 e.symm
      cases he
      obtain ⟨-, rfl, rfl⟩ := decides_singleton.1 decided
      exact ⟨rfl, hm⟩
  | cons n ns ih =>
    constructor
    · rintro ⟨h, hm⟩
      obtain ⟨w, m₁, hw, -⟩ := Eval.bind_eq_some_iff.1 h
      by_cases holds : rel.Holds v w
      · rw [chain_of_holds hw holds] at h
        obtain ⟨done, left, ws, m₂, rfl, he, hm₂, decided⟩ := ih.1 ⟨h, hm⟩
        exact ⟨n :: done, left, w :: ws, m₂, rfl,
          Eval.all_cons_eq_some_iff.2 ⟨w, m₁, ws, hw, he, rfl⟩, hm₂,
          (decides_cons_of_holds holds).2 decided⟩
      · rw [chain_of_fails hw holds] at h
        cases h
        have hm₁ : m₁.exhausted = false := by
          split at hm
          · exact hm
          · exact hm
        refine ⟨[n], ns, [w], m₁, rfl,
          Eval.all_cons_eq_some_iff.2 ⟨w, m₁, [], hw, rfl, rfl⟩, hm₁, ?_⟩
        exact (decides_cons_of_fails holds).2 ⟨rfl, rfl, by rw [hm₁]; rfl⟩
    · rintro ⟨_ | ⟨n', done⟩, left, ws, m₂, e, he, hm₂, decided⟩
      · cases he
        obtain ⟨rfl, -⟩ := decides_singleton.1 decided
        cases e
      obtain ⟨rfl, rfl⟩ := List.cons.inj e
      obtain ⟨w, m₁, ws, hw, he', rfl⟩ := Eval.all_cons_eq_some_iff.1 he
      by_cases holds : rel.Holds v w
      · rw [chain_of_holds hw holds]
        exact ih.2 ⟨done, left, ws, m₂, rfl, he', hm₂, (decides_cons_of_holds holds).1 decided⟩
      · obtain ⟨rfl, rfl, rfl⟩ := (decides_cons_of_fails holds).1 decided
        obtain rfl := Eval.eq_of_all_nil he'
        rw [chain_of_fails hw holds, hm₂]
        exact ⟨rfl, hm₂⟩

theorem call_eq_some_iff {args : List Node} :
    rel.call ev args line m = some (u, m') ∧ m'.exhausted = false ↔
      ∃ done left vs m₁, args = done ++ left ∧ Eval.all ev done m = some (vs, m₁) ∧
        m₁.exhausted = false ∧ rel.Decides line vs left m₁ u m' := by
  cases args with
  | nil =>
    constructor
    · rintro ⟨h, hm⟩
      cases h
      exact ⟨[], [], [], _, rfl, rfl, hm, decides_nil.2 ⟨rfl, rfl, rfl⟩⟩
    · rintro ⟨done, left, vs, m₁, e, he, hm, decided⟩
      obtain ⟨rfl, rfl⟩ := List.append_eq_nil_iff.1 e.symm
      cases he
      obtain ⟨-, rfl, rfl⟩ := decides_nil.1 decided
      exact ⟨rfl, hm⟩
  | cons n ns =>
    constructor
    · rintro ⟨h, hm⟩
      obtain ⟨v, m₁, hv, h⟩ := Eval.bind_eq_some_iff.1 h
      obtain ⟨done, left, ws, m₂, rfl, he, hm₂, decided⟩ := chain_eq_some_iff.1 ⟨h, hm⟩
      exact ⟨n :: done, left, v :: ws, m₂, rfl,
        Eval.all_cons_eq_some_iff.2 ⟨v, m₁, ws, hv, he, rfl⟩, hm₂, decided⟩
    · rintro ⟨_ | ⟨n', done⟩, left, vs, m₂, e, he, hm₂, decided⟩
      · cases he
        obtain ⟨rfl, -⟩ := decides_nil.1 decided
        cases e
      obtain ⟨rfl, rfl⟩ := List.cons.inj e
      obtain ⟨v, m₁, ws, hv, he', rfl⟩ := Eval.all_cons_eq_some_iff.1 he
      have ⟨h, hm⟩ := chain_eq_some_iff.2 ⟨done, left, ws, m₂, rfl, he', hm₂, decided⟩
      exact ⟨Eval.bind_eq_some_iff.2 ⟨v, m₁, hv, h⟩, hm⟩

variable (rel line) in
/-- Where all arguments can be evaluated, so can the comparison, and it says whether the relation
holds between all neighbours. -/
theorem chain_of_all {ws : List Value} (h : Eval.all ev ns m = some (ws, m₁)) :
    ∃ u m', rel.chain ev line v ns m = some (u, m') ∧
      (u = .number 1 ↔ (v :: ws).IsChain rel.Holds) := by
  induction ns generalizing v m ws with
  | nil =>
    cases h
    exact ⟨_, _, rfl, iff_of_true rfl (.singleton v)⟩
  | cons n ns ih =>
    obtain ⟨w, m₂, ws, hw, hs, rfl⟩ := Eval.all_cons_eq_some_iff.1 h
    rw [List.isChain_cons_cons]
    by_cases holds : rel.Holds v w
    · rw [chain_of_holds hw holds]
      obtain ⟨u, m', hu, iff⟩ := ih hs
      exact ⟨u, m', hu, iff.trans (and_iff_right holds).symm⟩
    · exact ⟨_, _, chain_of_fails hw holds,
        iff_of_false Value.ofTruth_false_ne_true fun both => holds both.1⟩

variable (rel line) in
theorem call_of_all {args : List Node} {vs : List Value}
    (h : Eval.all ev args m = some (vs, m₁)) :
    ∃ u m', rel.call ev args line m = some (u, m') ∧
      (u = .number 1 ↔ vs.IsChain rel.Holds) := by
  cases args with
  | nil =>
    cases h
    exact ⟨_, _, rfl, iff_of_true rfl .nil⟩
  | cons n ns =>
    obtain ⟨v, m₂, ws, hv, hs, rfl⟩ := Eval.all_cons_eq_some_iff.1 h
    obtain ⟨u, m', hu, iff⟩ := chain_of_all rel line hs
    exact ⟨u, m', Eval.bind_eq_some_iff.2 ⟨v, m₂, hv, hu⟩, iff⟩

end

end Relation

/-- **A comparison is decided by the first pair that fails**: below the limit, it ends exactly if
arguments evaluated from left to right decide it, the last of them the first that fails with its
left neighbour, or all of them if none does. It gives one or zero, and of the pair that fails an
ordering reports that it is neither two numbers nor two texts. On texts, an ordering says whether
all of them, not just neighbours, are in the order of their bytes. -/
theorem comparison_chain (rel : Relation) (limit fuel line : Nat) (args : List Node)
    (m : Machine) :
    (∀ v m', Builtin.call (.compare rel) (evaluate limit fuel) fuel args line m = some (v, m') ∧
        m'.exhausted = false ↔
      ∃ done left vs m₁, args = done ++ left ∧
        Eval.all (evaluate limit fuel) done m = some (vs, m₁) ∧ m₁.exhausted = false ∧
        rel.Decides line vs left m₁ v m') ∧
    ∀ (ss : List String) m₁,
      Eval.all (evaluate limit fuel) args m = some (ss.map Value.string, m₁) →
      ∃ v m', Builtin.call (.compare rel) (evaluate limit fuel) fuel args line m = some (v, m') ∧
        (rel = .less →
          (v = .number 1 ↔ ss.Pairwise fun s t => utf8Bytes s < utf8Bytes t)) ∧
        (rel = .lessEqual →
          (v = .number 1 ↔ ss.Pairwise fun s t => ¬utf8Bytes t < utf8Bytes s)) ∧
        (rel = .greater →
          (v = .number 1 ↔ ss.Pairwise fun s t => utf8Bytes t < utf8Bytes s)) ∧
        (rel = .greaterEqual →
          (v = .number 1 ↔ ss.Pairwise fun s t => ¬utf8Bytes s < utf8Bytes t)) := by
  refine ⟨fun v m' => Relation.call_eq_some_iff, fun ss m₁ h => ?_⟩
  obtain ⟨v, m', called, one⟩ := Relation.call_of_all rel line h
  simp only [utf8Bytes_lt_iff, not_lt]
  refine ⟨v, m', called, ?_, ?_, ?_, ?_⟩
  · rintro rfl
    exact one.trans (Relation.less.isChain_string_iff (· < ·) (fun _ _ => utf8Bytes_lt_iff) ss)
  · rintro rfl
    exact one.trans (Relation.lessEqual.isChain_string_iff (· ≤ ·)
      (fun _ _ => utf8Bytes_lt_iff.not.trans not_lt) ss)
  · rintro rfl
    exact one.trans (Relation.greater.isChain_string_iff (· > ·) (fun _ _ => utf8Bytes_lt_iff) ss)
  · rintro rfl
    exact one.trans (Relation.greaterEqual.isChain_string_iff (· ≥ ·)
      (fun _ _ => utf8Bytes_lt_iff.not.trans not_lt) ss)

end

open scoped Sigil.Random

/-- Texts in order up to an unknown name, which has no order with them: the name behind it, unknown
too, is not looked up. And three texts of one, two and four bytes. -/
theorem comparison_chain_mixture :
    let m := (({} : Config).interpreter (Generator.ofSeed 0)).machine []
    let text (s : String) := Node.literal (.string s) 1
    let done := [text "a", text "b", .reference "x" 2]
    let left := [Node.reference "y" 3]
    let m₁ := m.reporting 2 [.notFound "x"]
    let m' := m₁.reporting 5 [.typeMismatch (.compare .less) .string .nothing]
    let vs := [.string "a", .string "b", .nothing]
    let texts := ["a", "é", "😀"]
    Eval.all (evaluate 9 9) done m = some (vs, m₁) ∧
    Relation.less.Decides 5 vs left m₁ (.number 0) m' ∧
    Builtin.call (.compare .less) (evaluate 9 9) 9 (done ++ left) 5 m = some (.number 0, m') ∧
    Eval.all (evaluate 9 9) (texts.map text) m = some (texts.map .string, m) ∧
    (texts.Pairwise fun s t => ¬utf8Bytes t < utf8Bytes s) ∧
    ∃ m'', Builtin.call (.compare .lessEqual) (evaluate 9 9) 9 (texts.map text) 5 m =
      some (.number 1, m'') := by
  intro m text done left m₁ m' vs texts
  have evaluated : Eval.all (evaluate 9 9) done m = some (vs, m₁) := rfl
  have decides : Relation.less.Decides 5 vs left m₁ (.number 0) m' :=
    .inr ⟨[.string "a"], .string "b", .nothing, rfl,
      .cons_cons (utf8Bytes_lt_iff.2 (by decide)) (.singleton _), id, rfl, rfl⟩
  have stops := ((comparison_chain .less 9 9 5 (done ++ left) m).1 _ _).2
    ⟨done, left, vs, m₁, rfl, evaluated, rfl, decides⟩
  have values : Eval.all (evaluate 9 9) (texts.map text) m = some (texts.map .string, m) := rfl
  have sorted : texts.Pairwise fun s t => ¬utf8Bytes t < utf8Bytes s := by
    simp only [utf8Bytes_lt_iff]
    decide
  obtain ⟨v, m'', called, -, one, -⟩ :=
    (comparison_chain .lessEqual 9 9 5 (texts.map text) m).2 texts m values
  rw [(one rfl).2 sorted] at called
  exact ⟨evaluated, decides, stops.1, values, sorted, m'', called⟩

end Sigil
