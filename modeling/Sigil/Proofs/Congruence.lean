import Sigil.Proofs.Lines
import Sigil.Proofs.Vocabulary

/-!
# Computations in step

A `Correspondence` compares two computations of one type, where `P` is what the results of the first
satisfy, and those of the second are the same with their lines renumbered. It is `Basic` if it holds
of the operations on the machine, but for setting and assigning names, and passes from the parts of
a computation to the whole.

Operators set names whatever they are bound to in two places only: the result of a statement, and
the names of a loop over entries, in a frame of its own. A basic correspondence that holds there is
`Local`. Every operator is put together from those operations and from the evaluation of its
arguments, so a local correspondence between two ways to evaluate nodes carries over to all nodes
and all operators (`Local.node`, `Local.builtin`) but for the special ones: those that assign, those
that use up fuel, and addition, which joins collections whatever they hold.

A local correspondence that holds of assignments and deals in all values of its vocabulary is
`Framed`, and carries over to `evaluate` (`Framed.evaluate`). Only loops without a count and ranges
use up fuel. What a correspondence says of them is a premise (`Unbounded`), which holds if
computations without fuel correspond (`Local.unbounded`).
-/

namespace Sigil

/-- An answer that satisfies `P`, or a fault that operators report. -/
def Answers {α : Type} (P : α → Prop) : Except EvalError α → Prop
  | .ok a => P a
  | .error e => e.ofOperator = true

/-- More fuel finds the same range. -/
theorem Range.numbersFrom?_mono {r : Range} {f f' k : Nat} {seen vs : List Value} (hf : f ≤ f')
    (h : r.numbersFrom? f k seen = some vs) : r.numbersFrom? f' k seen = some vs := by
  induction f generalizing f' k seen with
  | zero => cases h
  | succ f ih =>
    obtain ⟨f', rfl⟩ : ∃ g, f' = g + 1 := ⟨f' - 1, by omega⟩
    unfold numbersFrom? at h ⊢
    simp only at h ⊢
    split at h
    · next hx => rw [if_pos hx]; exact ih (by omega) h
    · next hx => rw [if_neg hx]; exact h

theorem Range.renumber_numbersFrom? (ρ : Nat → Nat) {r : Range} {f k : Nat} {seen vs : List Value}
    (hs : renumber ρ seen = seen) (h : r.numbersFrom? f k seen = some vs) :
    renumber ρ vs = vs := by
  induction f generalizing k seen with
  | zero => cases h
  | succ f ih =>
    unfold numbersFrom? at h
    simp only at h
    split at h
    · exact ih (by rw [renumber_cons, hs]; rfl) h
    · cases h; rw [renumber_reverse, hs]

/-- Whether a call of a builtin operator with the given number of arguments uses up fuel: a loop
without a count does, and a range. -/
def Builtin.usesFuel : Builtin → Nat → Bool
  | .loop, n => n == 1 || n == 2
  | .range, _ => true
  | _, _ => false

/-- Whether a builtin operator changes bindings wherever they are. -/
def Builtin.assigns : Builtin → Bool
  | .assign | .increment | .decrement => true
  | _ => false

/-- Whether a call of a builtin operator does more than evaluate its arguments, look up and define
names, and make values that go with every vocabulary. -/
def Builtin.isSpecial (b : Builtin) (n : Nat) : Bool :=
  b.usesFuel n || b.assigns || b == .fold .add

variable [Generator]

/-- A computation under the depth limit: `evaluate` of a node is this around the node's rule. -/
def Eval.limited (limit line : Nat) (body : Eval Value) : Eval Value := do
  let m ← get
  if m.exhausted then return .nothing
  else if limit ≤ m.depth then exhaust limit line
  else deeper body

theorem evaluate_succ (limit fuel : Nat) (n : Node) :
    evaluate limit (fuel + 1) n =
      Eval.limited limit n.line (Eval.node (evaluate limit fuel) fuel n) := rfl

/-- The nodes to choose from may be counted in another way. -/
theorem Operator.random_cons (ev : Node → Eval Value) (n : Node) {ns : List Node} {k : Nat}
    (hk : ns.length = k) :
    Operator.random ev (n :: ns) = Eval.draw (.upTo k) >>= fun i =>
      ev ((n :: ns).get (i.cast (by rw [List.length_cons, hk]))) := by
  subst hk
  rfl

abbrev Correspondence := {α : Type} → [Lined α] → (α → Prop) → Eval α → Eval α → Prop

namespace Correspondence

/-- A correspondence that passes from parts to the whole and holds of the operations of the machine,
but for setting or assigning a name. The values it deals in are those of `G`. -/
structure Basic (V : Vocabulary) (G : Value → Prop) (ρ : Nat → Nat) (C : Correspondence) :
    Prop where
  pure : ∀ {α : Type} [Lined α] {P : α → Prop} {a : α}, P a → C P (pure a) (pure (renumber ρ a))
  bind : ∀ {α β : Type} [Lined α] [Lined β] {P : α → Prop} {Q : β → Prop} {x y : Eval α}
    {f g : α → Eval β}, C P x y → (∀ a, P a → C Q (f a) (g (renumber ρ a))) →
    C Q (x >>= f) (y >>= g)
  report : ∀ {line : Nat} {e : EvalError}, V.line line → V.fault e →
    C (fun _ => True) (Eval.report line e) (Eval.report (ρ line) e)
  print : ∀ {text : String}, C (fun _ => True) (Eval.print text) (Eval.print text)
  get? : ∀ {name : String}, V.name name →
    C (fun o => ∀ v, o = some v → G v) (Eval.get? name) (Eval.get? name)
  callee : ∀ {name : String}, V.callee name →
    C (fun o => ∀ v, o = some v → V.callable v) (Eval.get? name) (Eval.get? name)
  define : ∀ {name : String} {v : Value}, V.name name → G v →
    C (Answers fun _ => True) (Eval.define name v) (Eval.define name (renumber ρ v))
  inFrame : ∀ {α : Type} [Lined α] {P : α → Prop} {x y : Eval α}, C P x y →
    C P (Eval.inFrame x) (Eval.inFrame y)
  draw : ∀ {d : Draw} {α : Type} [Lined α] {P : α → Prop} {f g : d.Result → Eval α},
    (∀ a, C P (f a) (g a)) → C P (Eval.draw d >>= f) (Eval.draw d >>= g)
  freshId : ∀ {α : Type} [Lined α] {P : α → Prop} {f g : Nat → Eval α},
    (∀ id, C P (f id) (g id)) → C P (Eval.freshId >>= f) (Eval.freshId >>= g)

/-- A correspondence that holds where assignments are made. -/
def Assigns (V : Vocabulary) (G : Value → Prop) (ρ : Nat → Nat) (C : Correspondence) : Prop :=
  ∀ {name : String} {v : Value}, V.name name → G v →
    C (Answers G) (Eval.assign name v) (Eval.assign name (renumber ρ v))

/-- A correspondence that holds where names are set, whatever they are bound to. -/
def Sets (V : Vocabulary) (G : Value → Prop) (ρ : Nat → Nat) (C : Correspondence) : Prop :=
  ∀ {name : String} {v : Value}, V.name name → G v →
    C (fun _ => True) (Eval.set name v) (Eval.set name (renumber ρ v))

/-- A correspondence that passes from parts to the whole and holds of the operations of the machine,
but for setting a name whatever it is bound to. -/
structure Compatible (V : Vocabulary) (ρ : Nat → Nat) (C : Correspondence) : Prop
    extends Basic V V.value ρ C where
  assign : ∀ {name : String} {v : Value}, V.name name → V.value v →
    C (Answers V.value) (Eval.assign name v) (Eval.assign name (renumber ρ v))

/-- A correspondence that holds of every operation of the machine and passes from parts to the
whole. -/
structure Congruent (V : Vocabulary) (ρ : Nat → Nat) (C : Correspondence) : Prop
    extends Compatible V ρ C where
  set : ∀ {name : String} {v : Value}, V.name name → V.value v →
    C (fun _ => True) (Eval.set name v) (Eval.set name (renumber ρ v))

/-- A basic correspondence that holds where operators set names: of the result of a statement, and
of the names of a loop over entries, which has a frame of its own. -/
structure Local (V : Vocabulary) (G : Value → Prop) (ρ : Nat → Nat) (C : Correspondence) : Prop
    extends Basic V G ρ C where
  admits : V.Admits G
  previous : ∀ {v : Value}, G v →
    C (fun _ => True) (Eval.set previousName v) (Eval.set previousName (renumber ρ v))
  iteration : ∀ {ev ev' : Node → Eval Value} {index : String} {value? : Option String}
    {body : Node} {es : List (Value × Value)},
    (∀ n, V.node n → C G (ev n) (ev' (renumber ρ n))) → V.name index →
    (∀ s, value? = some s → V.name s) → V.node body → (∀ p ∈ es, G p.1 ∧ G p.2) →
    C G (Eval.inFrame (Operator.entries ev index value? body .nothing es))
      (Eval.inFrame (Operator.entries ev' index value? (renumber ρ body) .nothing
        (renumber ρ es)))

/-- A compatible correspondence that holds where operators set names. -/
structure Framed (V : Vocabulary) (ρ : Nat → Nat) (C : Correspondence) : Prop
    extends Compatible V ρ C, Local V V.value ρ C

/-- What corresponds where fuel is used up. -/
structure Unbounded (V : Vocabulary) (G : Value → Prop) (ρ : Nat → Nat) (C : Correspondence)
    (ev ev' : Node → Eval Value) (f f' : Nat) : Prop where
  untilFalse : ∀ {n : Node}, V.node n →
    C G (Operator.untilFalse ev n f) (Operator.untilFalse ev' (renumber ρ n) f')
  whileTrue : ∀ {condition body : Node}, V.node condition → V.node body →
    C G (Operator.whileTrue ev condition body f .nothing)
      (Operator.whileTrue ev' (renumber ρ condition) (renumber ρ body) f' .nothing)
  range : ∀ {args : List Node} {line : Nat}, (∀ n ∈ args, V.node n) → V.line line →
    C G (Operator.range ev f args line) (Operator.range ev' f' (renumber ρ args) (ρ line))

theorem Basic.entries {V : Vocabulary} {G : Value → Prop} {ρ : Nat → Nat} {C : Correspondence}
    (h : C.Basic V G ρ) (set : C.Sets V G ρ) {ev ev' : Node → Eval Value}
    (hev : ∀ n, V.node n → C G (ev n) (ev' (renumber ρ n))) {index : String}
    {value? : Option String} {body : Node} (hi : V.name index)
    (hv : ∀ s, value? = some s → V.name s) (hb : V.node body) {last : Value}
    {es : List (Value × Value)} (hl : G last) (he : ∀ p ∈ es, G p.1 ∧ G p.2) :
    C G (Operator.entries ev index value? body last es)
      (Operator.entries ev' index value? (renumber ρ body) (renumber ρ last)
        (renumber ρ es)) := by
  induction es generalizing last with
  | nil => exact h.pure hl
  | cons p es ih =>
    have hp := he p List.mem_cons_self
    refine h.bind (P := fun _ => True) ?_ fun _ _ => h.bind (hev body hb) fun last hl =>
      ih hl fun q hq => he q (List.mem_cons_of_mem _ hq)
    refine h.bind (set V.name_previous hl) fun _ _ => h.bind (set hi hp.1) fun _ _ => ?_
    cases value? with
    | none => exact h.pure (a := ()) trivial
    | some name => exact set (hv name rfl) hp.2

/-- Where names may be set anywhere, they may be set where operators do. -/
theorem Basic.local_of_sets {V : Vocabulary} {G : Value → Prop} {ρ : Nat → Nat}
    {C : Correspondence} (h : C.Basic V G ρ) (admits : V.Admits G) (set : C.Sets V G ρ) :
    C.Local V G ρ where
  toBasic := h
  admits := admits
  previous hv := set V.name_previous hv
  iteration hev hi hv hb he := h.inFrame (h.entries set hev hi hv hb admits.nothing he)

theorem Congruent.framed {V : Vocabulary} {ρ : Nat → Nat} {C : Correspondence}
    (h : C.Congruent V ρ) : C.Framed V ρ where
  toCompatible := h.toCompatible
  admits := V.admits
  previous := (h.local_of_sets V.admits h.set).previous
  iteration := (h.local_of_sets V.admits h.set).iteration

namespace Local

variable {V : Vocabulary} {G : Value → Prop} {ρ : Nat → Nat} {C : Correspondence}
  (h : C.Local V G ρ)

include h

theorem complain {line : Nat} {e : EvalError} (hl : V.line line) (he : e.ofOperator = true) :
    C (fun _ => True) (Eval.report line e) (Eval.report (ρ line) e) :=
  h.report hl (V.fault_operator he)

theorem reject {line : Nat} {e : EvalError} (hl : V.line line) (he : e.ofOperator = true) :
    C G (Eval.reject line e) (Eval.reject (ρ line) e) :=
  h.bind (h.complain hl he) fun _ _ => h.pure h.admits.nothing

theorem wrongArity (op : Builtin) (args : List Node) (want : Arity) {line : Nat}
    (hl : V.line line) :
    C G (Eval.reject line (.wrongArity op args.length want))
      (Eval.reject (ρ line) (.wrongArity op (renumber ρ args).length want)) := by
  rw [length_renumber]
  exact h.reject hl rfl

theorem lookup {name : String} (hn : V.name name) :
    C (Answers G) (Eval.lookup name) (Eval.lookup name) := by
  have e : Eval.lookup name =
      Eval.get? name >>= fun o => Pure.pure (o.elim (.error (.notFound name)) .ok) := by
    funext m
    change some (m.env.lookup name, m) = some ((m.env.get? name).elim _ _, m)
    unfold Environment.lookup
    cases m.env.get? name <;> rfl
  rw [e]
  refine h.bind (h.get? hn) fun o ho => ?_
  cases o with
  | none => exact h.pure rfl
  | some v => exact h.pure (P := Answers G) (a := .ok v) (ho v rfl)

theorem nameOf {n : Node} (op : Builtin) (hn : V.node n) :
    C (fun o => ∀ s, o = some s → V.name s) (Eval.nameOf op n)
      (Eval.nameOf op (renumber ρ n)) := by
  have fault : C (fun o => ∀ s, o = some s → V.name s)
      (Eval.report n.line (.invalidName op) >>= fun _ => Pure.pure none)
      (Eval.report (ρ n.line) (.invalidName op) >>= fun _ => Pure.pure none) :=
    h.bind (h.complain (V.line_node hn) rfl) fun _ _ => h.pure fun s hs => by cases hs
  cases n with
  | reference name line =>
    exact h.pure (a := some name) fun s hs => by cases hs; exact V.name_reference hn
  | literal | call | scope | collection | mapping => exact fault

/-! ## Operators -/

section

variable {ev ev' : Node → Eval Value} (hev : ∀ n, V.node n → C G (ev n) (ev' (renumber ρ n)))

include hev

theorem all {ns : List Node} (hn : ∀ n ∈ ns, V.node n) :
    C (fun vs => ∀ v ∈ vs, G v) (Eval.all ev ns) (Eval.all ev' (renumber ρ ns)) := by
  induction ns with
  | nil => exact h.pure (a := []) fun v hv => by cases hv
  | cons n ns ih =>
    refine h.bind (hev n (hn n List.mem_cons_self)) fun v hv => ?_
    refine h.bind (ih fun n hm => hn n (List.mem_cons_of_mem _ hm)) fun vs hvs =>
      h.pure (a := v :: vs) ?_
    exact List.forall_mem_cons.2 ⟨hv, hvs⟩

theorem optional {n? : Option Node} (hn : ∀ n, n? = some n → V.node n) :
    C G (Operator.optional ev n?) (Operator.optional ev' (renumber ρ n?)) := by
  cases n? with
  | none => exact h.pure h.admits.nothing
  | some n => exact hev n (hn n rfl)

theorem printing {args : List Node} (ha : ∀ n ∈ args, V.node n) :
    C G (Operator.print ev args) (Operator.print ev' (renumber ρ args)) := by
  refine h.bind (h.all hev ha) fun vs hvs => ?_
  have texts : (renumber ρ vs).map Value.format = vs.map Value.format :=
    List.map_map.trans (List.map_congr_left fun v _ => Value.format_renumber ρ v)
  have last : (renumber ρ vs).getLast?.getD .nothing = renumber ρ (vs.getLast?.getD .nothing) := by
    change (vs.map (renumber ρ)).getLast?.getD .nothing = _
    rw [List.getLast?_map]
    cases vs.getLast? <;> rfl
  rw [texts, last]
  refine h.bind h.print fun _ _ => h.pure ?_
  cases hl : vs.getLast? with
  | none => exact h.admits.nothing
  | some v => exact hvs v (List.mem_of_getLast? hl)

theorem unary {op : Builtin} {f : Value → Option Value} {args : List Node} {line : Nat}
    (hf : ∀ v w, G v → f v = some w → G w)
    (hr : ∀ v, f (renumber ρ v) = renumber ρ (f v)) (ha : ∀ n ∈ args, V.node n)
    (hl : V.line line) :
    C G (Operator.unary op f ev args line)
      (Operator.unary op f ev' (renumber ρ args) (ρ line)) := by
  rcases args with _ | ⟨n, _ | ⟨n', ns⟩⟩
  · exact h.wrongArity op [] (.exactly 1) hl
  · refine h.bind (hev n (ha n List.mem_cons_self)) fun v hv => ?_
    rw [hr]
    cases hw : f v with
    | none => rw [Value.kind_renumber]; exact h.reject hl rfl
    | some w => exact h.pure (hf v w hv hw)
  · exact h.wrongArity op (n :: n' :: ns) (.exactly 1) hl

theorem choose : ∀ {ns : List Node}, (∀ n ∈ ns, V.node n) →
    C G (Operator.choose ev ns) (Operator.choose ev' (renumber ρ ns))
  | [], _ => h.pure h.admits.nothing
  | [n], hn => hev n (hn n List.mem_cons_self)
  | condition :: result :: ns, hn => by
    refine h.bind (hev condition (hn condition (by simp))) fun v _ => ?_
    rw [Value.truth_renumber]
    split
    · exact hev result (hn result (by simp))
    · exact choose fun n hm => hn n (by simp [hm])

theorem random {args : List Node} (ha : ∀ n ∈ args, V.node n) :
    C G (Operator.random ev args) (Operator.random ev' (renumber ρ args)) := by
  cases args with
  | nil => exact h.draw fun x => h.pure (h.admits.number x)
  | cons n ns =>
    rw [renumber_cons, Operator.random_cons ev' (renumber ρ n) (length_renumber ρ ns)]
    refine h.draw fun i => ?_
    have chosen : (renumber ρ n :: renumber ρ ns).get (i.cast (by simp)) =
        renumber ρ ((n :: ns).get i) := get_renumber ρ (n :: ns) _
    rw [chosen]
    exact hev _ (ha _ (List.get_mem ..))

theorem chain {rel : Relation} {line : Nat} {v : Value} {ns : List Node}
    (hn : ∀ n ∈ ns, V.node n) (hl : V.line line) :
    C G (rel.chain ev line v ns)
      (rel.chain ev' (ρ line) (renumber ρ v) (renumber ρ ns)) := by
  induction ns generalizing v with
  | nil => exact h.pure (h.admits.ofTruth _)
  | cons n ns ih =>
    refine h.bind (hev n (hn n List.mem_cons_self)) fun w _ => ?_
    rw [Relation.holds?_renumber, Value.kind_renumber, Value.kind_renumber]
    cases hr : rel.holds? v w with
    | none =>
      exact h.bind (h.complain hl (by simp)) fun _ _ => h.pure (h.admits.ofTruth _)
    | some b =>
      cases b with
      | true => exact ih fun n hm => hn n (List.mem_cons_of_mem _ hm)
      | false => exact h.pure (h.admits.ofTruth _)

theorem comparison {rel : Relation} {args : List Node} {line : Nat} (ha : ∀ n ∈ args, V.node n)
    (hl : V.line line) :
    C G (rel.call ev args line) (rel.call ev' (renumber ρ args) (ρ line)) := by
  cases args with
  | nil => exact h.pure (h.admits.ofTruth _)
  | cons n ns =>
    exact h.bind (hev n (ha n List.mem_cons_self)) fun v _ =>
      h.chain hev (fun n hm => ha n (List.mem_cons_of_mem _ hm)) hl

theorem every {ns : List Node} (hn : ∀ n ∈ ns, V.node n) :
    C G (Operator.every ev ns) (Operator.every ev' (renumber ρ ns)) := by
  induction ns with
  | nil => exact h.pure (h.admits.ofTruth _)
  | cons n ns ih =>
    refine h.bind (hev n (hn n List.mem_cons_self)) fun v _ => ?_
    rw [Value.truth_renumber]
    split
    · exact ih fun n hm => hn n (List.mem_cons_of_mem _ hm)
    · exact h.pure (h.admits.ofTruth _)

theorem any {ns : List Node} (hn : ∀ n ∈ ns, V.node n) :
    C G (Operator.any ev ns) (Operator.any ev' (renumber ρ ns)) := by
  induction ns with
  | nil => exact h.pure (h.admits.ofTruth _)
  | cons n ns ih =>
    refine h.bind (hev n (hn n List.mem_cons_self)) fun v _ => ?_
    rw [Value.truth_renumber]
    split
    · exact h.pure (h.admits.ofTruth _)
    · exact ih fun n hm => hn n (List.mem_cons_of_mem _ hm)

/-! ### Names -/

theorem pair {op : Builtin} {bind : String → Value → Eval (Except EvalError Value)}
    (hb : ∀ {s v}, V.name s → G v →
      C (Answers G) (bind s v) (bind s (renumber ρ v)))
    {line : Nat} {result : Value} {n : Node} (value? : Option Node) (hl : V.line line)
    (hr : G result) (hn : V.node n) (hv : ∀ n, value? = some n → V.node n) :
    C G (Operator.pairs.pair op bind ev line result n value?)
      (Operator.pairs.pair op bind ev' (ρ line) (renumber ρ result) (renumber ρ n)
        (renumber ρ value?)) := by
  refine h.bind (h.nameOf op hn) fun o ho => ?_
  cases o with
  | none => exact h.pure hr
  | some name =>
    refine h.bind (h.optional hev hv) fun v hv => h.bind (hb (ho name rfl) hv) fun a ha => ?_
    cases a with
    | ok w => exact h.pure ha
    | error e => exact h.bind (h.complain hl ha) fun _ _ => h.pure hr

theorem pairs {op : Builtin} {bind : String → Value → Eval (Except EvalError Value)}
    (hb : ∀ {s v}, V.name s → G v →
      C (Answers G) (bind s v) (bind s (renumber ρ v)))
    {line : Nat} (hl : V.line line) : ∀ {result : Value} {ns : List Node}, G result →
      (∀ n ∈ ns, V.node n) →
      C G (Operator.pairs op bind ev line result ns)
        (Operator.pairs op bind ev' (ρ line) (renumber ρ result) (renumber ρ ns))
  | _, [], hr, _ => h.pure hr
  | _, [n], hr, hn =>
    h.pair hev hb none hl hr (hn n List.mem_cons_self) fun _ e => by cases e
  | _, n :: value :: ns, hr, hn => by
    refine h.bind (h.pair hev hb (some value) hl hr (hn n (by simp)) fun _ e => ?_)
      fun w hw => ?_
    · cases e; exact hn value (by simp)
    · exact pairs hb hl hw fun n hm => hn n (by simp [hm])

theorem definition {args : List Node} {line : Nat} (ha : ∀ n ∈ args, V.node n)
    (hl : V.line line) :
    C G (Operator.define ev args line)
      (Operator.define ev' (renumber ρ args) (ρ line)) := by
  refine h.pairs hev (fun hs hv => ?_) hl h.admits.nothing ha
  refine h.bind (h.define hs hv) fun a ha => ?_
  cases a with
  | ok => exact h.pure (P := Answers G) (a := .ok _) hv
  | error e => exact h.pure (P := Answers G) (a := .error e) ha

theorem assignment (assign : C.Assigns V G ρ) {args : List Node} {line : Nat}
    (ha : ∀ n ∈ args, V.node n) (hl : V.line line) :
    C G (Operator.assign ev args line) (Operator.assign ev' (renumber ρ args) (ρ line)) := by
  have one : ∀ {s v}, V.name s → G v →
      C (Answers G) (Eval.assign s v) (Eval.assign s (renumber ρ v)) := assign
  exact h.pairs hev one hl h.admits.nothing ha

theorem bindParameters {line : Nat} {names : List String} {args : List Node} (hl : V.line line)
    (hs : ∀ s ∈ names, V.name s) (ha : ∀ n ∈ args, V.node n) :
    C (fun _ => True) (Operator.bindParameters ev line names args)
      (Operator.bindParameters ev' (ρ line) names (renumber ρ args)) := by
  induction names generalizing args with
  | nil => exact h.pure (a := ()) trivial
  | cons name names ih =>
    have hh : (renumber ρ args).head? = renumber ρ args.head? := List.head?_map
    have ht : (renumber ρ args).tail = renumber ρ args.tail := by cases args <;> rfl
    unfold Operator.bindParameters
    rw [hh, ht]
    refine h.bind (h.optional hev fun n hn => ha n (List.mem_of_head? hn)) fun v hv => ?_
    refine h.bind (P := fun _ => True) ?_ fun _ _ =>
      ih (fun s hm => hs s (List.mem_cons_of_mem _ hm)) fun n hm => ha n (List.mem_of_mem_tail hm)
    refine h.bind (h.define (hs name List.mem_cons_self) hv) fun a ha => ?_
    cases a with
    | ok => exact h.pure (a := ()) trivial
    | error e => exact h.complain hl ha

theorem function {f : Function} {args : List Node} (hf : V.function f)
    (ha : ∀ n ∈ args, V.node n) :
    C G (f.call ev args) ((renumber ρ f).call ev' (renumber ρ args)) := by
  have hl : (renumber ρ f).body.line = ρ f.body.line := Node.line_renumber ρ f.body
  unfold Function.call
  rw [hl]
  exact h.inFrame <| h.bind (h.bindParameters hev (V.line_node hf.2) hf.1 ha) fun _ _ =>
    hev f.body hf.2

omit hev

theorem parameters {ns : List Node} (hn : ∀ n ∈ ns, V.node n) :
    C (fun o => ∀ names, o = some names → ∀ s ∈ names, V.name s) (Operator.parameters ns)
      (Operator.parameters (renumber ρ ns)) := by
  induction ns with
  | nil =>
    exact h.pure (a := some []) fun names e => by cases e; exact fun s hs => by cases hs
  | cons n ns ih =>
    refine h.bind (h.nameOf .function (hn n List.mem_cons_self)) fun o ho => ?_
    cases o with
    | none => exact h.pure fun names e => by cases e
    | some name =>
      refine h.bind (ih fun n hm => hn n (List.mem_cons_of_mem _ hm)) fun o ho' => ?_
      cases o with
      | none => exact h.pure fun names e => by cases e
      | some names =>
        refine h.pure (a := some (name :: names)) fun _ e => ?_
        cases e
        exact List.forall_mem_cons.2 ⟨ho name rfl, ho' names rfl⟩

theorem makeFunction {args : List Node} {line : Nat} (ha : ∀ n ∈ args, V.node n)
    (hl : V.line line) :
    C G (Operator.makeFunction args line)
      (Operator.makeFunction (renumber ρ args) (ρ line)) := by
  have hlast : (renumber ρ args).getLast? = renumber ρ args.getLast? := List.getLast?_map
  have hinit : (renumber ρ args).dropLast = renumber ρ args.dropLast := List.map_dropLast.symm
  unfold Operator.makeFunction
  rw [hlast, hinit]
  cases hb : args.getLast? with
  | none => exact h.reject hl rfl
  | some body =>
    refine h.bind (h.parameters fun n hm => ha n (List.dropLast_subset _ hm)) fun o ho => ?_
    cases o with
    | none => exact h.pure h.admits.nothing
    | some names =>
      have same : renumber ρ names = names := map_eq_self fun s _ => rfl
      rw [renumber_some, same]
      refine h.freshId fun id => h.pure (a := Value.operator (.function ⟨id, names, body⟩)) ?_
      exact h.admits.function ⟨ho names rfl, ha body (List.mem_of_getLast? hb)⟩

theorem advance (assign : C.Assigns V G ρ) {op : Builtin} {delta : Float} {name : String}
    {line : Nat} (hn : V.name name) (hl : V.line line) :
    C G (Operator.advance op delta name line) (Operator.advance op delta name (ρ line)) := by
  refine h.bind (h.get? hn) fun o _ => ?_
  rcases o with _ | v
  · exact h.reject hl rfl
  cases v with
  | number x =>
    refine h.bind (assign hn (h.admits.number _)) fun a ha => ?_
    cases a with
    | ok => exact h.pure (h.admits.number _)
    | error e => exact h.reject hl ha
  | string | boolean | collection | mapping | operator | nothing => exact h.reject hl rfl

theorem step (assign : C.Assigns V G ρ) {op : Builtin} {delta : Float} {args : List Node}
    {line : Nat} (ha : ∀ n ∈ args, V.node n) (hl : V.line line) :
    C G (Operator.step op delta args line)
      (Operator.step op delta (renumber ρ args) (ρ line)) := by
  rcases args with _ | ⟨n, _ | ⟨n', ns⟩⟩
  · exact h.wrongArity op [] (.exactly 1) hl
  · refine h.bind (h.nameOf op (ha n List.mem_cons_self)) fun o ho => ?_
    cases o with
    | none => exact h.pure h.admits.nothing
    | some name => exact h.advance assign (ho name rfl) hl
  · exact h.wrongArity op (n :: n' :: ns) (.exactly 1) hl

/-! ### Folds

What comes of a fold is in any set of values that has those of `G` and is closed under combining
them. -/

section

variable {P : Value → Prop} (hG : ∀ {v}, G v → P v) {op : Fold}
  (hP : ∀ {v w u}, P v → P w → op.combine? v w = some u → P u)

include hG

theorem one {line : Nat} {v : Value} (hv : G v) (hl : V.line line) :
    C P (op.one line v) (op.one (ρ line) (renumber ρ v)) := by
  unfold Fold.one
  cases op.single? with
  | none => exact h.pure (hG hv)
  | some f =>
    have fault : ∀ k, C P (Eval.reject line (.unsupportedArgument (.fold op) k))
        (Eval.reject (ρ line) (.unsupportedArgument (.fold op) k)) :=
      fun k => h.bind (h.complain hl rfl) fun _ _ => h.pure (hG h.admits.nothing)
    cases v with
    | number x => exact h.pure (hG (h.admits.number _))
    | string | boolean | collection | mapping | operator | nothing => exact fault _

omit hG
include hP

theorem operands {line : Nat} {acc : Value} {vs : List Value} (hacc : P acc)
    (hv : ∀ v ∈ vs, P v) (hl : V.line line) :
    C P (op.operands line acc vs)
      (op.operands (ρ line) (renumber ρ acc) (renumber ρ vs)) := by
  induction vs generalizing acc with
  | nil => exact h.pure hacc
  | cons v vs ih =>
    have hv' := List.forall_mem_cons.1 hv
    rw [renumber_cons]
    unfold Fold.operands
    rw [Fold.combine?_renumber, Value.kind_renumber, Value.kind_renumber]
    cases hw : op.combine? acc v with
    | none => exact h.bind (h.complain hl (by simp)) fun _ _ => ih hacc hv'.2
    | some w => exact ih (hP hacc hv'.1 hw) hv'.2

include hG

theorem items {line : Nat} {vs : List Value} (hv : ∀ v ∈ vs, G v) (hl : V.line line) :
    C P (op.items line vs) (op.items (ρ line) (renumber ρ vs)) := by
  cases vs with
  | nil => exact h.pure (hG h.admits.nothing)
  | cons v vs =>
    obtain ⟨hacc, hvs⟩ := List.forall_mem_cons.1 hv
    exact h.operands hP (hG hacc) (fun v hm => hG (hvs v hm)) hl

include hev

theorem fold {args : List Node} {line : Nat} (ha : ∀ n ∈ args, V.node n) (hl : V.line line) :
    C P (op.call ev args line) (op.call ev' (renumber ρ args) (ρ line)) := by
  refine h.bind (h.all hev ha) fun vs hvs => ?_
  rcases vs with _ | ⟨v, _ | ⟨w, vs⟩⟩
  · exact h.items hG hP hvs hl
  · cases v with
    | collection items =>
      rw [renumber_cons, Value.renumber_collection]
      exact h.items hG hP (h.admits.item (hvs _ List.mem_cons_self)) hl
    | number | string | boolean | mapping | operator | nothing =>
      exact h.one hG (hvs _ List.mem_cons_self) hl
  · cases v with
    | number | string | boolean | collection | mapping | operator | nothing =>
      exact h.items hG hP hvs hl

end

include hev

/-! ### Loops over entries -/

theorem iterate {line : Nat} {source index body : Node} (value? : Option Node) (hl : V.line line)
    (hs : V.node source) (hi : V.node index) (hv : ∀ n, value? = some n → V.node n)
    (hb : V.node body) :
    C G (Operator.iterate ev line source index value? body)
      (Operator.iterate ev' (ρ line) (renumber ρ source) (renumber ρ index) (renumber ρ value?)
        (renumber ρ body)) := by
  refine h.bind (hev source hs) fun v hval => ?_
  rw [Value.entries?_renumber, Value.kind_renumber]
  cases he : v.entries? with
  | none => exact h.reject hl rfl
  | some es =>
    refine h.bind (h.nameOf .loop hi) fun o ho => ?_
    cases o with
    | none => exact h.pure h.admits.nothing
    | some name =>
      refine h.bind (P := fun o => ∀ s, o = some (some s) → V.name s) ?_ fun o ho' => ?_
      · cases value? with
        | none => exact h.pure (a := some none) fun s e => by cases e
        | some n =>
          refine h.bind (h.nameOf .loop (hv n rfl)) fun o ho => ?_
          cases o with
          | none => exact h.pure (a := none) fun s e => by cases e
          | some name =>
            exact h.pure (a := some (some name)) fun s e => by cases e; exact ho name rfl
      · cases o with
        | none => exact h.pure h.admits.nothing
        | some value? =>
          have same : renumber ρ value? = value? := by cases value? <;> rfl
          rw [renumber_some, same]
          exact h.iteration hev (ho name rfl) (fun s e => ho' s (by rw [e])) hb
            (h.admits.entries? hval he)

theorem bounds {line : Nat} {ns : List Node} (hn : ∀ n ∈ ns, V.node n) (hl : V.line line) :
    C (fun _ => True) (Operator.bounds ev line ns)
      (Operator.bounds ev' (ρ line) (renumber ρ ns)) := by
  induction ns with
  | nil => exact h.pure (a := some []) trivial
  | cons n ns ih =>
    refine h.bind (hev n (hn n List.mem_cons_self)) fun v _ => ?_
    cases v with
    | number x =>
      refine h.bind (ih fun n hm => hn n (List.mem_cons_of_mem _ hm)) fun o _ => ?_
      cases o with
      | none => exact h.pure (a := none) trivial
      | some xs => exact h.pure (a := some (x :: xs)) trivial
    | string | boolean | collection | mapping | operator | nothing =>
      exact h.bind (h.complain hl rfl) fun _ _ => h.pure (a := none) trivial

/-! ### Calls and nodes -/

variable {f f' : Nat}

theorem loop {args : List Node} {line : Nat} (ha : ∀ n ∈ args, V.node n) (hl : V.line line)
    (special : Builtin.loop.isSpecial args.length = true →
      C G (Operator.loop ev f args line) (Operator.loop ev' f' (renumber ρ args) (ρ line))) :
    C G (Operator.loop ev f args line) (Operator.loop ev' f' (renumber ρ args) (ρ line)) := by
  have bad := h.wrongArity .loop args (.between 1 4) hl
  match args, ha with
  | [], _ => exact bad
  | [n], _ => exact special rfl
  | [condition, body], _ => exact special rfl
  | [source, index, body], ha =>
    exact h.iterate hev none hl (ha source (by simp)) (ha index (by simp))
      (fun _ e => by cases e) (ha body (by simp))
  | [source, index, value, body], ha =>
    exact h.iterate hev (some value) hl (ha source (by simp)) (ha index (by simp))
      (fun _ e => by cases e; exact ha value (by simp)) (ha body (by simp))
  | _ :: _ :: _ :: _ :: _ :: _, _ => exact bad

/-- A builtin operator, if it is special by what comes of that. -/
theorem builtin (b : Builtin) {args : List Node} {line : Nat} (ha : ∀ n ∈ args, V.node n)
    (hl : V.line line)
    (special : b.isSpecial args.length = true →
      C G (b.call ev f args line) (b.call ev' f' (renumber ρ args) (ρ line))) :
    C G (b.call ev f args line) (b.call ev' f' (renumber ρ args) (ρ line)) := by
  have number : ∀ g v w, G v → Operator.onNumber g v = some w → G w := by
    intro g v w _ e
    cases v with
    | number x => cases e; exact h.admits.number _
    | string | boolean | collection | mapping | operator | nothing => cases e
  have number_renumber : ∀ g v,
      Operator.onNumber g (renumber ρ v) = renumber ρ (Operator.onNumber g v) := by
    intro g v
    cases v <;> rfl
  have negation : ∀ v w, G v → some (Value.ofTruth !v.truth) = some w → G w := by
    intro v w _ e
    cases e
    exact h.admits.ofTruth _
  have length : ∀ v w, G v → Operator.lengthOf v = some w → G w := by
    intro v w _ e
    obtain ⟨n, -, rfl⟩ := Option.map_eq_some_iff.1 e
    exact h.admits.number _
  have length_renumber : ∀ v,
      Operator.lengthOf (renumber ρ v) = renumber ρ (Operator.lengthOf v) := by
    intro v
    unfold Operator.lengthOf
    rw [Value.length?_renumber]
    cases v.length? <;> rfl
  cases b with
  | loop => exact h.loop hev ha hl special
  | assign | increment | decrement | range => exact special rfl
  | fold op =>
    by_cases hop : op = .add
    · subst hop
      exact special rfl
    · exact h.fold hev id (fun _ _ => h.admits.combine? hop) ha hl
  | print => exact h.printing hev ha
  | choose => exact h.choose hev ha
  | random => exact h.random hev ha
  | define => exact h.definition hev ha hl
  | function => exact h.makeFunction ha hl
  | magnitude => exact h.unary hev (number _) (number_renumber _) ha hl
  | sign => exact h.unary hev (number _) (number_renumber _) ha hl
  | compare rel => exact h.comparison hev ha hl
  | not => exact h.unary hev negation (fun v => by rw [Value.truth_renumber]; rfl) ha hl
  | every => exact h.every hev ha
  | any => exact h.any hev ha
  | length => exact h.unary hev length length_renumber ha hl

theorem assigning (assign : C.Assigns V G ρ) {b : Builtin} (hb : b.assigns = true)
    {args : List Node} {line : Nat} (ha : ∀ n ∈ args, V.node n) (hl : V.line line) :
    C G (b.call ev f args line) (b.call ev' f' (renumber ρ args) (ρ line)) := by
  cases b with
  | assign => exact h.assignment hev assign ha hl
  | increment | decrement => exact h.step assign ha hl
  | print | choose | loop | random | define | function | fold | magnitude | sign | compare | not
  | every | any | length | range => cases hb

theorem apply {v : Value} {args : List Node} {line : Nat} (hv : V.callable v)
    (ha : ∀ n ∈ args, V.node n) (hl : V.line line)
    (builtins : ∀ b, v = .operator (.builtin b) →
      C G (b.call ev f args line) (b.call ev' f' (renumber ρ args) (ρ line))) :
    C G (Eval.apply ev f v args line)
      (Eval.apply ev' f' (renumber ρ v) (renumber ρ args) (ρ line)) := by
  cases v with
  | operator op =>
    cases op with
    | builtin b => exact builtins b rfl
    | function f => exact h.function hev (hv f rfl) ha
  | number | string | boolean | collection | mapping | nothing => exact h.reject hl rfl

/-- A call, by what its head may turn out to be: a value with `Q` if it is a name, and a value of
`G` otherwise. -/
theorem call {Q : Value → Prop} {head : Node} {args : List Node} {line : Nat}
    (hn : V.node (.call head args line))
    (named : ∀ s, head.name? = some s →
      C (fun o => ∀ v, o = some v → Q v) (Eval.get? s) (Eval.get? s))
    (found : ∀ v, Q v → C G (Eval.apply ev f v args line)
      (Eval.apply ev' f' (renumber ρ v) (renumber ρ args) (ρ line)))
    (evaluated : ∀ v, G v → C G (Eval.apply ev f v args line)
      (Eval.apply ev' f' (renumber ρ v) (renumber ρ args) (ρ line))) :
    C G (Eval.call ev f head args line)
      (Eval.call ev' f' (renumber ρ head) (renumber ρ args) (ρ line)) := by
  unfold Eval.call
  rw [Node.name?_renumber]
  cases hs : head.name? with
  | none => exact h.bind (hev head (V.node_head hn hs)) evaluated
  | some name =>
    refine h.bind (named name hs) fun o ho => ?_
    cases o with
    | none => exact h.reject (V.line_node hn) rfl
    | some v => exact found v (ho v rfl)

theorem mapping {pairs : List (Node × Node)} (hl : ∀ p ∈ pairs, V.line p.1.line)
    (hk : ∀ p ∈ pairs, p.1.key? = none → V.fault (.invalidKey p.1.text))
    (hn : ∀ p ∈ pairs, V.node p.2) {es : Table Value} (he : ∀ p ∈ es, G p.2) :
    C G (Eval.mapping ev es pairs)
      (Eval.mapping ev' (renumber ρ es) (renumber ρ pairs)) := by
  induction pairs generalizing es with
  | nil =>
    rw [renumber_nil, Eval.mapping, Eval.mapping, ← Value.renumber_mapping]
    exact h.pure (h.admits.mapping he)
  | cons p pairs ih =>
    obtain ⟨key, value⟩ := p
    have hl' := List.forall_mem_cons.1 hl
    have hk' := List.forall_mem_cons.1 hk
    have hn' := List.forall_mem_cons.1 hn
    rw [renumber_cons, renumber_pair]
    unfold Eval.mapping
    rw [Node.key?_renumber, Node.line_renumber, Node.text_renumber]
    cases key? : key.key? with
    | none => exact h.bind (h.report hl'.1 (hk'.1 key?)) fun _ _ => ih hl'.2 hk'.2 hn'.2 he
    | some name =>
      refine h.bind (hev value hn'.1) fun v hv => ?_
      rw [← Table.renumber_insert]
      exact ih hl'.2 hk'.2 hn'.2 (Table.forall_insert hv he)

theorem sequence {last : Value} {ns : List Node} (hl : G last) (hn : ∀ n ∈ ns, V.node n) :
    C G (Eval.sequence ev last ns)
      (Eval.sequence ev' (renumber ρ last) (renumber ρ ns)) := by
  induction ns generalizing last with
  | nil => exact h.pure hl
  | cons n ns ih =>
    refine h.bind (hev n (hn n List.mem_cons_self)) fun v hv => ?_
    exact h.bind (h.previous hv) fun _ _ =>
      ih hv fun n hm => hn n (List.mem_cons_of_mem _ hm)

theorem statements {ns : List Node} (hn : ∀ n ∈ ns, V.node n) :
    C G (Eval.statements ev ns) (Eval.statements ev' (renumber ρ ns)) :=
  h.bind (h.previous h.admits.nothing) fun _ _ =>
    h.sequence hev h.admits.nothing hn

omit hev in
theorem collection {line : Nat} {vs : List Value} (hv : ∀ v ∈ vs, G v) (hl : V.line line) :
    C G (Eval.collection line vs) (Eval.collection (ρ line) (renumber ρ vs)) := by
  cases vs with
  | nil => exact h.pure (a := Value.collection []) h.admits.empty
  | cons v vs =>
    have found : (renumber ρ vs).find? (·.kind ≠ (renumber ρ v).kind) =
        renumber ρ (vs.find? (·.kind ≠ v.kind)) := by
      refine List.find?_map.trans (congrArg (Option.map _) (congrArg (List.find? · vs) ?_))
      funext w
      simp only [Function.comp, Value.kind_renumber]
    rw [renumber_cons]
    dsimp only [Eval.collection]
    rw [found, ← renumber_cons, ← Value.renumber_collection]
    cases hk : vs.find? (·.kind ≠ v.kind) with
    | none =>
      have same : Value.sameKind (v :: vs) = true := by
        simpa [Value.sameKind, List.find?_eq_none] using hk
      exact h.pure (h.admits.collection same hv)
    | some w =>
      rw [renumber_some]
      simp only [Value.kind_renumber]
      exact h.bind (h.complain hl rfl) fun _ _ => h.pure (a := Value.collection []) h.admits.empty

/-- A node, if it is a call by what comes of the call. -/
theorem node {n : Node} (hn : V.node n)
    (calls : ∀ {head args line}, n = .call head args line → C G (Eval.call ev f head args line)
      (Eval.call ev' f' (renumber ρ head) (renumber ρ args) (ρ line))) :
    C G (Eval.node ev f n) (Eval.node ev' f' (renumber ρ n)) := by
  cases n with
  | literal value line =>
    have constant := h.pure (P := G) (h.admits.ofLiteral value)
    rw [Value.renumber_ofLiteral] at constant
    exact constant
  | reference name line =>
    refine h.bind (h.lookup (V.name_reference hn)) fun a ha => ?_
    cases a with
    | ok v => exact h.pure ha
    | error e => exact h.reject (V.line_node hn) ha
  | call head args line => rw [Node.renumber_call]; exact calls rfl
  | scope body line =>
    rw [Node.renumber_scope]
    exact h.inFrame (h.statements hev (V.node_statement hn))
  | collection items line =>
    rw [Node.renumber_collection]
    exact h.bind (h.all hev (V.node_item hn)) fun vs hvs => h.collection hvs (V.line_node hn)
  | mapping pairs line =>
    rw [Node.renumber_mapping]
    exact h.mapping hev (V.line_key hn) (V.fault_key hn) (V.node_entry hn) fun p hp => by cases hp

end

end Local

/-! ## Fuel -/

/-- How the fuel of the two computations may differ: not at all, unless the first may run out where
the second goes on. -/
def Within (C : Correspondence) (f f' : Nat) : Prop :=
  f = f' ∨ f ≤ f' ∧ ∀ {α : Type} [Lined α] {P : α → Prop} {x y : Eval α},
    C P x y → C P Eval.outOfFuel y

theorem Within.refl (C : Correspondence) (f : Nat) : C.Within f f :=
  .inl rfl

/-- Computations that use up fuel correspond if they do with none and if a step passes it on. The
computations are indexed by what changes from step to step. -/
theorem Within.induction {C : Correspondence} {α ι : Type} [Lined α] {P : α → Prop}
    (x y : Nat → ι → Eval α) {Q : ι → Prop} (zero : C P Eval.outOfFuel Eval.outOfFuel)
    (hx : ∀ i, x 0 i = Eval.outOfFuel) (hy : ∀ i, y 0 i = Eval.outOfFuel)
    (succ : ∀ f f', C.Within f f' → (∀ i, Q i → C P (x f i) (y f' i)) →
      ∀ i, Q i → C P (x (f + 1) i) (y (f' + 1) i))
    {f f' : Nat} (hf : C.Within f f') {i : ι} (hi : Q i) : C P (x f i) (y f' i) := by
  induction f' generalizing f i with
  | zero =>
    have h0 : f = 0 := hf.elim id fun hle => Nat.le_zero.1 hle.1
    rw [h0, hx, hy]
    exact zero
  | succ f' ih =>
    have same : C P (x (f' + 1) i) (y (f' + 1) i) :=
      succ f' f' (.refl C f') (fun i hi => ih (.refl C f') hi) i hi
    rcases hf with rfl | ⟨hle, cut⟩
    · exact same
    cases f with
    | zero => rw [hx]; exact cut same
    | succ f =>
      have hf' : C.Within f f' := .inr ⟨by omega, cut⟩
      exact succ f f' hf' (fun i hi => ih hf' hi) i hi

namespace Local

variable {V : Vocabulary} {G : Value → Prop} {ρ : Nat → Nat} {C : Correspondence}
  (h : C.Local V G ρ)
  (out : ∀ {α : Type} [Lined α] {P : α → Prop}, C P Eval.outOfFuel Eval.outOfFuel)

include h out

theorem untilFalse {ev ev' : Node → Eval Value}
    (hev : ∀ n, V.node n → C G (ev n) (ev' (renumber ρ n))) {f f' : Nat}
    (hf : C.Within f f') {n : Node} (hn : V.node n) :
    C G (Operator.untilFalse ev n f) (Operator.untilFalse ev' (renumber ρ n) f') := by
  refine hf.induction (fun f (_ : Unit) => Operator.untilFalse ev n f)
    (fun f' _ => Operator.untilFalse ev' (renumber ρ n) f') (Q := fun _ => True) out
    (fun _ => rfl) (fun _ => rfl) (fun f f' _ ih _ _ => ?_) (i := ()) trivial
  refine h.bind (hev n hn) fun v hv => ?_
  rw [Value.truth_renumber]
  split
  · exact ih () trivial
  · exact h.pure hv

theorem whileTrue {ev ev' : Node → Eval Value}
    (hev : ∀ n, V.node n → C G (ev n) (ev' (renumber ρ n))) {f f' : Nat}
    (hf : C.Within f f') {condition body : Node} (hc : V.node condition) (hb : V.node body) :
    C G (Operator.whileTrue ev condition body f .nothing)
      (Operator.whileTrue ev' (renumber ρ condition) (renumber ρ body) f' .nothing) := by
  refine hf.induction (Operator.whileTrue ev condition body)
    (fun f' last => Operator.whileTrue ev' (renumber ρ condition) (renumber ρ body) f'
      (renumber ρ last)) (Q := G) out (fun _ => rfl) (fun _ => rfl)
    (fun f f' _ ih last hl => ?_) (i := .nothing) h.admits.nothing
  refine h.bind (hev condition hc) fun v _ => ?_
  rw [Value.truth_renumber]
  split
  · exact h.bind (hev body hb) fun last hl => ih last hl
  · exact h.pure hl

theorem numbers {f f' : Nat} (hf : C.Within f f') (r : Range) {line : Nat} (hl : V.line line) :
    C G (Operator.numbers f r line) (Operator.numbers f' r (ρ line)) := by
  unfold Operator.numbers
  split
  · have whole : ∀ f vs, r.numbersFrom? f 0 [] = some vs →
        C G (Pure.pure (.collection vs)) (Pure.pure (.collection vs)) := by
      intro f vs hvs
      have same := h.pure (h.admits.numbersFrom? hvs)
      rw [Value.renumber_collection, Range.renumber_numbersFrom? ρ rfl hvs] at same
      exact same
    rcases hf with rfl | ⟨hle, cut⟩
    · cases hvs : r.numbersFrom? f 0 [] with
      | none => exact out
      | some vs => exact whole f vs hvs
    · cases hvs : r.numbersFrom? f 0 [] with
      | none =>
        cases hvs' : r.numbersFrom? f' 0 [] with
        | none => exact out
        | some vs => exact cut (whole f' vs hvs')
      | some vs =>
        rw [Range.numbersFrom?_mono hle hvs]
        exact whole f vs hvs
  · exact h.bind (h.complain hl rfl) fun _ _ => h.pure (a := Value.collection []) h.admits.empty

/-- Where computations without fuel correspond, so do those that use it up. -/
theorem unbounded {ev ev' : Node → Eval Value}
    (hev : ∀ n, V.node n → C G (ev n) (ev' (renumber ρ n))) {f f' : Nat}
    (hf : C.Within f f') : C.Unbounded V G ρ ev ev' f f' where
  untilFalse hn := h.untilFalse out hev hf hn
  whileTrue hc hb := h.whileTrue out hev hf hc hb
  range {args line} ha hl := by
    have empty : C G (Pure.pure (Value.collection [])) (Pure.pure (Value.collection [])) :=
      h.pure (a := Value.collection []) h.admits.empty
    unfold Operator.range
    rw [length_renumber]
    split
    · exact h.bind (h.complain hl rfl) fun _ _ => empty
    · refine h.bind (h.bounds hev ha hl) fun o _ => ?_
      have same : renumber ρ o = o := by
        cases o with
        | none => rfl
        | some xs => exact congrArg some (map_eq_self fun _ _ => rfl)
      rw [same]
      cases o.bind Range.ofBounds? with
      | none => exact empty
      | some r => exact h.numbers out hf r hl

end Local

/-- What corresponds where fuel is used up, as a call of a builtin operator. -/
theorem Unbounded.builtin {V : Vocabulary} {G : Value → Prop} {ρ : Nat → Nat} {C : Correspondence}
    {ev ev' : Node → Eval Value} {f f' : Nat} (hu : C.Unbounded V G ρ ev ev' f f') {b : Builtin}
    {args : List Node} {line : Nat} (hb : b.usesFuel args.length = true)
    (ha : ∀ n ∈ args, V.node n) (hl : V.line line) :
    C G (b.call ev f args line) (b.call ev' f' (renumber ρ args) (ρ line)) := by
  cases b with
  | range => exact hu.range ha hl
  | loop =>
    match args, ha with
    | [n], ha => exact hu.untilFalse (ha n (by simp))
    | [condition, body], ha => exact hu.whileTrue (ha condition (by simp)) (ha body (by simp))
    | [], _ | _ :: _ :: _ :: _, _ => simp [Builtin.usesFuel] at hb
  | print | choose | random | define | assign | function | increment | decrement | fold | magnitude
  | sign | compare | not | every | any | length => cases hb

namespace Framed

variable {V : Vocabulary} {ρ : Nat → Nat} {C : Correspondence} (h : C.Framed V ρ)

include h

section

variable {ev ev' : Node → Eval Value} (hev : ∀ n, V.node n → C V.value (ev n) (ev' (renumber ρ n)))
  {f f' : Nat} (hu : C.Unbounded V V.value ρ ev ev' f f')

include hev hu

theorem apply {v : Value} {args : List Node} {line : Nat} (hv : V.callable v)
    (ha : ∀ n ∈ args, V.node n) (hl : V.line line) :
    C V.value (Eval.apply ev f v args line)
      (Eval.apply ev' f' (renumber ρ v) (renumber ρ args) (ρ line)) := by
  refine h.toLocal.apply hev hv ha hl fun b _ => h.builtin hev b ha hl fun special => ?_
  simp only [Builtin.isSpecial, Bool.or_eq_true, beq_iff_eq] at special
  rcases special with (uses | assigns) | rfl
  · exact hu.builtin uses ha hl
  · exact h.assigning hev h.assign assigns ha hl
  · exact h.fold hev id Vocabulary.value_combine? ha hl

theorem node {n : Node} (hn : V.node n) :
    C V.value (Eval.node ev f n) (Eval.node ev' f' (renumber ρ n)) := by
  refine h.toLocal.node hev hn ?_
  rintro head args line rfl
  have ha := V.node_arg hn
  have hl := V.line_node hn
  exact h.call hev hn (fun s hs => h.callee (V.callee_head hn hs))
    (fun v hv => h.apply hev hu hv ha hl) fun v hv => h.apply hev hu hv.callable ha hl

end

variable (out : ∀ {α : Type} [Lined α] {P : α → Prop}, C P Eval.outOfFuel Eval.outOfFuel)

include out

/-- What is left to show of a framed correspondence to have it of `evaluate`: that it survives
the limits of the two sides. -/
theorem evaluate {limit limit' : Nat}
    (hlim : ∀ {line : Nat} {x y : Eval Value}, V.line line → C V.value x y →
      C V.value (Eval.limited limit line x) (Eval.limited limit' (ρ line) y))
    {f f' : Nat} (hf : C.Within f f') {n : Node} (hn : V.node n) :
    C V.value (Sigil.evaluate limit f n) (Sigil.evaluate limit' f' (renumber ρ n)) := by
  refine hf.induction (Sigil.evaluate limit) (fun f' n => Sigil.evaluate limit' f' (renumber ρ n))
    out (fun _ => rfl) (fun _ => rfl) (fun f f' hf ih n hn => ?_) hn
  rw [evaluate_succ, evaluate_succ, Node.line_renumber]
  exact hlim (V.line_node hn) (h.node ih (h.unbounded out ih hf) hn)

end Framed

end Correspondence

end Sigil
