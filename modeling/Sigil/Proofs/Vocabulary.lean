import Sigil.Evaluation

/-!
# What an evaluation deals in

`v.operators` are the operators in a value, at any depth. A `Vocabulary` says which nodes, names,
lines, faults and builtin operators an evaluation may meet. The values that go with it
(`Vocabulary.value`) hold builtin operators of the vocabulary, and functions whose parameters and
body belong to it.

Other sets of values may go with a vocabulary too, if values stay in them when operators take them
apart and put them together (`Vocabulary.Admits`). One way to do so is left out, joining two
collections: what comes of it is no collection of one kind unless both are of the same.
-/

namespace Sigil

namespace Value

/-- Whether the values are all of one kind. -/
def sameKind : List Value → Bool
  | [] => true
  | v :: vs => vs.all (·.kind == v.kind)

theorem sameKind_iff {vs : List Value} :
    sameKind vs = true ↔ ∀ v ∈ vs, ∀ w ∈ vs, v.kind = w.kind := by
  cases vs with
  | nil => simp [sameKind]
  | cons u vs =>
    simp only [sameKind, List.all_eq_true, beq_iff_eq]
    constructor
    · intro h v hv w hw
      have first : ∀ x ∈ u :: vs, x.kind = u.kind := List.forall_mem_cons.2 ⟨rfl, h⟩
      exact (first v hv).trans (first w hw).symm
    · exact fun h v hv => h v (List.mem_cons_of_mem _ hv) u List.mem_cons_self

mutual

/-- The operators in a value, at any depth. -/
def operators : Value → List Operator
  | collection items => itemOperators items
  | mapping entries => entryOperators entries
  | operator op => [op]
  | number _ | string _ | boolean _ | nothing => []

def itemOperators : List Value → List Operator
  | [] => []
  | v :: vs => v.operators ++ itemOperators vs

def entryOperators : List (String × Value) → List Operator
  | [] => []
  | (_, v) :: entries => v.operators ++ entryOperators entries

end

theorem mem_itemOperators {op : Operator} {vs : List Value} :
    op ∈ itemOperators vs ↔ ∃ v ∈ vs, op ∈ v.operators := by
  induction vs with
  | nil => simp [itemOperators]
  | cons v vs ih => simp [itemOperators, ih]

theorem mem_entryOperators {op : Operator} {entries : List (String × Value)} :
    op ∈ entryOperators entries ↔ ∃ p ∈ entries, op ∈ p.2.operators := by
  induction entries with
  | nil => simp [entryOperators]
  | cons p entries ih => simp [entryOperators, ih]

end Value

namespace Table

variable {α : Type}

theorem mem_of_get? {name : String} {entry : α} {t : Table α} (h : get? name t = some entry) :
    (name, entry) ∈ t := by
  induction t with
  | nil => cases h
  | cons p t ih =>
    obtain ⟨key, old⟩ := p
    unfold get? at h
    split at h
    · next hk => cases h; rw [hk]; exact List.mem_cons_self
    · exact List.mem_cons_of_mem _ (ih h)

theorem mem_insert {name : String} {entry : α} {t : Table α} {p : String × α}
    (h : p ∈ insert name entry t) : p = (name, entry) ∨ p ∈ t := by
  induction t with
  | nil => simpa [insert] using h
  | cons q t ih =>
    obtain ⟨key, old⟩ := q
    unfold insert at h
    split at h
    · next hk =>
      rcases List.mem_cons.1 h with rfl | h
      · exact .inl (by rw [hk])
      · exact .inr (List.mem_cons_of_mem _ h)
    · rcases List.mem_cons.1 h with rfl | h
      · exact .inr List.mem_cons_self
      · exact (ih h).imp_right (List.mem_cons_of_mem _)

theorem forall_insert {P : α → Prop} {name : String} {entry : α} {t : Table α} (he : P entry)
    (h : ∀ p ∈ t, P p.2) : ∀ p ∈ insert name entry t, P p.2 := by
  intro p hp
  rcases mem_insert hp with rfl | hp
  · exact he
  · exact h p hp

end Table

theorem Range.number_of_numbersFrom? {r : Range} {fuel k : Nat} {seen vs : List Value}
    (hs : ∀ v ∈ seen, ∃ x, v = .number x) (h : r.numbersFrom? fuel k seen = some vs) :
    ∀ v ∈ vs, ∃ x, v = .number x := by
  induction fuel generalizing k seen with
  | zero => cases h
  | succ fuel ih =>
    unfold numbersFrom? at h
    simp only at h
    split at h
    · exact ih (List.forall_mem_cons.2 ⟨⟨_, rfl⟩, hs⟩) h
    · cases h
      exact fun v hv => hs v (List.mem_reverse.1 hv)

namespace EvalError

/-- The fault that ends an evaluation. -/
def isLimit : EvalError → Bool
  | depthLimit _ => true
  | _ => false

/-- Whether operators report the fault: the depth is watched around them, and the keys of mappings
are not among their arguments. -/
def ofOperator : EvalError → Bool
  | depthLimit _ | invalidKey _ => false
  | _ => true

theorem isLimit_of_ofOperator {e : EvalError} (h : e.ofOperator = true) : e.isLimit = false := by
  cases e <;> first | rfl | cases h

@[simp] theorem ofOperator_operands (op : Builtin) (k l : Kind) :
    (operands op k l).ofOperator = true := by
  unfold operands; split <;> rfl

end EvalError

/-- What an evaluation may meet. -/
structure Vocabulary where
  /-- The nodes that are evaluated. -/
  node : Node → Prop
  /-- The names that are bound, or looked up for their value. -/
  name : String → Prop
  /-- The names that are called. -/
  callee : String → Prop
  /-- The lines at which faults are reported. -/
  line : Nat → Prop
  /-- The faults that are reported, the depth limit apart. -/
  fault : EvalError → Prop
  /-- The builtin operators that occur in values. -/
  builtin : Builtin → Prop
  name_previous : name previousName
  fault_operator : ∀ {e : EvalError}, e.ofOperator = true → fault e
  line_node : ∀ {n : Node}, node n → line n.line
  name_reference : ∀ {s : String} {l : Nat}, node (.reference s l) → name s
  callee_head : ∀ {head : Node} {args : List Node} {l : Nat} {s : String},
    node (.call head args l) → head.name? = some s → callee s
  node_head : ∀ {head : Node} {args : List Node} {l : Nat},
    node (.call head args l) → head.name? = none → node head
  node_arg : ∀ {head : Node} {args : List Node} {l : Nat},
    node (.call head args l) → ∀ n ∈ args, node n
  node_statement : ∀ {body : List Node} {l : Nat}, node (.scope body l) → ∀ n ∈ body, node n
  node_item : ∀ {items : List Node} {l : Nat}, node (.collection items l) → ∀ n ∈ items, node n
  line_key : ∀ {pairs : List (Node × Node)} {l : Nat},
    node (.mapping pairs l) → ∀ p ∈ pairs, line p.1.line
  fault_key : ∀ {pairs : List (Node × Node)} {l : Nat},
    node (.mapping pairs l) → ∀ p ∈ pairs, p.1.key? = none → fault (.invalidKey p.1.text)
  node_entry : ∀ {pairs : List (Node × Node)} {l : Nat},
    node (.mapping pairs l) → ∀ p ∈ pairs, node p.2

namespace Vocabulary

variable (V : Vocabulary)

def function (f : Function) : Prop :=
  (∀ s ∈ f.parameters, V.name s) ∧ V.node f.body

def operator : Operator → Prop
  | .builtin b => V.builtin b
  | .function f => V.function f

/-- A value whose operators, at any depth, belong to the vocabulary. -/
def value (v : Value) : Prop :=
  ∀ op ∈ v.operators, V.operator op

/-- What the head of a call may be: anything but a function from outside the vocabulary. -/
def callable (v : Value) : Prop :=
  ∀ f, v = .operator (.function f) → V.function f

/-- No limits. -/
def any : Vocabulary where
  node _ := True
  name _ := True
  callee _ := True
  line _ := True
  fault e := e.isLimit = false
  builtin _ := True
  name_previous := trivial
  fault_operator := EvalError.isLimit_of_ofOperator
  line_node _ := trivial
  name_reference _ := trivial
  callee_head _ _ := trivial
  node_head _ _ := trivial
  node_arg _ _ _ := trivial
  node_statement _ _ _ := trivial
  node_item _ _ _ := trivial
  line_key _ _ _ := trivial
  fault_key _ _ _ _ := rfl
  node_entry _ _ _ := trivial

theorem any_value (v : Value) : any.value v := by
  intro op _
  cases op with
  | builtin => trivial
  | function => exact ⟨fun _ _ => trivial, trivial⟩

variable {V}

@[simp] theorem value_number (x : Float) : V.value (.number x) := by
  simp [value, Value.operators]

@[simp] theorem value_string (s : String) : V.value (.string s) := by
  simp [value, Value.operators]

@[simp] theorem value_boolean (b : Bool) : V.value (.boolean b) := by
  simp [value, Value.operators]

@[simp] theorem value_nothing : V.value .nothing := by
  simp [value, Value.operators]

@[simp] theorem value_collection {vs : List Value} :
    V.value (.collection vs) ↔ ∀ v ∈ vs, V.value v := by
  simp only [value, Value.operators, Value.mem_itemOperators]
  exact ⟨fun h v hv op ho => h op ⟨v, hv, ho⟩, fun h op ⟨v, hv, ho⟩ => h v hv op ho⟩

@[simp] theorem value_mapping {entries : List (String × Value)} :
    V.value (.mapping entries) ↔ ∀ p ∈ entries, V.value p.2 := by
  simp only [value, Value.operators, Value.mem_entryOperators]
  exact ⟨fun h p hp op ho => h op ⟨p, hp, ho⟩, fun h op ⟨p, hp, ho⟩ => h p hp op ho⟩

@[simp] theorem value_operator {op : Operator} : V.value (.operator op) ↔ V.operator op := by
  simp [value, Value.operators]

theorem value.callable {v : Value} (h : V.value v) : V.callable v := by
  rintro f rfl
  exact value_operator.1 h

/-! ## Values that operators make -/

theorem value_combine? {op : Fold} {v w u : Value} (hv : V.value v) (hw : V.value w)
    (h : op.combine? v w = some u) : V.value u := by
  unfold Fold.combine? at h
  split at h
  · cases h; exact value_number _
  · split at h <;> cases h; exact value_string _
  · split at h <;> cases h
    rw [value_collection] at hv hw ⊢
    intro x hx
    exact (List.mem_append.1 hx).elim (hv x) (hw x)
  · cases h

/-- A set of values that goes with a vocabulary: it has the values without parts, the functions of
the vocabulary, the parts of its values, and the mappings and the collections of one kind that are
made of them. -/
structure Admits (V : Vocabulary) (G : Value → Prop) : Prop where
  number : ∀ x, G (.number x)
  string : ∀ s, G (.string s)
  boolean : ∀ b, G (.boolean b)
  nothing : G .nothing
  function : ∀ {f : Function}, V.function f → G (.operator (.function f))
  callable : ∀ {v : Value}, G v → V.callable v
  builtin : ∀ {b : Builtin}, G (.operator (.builtin b)) → V.builtin b
  item : ∀ {vs : List Value}, G (.collection vs) → ∀ v ∈ vs, G v
  collection : ∀ {vs : List Value}, Value.sameKind vs = true → (∀ v ∈ vs, G v) →
    G (.collection vs)
  entry : ∀ {es : List (String × Value)}, G (.mapping es) → ∀ p ∈ es, G p.2
  mapping : ∀ {es : List (String × Value)}, (∀ p ∈ es, G p.2) → G (.mapping es)

theorem admits (V : Vocabulary) : V.Admits V.value where
  number := value_number
  string := value_string
  boolean := value_boolean
  nothing := value_nothing
  function h := value_operator.2 h
  callable h := h.callable
  builtin h := value_operator.1 h
  item h := value_collection.1 h
  collection _ h := value_collection.2 h
  entry h := value_mapping.1 h
  mapping h := value_mapping.2 h

namespace Admits

variable {G : Value → Prop} (h : V.Admits G)

include h

theorem ofTruth (b : Bool) : G (.ofTruth b) :=
  h.number _

theorem ofLiteral (l : Literal) : G (.ofLiteral l) := by
  cases l with
  | number x => exact h.number x
  | string s => exact h.string s
  | boolean b => exact h.boolean b

theorem empty : G (.collection []) :=
  h.collection rfl (List.forall_mem_nil _)

/-- Of collections, only addition makes new ones. -/
theorem combine? {op : Fold} {v w u : Value} (hop : op ≠ .add) (hu : op.combine? v w = some u) :
    G u := by
  unfold Fold.combine? at hu
  split at hu
  · cases hu; exact h.number _
  · rw [if_neg hop] at hu; cases hu
  · rw [if_neg hop] at hu; cases hu
  · cases hu

theorem indexed {items : List Value} (hi : ∀ v ∈ items, G v) :
    ∀ p ∈ Value.indexed items, G p.1 ∧ G p.2 := by
  intro p hp
  obtain ⟨⟨item, k⟩, hk, rfl⟩ := List.mem_map.1 hp
  exact ⟨h.number _, hi item (List.fst_mem_of_mem_zipIdx hk)⟩

theorem entries? {v : Value} {entries : List (Value × Value)} (hv : G v)
    (he : v.entries? = some entries) : ∀ p ∈ entries, G p.1 ∧ G p.2 := by
  cases v with
  | collection items => cases he; exact h.indexed (h.item hv)
  | string s =>
    cases he
    refine h.indexed fun v hv => ?_
    obtain ⟨c, -, rfl⟩ := List.mem_map.1 hv
    exact h.string _
  | mapping es =>
    cases he
    intro p hp
    obtain ⟨q, hq, rfl⟩ := List.mem_map.1 hp
    exact ⟨h.string _, h.entry hv q hq⟩
  | number | boolean | operator | nothing => cases he

theorem numbersFrom? {r : Range} {fuel k : Nat} {vs : List Value}
    (hvs : r.numbersFrom? fuel k [] = some vs) : G (.collection vs) := by
  have numbers := Range.number_of_numbersFrom? (List.forall_mem_nil _) hvs
  refine h.collection (Value.sameKind_iff.2 fun v hv w hw => ?_) fun v hv => ?_
  · obtain ⟨x, rfl⟩ := numbers v hv
    obtain ⟨y, rfl⟩ := numbers w hw
    rfl
  · obtain ⟨x, rfl⟩ := numbers v hv
    exact h.number x

end Admits

end Vocabulary

end Sigil
