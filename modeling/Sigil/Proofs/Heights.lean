import Sigil.Proofs.Characters
import Sigil.Proofs.DepthLimit
import Sigil.Proofs.Folds
import Sigil.Proofs.Surroundings

/-!
# Trees without calls

How deep the evaluation of a tree without calls goes is known from the tree: it is its height. The
limit is reached exactly if the height is above it, and below it every node of the tree is evaluated
once, with a report for every name that is not bound and every collection of several kinds.

Both are shown of computations that are put together as nodes are. `Eval.Reaches` says at what
height a computation reaches the limit: the parts of a group are at the same depth, one after the
other, and the group is one deeper. `Eval.Shows` says what a computation below the limit gives and
shows, and that it leaves nothing else behind. To tell how often a node is evaluated,
`evaluateNoting` prints a note at every node.
-/

namespace Sigil

/-! ## Trees -/

namespace Node

mutual

/-- The number of nodes on the longest way down a tree. Keys of mappings are not evaluated, and do
not count. -/
def height : Node → Nat
  | literal _ _ | reference _ _ => 1
  | call _ args _ => allHeight args + 1
  | scope body _ => allHeight body + 1
  | collection items _ => allHeight items + 1
  | mapping pairs _ => entryHeight pairs + 1

def allHeight : List Node → Nat
  | [] => 0
  | n :: ns => max n.height (allHeight ns)

def entryHeight : List (Node × Node) → Nat
  | [] => 0
  | (_, value) :: pairs => max value.height (entryHeight pairs)

end

mutual

/-- The nodes of a tree but for the keys of mappings, from left to right, each before its parts. -/
def nodes : Node → List Node
  | literal value line => [literal value line]
  | reference name line => [reference name line]
  | call head args line => call head args line :: allNodes args
  | scope body line => scope body line :: allNodes body
  | collection items line => collection items line :: allNodes items
  | mapping pairs line => mapping pairs line :: entryNodes pairs

def allNodes : List Node → List Node
  | [] => []
  | n :: ns => n.nodes ++ allNodes ns

def entryNodes : List (Node × Node) → List Node
  | [] => []
  | (_, value) :: pairs => value.nodes ++ entryNodes pairs

end

mutual

/-- The references of a tree without calls whose names are not bound, with their lines, from left to
right. In a scope, the name of the previous result is bound. -/
def unbound (bound : String → Bool) : Node → List (String × Nat)
  | literal _ _ | call _ _ _ => []
  | reference name line => if bound name then [] else [(name, line)]
  | scope body _ => allUnbound (fun name => name == previousName || bound name) body
  | collection items _ => allUnbound bound items
  | mapping pairs _ => entryUnbound bound pairs

def allUnbound (bound : String → Bool) : List Node → List (String × Nat)
  | [] => []
  | n :: ns => n.unbound bound ++ allUnbound bound ns

def entryUnbound (bound : String → Bool) : List (Node × Node) → List (String × Nat)
  | [] => []
  | (_, value) :: pairs => value.unbound bound ++ entryUnbound bound pairs

end

/-- Neither a call nor a mapping with a key that is none. -/
def isPlain : Node → Bool
  | call _ _ _ => false
  | mapping pairs _ => pairs.all (·.1.key?.isSome)
  | literal _ _ | reference _ _ | scope _ _ | collection _ _ => true

/-- Whether a tree has no calls, and only references and strings for the keys of its mappings. -/
def isCallFree (n : Node) : Bool :=
  n.nodes.all isPlain

theorem all_allNodes (p : Node → Bool) (ns : List Node) :
    (allNodes ns).all p = true ↔ ∀ n ∈ ns, n.nodes.all p = true := by
  induction ns with
  | nil => simp [allNodes]
  | cons n ns ih => rw [allNodes, List.all_append, Bool.and_eq_true, ih, List.forall_mem_cons]

theorem all_entryNodes (p : Node → Bool) (pairs : List (Node × Node)) :
    (entryNodes pairs).all p = true ↔ ∀ q ∈ pairs, q.2.nodes.all p = true := by
  induction pairs with
  | nil => simp [entryNodes]
  | cons q pairs ih => rw [entryNodes, List.all_append, Bool.and_eq_true, ih, List.forall_mem_cons]

theorem height_pos (n : Node) : 0 < n.height := by
  cases n <;> exact Nat.succ_pos _

theorem height_le_allHeight {n : Node} {ns : List Node} (h : n ∈ ns) :
    n.height ≤ allHeight ns := by
  induction ns with
  | nil => cases h
  | cons k ns ih =>
    rcases List.mem_cons.1 h with rfl | h
    · exact Nat.le_max_left _ _
    · exact (ih h).trans (Nat.le_max_right _ _)

theorem height_le_entryHeight {p : Node × Node} {pairs : List (Node × Node)} (h : p ∈ pairs) :
    p.2.height ≤ entryHeight pairs := by
  induction pairs with
  | nil => cases h
  | cons q pairs ih =>
    rcases List.mem_cons.1 h with rfl | h
    · exact Nat.le_max_left _ _
    · exact (ih h).trans (Nat.le_max_right _ _)

variable {line : Nat}

theorem isCallFree_scope {body : List Node} (h : (scope body line).isCallFree = true) :
    ∀ n ∈ body, n.isCallFree = true :=
  (all_allNodes isPlain body).1 h

theorem isCallFree_collection {items : List Node} (h : (collection items line).isCallFree = true) :
    ∀ n ∈ items, n.isCallFree = true :=
  (all_allNodes isPlain items).1 h

theorem isCallFree_mapping {pairs : List (Node × Node)}
    (h : (mapping pairs line).isCallFree = true) :
    ∀ p ∈ pairs, p.1.key?.isSome ∧ p.2.isCallFree = true := by
  obtain ⟨keys, values⟩ := Bool.and_eq_true_iff.1 h
  exact fun p hp => ⟨List.all_eq_true.1 keys p hp, (all_entryNodes isPlain pairs).1 values p hp⟩

end Node

/-! ## Where the limit is reached -/

section

variable [Generator]

theorem Machine.depth_emit (m : Machine) (e : Event) : (m.emit e).depth = m.depth := by
  unfold emit
  split <;> rfl

theorem Machine.emit_of_below {m : Machine} (h : m.exhausted = false) (e : Event) :
    m.emit e = { m with trace := e :: m.trace } :=
  if_neg (by rw [h]; exact Bool.false_ne_true)

namespace Eval

variable {α β : Type} {limit : Nat}

/-- A computation that ends and, started at most at the limit, reaches it exactly if it is less than
`height` above. -/
def Reaches (limit height : Nat) (x : Eval α) : Prop :=
  ∀ m : Machine, m.depth ≤ limit → ∃ a m', x m = some (a, m') ∧ m'.depth = m.depth ∧
    (m'.exhausted = true ↔ m.exhausted = true ∨ limit < m.depth + height)

/-- A computation that goes no deeper and reaches no limit. -/
theorem reaches_zero {x : Eval α} (h : ∀ m, ∃ a m', x m = some (a, m') ∧ m'.depth = m.depth ∧
    m'.exhausted = m.exhausted) : Reaches limit 0 x := by
  intro m hm
  obtain ⟨a, m', e, hd, hx⟩ := h m
  refine ⟨a, m', e, hd, ?_⟩
  rw [hx]
  exact (or_iff_left (by omega)).symm

theorem reaches_pure (a : α) : Reaches limit 0 (pure a) :=
  reaches_zero fun m => ⟨a, m, rfl, rfl, rfl⟩

theorem reaches_set (name : String) (v : Value) : Reaches limit 0 (set name v) :=
  reaches_zero fun _ => ⟨(), _, rfl, rfl, rfl⟩

theorem reaches_report (line : Nat) (e : EvalError) : Reaches limit 0 (report line e) :=
  reaches_zero fun m => ⟨(), _, rfl, m.depth_emit _, m.exhausted_emit _⟩

theorem reaches_bind {h k : Nat} {x : Eval α} {f : α → Eval β} (hx : Reaches limit h x)
    (hf : ∀ a, Reaches limit k (f a)) : Reaches limit (max h k) (x >>= f) := by
  intro m hm
  obtain ⟨a, m₁, e₁, hd₁, hx₁⟩ := hx m hm
  obtain ⟨b, m₂, e₂, hd₂, hx₂⟩ := hf a m₁ (hd₁ ▸ hm)
  refine ⟨b, m₂, bind_eq_some_iff.2 ⟨a, m₁, e₁, e₂⟩, hd₂.trans hd₁, ?_⟩
  rw [hx₂, hx₁, hd₁, or_assoc]
  exact or_congr_right (by omega)

/-- The first of two computations evaluates no node. -/
theorem reaches_after {h : Nat} {x : Eval α} {f : α → Eval β} (hx : Reaches limit 0 x)
    (hf : ∀ a, Reaches limit h (f a)) : Reaches limit h (x >>= f) := by
  have whole := reaches_bind hx hf
  rwa [Nat.zero_max] at whole

/-- The second of two computations evaluates no node. -/
theorem reaches_before {h : Nat} {x : Eval α} {f : α → Eval β} (hx : Reaches limit h x)
    (hf : ∀ a, Reaches limit 0 (f a)) : Reaches limit h (x >>= f) := by
  have whole := reaches_bind hx hf
  rwa [Nat.max_zero] at whole

theorem reaches_inFrame {h : Nat} {x : Eval α} (hx : Reaches limit h x) :
    Reaches limit h (inFrame x) := by
  intro m hm
  obtain ⟨a, m₁, e, hd, hx⟩ := hx { m with env := m.env.push } hm
  exact ⟨a, _, inFrame_eq_some_iff.2 ⟨m₁, e, rfl⟩, hd, hx⟩

/-- One level deeper, the limit is one level nearer. -/
theorem reaches_limited {h line : Nat} {x : Eval Value} (hx : Reaches limit h x) :
    Reaches limit (h + 1) (limited limit line x) := by
  intro m hm
  rw [limited_apply]
  split
  · next he => exact ⟨_, m, rfl, rfl, iff_of_true he (.inl he)⟩
  split
  · exact ⟨_, _, rfl, m.depth_emit _, iff_of_true rfl (.inr (by omega))⟩
  · next hl =>
    obtain ⟨v, m₁, e, hd, hx⟩ := hx { m with depth := m.depth + 1 } (by simp only; omega)
    refine ⟨v, _, deeper_eq_some_iff.2 ⟨m₁, e, rfl⟩, by simp only [hd, Nat.add_sub_cancel], ?_⟩
    rw [hx]
    exact or_congr_right (by simp only; omega)

section

variable {ev : Node → Eval Value}

theorem reaches_all {ns : List Node} (h : ∀ n ∈ ns, Reaches limit n.height (ev n)) :
    Reaches limit (Node.allHeight ns) (all ev ns) := by
  induction ns with
  | nil => exact reaches_pure _
  | cons n ns ih =>
    rw [List.forall_mem_cons] at h
    exact reaches_bind h.1 fun v => reaches_before (ih h.2) fun vs => reaches_pure (v :: vs)

theorem reaches_sequence {ns : List Node} (h : ∀ n ∈ ns, Reaches limit n.height (ev n))
    (last : Value) : Reaches limit (Node.allHeight ns) (sequence ev last ns) := by
  induction ns generalizing last with
  | nil => exact reaches_pure _
  | cons n ns ih =>
    rw [List.forall_mem_cons] at h
    exact reaches_bind h.1 fun v => reaches_after (reaches_set previousName v) fun _ => ih h.2 v

theorem reaches_statements {ns : List Node} (h : ∀ n ∈ ns, Reaches limit n.height (ev n)) :
    Reaches limit (Node.allHeight ns) (statements ev ns) :=
  reaches_after (reaches_set previousName .nothing) fun _ => reaches_sequence h .nothing

theorem reaches_collection (line : Nat) (vs : List Value) :
    Reaches limit 0 (collection line vs) := by
  unfold collection
  split
  · exact reaches_pure _
  split
  · exact reaches_pure _
  · exact reaches_after (reaches_report _ _) fun _ => reaches_pure _

theorem reaches_mapping {pairs : List (Node × Node)}
    (h : ∀ p ∈ pairs, p.1.key?.isSome ∧ Reaches limit p.2.height (ev p.2))
    (entries : Table Value) :
    Reaches limit (Node.entryHeight pairs) (mapping ev entries pairs) := by
  induction pairs generalizing entries with
  | nil => exact reaches_pure _
  | cons p pairs ih =>
    obtain ⟨⟨hk, hv⟩, h⟩ := List.forall_mem_cons.1 h
    obtain ⟨name, hk⟩ := Option.isSome_iff_exists.1 hk
    unfold mapping
    rw [hk]
    exact reaches_bind hv fun v => ih h _

theorem reaches_reference (fuel : Nat) (name : String) (line : Nat) :
    Reaches limit 0 (node ev fuel (.reference name line)) := by
  have found : Reaches limit 0 (lookup name) := reaches_zero fun m => ⟨_, m, rfl, rfl, rfl⟩
  refine reaches_after found fun r => ?_
  cases r with
  | ok v => exact reaches_pure v
  | error e => exact reaches_after (reaches_report _ _) fun _ => reaches_pure _

end

/-- The evaluation of a tree without calls reaches the limit exactly if its height goes beyond. -/
theorem reaches_evaluate {fuel : Nat} {n : Node} (hn : n.isCallFree = true)
    (hf : n.height ≤ fuel) : Reaches limit n.height (evaluate limit fuel n) := by
  induction fuel generalizing n with
  | zero => exact absurd hf (Nat.not_le_of_lt n.height_pos)
  | succ fuel ih =>
    rw [evaluate_succ]
    cases n with
    | literal value line => exact reaches_limited (reaches_pure _)
    | reference name line => exact reaches_limited (reaches_reference fuel name line)
    | call head args line => cases hn
    | scope body line =>
      have parts : ∀ n ∈ body, Reaches limit n.height (evaluate limit fuel n) := fun n hb =>
        ih (Node.isCallFree_scope hn n hb)
          ((Node.height_le_allHeight hb).trans (Nat.le_of_succ_le_succ hf))
      exact reaches_limited (reaches_inFrame (reaches_statements parts))
    | collection items line =>
      have parts : ∀ n ∈ items, Reaches limit n.height (evaluate limit fuel n) := fun n hi =>
        ih (Node.isCallFree_collection hn n hi)
          ((Node.height_le_allHeight hi).trans (Nat.le_of_succ_le_succ hf))
      exact reaches_limited (reaches_before (reaches_all parts) fun vs =>
        reaches_collection line vs)
    | mapping pairs line =>
      have parts : ∀ p ∈ pairs,
          p.1.key?.isSome ∧ Reaches limit p.2.height (evaluate limit fuel p.2) := fun p hp =>
        have entry := Node.isCallFree_mapping hn p hp
        ⟨entry.1, ih entry.2
          ((Node.height_le_entryHeight hp).trans (Nat.le_of_succ_le_succ hf))⟩
      exact reaches_limited (reaches_mapping parts [])

end Eval

/-! ## What is shown below the limit -/

def Eval.note : Option String → Eval Unit
  | some text => print text
  | none => return ()

/-- Evaluation that prints a note, if it is given one, at every node that it evaluates. -/
def evaluateNoting (note : Node → Option String) (limit : Nat) : Nat → Node → Eval Value
  | 0, _ => Eval.outOfFuel
  | fuel + 1, n => Eval.limited limit n.line do
      Eval.note (note n)
      Eval.node (evaluateNoting note limit fuel) fuel n

theorem evaluateNoting_none (limit fuel : Nat) :
    evaluateNoting (fun _ => none) limit fuel = evaluate limit fuel := by
  induction fuel with
  | zero => rfl
  | succ fuel ih =>
    funext n
    rw [evaluate_succ, ← ih]
    rfl

end

namespace Environment

def binds (e : Environment) (name : String) : Bool :=
  (e.get? name).isSome

theorem binds_set (e : Environment) (name : String) (v : Value) :
    (e.set name v).binds = fun other => other == name || e.binds other := by
  funext other
  by_cases h : other = name
  · simp [binds, h]
  · simp [binds, get?_set_of_ne h, h]

theorem binds_set_of_bound {e : Environment} {name : String} (h : e.binds name = true) (v : Value) :
    (e.set name v).binds = e.binds := by
  rw [binds_set]
  funext other
  by_cases ho : other = name
  · simp [ho, h]
  · simp [ho]

end Environment

namespace Diagnostic

/-- The name that was not found, and the line. -/
def notFound? : Diagnostic → Option (String × Nat)
  | eval (.notFound name) line => some (name, line)
  | _ => none

def isMixed : Diagnostic → Bool
  | eval (.mixedCollection _ _) _ => true
  | _ => false

/-- Diagnostics of the names that were not found, in their order, and of collections of several
kinds. -/
def Account (ds : List Diagnostic) (names : List (String × Nat)) : Prop :=
  ds.filterMap notFound? = names ∧ ∀ d ∈ ds, d.notFound?.isSome ∨ d.isMixed = true

theorem account_nil : Account [] [] :=
  ⟨rfl, List.forall_mem_nil _⟩

theorem Account.append {ds ds' : List Diagnostic} {names names' : List (String × Nat)}
    (h : Account ds names) (h' : Account ds' names') : Account (ds ++ ds') (names ++ names') :=
  ⟨by rw [List.filterMap_append, h.1, h'.1], List.forall_mem_append.2 ⟨h.2, h'.2⟩⟩

end Diagnostic

namespace Eval

variable [Generator] {α β : Type} {limit height : Nat} {e e₁ e₂ : Environment}

/-- A computation that, among the frames of `e` and if it may go `height` nodes deeper, gives `a`,
shows the diagnostics `ds` and the lines `ps`, leaves the frames of `e'`, and changes nothing
else. -/
def Shows (limit height : Nat) (e : Environment) (x : Eval α) (a : α) (e' : Environment)
    (ds : List Diagnostic) (ps : List String) : Prop :=
  ∀ m : Machine, m.env = e → m.exhausted = false → m.depth + height ≤ limit →
    ∃ es : List Event, x m = some (a, { m with env := e', trace := es.reverse ++ m.trace }) ∧
      es.filterMap Event.diagnostic? = ds ∧ es.filterMap Event.printed? = ps

theorem shows_of_eq {x : Eval α} {a : α}
    (h : ∀ m, m.env = e → x m = some (a, { m with env := e₁ })) :
    Shows limit height e x a e₁ [] [] :=
  fun m hm _ _ => ⟨[], h m hm, rfl, rfl⟩

theorem shows_pure (a : α) : Shows limit height e (pure a) a e [] [] :=
  shows_of_eq fun m hm => by rw [← hm]; rfl

theorem shows_set (name : String) (v : Value) :
    Shows limit height e (set name v) () (e.set name v) [] [] :=
  shows_of_eq fun m hm => by rw [← hm]; rfl

theorem shows_lookup (name : String) :
    Shows limit height e (lookup name) (e.lookup name) e [] [] :=
  shows_of_eq fun m hm => by rw [← hm]; rfl

theorem shows_report (line : Nat) (err : EvalError) :
    Shows limit height e (report line err) () e [.eval err line] [] := by
  rintro m rfl hm -
  exact ⟨[.report (.eval err line)], congrArg (fun m => some ((), m)) (m.emit_of_below hm _), rfl,
    rfl⟩

theorem shows_note (text? : Option String) :
    Shows limit height e (note text?) () e [] text?.toList := by
  cases text? with
  | none => exact shows_pure ()
  | some text =>
    rintro m rfl hm -
    exact ⟨[.print text], congrArg (fun m => some ((), m)) (m.emit_of_below hm _), rfl, rfl⟩

variable {ds ds' : List Diagnostic} {ps ps' : List String}

theorem Shows.mono {height' : Nat} {x : Eval α} {a : α} (h : Shows limit height e x a e₁ ds ps)
    (hl : height ≤ height') : Shows limit height' e x a e₁ ds ps :=
  fun m he hm hd => h m he hm (by omega)

theorem Shows.bind {x : Eval α} {f : α → Eval β} {a : α} {b : β}
    (hx : Shows limit height e x a e₁ ds ps) (hf : Shows limit height e₁ (f a) b e₂ ds' ps') :
    Shows limit height e (x >>= f) b e₂ (ds ++ ds') (ps ++ ps') := by
  intro m he hm hd
  obtain ⟨es, hx, hds, hps⟩ := hx m he hm hd
  obtain ⟨es', hf, hds', hps'⟩ := hf { m with env := e₁, trace := es.reverse ++ m.trace } rfl hm hd
  refine ⟨es ++ es', bind_eq_some_iff.2 ⟨a, _, hx, ?_⟩, ?_, ?_⟩
  · rw [hf, List.reverse_append, List.append_assoc]
  · rw [List.filterMap_append, hds, hds']
  · rw [List.filterMap_append, hps, hps']

theorem Shows.inFrame {x : Eval α} {a : α} (h : Shows limit height e.push x a e₁ ds ps) :
    Shows limit height e (inFrame x) a e₁.pop ds ps := by
  rintro m rfl hm hd
  obtain ⟨es, hx, shown⟩ := h { m with env := m.env.push } rfl hm hd
  exact ⟨es, inFrame_eq_some_iff.2 ⟨_, hx, rfl⟩, shown⟩

theorem Shows.limited {x : Eval Value} {v : Value} (h : Shows limit height e x v e₁ ds ps)
    (line : Nat) : Shows limit (height + 1) e (limited limit line x) v e₁ ds ps := by
  intro m he hm hd
  rw [limited_of_below hm (by omega)]
  obtain ⟨es, hx, shown⟩ := h { m with depth := m.depth + 1 } he hm (by simp only; omega)
  exact ⟨es, deeper_eq_some_iff.2 ⟨_, hx, rfl⟩, shown⟩

/-- A computation that is told what to note and how deep it may go, and shows an account of `names`
and a note for every node of `ns`. -/
def Accounted (height : Nat) (ns : List Node) (names : List (String × Nat)) (e : Environment)
    (x : (Node → Option String) → Nat → Nat → Eval α) (P : α → Environment → Prop) : Prop :=
  ∃ a e₁ ds, P a e₁ ∧ Diagnostic.Account ds names ∧ ∀ note limit fuel, height ≤ fuel →
    Shows limit height e (x note limit fuel) a e₁ ds (ns.filterMap note)

section

variable {ns ns' : List Node} {names names' : List (String × Nat)} {height' : Nat}
  {P : α → Environment → Prop} {Q : β → Environment → Prop}
  {x : (Node → Option String) → Nat → Nat → Eval α}
  {f : (Node → Option String) → Nat → Nat → α → Eval β}

/-- What evaluates no node and notes nothing. -/
theorem accounted_of_shows {x : Eval α} {a : α} {ds : List Diagnostic} (hP : P a e₁)
    (hd : Diagnostic.Account ds names) (h : ∀ limit, Shows limit 0 e x a e₁ ds []) :
    Accounted 0 [] names e (fun _ _ _ => x) P :=
  ⟨a, e₁, ds, hP, hd, fun _ limit _ _ => h limit⟩

theorem Accounted.mono (h : Accounted height ns names e x P) {P' : α → Environment → Prop}
    (hP : ∀ a e₁, P a e₁ → P' a e₁) : Accounted height ns names e x P' :=
  have ⟨a, e₁, ds, ha, shown⟩ := h
  ⟨a, e₁, ds, hP a e₁ ha, shown⟩

theorem Accounted.bind (hx : Accounted height ns names e x P)
    (hf : ∀ a e₁, P a e₁ →
      Accounted height' ns' names' e₁ (fun note limit fuel => f note limit fuel a) Q) :
    Accounted (max height height') (ns ++ ns') (names ++ names') e
      (fun note limit fuel => x note limit fuel >>= f note limit fuel) Q := by
  obtain ⟨a, e₁, ds, ha, account, hx⟩ := hx
  obtain ⟨b, e₂, ds', hb, account', hf⟩ := hf a e₁ ha
  refine ⟨b, e₂, ds ++ ds', hb, account.append account', fun note limit fuel hl => ?_⟩
  have first := (hx note limit fuel (by omega)).mono (Nat.le_max_left height height')
  have second := (hf note limit fuel (by omega)).mono (Nat.le_max_right height height')
  rw [List.filterMap_append]
  exact first.bind second

/-- The first of two computations evaluates no node. -/
theorem Accounted.after (hx : Accounted 0 [] [] e x P)
    (hf : ∀ a e₁, P a e₁ →
      Accounted height ns names e₁ (fun note limit fuel => f note limit fuel a) Q) :
    Accounted height ns names e (fun note limit fuel => x note limit fuel >>= f note limit fuel)
      Q := by
  have whole := hx.bind hf
  rwa [Nat.zero_max] at whole

/-- The second of two computations evaluates no node. -/
theorem Accounted.before (hx : Accounted height ns names e x P)
    (hf : ∀ a e₁, P a e₁ →
      Accounted 0 [] [] e₁ (fun note limit fuel => f note limit fuel a) Q) :
    Accounted height ns names e (fun note limit fuel => x note limit fuel >>= f note limit fuel)
      Q := by
  have whole := hx.bind hf
  rwa [Nat.max_zero, List.append_nil, List.append_nil] at whole

theorem Accounted.inFrame (h : Accounted height ns names e.push x P) :
    Accounted height ns names e (fun note limit fuel => inFrame (x note limit fuel))
      fun a e₁ => ∃ e₂, P a e₂ ∧ e₁ = e₂.pop :=
  have ⟨a, e₁, ds, ha, account, h⟩ := h
  ⟨a, e₁.pop, ds, ⟨e₁, ha, rfl⟩, account, fun note limit fuel hl => (h note limit fuel hl).inFrame⟩

end

end Eval

/-- Evaluating the node in the frames `e` shows an account of the names in it that are not bound and
a note for every node of it, and leaves the frames as they are. -/
def Node.Accounted [Generator] (n : Node) (e : Environment) : Prop :=
  Eval.Accounted n.height n.nodes (n.unbound e.binds) e
    (fun note limit fuel => evaluateNoting note limit fuel n) fun _ e₁ => e₁ = e

namespace Eval

variable [Generator] {e : Environment}

/-- A node is evaluated one level above its parts, and noted before them. -/
theorem Accounted.node {height : Nat} {n : Node} {ns : List Node} {names : List (String × Nat)}
    {P : Value → Environment → Prop}
    (h : Accounted height ns names e
      (fun note limit fuel => Eval.node (evaluateNoting note limit fuel) fuel n) P) :
    Accounted (height + 1) (n :: ns) names e
      (fun note limit fuel => evaluateNoting note limit fuel n) P := by
  obtain ⟨v, e₁, ds, hv, account, h⟩ := h
  refine ⟨v, e₁, ds, hv, account, fun note limit fuel hl => ?_⟩
  obtain ⟨fuel, rfl⟩ := Nat.exists_eq_add_of_lt hl
  have parts := h note limit (height + fuel) (Nat.le_add_right height fuel)
  have whole := ((shows_note (note n)).bind (f := fun _ => Eval.node _ _ n) parts).limited n.line
  have noted : (n :: ns).filterMap note = (note n).toList ++ ns.filterMap note := by
    rw [List.filterMap_cons]
    cases note n <;> rfl
  rw [noted]
  exact whole

theorem accounted_reference (name : String) (line : Nat) :
    (Node.reference name line).Accounted e := by
  refine Accounted.node ?_
  have found : Accounted 0 [] [] e (fun _ _ _ => lookup name)
      fun r e₁ => r = e.lookup name ∧ e₁ = e :=
    accounted_of_shows ⟨rfl, rfl⟩ Diagnostic.account_nil fun _ => shows_lookup name
  refine found.after ?_
  rintro _ e ⟨rfl, rfl⟩
  unfold Node.unbound Environment.binds Environment.lookup
  cases e.get? name with
  | some v => exact accounted_of_shows rfl Diagnostic.account_nil fun _ => shows_pure v
  | none =>
    have account : Diagnostic.Account [.eval (.notFound name) line] [(name, line)] :=
      ⟨rfl, fun d hd => .inl (List.mem_singleton.1 hd ▸ rfl)⟩
    exact accounted_of_shows rfl account fun _ => (shows_report line _).bind (shows_pure _)

theorem accounted_all {ns : List Node} (h : ∀ n ∈ ns, n.Accounted e) :
    Accounted (Node.allHeight ns) (Node.allNodes ns) (Node.allUnbound e.binds ns) e
      (fun note limit fuel => all (evaluateNoting note limit fuel) ns) fun _ e₁ => e₁ = e := by
  induction ns with
  | nil => exact accounted_of_shows rfl Diagnostic.account_nil fun _ => shows_pure _
  | cons n ns ih =>
    rw [List.forall_mem_cons] at h
    refine Accounted.bind h.1 ?_
    rintro v _ rfl
    refine (ih h.2).before ?_
    rintro vs _ rfl
    exact accounted_of_shows rfl Diagnostic.account_nil fun _ => shows_pure _

theorem accounted_collection (line : Nat) (vs : List Value) :
    Accounted 0 [] [] e (fun _ _ _ => collection line vs) fun _ e₁ => e₁ = e := by
  unfold collection
  split
  · exact accounted_of_shows rfl Diagnostic.account_nil fun _ => shows_pure _
  split
  · exact accounted_of_shows rfl Diagnostic.account_nil fun _ => shows_pure _
  · next v _ _ w _ =>
    have account : Diagnostic.Account [.eval (.mixedCollection v.kind w.kind) line] [] :=
      ⟨rfl, fun d hd => .inr (List.mem_singleton.1 hd ▸ rfl)⟩
    exact accounted_of_shows rfl account fun _ => (shows_report line _).bind (shows_pure _)

theorem accounted_mapping {pairs : List (Node × Node)}
    (h : ∀ p ∈ pairs, p.1.key?.isSome ∧ p.2.Accounted e) (entries : Table Value) :
    Accounted (Node.entryHeight pairs) (Node.entryNodes pairs) (Node.entryUnbound e.binds pairs) e
      (fun note limit fuel => mapping (evaluateNoting note limit fuel) entries pairs)
      fun _ e₁ => e₁ = e := by
  induction pairs generalizing entries with
  | nil => exact accounted_of_shows rfl Diagnostic.account_nil fun _ => shows_pure _
  | cons p pairs ih =>
    obtain ⟨⟨hk, hv⟩, h⟩ := List.forall_mem_cons.1 h
    obtain ⟨name, hk⟩ := Option.isSome_iff_exists.1 hk
    unfold mapping
    rw [hk]
    refine Accounted.bind hv ?_
    rintro v _ rfl
    exact ih h _

/-- Statements change the previous result in the innermost frame, which is bound from the start. -/
theorem accounted_sequence {ns : List Node} (h : ∀ n ∈ ns, ∀ e, n.Accounted e)
    (hb : e.binds previousName = true) (last : Value) :
    Accounted (Node.allHeight ns) (Node.allNodes ns) (Node.allUnbound e.binds ns) e
      (fun note limit fuel => sequence (evaluateNoting note limit fuel) last ns)
      fun _ e₁ => e₁.outer = e.outer := by
  induction ns generalizing e last with
  | nil => exact accounted_of_shows rfl Diagnostic.account_nil fun _ => shows_pure _
  | cons n ns ih =>
    rw [List.forall_mem_cons] at h
    refine Accounted.bind (h.1 e) ?_
    rintro v e rfl
    have kept : Accounted 0 [] [] e (fun _ _ _ => set previousName v)
        fun _ e₁ => e₁ = e.set previousName v :=
      accounted_of_shows rfl Diagnostic.account_nil fun _ => shows_set previousName v
    refine kept.after ?_
    rintro _ _ rfl
    have same := Environment.binds_set_of_bound hb v
    rw [← same]
    exact ih h.2 (by rw [same, hb]) v

theorem accounted_scope {body : List Node} (h : ∀ n ∈ body, ∀ e, n.Accounted e) (line : Nat) :
    (Node.scope body line).Accounted e := by
  have bound : (e.push.set previousName .nothing).binds =
      fun name => name == previousName || e.binds name := Environment.binds_set _ _ _
  have started : Accounted 0 [] [] e.push (fun _ _ _ => set previousName .nothing)
      fun _ e₁ => e₁ = e.push.set previousName .nothing :=
    accounted_of_shows rfl Diagnostic.account_nil fun _ => shows_set previousName .nothing
  have run : Accounted (Node.allHeight body) (Node.allNodes body)
      (Node.allUnbound (fun name => name == previousName || e.binds name) body) e.push
      (fun note limit fuel => statements (evaluateNoting note limit fuel) body)
      fun _ e₁ => e₁.outer = e.frames := by
    refine started.after ?_
    rintro _ _ rfl
    rw [← bound]
    exact accounted_sequence h (by rw [bound]; rfl) .nothing
  refine Accounted.node (run.inFrame.mono ?_)
  rintro v _ ⟨e₂, outer, rfl⟩
  exact Environment.pop_eq_of_outer outer

/-- Every tree without calls is accounted for. -/
theorem accounted_of_isCallFree {n : Node} (hn : n.isCallFree = true) (e : Environment) :
    n.Accounted e := by
  induction n using Node.induction generalizing e with
  | literal value line =>
    exact Accounted.node (accounted_of_shows rfl Diagnostic.account_nil fun _ => shows_pure _)
  | reference name line => exact accounted_reference name line
  | call head args line => cases hn
  | scope body line ih =>
    exact accounted_scope (fun n hb => ih n hb (Node.isCallFree_scope hn n hb)) line
  | collection items line ih =>
    have parts := accounted_all fun n hi => ih n hi (Node.isCallFree_collection hn n hi) e
    refine Accounted.node (parts.before ?_)
    rintro vs _ rfl
    exact accounted_collection line vs
  | mapping pairs line ih =>
    refine Accounted.node (accounted_mapping (fun p hp => ?_) [])
    have entry := Node.isCallFree_mapping hn p hp
    exact ⟨entry.1, (ih p hp).2 entry.2 e⟩

end Eval

/-! ## Reports of the limit -/

/-- From `m` to `m'` events are added, and one of them reports the limit exactly if it is reached
between the two. -/
def Machine.Records [Generator] (m m' : Machine) : Prop :=
  ∃ es : List Event, m'.trace = es.reverse ++ m.trace ∧
    m'.exhausted = (m.exhausted || es.any Event.isLimit)

namespace Machine

variable [Generator]

theorem Records.of_eq {m m' : Machine} (ht : m'.trace = m.trace)
    (hx : m'.exhausted = m.exhausted) : m.Records m' :=
  ⟨[], ht, by rw [hx, List.any_nil, Bool.or_false]⟩

theorem Records.trans {m₁ m₂ m₃ : Machine} (h₁ : m₁.Records m₂) (h₂ : m₂.Records m₃) :
    m₁.Records m₃ := by
  obtain ⟨es, ht, hx⟩ := h₁
  obtain ⟨es', ht', hx'⟩ := h₂
  refine ⟨es ++ es', ?_, ?_⟩
  · rw [ht', ht, List.reverse_append, List.append_assoc]
  · rw [hx', hx, List.any_append, Bool.or_assoc]

theorem records_emit {m : Machine} {e : Event} (he : e.isLimit = false) : m.Records (m.emit e) := by
  unfold Machine.emit
  split
  · exact .of_eq rfl rfl
  · exact ⟨[e], rfl, by rw [List.any_cons, he, List.any_nil, Bool.or_false, Bool.or_false]⟩

theorem lawful_records : Lawful Records where
  refl m := .of_eq rfl rfl
  trans := Records.trans
  report m e line he := records_emit he
  print m text := records_emit rfl
  set m name v := .of_eq rfl rfl
  assign m _ _ _ _ _ := .of_eq rfl rfl
  draw m random := .of_eq rfl rfl
  freshId m nextId := .of_eq rfl rfl
  frame h := h
  deeper h := h
  exhaust m limit line hx :=
    ⟨[.report (.eval (.depthLimit limit) line)], congrArg Machine.trace (m.emit_of_below hx _),
      by rw [hx]; rfl⟩

end Machine

theorem Event.eq_map_report {es : List Event} (h : es.filterMap printed? = []) :
    es = (es.filterMap diagnostic?).map report := by
  induction es with
  | nil => rfl
  | cons e es ih =>
    cases e with
    | print text => cases h
    | report d => exact congrArg (report d :: ·) (ih h)

/-- **The depth of a tree without calls is its height**: its evaluation ends, and reports the limit
exactly if its height goes beyond. Below the limit it changes nothing else, and shows one report for
every name that is not bound, in the order of the text, and those of collections of several kinds.
Every node is evaluated once: evaluation that prints a note at each prints those of all nodes, in
their order, and is otherwise the same. -/
theorem evaluate_callFree [Generator] {n : Node} (hn : n.isCallFree = true) {limit : Nat}
    {m : Machine} (hd : m.depth ≤ limit) (hx : m.exhausted = false) :
    ∃ v m' es, n.EvaluatesTo limit m v m' ∧ m'.trace = es.reverse ++ m.trace ∧
      ((∃ e ∈ es, e.isLimit = true) ↔ limit < m.depth + n.height) ∧
      (m.depth + n.height ≤ limit → ∃ ds, es = ds.map .report ∧
        m' = { m with trace := es.reverse ++ m.trace } ∧
        Diagnostic.Account ds (n.unbound m.env.binds) ∧
        ∀ note : Node → String, ∃ noted : List Event,
          evaluateNoting (fun k => some (note k)) limit n.height n m =
            some (v, { m with trace := noted.reverse ++ m.trace }) ∧
          noted.filterMap Event.printed? = n.nodes.map note ∧
          noted.filterMap Event.diagnostic? = ds) := by
  obtain ⟨v, m', e, -, reached⟩ :=
    Eval.reaches_evaluate hn (Nat.le_refl n.height) m hd
  obtain ⟨es, trace, exhausted⟩ := Machine.lawful_records.evaluate e
  refine ⟨v, m', es, ⟨_, e⟩, trace, ?_, fun below => ?_⟩
  · rw [hx, Bool.false_or] at exhausted
    rw [← List.any_eq_true, ← exhausted, reached, hx]
    exact or_iff_right Bool.false_ne_true
  · obtain ⟨w, _, ds, rfl, account, shows⟩ := Eval.accounted_of_isCallFree hn m.env
    obtain ⟨es', e', hds, hps⟩ := shows (fun _ => none) limit n.height le_rfl m rfl hx below
    simp only [evaluateNoting_none, e] at e'
    obtain ⟨rfl, rfl⟩ := Prod.mk.inj (Option.some.inj e')
    obtain rfl : es = es' := List.reverse_inj.1 (List.append_cancel_right trace).symm
    have silent : es.filterMap Event.printed? = [] := by simpa using hps
    refine ⟨ds, hds ▸ Event.eq_map_report silent, rfl, account, fun note => ?_⟩
    obtain ⟨noted, e', hds, hps⟩ :=
      shows (fun k => some (note k)) limit n.height le_rfl m rfl hx below
    exact ⟨noted, e', hps.trans (congrFun List.filterMap_eq_map' n.nodes), hds⟩

open scoped Sigil.Random

/-- A scope with the previous result, a collection of two kinds with an unknown name, and a mapping
with an empty scope and a second value for the same key, under its height and one below. -/
theorem evaluate_callFree_nested :
    let m := (({} : Config).interpreter (Generator.ofSeed 0)).machine []
    let n := Node.scope [.reference "^" 1,
      .collection [.literal (.number 1) 2, .reference "x" 2] 2,
      .mapping [(.reference "k" 3, .scope [] 3), (.literal (.string "k") 4, .reference "y" 5)] 3] 1
    n.isCallFree = true ∧ n.height = 3 ∧ m.depth = 0 ∧ m.exhausted = false ∧
    n.unbound m.env.binds = [("x", 2), ("y", 5)] ∧
    (∃ v m', n.EvaluatesTo 2 m v m' ∧ ∃ e ∈ m'.trace, e.isLimit = true) ∧
    ∃ v ds, n.EvaluatesTo 3 m v { m with trace := (ds.map Event.report).reverse } ∧
      Diagnostic.Account ds [("x", 2), ("y", 5)] := by
  intro m n
  have callFree : n.isCallFree = true := rfl
  have unbound : n.unbound m.env.binds = [("x", 2), ("y", 5)] := by decide +kernel
  refine ⟨callFree, rfl, rfl, rfl, unbound, ?_, ?_⟩
  · obtain ⟨v, m', es, e, trace, limit, -⟩ :=
      evaluate_callFree callFree (show m.depth ≤ 2 from Nat.zero_le 2) rfl
    obtain ⟨event, he, hl⟩ := limit.2 (by decide)
    exact ⟨v, m', e, event, trace ▸ List.mem_append_left _ (List.mem_reverse.2 he), hl⟩
  · obtain ⟨v, m', es, e, -, -, shown⟩ :=
      evaluate_callFree callFree (show m.depth ≤ 3 from Nat.zero_le 3) rfl
    obtain ⟨ds, rfl, rfl, account, -⟩ := shown (by decide)
    exact ⟨v, ds, (List.append_nil (ds.map Event.report).reverse) ▸ e, unbound ▸ account⟩

end Sigil
