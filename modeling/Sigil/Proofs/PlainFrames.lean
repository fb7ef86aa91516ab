import Sigil.Proofs.Fuel
import Sigil.Proofs.References

/-!
# Plain frames

Source text cannot name the builtin operators but to call them: its references are words, and the
symbols of the builtin operators are keys. So every frame over the outermost binds words only, to
values without builtin operators (`Environment.Plain`), and a builtin operator is called only by a
call headed by its symbol.

A `Contract` says more of the values that are bound, of what an evaluation does to the machine, and
of where it ends. Statements and nodes keep to a contract if their parts do, and then `evaluate`
does (`Contract.Closed.evaluate`), provided the builtin operators that make values of their own,
assign or use up fuel keep to it wherever they are called.
-/

namespace Sigil

/-- What source text leads to: references to words, and no builtin operator as a value. -/
def Vocabulary.source : Vocabulary where
  node n := n.Refers fun s => isKeyName s = false
  name s := isKeyName s = false
  callee _ := True
  line _ := True
  fault e := e.isLimit = false
  builtin _ := False
  name_previous := by decide
  fault_operator := EvalError.isLimit_of_ofOperator
  line_node _ := trivial
  name_reference h := h _ List.mem_cons_self
  callee_head _ _ := trivial
  node_head h hn s hs := h s (by simp [Node.references, hn, hs])
  node_arg h n hn s hs := h s (by
    rw [Node.references, List.mem_append, Node.mem_allReferences]
    exact .inr ⟨n, hn, hs⟩)
  node_statement h n hn s hs := h s (Node.mem_allReferences.2 ⟨n, hn, hs⟩)
  node_item h n hn s hs := h s (Node.mem_allReferences.2 ⟨n, hn, hs⟩)
  line_key _ _ _ := trivial
  fault_key _ _ _ _ := rfl
  node_entry h p hp s hs := h s (Node.mem_entryReferences.2 ⟨p, hp, hs⟩)

theorem Vocabulary.source_value {v : Value} (h : source.value v) (b : Builtin) :
    .builtin b ∉ v.operators :=
  fun hb => h _ hb

theorem Builtin.isKeyName_symbol (b : Builtin) : isKeyName b.symbol = true := by
  cases b with
  | fold op => cases op <;> decide
  | compare rel => cases rel <;> decide
  | print | choose | loop | random | define | assign | function | increment | decrement
  | magnitude | sign | not | every | any | length | range => decide

namespace Environment

variable {G : Value → Prop}

/-- Words bound to values of `G`. -/
def PlainFrame (G : Value → Prop) (f : Frame) : Prop :=
  ∀ p ∈ f, isKeyName p.1 = false ∧ G p.2

/-- `k` plain frames over the builtin one. -/
def PlainFrames (G : Value → Prop) (k : Nat) (fs : List Frame) : Prop :=
  ∃ gs, fs = gs ++ [builtins] ∧ gs.length = k ∧ ∀ g ∈ gs, PlainFrame G g

theorem mem_builtins {name : String} {v : Value} (h : (name, v) ∈ builtins) :
    ∃ b : Builtin, name = b.symbol ∧ v = .operator (.builtin b) := by
  obtain ⟨b, -, e⟩ := List.mem_map.1 h
  cases e
  exact ⟨b, rfl, rfl⟩

theorem get?_builtins {name : String} (h : isKeyName name = false) :
    Table.get? name builtins = none := by
  cases hv : Table.get? name builtins with
  | none => rfl
  | some v =>
    obtain ⟨b, rfl, -⟩ := mem_builtins (Table.mem_of_get? hv)
    rw [b.isKeyName_symbol] at h
    cases h

theorem get?_builtins_symbol (b : Builtin) :
    Table.get? b.symbol builtins = some (.operator (.builtin b)) := by
  cases b with
  | fold op => cases op <;> rfl
  | compare rel => cases rel <;> rfl
  | print | choose | loop | random | define | assign | function | increment | decrement
  | magnitude | sign | not | every | any | length | range => rfl

theorem plainFrame_insert {f : Frame} (hf : PlainFrame G f) {name : String} {v : Value}
    (hn : isKeyName name = false) (hv : G v) : PlainFrame G (Table.insert name v f) := by
  intro p hp
  rcases Table.mem_insert hp with rfl | hp
  · exact ⟨hn, hv⟩
  · exact hf p hp

theorem mem_of_find? {name : String} {v : Value} {fs : List Frame}
    (h : find? name fs = some v) : ∃ f ∈ fs, (name, v) ∈ f := by
  induction fs with
  | nil => cases h
  | cons f fs ih =>
    unfold find? at h
    split at h
    · next hf => cases h; exact ⟨f, List.mem_cons_self, Table.mem_of_get? hf⟩
    · obtain ⟨g, hg, hv⟩ := ih h
      exact ⟨g, List.mem_cons_of_mem _ hg, hv⟩

/-- What a name is bound to: a value of the program, or the builtin operator with that symbol. -/
theorem PlainFrames.find? {k : Nat} {fs : List Frame} (h : PlainFrames G k fs) {name : String}
    {v : Value} (hv : Environment.find? name fs = some v) :
    G v ∨ ∃ b : Builtin, name = b.symbol ∧ v = .operator (.builtin b) := by
  obtain ⟨gs, rfl, -, hg⟩ := h
  obtain ⟨f, hf, hm⟩ := mem_of_find? hv
  rcases List.mem_append.1 hf with hf | hf
  · exact .inl (hg f hf _ hm).2
  · rw [List.mem_singleton.1 hf] at hm
    exact .inr (mem_builtins hm)

theorem PlainFrames.cons {k : Nat} {f : Frame} {fs : List Frame} (hf : PlainFrame G f)
    (h : PlainFrames G k fs) : PlainFrames G (k + 1) (f :: fs) := by
  obtain ⟨gs, rfl, rfl, hg⟩ := h
  exact ⟨f :: gs, rfl, rfl, List.forall_mem_cons.2 ⟨hf, hg⟩⟩

theorem PlainFrames.of_cons {k : Nat} {f : Frame} {fs : List Frame}
    (h : PlainFrames G (k + 1) (f :: fs)) : PlainFrame G f ∧ PlainFrames G k fs := by
  obtain ⟨_ | ⟨g, gs⟩, e, hl, hg⟩ := h
  · cases hl
  · cases e
    exact ⟨hg _ List.mem_cons_self, gs, rfl, Nat.succ.inj hl, (List.forall_mem_cons.1 hg).2⟩

/-- An assignment to a word stops short of the builtin frame. -/
theorem PlainFrames.replace? {name : String} {v old : Value} (hn : isKeyName name = false)
    (hv : G v) {k : Nat} {fs gs : List Frame} (h : PlainFrames G k fs)
    (e : Environment.replace? name v fs = some (old, gs)) : G old ∧ PlainFrames G k gs := by
  induction k generalizing fs gs with
  | zero =>
    obtain ⟨_ | ⟨g, gs'⟩, rfl, hl, -⟩ := h
    · simp [Environment.replace?, get?_builtins hn] at e
    · cases hl
  | succ k ih =>
    cases fs with
    | nil => cases e
    | cons f fs =>
      obtain ⟨hf, hfs⟩ := h.of_cons
      unfold Environment.replace? at e
      split at e
      · next ho =>
        cases e
        exact ⟨(hf _ (Table.mem_of_get? ho)).2, .cons (plainFrame_insert hf hn hv) hfs⟩
      · obtain ⟨⟨_, gs'⟩, hr, e⟩ := Option.map_eq_some_iff.1 e
        cases e
        obtain ⟨ho, hg⟩ := ih hfs hr
        exact ⟨ho, .cons hf hg⟩

/-- `k` plain frames between the innermost, which is plain too, and the builtin one. -/
def Plain (G : Value → Prop) (k : Nat) (e : Environment) : Prop :=
  PlainFrames G (k + 1) e.frames

theorem plain_initial : initial.Plain G 0 :=
  ⟨[[]], rfl, rfl, fun f hf => by rw [List.mem_singleton.1 hf]; exact List.forall_mem_nil _⟩

theorem Plain.depth {k : Nat} {e : Environment} (h : e.Plain G k) : e.depth = k + 2 := by
  obtain ⟨gs, he, hl, -⟩ := h
  unfold Environment.depth
  rw [he, List.length_append, hl]
  rfl

theorem Plain.set {k : Nat} {e : Environment} (h : e.Plain G k) {name : String} {v : Value}
    (hn : isKeyName name = false) (hv : G v) : (e.set name v).Plain G k := by
  obtain ⟨hi, ho⟩ := PlainFrames.of_cons h
  exact .cons (plainFrame_insert hi hn hv) ho

theorem Plain.push {k : Nat} {e : Environment} (h : e.Plain G k) : e.push.Plain G (k + 1) :=
  .cons (List.forall_mem_nil _) h

theorem Plain.pop {k : Nat} {e : Environment} (h : e.Plain G (k + 1)) : e.pop.Plain G k := by
  obtain ⟨-, ho⟩ := PlainFrames.of_cons h
  unfold Environment.pop
  split
  · next hn => rw [hn] at ho; obtain ⟨_ | ⟨g, gs⟩, e, -, -⟩ := ho <;> cases e
  · next hn => rw [hn] at ho; exact ho

/-- A plain frame binds no symbol of a builtin operator. -/
theorem get?_symbol_of_plainFrame {f : Frame} (hf : PlainFrame G f) (b : Builtin) :
    Table.get? b.symbol f = none := by
  cases hv : Table.get? b.symbol f with
  | none => rfl
  | some v =>
    have word := (hf _ (Table.mem_of_get? hv)).1
    rw [b.isKeyName_symbol] at word
    cases word

/-- The symbols of the builtin operators are bound to them. -/
theorem PlainFrames.find?_symbol (b : Builtin) {k : Nat} {fs : List Frame}
    (h : PlainFrames G k fs) :
    Environment.find? b.symbol fs = some (.operator (.builtin b)) := by
  induction k generalizing fs with
  | zero =>
    obtain ⟨gs, rfl, hl, -⟩ := h
    obtain rfl := List.length_eq_zero_iff.1 hl
    rw [List.nil_append, Environment.find?, get?_builtins_symbol]
  | succ k ih =>
    cases fs with
    | nil => obtain ⟨_ | ⟨g, gs⟩, e, -, -⟩ := h <;> cases e
    | cons f fs =>
      obtain ⟨hf, hfs⟩ := h.of_cons
      rw [Environment.find?, get?_symbol_of_plainFrame hf b]
      exact ih hfs

end Environment

variable [Generator]

namespace Eval

/-- A call headed by a name is a call of what the name is bound to. -/
theorem node_named {m : Machine} {head : Node} {name : String} {v : Value}
    (hn : head.name? = some name) (hv : m.env.get? name = some v) (ev : Node → Eval Value)
    (fuel : Nat) (args : List Node) (line : Nat) :
    node ev fuel (.call head args line) m = apply ev fuel v args line m := by
  have looked_up : ∀ f : Option Value → Eval Value, (get? name >>= f) m = f (some v) m := by
    intro f
    rw [← hv]
    rfl
  show call ev fuel head args line m = _
  unfold call
  rw [hn]
  exact looked_up _

/-- A call headed by the symbol of a builtin operator is a call of that operator. -/
theorem node_symbol {G : Value → Prop} {k : Nat} {m : Machine} (hm : m.env.Plain G k)
    {b : Builtin} {head : Node} (hb : head.name? = some b.symbol) (ev : Node → Eval Value)
    (fuel : Nat) (args : List Node) (line : Nat) :
    node ev fuel (.call head args line) m = b.call ev fuel args line m :=
  node_named hb (Environment.PlainFrames.find?_symbol b hm) ev fuel args line

end Eval

/-! ## Contracts -/

/-- What evaluations among plain frames may have in common: the values they deal in, what they do to
the machine, and the machines on which they end, by the fuel they have. -/
structure Contract where
  value : Value → Prop
  change : Machine → Machine → Prop
  ends : Nat → Machine → Prop

namespace Contract

/-- The first computation keeps to the contract: among plain frames it ends where it has to, and
leaves as many plain frames, a change of the machine that is allowed, and a result with `P`, which
the second computation gives too. -/
def Kept (c : Contract) (fuel : Nat) : Judgement := fun P x y =>
  ∀ k m, m.env.Plain c.value k →
    (c.ends fuel m → (x m).isSome = true) ∧
    ∀ a m', x m = some (a, m') →
      y m = some (a, m') ∧ P a ∧ m'.env.Plain c.value k ∧ c.change m m'

/-- What a contract has to allow. -/
structure Lawful (V : Vocabulary) (limit : Nat) (c : Contract) : Prop where
  word : ∀ {s}, V.name s → isKeyName s = false
  outside : ∀ {b}, ¬V.builtin b
  admits : V.Admits c.value
  allows : Machine.Allows V.fault c.change
  ends_change : ∀ {fuel m m'}, c.ends fuel m → c.change m m' → c.ends fuel m'
  ends_push : ∀ {fuel m}, c.ends fuel m → c.ends fuel { m with env := m.env.push }
  ends_zero : ∀ {m}, ¬c.ends 0 m
  ends_deeper : ∀ {fuel m}, c.ends (fuel + 1) m → m.exhausted = false → m.depth < limit →
    c.ends fuel { m with depth := m.depth + 1 }
  /-- What has to end may draw random numbers. -/
  ends_draw : ∀ {fuel m}, c.ends fuel m → Generator.Ends

/-- A contract that allows assignments. -/
def Assigns (c : Contract) : Prop :=
  ∀ m {name : String} {v old : Value} {env : Environment},
    m.env.assign name v = (.ok old, env) → c.change m { m with env }

variable {V : Vocabulary} {limit : Nat} {c : Contract} {fuel : Nat}

/-- A contract under which nothing has to end. -/
theorem Lawful.of_never (word : ∀ {s}, V.name s → isKeyName s = false)
    (outside : ∀ {b}, ¬V.builtin b) (admits : V.Admits c.value)
    (allows : Machine.Allows V.fault c.change) (never : ∀ {fuel m}, ¬c.ends fuel m) :
    c.Lawful V limit where
  word := word
  outside := outside
  admits := admits
  allows := allows
  ends_change h := absurd h never
  ends_push h := absurd h never
  ends_zero := never
  ends_deeper h := absurd h never
  ends_draw h := absurd h never

/-- A computation that always ends. -/
theorem kept_step {α : Type} {P : α → Prop} {x : Eval α}
    (hx : ∀ k m, m.env.Plain c.value k → ∃ a m', x m = some (a, m') ∧ P a ∧
      m'.env.Plain c.value k ∧ c.change m m') : c.Kept fuel P x x := by
  intro k m hm
  obtain ⟨a, m₁, e, h₁⟩ := hx k m hm
  refine ⟨fun _ => by rw [e]; rfl, fun b m' e' => ?_⟩
  rw [e] at e'
  cases e'
  exact ⟨e, h₁⟩

theorem Kept.mono {α : Type} {P Q : α → Prop} {x y : Eval α} (h : c.Kept fuel P x y)
    (hPQ : ∀ a, P a → Q a) : c.Kept fuel Q x y := by
  intro k m hm
  obtain ⟨ends, hx⟩ := h k m hm
  refine ⟨ends, fun a m' e => ?_⟩
  obtain ⟨ey, ha, h'⟩ := hx a m' e
  exact ⟨ey, hPQ a ha, h'⟩

namespace Lawful

variable (h : c.Lawful V limit)

include h

theorem kept_bind {α β : Type} {P : α → Prop} {Q : β → Prop} {x y : Eval α} {f g : α → Eval β}
    (hx : c.Kept fuel P x y) (hf : ∀ a, P a → c.Kept fuel Q (f a) (g a)) :
    c.Kept fuel Q (x >>= f) (y >>= g) := by
  intro k m hm
  obtain ⟨ends, hx⟩ := hx k m hm
  refine ⟨fun he => ?_, fun b m' e => ?_⟩
  · obtain ⟨⟨a, m₁⟩, e₁⟩ := Option.isSome_iff_exists.1 (ends he)
    obtain ⟨-, ha, hm₁, hc⟩ := hx a m₁ e₁
    obtain ⟨⟨b, m'⟩, e₂⟩ := Option.isSome_iff_exists.1 ((hf a ha k m₁ hm₁).1 (h.ends_change he hc))
    exact Option.isSome_iff_exists.2 ⟨_, Eval.bind_eq_some_iff.2 ⟨a, m₁, e₁, e₂⟩⟩
  · obtain ⟨a, m₁, e₁, e₂⟩ := Eval.bind_eq_some_iff.1 e
    obtain ⟨ey, ha, hm₁, hc⟩ := hx a m₁ e₁
    obtain ⟨eg, hb, hm', hc'⟩ := (hf a ha k m₁ hm₁).2 b m' e₂
    exact ⟨Eval.bind_eq_some_iff.2 ⟨a, m₁, ey, eg⟩, hb, hm', h.allows.trans hc hc'⟩

theorem kept_inFrame {α : Type} {P : α → Prop} {x y : Eval α} (hx : c.Kept fuel P x y) :
    c.Kept fuel P (Eval.inFrame x) (Eval.inFrame y) := by
  intro k m hm
  obtain ⟨ends, hx⟩ := hx (k + 1) { m with env := m.env.push } hm.push
  refine ⟨fun he => ?_, fun a m' e => ?_⟩
  · rw [Eval.inFrame_apply, Option.isSome_map]
    exact ends (h.ends_push he)
  · obtain ⟨m₁, e₁, rfl⟩ := Eval.inFrame_eq_some_iff.1 e
    obtain ⟨ey, ha, hm₁, hc⟩ := hx a m₁ e₁
    exact ⟨Eval.inFrame_eq_some_iff.2 ⟨m₁, ey, rfl⟩, ha, hm₁.pop, h.allows.frame hc⟩

omit h in
theorem kept_emit {e : Event} (he : ∀ m, c.change m (m.emit e)) :
    c.Kept fuel (fun _ => True) (modify (·.emit e)) (modify (·.emit e)) :=
  kept_step fun _ m hm => ⟨(), m.emit e, rfl, trivial, by rw [Machine.env_emit]; exact hm, he m⟩

theorem kept_set {name : String} {v : Value} (hn : V.name name) (hv : c.value v) :
    c.Kept fuel (fun _ => True) (Eval.set name v) (Eval.set name v) :=
  kept_step fun _ m hm => ⟨(), _, rfl, trivial, hm.set (h.word hn) hv, h.allows.set m name v⟩

theorem kept_define {name : String} {v : Value} (hn : V.name name) (hv : c.value v) :
    c.Kept fuel (Answers fun _ => True) (Eval.define name v) (Eval.define name v) := by
  refine kept_step fun k m hm => ?_
  rw [Eval.define_apply]
  rcases m.env.define_cases name v with he | ⟨err, he, hop⟩ <;> rw [he]
  · exact ⟨_, _, rfl, trivial, hm.set (h.word hn) hv, h.allows.set m name v⟩
  · exact ⟨_, _, rfl, hop, hm, h.allows.refl m⟩

theorem kept_assign (ha : c.Assigns) {name : String} {v : Value} (hn : V.name name)
    (hv : c.value v) :
    c.Kept fuel (Answers c.value) (Eval.assign name v) (Eval.assign name v) := by
  refine kept_step fun k m hm => ?_
  rw [Eval.assign_apply]
  rcases m.env.assign_cases name v with ⟨old, env, he, replaced⟩ | ⟨err, he, hop⟩ <;> rw [he]
  · obtain ⟨hold, hm'⟩ := Environment.PlainFrames.replace? (h.word hn) hv hm replaced
    exact ⟨_, _, rfl, hold, hm', ha m he⟩
  · exact ⟨_, _, rfl, hop, hm, h.allows.refl m⟩

theorem kept_draw (d : Draw) : c.Kept fuel (fun _ => True) (Eval.draw d) (Eval.draw d) := by
  intro k m hm
  refine ⟨fun he => ?_, fun a m' e => ?_⟩
  · exact (Option.isSome_map ..).trans (h.ends_draw he d m.random)
  · obtain ⟨random, -, rfl⟩ := Eval.draw_eq_some_iff.1 e
    exact ⟨e, trivial, hm, h.allows.draw m random⟩

/-- What a name is bound to: a value of the program, or the builtin operator it is the symbol of. -/
theorem kept_get? (name : String) :
    c.Kept fuel (fun o => ∀ v, o = some v →
        c.value v ∨ ∃ b : Builtin, name = b.symbol ∧ v = .operator (.builtin b))
      (Eval.get? name) (Eval.get? name) :=
  kept_step fun _ m hm =>
    ⟨_, _, rfl, fun _ hv => Environment.PlainFrames.find? hm hv, hm, h.allows.refl m⟩

theorem isBasic : Correspondence.Basic V c.value id fun P x y => c.Kept fuel P x y where
  pure ha := by
    rw [Lined.renumber_id]
    exact kept_step fun _ m hm => ⟨_, m, rfl, ha, hm, h.allows.refl m⟩
  bind hx hf := h.kept_bind hx fun a ha => by
    have whole := hf a ha
    rwa [Lined.renumber_id] at whole
  report {line e} _ he := kept_emit fun m => h.allows.report m e line he
  print {text} := kept_emit fun m => h.allows.print m text
  get? {name} hn := (h.kept_get? name).mono fun o ho v hv => by
    rcases ho v hv with hv | ⟨b, rfl, -⟩
    · exact hv
    · exact absurd (h.word hn) (by simp [b.isKeyName_symbol])
  callee {name} _ := (h.kept_get? name).mono fun o ho v hv => by
    rcases ho v hv with hv | ⟨b, -, rfl⟩
    · exact h.admits.callable hv
    · exact fun f hf => by cases hf
  define hn hv := by rw [Lined.renumber_id]; exact h.kept_define hn hv
  inFrame hx := h.kept_inFrame hx
  draw hf := h.kept_bind (h.kept_draw _) fun a _ => hf a
  freshId hf := h.kept_bind (P := fun _ => True)
    (kept_step fun _ m hm => ⟨_, _, rfl, trivial, hm, h.allows.freshId m _⟩) fun id _ => hf id

theorem isLocal : Correspondence.Local V c.value id fun P x y => c.Kept fuel P x y :=
  h.isBasic.local_of_sets h.admits fun hn hv => by
    rw [Lined.renumber_id]
    exact h.kept_set hn hv

section

variable {ev ev' : Node → Eval Value} (hev : ∀ n, V.node n → c.Kept fuel c.value (ev n) (ev' n))

include hev

omit h in
/-- Nothing is renumbered. -/
theorem kept_renumbered (n : Node) (hn : V.node n) :
    c.Kept fuel c.value (ev n) (ev' (renumber id n)) := by
  rw [Lined.renumber_id]
  exact hev n hn

theorem kept_statements {ns : List Node} (hn : ∀ n ∈ ns, V.node n) :
    c.Kept fuel c.value (Eval.statements ev ns) (Eval.statements ev' ns) := by
  have whole := h.isLocal.statements (kept_renumbered hev) hn
  rwa [Lined.renumber_id] at whole

/-- The parameters of a function and its body, which share a frame. -/
theorem kept_invocation {f : Function} (hf : V.function f) {args : List Node}
    (ha : ∀ n ∈ args, V.node n) :
    c.Kept fuel c.value
      (Operator.bindParameters ev f.body.line f.parameters args >>= fun _ => ev f.body)
      (Operator.bindParameters ev' f.body.line f.parameters args >>= fun _ => ev' f.body) := by
  have bound := h.isLocal.bindParameters (kept_renumbered hev) (V.line_node hf.2) hf.1 ha
  rw [Lined.renumber_id] at bound
  exact h.kept_bind bound fun _ _ => hev f.body hf.2

/-! ### The special builtin operators -/

section

variable {b : Builtin} {args : List Node} (ha : ∀ n ∈ args, V.node n) {line f : Nat}

include ha

theorem kept_assigning (hc : c.Assigns) (hl : V.line line) (hb : b.assigns = true) :
    c.Kept fuel c.value (b.call ev f args line) (b.call ev' f args line) := by
  have assigns : Correspondence.Assigns V c.value id fun P x y => c.Kept fuel P x y :=
    fun hn hv => by rw [Lined.renumber_id]; exact h.kept_assign hc hn hv
  have whole : c.Kept fuel c.value (b.call ev f args line)
      (b.call ev' f (renumber id args) line) :=
    h.isLocal.assigning (kept_renumbered hev) assigns hb ha hl
  rwa [Lined.renumber_id] at whole

/-- Where nothing has to end, fuel may run out. -/
theorem kept_usesFuel (hc : ∀ m, ¬c.ends fuel m) (hl : V.line line)
    (hb : b.usesFuel args.length = true) :
    c.Kept fuel c.value (b.call ev f args line) (b.call ev' f args line) := by
  have unbounded := h.isLocal.unbounded
    (fun {_ _ _} _ m _ => ⟨fun he => absurd he (hc m), fun _ _ e => by cases e⟩)
    (kept_renumbered hev) (.refl _ f)
  have whole := unbounded.builtin hb ha hl
  rwa [Lined.renumber_id] at whole

theorem kept_fold {P : Value → Prop} (hP : ∀ v, c.value v → P v) {op : Fold}
    (combine : ∀ {v w u}, P v → P w → op.combine? v w = some u → P u) (hl : V.line line) :
    c.Kept fuel P (op.call ev args line) (op.call ev' args line) := by
  have whole := h.isLocal.fold (kept_renumbered hev) (fun hv => hP _ hv) combine ha hl
  rwa [Lined.renumber_id] at whole

end

/-- A node keeps to the contract if the nodes in it do, and a special builtin operator if it is one
that is called. -/
theorem kept_node {f : Nat} {n : Node} (hn : V.node n)
    (special : ∀ {b : Builtin} {head args line}, n = .call head args line →
      head.name? = some b.symbol → b.isSpecial args.length = true →
      c.Kept fuel c.value (b.call ev f args line) (b.call ev' f args line)) :
    c.Kept fuel c.value (Eval.node ev f n) (Eval.node ev' f n) := by
  have hev' := kept_renumbered hev
  suffices whole : c.Kept fuel c.value (Eval.node ev f n) (Eval.node ev' f (renumber id n)) by
    rwa [Lined.renumber_id] at whole
  refine h.isLocal.node hev' hn ?_
  rintro head args line rfl
  have ha := V.node_arg hn
  have hl := V.line_node hn
  -- a value of the program is not a builtin operator, however the head of the call gave it
  have program : ∀ v, c.value v → c.Kept fuel c.value (Eval.apply ev f v args line)
      (Eval.apply ev' f (renumber id v) (renumber id args) line) :=
    fun v hv => h.isLocal.apply hev' (h.admits.callable hv) ha hl fun b hb =>
      absurd (h.admits.builtin (hb ▸ hv)) h.outside
  refine h.isLocal.call hev' (Q := fun v => c.value v ∨
    ∃ b : Builtin, head.name? = some b.symbol ∧ v = .operator (.builtin b)) hn ?_ ?_ program
  · intro s hs
    exact (h.kept_get? s).mono fun o ho v hv => (ho v hv).imp_right fun ⟨b, hb, e⟩ =>
      ⟨b, by rw [hs, hb], e⟩
  · rintro v (hv | ⟨b, hb, rfl⟩)
    · exact program v hv
    · refine h.isLocal.builtin hev' b ha hl fun hs => ?_
      rw [Lined.renumber_id]
      exact special rfl hb hs

end

theorem kept_limited {P : Value → Prop} (hP : P .nothing) (line : Nat) {x y : Eval Value}
    (hx : c.Kept fuel P x y) :
    c.Kept (fuel + 1) P (Eval.limited limit line x) (Eval.limited limit line y) := by
  intro k m hm
  rw [Eval.limited_apply, Eval.limited_apply]
  split
  · refine ⟨fun _ => rfl, fun a m' e => ?_⟩
    cases e
    exact ⟨rfl, hP, hm, h.allows.refl m⟩
  next hex =>
  have hex : m.exhausted = false := by simpa using hex
  split
  · refine ⟨fun _ => rfl, fun a m' e => ?_⟩
    cases e
    exact ⟨rfl, hP, by rw [Machine.env_emit]; exact hm, h.allows.exhaust m limit line hex⟩
  next hd =>
  obtain ⟨ends, hx⟩ := hx k { m with depth := m.depth + 1 } hm
  refine ⟨fun he => ?_, fun a m' e => ?_⟩
  · rw [Eval.deeper_apply, Option.isSome_map]
    exact ends (h.ends_deeper he hex (by omega))
  · obtain ⟨m₁, e₁, rfl⟩ := Eval.deeper_eq_some_iff.1 e
    obtain ⟨ey, ha, hm₁, hc⟩ := hx a m₁ e₁
    exact ⟨Eval.deeper_eq_some_iff.2 ⟨m₁, ey, rfl⟩, ha, hm₁, h.allows.deeper hc⟩

end Lawful

/-- A lawful contract that the special builtin operators keep to wherever they are called. -/
structure Closed (V : Vocabulary) (limit : Nat) (c : Contract) : Prop extends Lawful V limit c where
  special : ∀ {fuel f : Nat} {ev ev' : Node → Eval Value} {b : Builtin} {head : Node}
    {args : List Node} {line : Nat},
    (∀ n, V.node n → c.Kept fuel c.value (ev n) (ev' n)) → V.node (.call head args line) →
    head.name? = some b.symbol → b.isSpecial args.length = true →
    c.Kept fuel c.value (b.call ev f args line) (b.call ev' f args line)

/-- A lawful contract under which nothing has to end and any operator may be called is closed if it
deals in all values of its vocabulary. -/
theorem Lawful.closed_of_never (h : c.Lawful V limit) (value : c.value = V.value)
    (lines : ∀ line, V.line line) (assigns : c.Assigns) (never : ∀ {fuel m}, ¬c.ends fuel m) :
    c.Closed V limit where
  toLawful := h
  special {_ _ _ _ _ _ _ line} hev hn _ special := by
    have ha := V.node_arg hn
    have here := lines line
    simp only [Builtin.isSpecial, Bool.or_eq_true, beq_iff_eq] at special
    rcases special with (uses | assigning) | rfl
    · exact h.kept_usesFuel hev ha (fun _ => never) here uses
    · exact h.kept_assigning hev ha assigns here assigning
    · refine h.kept_fold hev ha (fun _ hv => hv) ?_ here
      rw [value]
      exact Vocabulary.value_combine?

namespace Closed

variable (h : c.Closed V limit)

include h

theorem node {ev ev' : Node → Eval Value}
    (hev : ∀ n, V.node n → c.Kept fuel c.value (ev n) (ev' n)) {f : Nat} {n : Node}
    (hn : V.node n) : c.Kept fuel c.value (Eval.node ev f n) (Eval.node ev' f n) := by
  refine h.kept_node hev hn ?_
  rintro b head args line rfl hb hs
  exact h.special hev hn hb hs

theorem evaluate (fuel : Nat) {n : Node} (hn : V.node n) :
    c.Kept fuel c.value (evaluate limit fuel n) (evaluate limit fuel n) := by
  induction fuel generalizing n with
  | zero => exact fun _ m _ => ⟨fun he => absurd he h.ends_zero, fun _ _ e => by cases e⟩
  | succ fuel ih =>
    rw [evaluate_succ]
    exact h.kept_limited h.admits.nothing n.line (h.node (fun n hn => ih hn) hn)

end Closed

end Contract

end Sigil
