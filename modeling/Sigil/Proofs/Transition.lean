import Sigil.Proofs.Judgement

/-!
# The machine before and after

What each operation does to a machine, as equations, and from them: a relation `R` between machines
that is reflexive and transitive, and that allows what the operations do, holds between the machine
before and after every evaluation that ends (`Lawful.evaluate`).

A `Comparison` of two computations that both keep `R` relates every computation to itself, so of the
parts of an evaluation it has to be shown only where the two differ (`Lawful.closed_comparison`).
-/

namespace Sigil

namespace Environment

/-- A definition binds the name in the innermost frame, or fails and changes nothing. -/
theorem define_cases (e : Environment) (name : String) (v : Value) :
    e.define name v = (.ok (), e.set name v) ∨
      ∃ err, e.define name v = (.error err, e) ∧ err.ofOperator = true := by
  unfold define
  split
  · exact .inr ⟨_, rfl, rfl⟩
  · exact .inl rfl

/-- An assignment changes the nearest frame that binds the name, and gives what it was bound to, or
fails and changes nothing. -/
theorem assign_cases (e : Environment) (name : String) (v : Value) :
    (∃ old e', e.assign name v = (.ok old, e') ∧
      replace? name v e.frames = some (old, e'.frames)) ∨
      ∃ err, e.assign name v = (.error err, e) ∧ err.ofOperator = true := by
  unfold assign
  rw [frames, replace?]
  split
  · exact .inr ⟨_, rfl, rfl⟩
  cases Table.get? name e.inner with
  | some old => exact .inl ⟨old, _, rfl, rfl⟩
  | none =>
    cases ho : replace? name v e.outer with
    | some p => exact .inl ⟨p.1, ⟨e.inner, p.2⟩, rfl, rfl⟩
    | none => exact .inr ⟨.undeclared name, rfl, rfl⟩

theorem assign_eq_ok {e e' : Environment} {name : String} {v old : Value}
    (h : e.assign name v = (.ok old, e')) : replace? name v e.frames = some (old, e'.frames) := by
  rcases e.assign_cases name v with ⟨_, _, ha, hr⟩ | ⟨_, ha, -⟩
  · rw [ha] at h; cases h; exact hr
  · rw [ha] at h; cases h

/-- What is left once the innermost of several frames is dropped. -/
theorem frames_pop {e : Environment} (h : e.outer ≠ []) : e.pop.frames = e.outer := by
  obtain ⟨inner, _ | ⟨f, fs⟩⟩ := e
  · exact absurd rfl h
  · rfl

end Environment

variable [Generator]

theorem Machine.env_emit (m : Machine) (e : Event) : (m.emit e).env = m.env := by
  unfold emit; split <;> rfl

namespace Eval

variable {α β : Type}

theorem bind_eq_some_iff {x : Eval α} {f : α → Eval β} {m m' : Machine} {b : β} :
    (x >>= f) m = some (b, m') ↔ ∃ a m₁, x m = some (a, m₁) ∧ f a m₁ = some (b, m') := by
  change (x m).bind (fun p => f p.1 p.2) = _ ↔ _
  rw [Option.bind_eq_some_iff]
  exact ⟨fun ⟨⟨a, m₁⟩, h⟩ => ⟨a, m₁, h⟩, fun ⟨a, m₁, h⟩ => ⟨(a, m₁), h⟩⟩

theorem all_cons_eq_some_iff {ev : Node → Eval Value} {n : Node} {ns : List Node}
    {vs : List Value} {m m' : Machine} :
    all ev (n :: ns) m = some (vs, m') ↔
      ∃ v m₁ ws, ev n m = some (v, m₁) ∧ all ev ns m₁ = some (ws, m') ∧ vs = v :: ws := by
  constructor
  · intro h
    obtain ⟨v, m₁, hv, h⟩ := bind_eq_some_iff.1 h
    obtain ⟨ws, m₂, hs, h⟩ := bind_eq_some_iff.1 h
    cases h
    exact ⟨v, m₁, ws, hv, hs, rfl⟩
  · rintro ⟨v, m₁, ws, hv, hs, rfl⟩
    exact bind_eq_some_iff.2 ⟨v, m₁, hv, bind_eq_some_iff.2 ⟨ws, m', hs, rfl⟩⟩

theorem define_apply (name : String) (v : Value) (m : Machine) :
    define name v m =
      some ((m.env.define name v).1, { m with env := (m.env.define name v).2 }) := rfl

theorem assign_apply (name : String) (v : Value) (m : Machine) :
    assign name v m =
      some ((m.env.assign name v).1, { m with env := (m.env.assign name v).2 }) := rfl

theorem draw_eq_some_iff {d : Draw} {m m' : Machine} {a : d.Result} :
    draw d m = some (a, m') ↔
      ∃ random, Generator.draw d m.random = some (a, random) ∧ m' = { m with random } := by
  unfold draw
  rw [Option.map_eq_some_iff]
  constructor
  · rintro ⟨⟨b, random⟩, h, e⟩
    cases e
    exact ⟨random, h, rfl⟩
  · rintro ⟨random, h, rfl⟩
    exact ⟨(a, random), h, rfl⟩

/-- A computation between two changes of the machine. -/
theorem between_apply (f g : Machine → Machine) (x : Eval α) (m : Machine) :
    (do modify f; let a ← x; modify g; return a : Eval α) m =
      (x (f m)).map fun p => (p.1, g p.2) := by
  change (x (f m)).bind (fun p => some (p.1, g p.2)) = _
  cases x (f m) <;> rfl

theorem inFrame_apply (x : Eval α) (m : Machine) :
    inFrame x m = (x { m with env := m.env.push }).map fun p =>
      (p.1, { p.2 with env := p.2.env.pop }) :=
  between_apply _ _ x m

theorem deeper_apply (x : Eval Value) (m : Machine) :
    deeper x m = (x { m with depth := m.depth + 1 }).map fun p =>
      (p.1, { p.2 with depth := p.2.depth - 1 }) :=
  between_apply _ _ x m

theorem between_eq_some_iff {f g : Machine → Machine} {x : Eval α} {m m' : Machine} {a : α} :
    (do modify f; let a ← x; modify g; return a : Eval α) m = some (a, m') ↔
      ∃ m₁, x (f m) = some (a, m₁) ∧ m' = g m₁ := by
  rw [between_apply, Option.map_eq_some_iff]
  constructor
  · rintro ⟨⟨b, m₁⟩, hx, e⟩
    cases e
    exact ⟨m₁, hx, rfl⟩
  · rintro ⟨m₁, hx, rfl⟩
    exact ⟨(a, m₁), hx, rfl⟩

theorem inFrame_eq_some_iff {x : Eval α} {m m' : Machine} {a : α} :
    inFrame x m = some (a, m') ↔
      ∃ m₁, x { m with env := m.env.push } = some (a, m₁) ∧
        m' = { m₁ with env := m₁.env.pop } :=
  between_eq_some_iff

theorem deeper_eq_some_iff {x : Eval Value} {m m' : Machine} {v : Value} :
    deeper x m = some (v, m') ↔
      ∃ m₁, x { m with depth := m.depth + 1 } = some (v, m₁) ∧
        m' = { m₁ with depth := m₁.depth - 1 } :=
  between_eq_some_iff

theorem limited_apply (limit line : Nat) (x : Eval Value) (m : Machine) :
    limited limit line x m =
      if m.exhausted then some (.nothing, m)
      else if limit ≤ m.depth then
        some (.nothing,
          { m.emit (.report (.eval (.depthLimit limit) line)) with exhausted := true })
      else deeper x m := by
  change (if m.exhausted then _ else if limit ≤ m.depth then _ else _ : Eval Value) m = _
  split
  · rfl
  · split <;> rfl

/-- Below the limit, what is limited runs one level deeper. -/
theorem limited_of_below {limit : Nat} {m : Machine} (hx : m.exhausted = false)
    (hd : m.depth < limit) (line : Nat) (x : Eval Value) : limited limit line x m = deeper x m := by
  rw [limited_apply, hx, if_neg Bool.false_ne_true, if_neg (Nat.not_le_of_lt hd)]

end Eval

/-- What a relation between the machine before and after has to allow where nothing is assigned and
the faults are those of `F`. -/
structure Machine.Allows (F : EvalError → Prop) (R : Machine → Machine → Prop) : Prop where
  refl : ∀ m, R m m
  trans : ∀ {m₁ m₂ m₃}, R m₁ m₂ → R m₂ m₃ → R m₁ m₃
  report : ∀ m (e : EvalError) (line : Nat), F e →
    R m (m.emit (.report (.eval e line)))
  print : ∀ m (text : String), R m (m.emit (.print text))
  set : ∀ m (name : String) (v : Value), R m { m with env := m.env.set name v }
  draw : ∀ m (random : Generator.State), R m { m with random }
  freshId : ∀ m (nextId : Nat), R m { m with nextId }
  frame : ∀ {m m'}, R { m with env := m.env.push } m' → R m { m' with env := m'.env.pop }
  deeper : ∀ {m m'}, R { m with depth := m.depth + 1 } m' →
    R m { m' with depth := m'.depth - 1 }
  exhaust : ∀ m (limit line : Nat), m.exhausted = false →
    R m { m.emit (.report (.eval (.depthLimit limit) line)) with exhausted := true }

/-- What a relation between the machine before and after has to allow. -/
structure Machine.Lawful (R : Machine → Machine → Prop) : Prop
    extends Allows (fun e => e.isLimit = false) R where
  assign : ∀ m {name : String} {v old : Value} {env : Environment},
    m.env.assign name v = (.ok old, env) → R m { m with env }

/-- The computations that, if they end, give a result with `P` and machines related by `R`. -/
def Eval.Keeps (R : Machine → Machine → Prop) {α : Type} (P : α → Prop) (x : Eval α) : Prop :=
  ∀ m a m', x m = some (a, m') → P a ∧ R m m'

namespace Machine.Lawful

variable {R : Machine → Machine → Prop} (h : Lawful R)

include h

theorem keeps_bind {α β : Type} {P : α → Prop} {Q : β → Prop} {x : Eval α} {f : α → Eval β}
    (hx : Eval.Keeps R P x) (hf : ∀ a, P a → Eval.Keeps R Q (f a)) :
    Eval.Keeps R Q (x >>= f) := by
  intro m b m' e
  obtain ⟨a, m₁, e₁, e₂⟩ := Eval.bind_eq_some_iff.1 e
  have h₁ := hx m a m₁ e₁
  have h₂ := hf a h₁.1 m₁ b m' e₂
  exact ⟨h₂.1, h.trans h₁.2 h₂.2⟩

theorem keeps_inFrame {α : Type} {P : α → Prop} {x : Eval α} (hx : Eval.Keeps R P x) :
    Eval.Keeps R P (Eval.inFrame x) := by
  intro m a m' e
  obtain ⟨m₁, e₁, rfl⟩ := Eval.inFrame_eq_some_iff.1 e
  have h₁ := hx _ a m₁ e₁
  exact ⟨h₁.1, h.frame h₁.2⟩

theorem closed : Judgement.Closed .any fun P x _ => Eval.Keeps R P x where
  pure ha m _ _ e := by cases e; exact ⟨ha, h.refl m⟩
  bind hx hf := h.keeps_bind hx hf
  outOfFuel _ _ _ e := by cases e
  cut _ _ _ _ e := by cases e
  report {line err} _ he m _ _ e := by cases e; exact ⟨trivial, h.report m err line he⟩
  print {text} m _ _ e := by cases e; exact ⟨trivial, h.print m text⟩
  get? _ m _ _ e := by cases e; exact ⟨fun v _ => Vocabulary.any_value v, h.refl m⟩
  callee _ m _ _ e := by
    cases e; exact ⟨fun v _ => (Vocabulary.any_value v).callable, h.refl m⟩
  set {name v} _ _ m _ _ e := by cases e; exact ⟨trivial, h.set m name v⟩
  define {name v} _ _ m a m' e := by
    rw [Eval.define_apply] at e
    cases e
    rcases Environment.define_cases m.env name v with he | ⟨err, he, hop⟩
    · rw [he]; exact ⟨trivial, h.set m name v⟩
    · rw [he]; exact ⟨hop, h.refl m⟩
  assign {name v} _ _ m a m' e := by
    rw [Eval.assign_apply] at e
    cases e
    rcases Environment.assign_cases m.env name v with ⟨old, env, he, -⟩ | ⟨err, he, hop⟩
    · rw [he]; exact ⟨Vocabulary.any_value old, h.assign m he⟩
    · rw [he]; exact ⟨hop, h.refl m⟩
  inFrame hx := h.keeps_inFrame hx
  draw m _ _ e := by
    obtain ⟨random, -, rfl⟩ := Eval.draw_eq_some_iff.1 e
    exact ⟨trivial, h.draw m random⟩
  freshId m _ _ e := by cases e; exact ⟨trivial, h.freshId m _⟩

theorem keeps_limited {P : Value → Prop} (hP : P .nothing) {limit line : Nat} {x : Eval Value}
    (hx : Eval.Keeps R P x) : Eval.Keeps R P (Eval.limited limit line x) := by
  intro m v m' e
  rw [Eval.limited_apply] at e
  split at e
  · cases e; exact ⟨hP, h.refl m⟩
  split at e
  · next hm _ => cases e; exact ⟨hP, h.exhaust m limit line (by simpa using hm)⟩
  · obtain ⟨m₁, e₁, rfl⟩ := Eval.deeper_eq_some_iff.1 e
    have h₁ := hx _ v m₁ e₁
    exact ⟨h₁.1, h.deeper h₁.2⟩

theorem keeps_evaluate (limit fuel : Nat) (n : Node) :
    Eval.Keeps R Vocabulary.any.value (evaluate limit fuel n) :=
  @Judgement.Closed.evaluate _ _ _ h.closed limit limit
    (fun _ hx => h.keeps_limited Vocabulary.value_nothing hx) fuel fuel (Nat.le_refl _) n trivial

theorem keeps_statements (limit fuel : Nat) (ns : List Node) :
    Eval.Keeps R Vocabulary.any.value (Eval.statements (Sigil.evaluate limit fuel) ns) :=
  @Judgement.Closed.statements _ _ _ h.closed _ (Sigil.evaluate limit fuel)
    (fun n _ => h.keeps_evaluate limit fuel n) ns fun _ _ => trivial

/-- A lawful relation holds between the machine before and after an evaluation that ends. -/
theorem evaluate {limit fuel : Nat} {n : Node} {m m' : Machine} {v : Value}
    (e : Sigil.evaluate limit fuel n m = some (v, m')) : R m m' :=
  (h.keeps_evaluate limit fuel n m v m' e).2

end Machine.Lawful

/-- A comparison of computations that keep `R`. -/
structure Eval.Comparison (R : Machine → Machine → Prop)
    (E : {α : Type} → Eval α → Eval α → Prop) : Prop where
  refl : ∀ {α : Type} (x : Eval α), E x x
  bind : ∀ {α β : Type} {P : α → Prop} {Q : β → Prop} {x y : Eval α} {f g : α → Eval β},
    Keeps R P x → Keeps R P y → E x y →
    (∀ a, P a → Keeps R Q (f a)) → (∀ a, P a → Keeps R Q (g a)) → (∀ a, P a → E (f a) (g a)) →
    E (x >>= f) (y >>= g)
  cut : ∀ {α : Type} (y : Eval α), E outOfFuel y
  inFrame : ∀ {α : Type} {x y : Eval α}, E x y → E (Eval.inFrame x) (Eval.inFrame y)

/-- The judgement that two computations keep `R` and compare by `E`. -/
def Eval.Both (R : Machine → Machine → Prop) (E : {α : Type} → Eval α → Eval α → Prop) :
    Judgement :=
  fun P x y => Keeps R P x ∧ Keeps R P y ∧ E x y

theorem Machine.Lawful.closed_comparison {R : Machine → Machine → Prop}
    {E : {α : Type} → Eval α → Eval α → Prop} (h : Lawful R) (hE : Eval.Comparison R E) :
    Judgement.Closed .any (Eval.Both R E) := by
  have same : ∀ {α : Type} {P : α → Prop} {x : Eval α}, Eval.Keeps R P x → Eval.Both R E P x x :=
    fun hx => ⟨hx, hx, hE.refl _⟩
  constructor
  case pure => exact fun ha => same (h.closed.pure ha)
  case bind =>
    rintro _ _ _ _ _ _ _ _ ⟨hx, hy, he⟩ hf
    exact ⟨h.keeps_bind hx fun a ha => (hf a ha).1, h.keeps_bind hy fun a ha => (hf a ha).2.1,
      hE.bind hx hy he (fun a ha => (hf a ha).1) (fun a ha => (hf a ha).2.1)
        fun a ha => (hf a ha).2.2⟩
  case outOfFuel => exact same h.closed.outOfFuel
  case cut => exact fun ⟨_, hy, _⟩ => ⟨h.closed.outOfFuel, hy, hE.cut _⟩
  case report => exact fun hl he => same (h.closed.report hl he)
  case print => exact same h.closed.print
  case get? => exact fun hn => same (h.closed.get? hn)
  case callee => exact fun hn => same (h.closed.callee hn)
  case set => exact fun hn hv => same (h.closed.set hn hv)
  case define => exact fun hn hv => same (h.closed.define hn hv)
  case assign => exact fun hn hv => same (h.closed.assign hn hv)
  case inFrame =>
    exact fun ⟨hx, hy, he⟩ => ⟨h.keeps_inFrame hx, h.keeps_inFrame hy, hE.inFrame he⟩
  case draw => exact same h.closed.draw
  case freshId => exact same h.closed.freshId

end Sigil
