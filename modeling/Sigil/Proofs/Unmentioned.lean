import Sigil.Proofs.BuiltinFrame

/-!
# Names that are not mentioned

Scoping is dynamic, so the body of a function may look up any name that the frames under it bind.
What it looks up is written in it, though: a name that neither a node nor any function within reach
mentions is never looked up, bound or changed, wherever it is bound and to whatever.

`e.hide k x` is an environment without the name `x` in its frame `k`. Every operation on names other
than `x` does the same with `x` as without it, and keeps `x` where it is. `Eval.Blind` says so of
computations; functions that evaluation makes or passes on are those of the `Vocabulary` in which
`x` does not occur.
-/

namespace Sigil

namespace Table

variable {α : Type} {name other : String}

/-- The table without a name. -/
def remove (name : String) : Table α → Table α
  | [] => []
  | (key, entry) :: rest =>
    if key = name then remove name rest else (key, entry) :: remove name rest

theorem get?_remove_of_ne (h : other ≠ name) (t : Table α) :
    get? other (remove name t) = get? other t := by
  induction t with
  | nil => rfl
  | cons p t ih => by_cases hp : p.1 = name <;> simp [remove, get?, hp, h.symm, ih]

theorem remove_of_get? {t : Table α} (h : get? name t = none) : remove name t = t := by
  induction t with
  | nil => rfl
  | cons p t ih =>
    by_cases hp : p.1 = name
    · simp [get?, hp] at h
    · simp only [get?, hp, if_false] at h
      simp [remove, hp, ih h]

theorem remove_insert_self (entry : α) (t : Table α) :
    remove name (insert name entry t) = remove name t := by
  induction t with
  | nil => simp [insert, remove]
  | cons p t ih => by_cases hp : p.1 = name <;> simp [insert, remove, hp, ih]

theorem remove_insert_of_ne (h : other ≠ name) (entry : α) (t : Table α) :
    remove name (insert other entry t) = insert other entry (remove name t) := by
  induction t with
  | nil => simp [insert, remove, h]
  | cons p t ih =>
    by_cases hp : p.1 = name
    · simp [insert, remove, hp, h.symm, ih]
    · by_cases ho : p.1 = other
      · simp [insert, remove, ho, h]
      · simp [insert, remove, hp, ho, ih]

end Table

namespace Node

mutual

/-- The names that a node may look up, bind or call: all names in it but those that are keys of a
mapping. -/
def mentions : Node → List String
  | literal _ _ => []
  | reference name _ => [name]
  | call head args _ => head.mentions ++ allMentions args
  | scope body _ => allMentions body
  | collection items _ => allMentions items
  | mapping pairs _ => entryMentions pairs

def allMentions : List Node → List String
  | [] => []
  | n :: ns => n.mentions ++ allMentions ns

def entryMentions : List (Node × Node) → List String
  | [] => []
  | (_, value) :: pairs => value.mentions ++ entryMentions pairs

end

theorem mentions_subset_all {ns : List Node} {n : Node} (h : n ∈ ns) :
    n.mentions ⊆ allMentions ns := by
  induction ns with
  | nil => cases h
  | cons k ns ih =>
    rcases List.mem_cons.1 h with rfl | h
    · exact List.subset_append_left _ _
    · exact List.subset_append_of_subset_right _ (ih h)

theorem mentions_subset_entries {pairs : List (Node × Node)} {p : Node × Node} (h : p ∈ pairs) :
    p.2.mentions ⊆ entryMentions pairs := by
  induction pairs with
  | nil => cases h
  | cons q pairs ih =>
    rcases List.mem_cons.1 h with rfl | h
    · exact List.subset_append_left _ _
    · exact List.subset_append_of_subset_right _ (ih h)

end Node

/-- What an evaluation meets that does not mention `x`. -/
def Vocabulary.without (x : String) (hx : x ≠ previousName) : Vocabulary where
  node n := x ∉ n.mentions
  name s := s ≠ x
  callee s := s ≠ x
  line _ := True
  fault e := e.isLimit = false
  builtin _ := True
  name_previous := hx.symm
  fault_operator := EvalError.isLimit_of_ofOperator
  line_node _ := trivial
  name_reference h := fun e => h (List.mem_singleton.2 e.symm)
  callee_head := by
    intro head args l s h hs e
    cases head with
    | reference name line =>
      cases hs
      exact h (List.mem_append_left _ (List.mem_singleton.2 e.symm))
    | literal | call | scope | collection | mapping => cases hs
  node_head h _ hm := h (List.mem_append_left _ hm)
  node_arg h n hn hm := h (List.mem_append_right _ (Node.mentions_subset_all hn hm))
  node_statement h n hn hm := h (Node.mentions_subset_all hn hm)
  node_item h n hn hm := h (Node.mentions_subset_all hn hm)
  line_key _ _ _ := trivial
  fault_key _ _ _ _ := rfl
  node_entry h p hp hm := h (Node.mentions_subset_entries hp hm)

namespace Environment

/-- Changes the frame at a position, counted from the innermost. -/
def modifyFrame (g : Frame → Frame) : Nat → Environment → Environment
  | 0, e => { e with inner := g e.inner }
  | k + 1, e => { e with outer := e.outer.modify k g }

theorem frames_modifyFrame (g : Frame → Frame) (k : Nat) (e : Environment) :
    (e.modifyFrame g k).frames = e.frames.modify k g := by
  cases k <;> rfl

/-- The environment without the name `x` in its frame `k`. -/
def hide (k : Nat) (x : String) (e : Environment) : Environment :=
  e.modifyFrame (Table.remove x) k

/-- What the frame `k` binds the name `x` to. -/
def entryAt (k : Nat) (x : String) (e : Environment) : Option Value :=
  e.frames[k]?.bind (Table.get? x)

section

variable {x name : String} (h : name ≠ x) (k : Nat) (e : Environment) (v : Value)

include h

theorem find?_modify (fs : List Frame) :
    find? name (fs.modify k (Table.remove x)) = find? name fs := by
  induction fs generalizing k with
  | nil => cases k <;> rfl
  | cons f fs ih =>
    cases k with
    | zero => rw [List.modify_zero_cons, find?, find?, Table.get?_remove_of_ne h]
    | succ k => rw [List.modify_succ_cons, find?, find?, ih]

theorem get?_hide : (e.hide k x).get? name = e.get? name := by
  unfold get? hide
  rw [frames_modifyFrame, find?_modify h]

theorem hide_set : (e.set name v).hide k x = (e.hide k x).set name v := by
  cases k with
  | zero => exact congrArg (Environment.mk · e.outer) (Table.remove_insert_of_ne h v e.inner)
  | succ k => rfl

theorem define_hide :
    (e.hide k x).define name v = (e.define name v).map id (hide k x) := by
  have inner : Table.get? name (e.hide k x).inner = Table.get? name e.inner := by
    cases k with
    | zero => exact Table.get?_remove_of_ne h e.inner
    | succ k => rfl
  unfold define
  rw [inner, ← hide_set h]
  split <;> rfl

theorem replace?_modify (fs : List Frame) :
    replace? name v (fs.modify k (Table.remove x)) =
      (replace? name v fs).map fun p => (p.1, p.2.modify k (Table.remove x)) := by
  induction fs generalizing k with
  | nil => cases k <;> rfl
  | cons f fs ih =>
    cases k with
    | zero =>
      rw [List.modify_zero_cons, replace?, replace?, Table.get?_remove_of_ne h]
      cases Table.get? name f with
      | some old => simp [Table.remove_insert_of_ne h]
      | none => simp [Function.comp_def]
    | succ k =>
      rw [List.modify_succ_cons, replace?, replace?, ih]
      cases Table.get? name f with
      | some old => simp
      | none => simp [Function.comp_def]

theorem assign_hide :
    (e.hide k x).assign name v = (e.assign name v).map id (hide k x) := by
  unfold assign
  split
  · rfl
  cases k with
  | zero =>
    have inner : Table.get? name (e.hide 0 x).inner = Table.get? name e.inner :=
      Table.get?_remove_of_ne h e.inner
    have outer : (e.hide 0 x).outer = e.outer := rfl
    rw [inner, outer, ← hide_set h]
    cases Table.get? name e.inner with
    | some old => rfl
    | none => cases replace? name v e.outer <;> rfl
  | succ k =>
    have inner : (e.hide (k + 1) x).inner = e.inner := rfl
    have outer : (e.hide (k + 1) x).outer = e.outer.modify k (Table.remove x) := rfl
    rw [inner, outer, replace?_modify h]
    cases Table.get? name e.inner with
    | some old => rfl
    | none => cases replace? name v e.outer <;> rfl

theorem entryAt_set : (e.set name v).entryAt k x = e.entryAt k x := by
  cases k with
  | zero => exact Table.get?_insert_of_ne h.symm v e.inner
  | succ k => rfl

theorem entryAt_replace? {old : Value} {fs gs : List Frame}
    (hr : replace? name v fs = some (old, gs)) :
    gs[k]?.bind (Table.get? x) = fs[k]?.bind (Table.get? x) := by
  induction fs generalizing k gs with
  | nil => cases hr
  | cons f fs ih =>
    unfold replace? at hr
    split at hr
    · cases hr
      cases k with
      | zero => exact Table.get?_insert_of_ne h.symm v f
      | succ k => rfl
    · obtain ⟨⟨_, gs'⟩, hg, e⟩ := Option.map_eq_some_iff.1 hr
      cases e
      cases k with
      | zero => rfl
      | succ k => exact ih k hg

end

theorem hide_push (k : Nat) (x : String) (e : Environment) :
    e.push.hide (k + 1) x = (e.hide k x).push :=
  congrArg (Environment.mk []) (frames_modifyFrame (Table.remove x) k e).symm

theorem hide_pop (k : Nat) (x : String) {e : Environment} (h : e.outer ≠ []) :
    e.pop.hide k x = (e.hide (k + 1) x).pop := by
  obtain ⟨inner, _ | ⟨f, fs⟩⟩ := e
  · exact absurd rfl h
  · cases k <;> rfl

/-- Hiding a name that was added to a frame. -/
theorem hide_modifyFrame {k : Nat} {x : String} {e : Environment} {f : Frame} (v : Value)
    (hk : e.frames[k]? = some f) (hf : Table.get? x f = none) :
    (e.modifyFrame (Table.insert x v) k).hide k x = e := by
  have undone : Table.remove x (Table.insert x v f) = f := by
    rw [Table.remove_insert_self, Table.remove_of_get? hf]
  cases k with
  | zero =>
    cases hk
    exact congrArg (Environment.mk · e.outer) undone
  | succ k =>
    refine congrArg (Environment.mk e.inner) (List.ext_getElem? fun i => ?_)
    show ((e.outer.modify k (Table.insert x v)).modify k (Table.remove x))[i]? = e.outer[i]?
    rw [List.getElem?_modify, List.getElem?_modify]
    by_cases hi : k = i
    · subst hi
      have hk' : e.outer[k]? = some f := hk
      simp [hk', undone]
    · simp [hi]

theorem outer_ne_nil {k : Nat} {x : String} {v : Value} {e : Environment}
    (h : e.entryAt (k + 1) x = some v) : e.outer ≠ [] := by
  intro hn
  unfold entryAt frames at h
  rw [hn] at h
  cases h

/-- Every value that is bound belongs to the vocabulary. -/
def Within (V : Vocabulary) (fs : List Frame) : Prop :=
  ∀ f ∈ fs, ∀ p ∈ f, V.value p.2

section

variable {V : Vocabulary} {name : String} {v : Value} {fs : List Frame}

theorem Within.find? (h : Within V fs) (hv : Environment.find? name fs = some v) : V.value v := by
  obtain ⟨f, hf, hm⟩ := mem_of_find? hv
  exact h f hf _ hm

theorem Within.insert {f : Frame} (h : Within V (f :: fs)) (hv : V.value v) :
    Within V (Table.insert name v f :: fs) := by
  obtain ⟨hf, hfs⟩ := List.forall_mem_cons.1 h
  exact List.forall_mem_cons.2 ⟨Table.forall_insert hv hf, hfs⟩

theorem Within.replace? {old : Value} {gs : List Frame} (h : Within V fs) (hv : V.value v)
    (hr : Environment.replace? name v fs = some (old, gs)) : V.value old ∧ Within V gs := by
  induction fs generalizing gs with
  | nil => cases hr
  | cons f fs ih =>
    obtain ⟨hf, hfs⟩ := List.forall_mem_cons.1 h
    unfold Environment.replace? at hr
    split at hr
    · next ho => cases hr; exact ⟨hf _ (Table.mem_of_get? ho), h.insert hv⟩
    · obtain ⟨⟨_, gs'⟩, hg, e⟩ := Option.map_eq_some_iff.1 hr
      cases e
      obtain ⟨hold, hgs⟩ := ih hfs hg
      exact ⟨hold, List.forall_mem_cons.2 ⟨hf, hgs⟩⟩

end

end Environment

section

variable [Generator]

namespace Machine

/-- The machine without the name `x` in its frame `k`. -/
def hide (k : Nat) (x : String) (m : Machine) : Machine :=
  { m with env := m.env.hide k x }

theorem hide_emit (k : Nat) (x : String) (m : Machine) (e : Event) :
    (m.emit e).hide k x = (m.hide k x).emit e := by
  unfold emit
  show _ = if m.exhausted then _ else _
  split <;> rfl

/-- The frame `k` binds `x` to `v`, and no other value that is bound mentions `x`. -/
structure Holds (x : String) (hx : x ≠ previousName) (v : Value) (k : Nat) (m : Machine) :
    Prop where
  entry : m.env.entryAt k x = some v
  values : Environment.Within (.without x hx) (m.env.hide k x).frames

namespace Holds

variable {x name : String} {hx : x ≠ previousName} {v w : Value} {k : Nat} {m : Machine}

theorem emit (h : m.Holds x hx v k) (e : Event) : (m.emit e).Holds x hx v k := by
  obtain ⟨entry, values⟩ := h
  constructor
  · rwa [m.env_emit]
  · rwa [m.env_emit]

theorem set (h : m.Holds x hx v k) (hn : name ≠ x) (hw : (Vocabulary.without x hx).value w) :
    Holds x hx v k { m with env := m.env.set name w } := by
  refine ⟨(m.env.entryAt_set hn k w).trans h.entry, ?_⟩
  show Environment.Within _ ((m.env.set name w).hide k x).frames
  rw [Environment.hide_set hn]
  exact Environment.Within.insert h.values hw

theorem assign {old : Value} {env : Environment} (h : m.Holds x hx v k) (hn : name ≠ x)
    (hw : (Vocabulary.without x hx).value w) (he : m.env.assign name w = (.ok old, env)) :
    (Vocabulary.without x hx).value old ∧ Holds x hx v k { m with env } := by
  have hidden : (m.env.hide k x).assign name w = (.ok old, env.hide k x) := by
    rw [Environment.assign_hide hn, he]
    rfl
  obtain ⟨hold, hvalues⟩ := h.values.replace? hw (Environment.assign_eq_ok hidden)
  have entry := Environment.entryAt_replace? hn k w (Environment.assign_eq_ok he)
  exact ⟨hold, entry.trans h.entry, hvalues⟩

end Holds

end Machine

namespace Eval

section

variable {x : String} {hx : x ≠ previousName} {v : Value} {α : Type}

/-- Two computations, the first without and the second with `x` bound to `v` in some frame, that end
alike and leave `x` there. -/
def Blind (x : String) (hx : x ≠ previousName) (v : Value) : Correspondence := fun P c d =>
  ∀ k m, m.Holds x hx v k →
    c (m.hide k x) = (d m).map (fun p => (p.1, p.2.hide k x)) ∧
    ∀ a m', d m = some (a, m') → P a ∧ m'.Holds x hx v k

theorem blind_bind {β : Type} [Lined α] [Lined β] {P : α → Prop} {Q : β → Prop} {c d : Eval α}
    {f g : α → Eval β} (hc : Blind x hx v P c d) (hf : ∀ a, P a → Blind x hx v Q (f a) (g a)) :
    Blind x hx v Q (c >>= f) (d >>= g) := by
  intro k m hm
  obtain ⟨ec, hP⟩ := hc k m hm
  show (c (m.hide k x)).bind (fun p => f p.1 p.2) = ((d m).bind fun p => g p.1 p.2).map _ ∧
    ∀ a m', (d m).bind (fun p => g p.1 p.2) = some (a, m') → _
  rw [ec]
  cases hd : d m with
  | none => exact ⟨rfl, fun _ _ e => by cases e⟩
  | some p =>
    obtain ⟨ha, hm'⟩ := hP p.1 p.2 hd
    exact hf p.1 ha k p.2 hm'

theorem blind_inFrame [Lined α] {P : α → Prop} {c d : Eval α} (hc : Blind x hx v P c d) :
    Blind x hx v P (inFrame c) (inFrame d) := by
  intro k m hm
  have pushed : Machine.Holds x hx v (k + 1) { m with env := m.env.push } := by
    refine ⟨hm.entry, ?_⟩
    rw [Environment.hide_push]
    exact List.forall_mem_cons.2 ⟨List.forall_mem_nil _, hm.values⟩
  obtain ⟨ec, hP⟩ := hc (k + 1) _ pushed
  have start : Machine.hide (k + 1) x { m with env := m.env.push } =
      { m.hide k x with env := (m.hide k x).env.push } := by
    unfold Machine.hide
    rw [Environment.hide_push]
  rw [start] at ec
  rw [inFrame_apply, inFrame_apply, ec]
  cases hd : d { m with env := m.env.push } with
  | none => exact ⟨rfl, fun _ _ e => by cases e⟩
  | some p =>
    obtain ⟨ha, hm'⟩ := hP p.1 p.2 hd
    have left := Environment.outer_ne_nil hm'.entry
    have popped := Environment.hide_pop k x left
    refine ⟨?_, fun _ _ e => ?_⟩
    · unfold Machine.hide
      simp only [Option.map_some, popped]
    · cases e
      have entry : p.2.env.pop.entryAt k x = p.2.env.entryAt (k + 1) x := by
        unfold Environment.entryAt
        rw [Environment.frames_pop left]
        rfl
      refine ⟨ha, entry.trans hm'.entry, ?_⟩
      show Environment.Within _ (p.2.env.pop.modifyFrame (Table.remove x) k).frames
      rw [Environment.frames_modifyFrame, Environment.frames_pop left]
      exact (List.forall_mem_cons.1 hm'.values).2

theorem define_hide {name : String} (hn : name ≠ x) (w : Value) (k : Nat) (m : Machine) :
    define name w (m.hide k x) = (define name w m).map fun p => (p.1, p.2.hide k x) := by
  have hidden : (m.hide k x).env = m.env.hide k x := rfl
  rw [define_apply, define_apply, hidden, Environment.define_hide hn]
  rfl

theorem assign_hide {name : String} (hn : name ≠ x) (w : Value) (k : Nat) (m : Machine) :
    assign name w (m.hide k x) = (assign name w m).map fun p => (p.1, p.2.hide k x) := by
  have hidden : (m.hide k x).env = m.env.hide k x := rfl
  rw [assign_apply, assign_apply, hidden, Environment.assign_hide hn]
  rfl

theorem draw_hide (d : Draw) (k : Nat) (m : Machine) :
    draw d (m.hide k x) = (draw d m).map fun p => (p.1, p.2.hide k x) := by
  unfold draw
  rw [Option.map_map]
  rfl

theorem blind_draw {d : Draw} [Lined α] {P : α → Prop} {f g : d.Result → Eval α}
    (hf : ∀ drawn, Blind x hx v P (f drawn) (g drawn)) :
    Blind x hx v P (draw d >>= f) (draw d >>= g) := by
  intro k m hm
  show (draw d (m.hide k x)).bind (fun p => f p.1 p.2) =
      ((draw d m).bind fun p => g p.1 p.2).map _ ∧
    ∀ a m', (draw d m).bind (fun p => g p.1 p.2) = some (a, m') → _
  rw [draw_hide]
  cases hd : draw d m with
  | none => exact ⟨rfl, fun _ _ e => by cases e⟩
  | some p =>
    obtain ⟨random, -, e⟩ := draw_eq_some_iff.1 hd
    have held : p.2.Holds x hx v k := e ▸ ⟨hm.entry, hm.values⟩
    exact hf p.1 k p.2 held

theorem congruent_blind : Correspondence.Congruent (.without x hx) id (Blind x hx v) where
  pure ha k m hm := by
    rw [Lined.renumber_id]
    exact ⟨rfl, fun _ _ e => by cases e; exact ⟨ha, hm⟩⟩
  bind hc hf := blind_bind hc fun a ha => by
    have := hf a ha
    rwa [Lined.renumber_id] at this
  report _ _ k m hm :=
    ⟨congrArg (fun m' => some ((), m')) (m.hide_emit k x _).symm,
      fun _ _ e => by cases e; exact ⟨trivial, hm.emit _⟩⟩
  print k m hm :=
    ⟨congrArg (fun m' => some ((), m')) (m.hide_emit k x _).symm,
      fun _ _ e => by cases e; exact ⟨trivial, hm.emit _⟩⟩
  get? hn k m hm := by
    have same := m.env.get?_hide hn k
    refine ⟨congrArg (fun o => some (o, m.hide k x)) same, fun _ _ e => ?_⟩
    cases e
    exact ⟨fun w hw => hm.values.find? (same.trans hw), hm⟩
  callee hn k m hm := by
    have same := m.env.get?_hide hn k
    refine ⟨congrArg (fun o => some (o, m.hide k x)) same, fun _ _ e => ?_⟩
    cases e
    exact ⟨fun w hw => (hm.values.find? (same.trans hw)).callable, hm⟩
  set {name w} hn hw k m hm := by
    rw [Lined.renumber_id]
    refine ⟨?_, fun _ _ e => by cases e; exact ⟨trivial, hm.set hn hw⟩⟩
    show some ((), { m with env := (m.env.hide k x).set name w }) = _
    rw [← Environment.hide_set hn]
    rfl
  define {name w} hn hw k m hm := by
    rw [Lined.renumber_id]
    refine ⟨define_hide hn w k m, fun a m' e => ?_⟩
    rw [define_apply] at e
    cases e
    rcases m.env.define_cases name w with he | ⟨err, he, fault⟩ <;> rw [he]
    · exact ⟨trivial, hm.set hn hw⟩
    · exact ⟨fault, hm⟩
  assign {name w} hn hw k m hm := by
    rw [Lined.renumber_id]
    refine ⟨assign_hide hn w k m, fun a m' e => ?_⟩
    rw [assign_apply] at e
    cases e
    rcases m.env.assign_cases name w with ⟨old, env, he, -⟩ | ⟨err, he, fault⟩
    · rw [he]; exact hm.assign hn hw he
    · rw [he]; exact ⟨fault, hm⟩
  inFrame := blind_inFrame
  draw := blind_draw
  freshId hf k m hm := hf m.nextId k { m with nextId := m.nextId + 1 } ⟨hm.entry, hm.values⟩

theorem blind_limited {P : Value → Prop} (hP : P .nothing) {limit line : Nat} {c d : Eval Value}
    (h : Blind x hx v P c d) : Blind x hx v P (limited limit line c) (limited limit line d) := by
  intro k m hm
  rw [limited_apply, limited_apply]
  show (if m.exhausted then _ else if limit ≤ m.depth then _ else _) = _ ∧ _
  split
  · exact ⟨rfl, fun _ _ e => by cases e; exact ⟨hP, hm⟩⟩
  split
  · refine ⟨?_, fun _ _ e => ?_⟩
    · rw [← m.hide_emit]
      rfl
    · cases e
      have := hm.emit (.report (.eval (.depthLimit limit) line))
      exact ⟨hP, this.entry, this.values⟩
  · obtain ⟨ec, hd⟩ := h k { m with depth := m.depth + 1 } ⟨hm.entry, hm.values⟩
    rw [deeper_apply, deeper_apply]
    show (c (Machine.hide k x { m with depth := m.depth + 1 })).map _ = _ ∧ _
    rw [ec]
    cases hx : d { m with depth := m.depth + 1 } with
    | none => exact ⟨rfl, fun _ _ e => by cases e⟩
    | some p =>
      obtain ⟨ha, hp⟩ := hd p.1 p.2 hx
      exact ⟨rfl, fun _ _ e => by cases e; exact ⟨ha, hp.entry, hp.values⟩⟩

/-- Evaluation of a node that does not mention a name is blind to it. -/
theorem blind_evaluate (limit fuel : Nat) {n : Node} (hn : x ∉ n.mentions) :
    Blind x hx v (Vocabulary.without x hx).value (evaluate limit fuel n)
      (evaluate limit fuel n) := by
  have h := @Correspondence.Framed.evaluate _ _ _ _ (@congruent_blind _ x hx v).framed
    (fun k m _ => ⟨rfl, fun _ _ e => by cases e⟩) limit limit
    (fun _ h => blind_limited Vocabulary.value_nothing h) fuel fuel (.refl _ fuel) n hn
  rwa [Lined.renumber_id] at h

end

end Eval

end

/-- **Unmentioned bindings do not interfere**: let neither a node nor any function among the values
that are bound mention `x`. With any fuel, evaluating the node ends with `x` bound to some value in
one of the frames exactly if it ends without, in the same value and, but for that binding, the same
machine; and the binding is still there. -/
theorem evaluate_unmentioned [Generator] {limit fuel k : Nat} {n : Node} {m : Machine} {f : Frame}
    {x : String} (v : Value) (hx : x ≠ previousName) (hn : x ∉ n.mentions)
    (he : ∀ frame ∈ m.env.frames, ∀ p ∈ frame, ∀ g, .function g ∈ p.2.operators →
      x ∉ g.parameters ∧ x ∉ g.body.mentions)
    (hk : m.env.frames[k]? = some f) (hf : Table.get? x f = none) :
    let m₁ := { m with env := m.env.modifyFrame (Table.insert x v) k }
    evaluate limit fuel n m = (evaluate limit fuel n m₁).map (fun p => (p.1, p.2.hide k x)) ∧
      ∀ w m', evaluate limit fuel n m₁ = some (w, m') → m'.env.entryAt k x = some v := by
  intro m₁
  have hidden : m₁.env.hide k x = m.env := Environment.hide_modifyFrame v hk hf
  have holds : m₁.Holds x hx v k := by
    constructor
    · show (m.env.modifyFrame (Table.insert x v) k).frames[k]?.bind (Table.get? x) = some v
      rw [Environment.frames_modifyFrame, List.getElem?_modify_eq, hk]
      exact Table.get?_insert_self x v f
    · rw [hidden]
      intro frame hframe p hp op ho
      cases op with
      | builtin => trivial
      | function g =>
        obtain ⟨hparameters, hbody⟩ := he frame hframe p hp g ho
        exact ⟨fun s hs e => hparameters (e ▸ hs), hbody⟩
  obtain ⟨same, kept⟩ := Eval.blind_evaluate limit fuel hn k m₁ holds
  have start : m₁.hide k x = m := congrArg (fun e => { m with env := e }) hidden
  rw [start] at same
  exact ⟨same, fun w m' e => (kept w m' e).2.entry⟩

open scoped Sigil.Random

/-- A function that is called in a loop, an assignment from the loop to a name beside `secret`, and
a definition after it. -/
theorem evaluate_unmentioned_loop :
    let body : Node := .call (.reference "+" 1) [.reference "y" 1, .reference "a" 1] 1
    let step : Node := .call (.reference "." 1)
      [.reference "y" 1, .call (.reference "f" 1) [.reference "c" 1] 1] 1
    let n : Node := .call (.reference ":" 1) [.reference "z" 1, .call (.reference "@" 1)
      [.literal (.string "ab") 1, .reference "i" 1, .reference "c" 1, step] 1] 1
    let globals : Frame := [("f", .operator (.function ⟨0, ["a"], body⟩)), ("y", .string "y")]
    let m : Machine :=
      { env := ⟨globals, [Environment.builtins]⟩, random := Generator.ofSeed 0, nextId := 1 }
    let v : Value := .operator (.function ⟨1, ["secret"], .reference "secret" 1⟩)
    let m₁ := { m with env := m.env.modifyFrame (Table.insert "secret" v) 0 }
    ∃ w m', evaluate 9 9 n m₁ = some (w, m') ∧
      Table.names m'.env.inner = ["f", "y", "secret", "z"] ∧
      evaluate 9 9 n m = some (w, m'.hide 0 "secret") ∧
      m'.env.entryAt 0 "secret" = some v := by
  intro body step n globals m v m₁
  have h : (evaluate 9 9 n m₁).map (fun p => Table.names p.2.env.inner) =
      some ["f", "y", "secret", "z"] := by decide +kernel
  obtain ⟨⟨w, m'⟩, h, hnames⟩ := Option.map_eq_some_iff.1 h
  have functions : ∀ f ∈ m.env.frames, ∀ p ∈ f, ∀ g, .function g ∈ p.2.operators →
      "secret" ∉ g.parameters ∧ "secret" ∉ g.body.mentions := by
    intro f hf p hp g hg
    rcases List.mem_cons.1 hf with rfl | hf
    · rcases List.mem_cons.1 hp with rfl | hp
      · cases List.mem_singleton.1 hg
        decide
      · rw [List.mem_singleton.1 hp] at hg
        cases hg
    · rw [List.mem_singleton.1 hf] at hp
      obtain ⟨b, -, hb⟩ := Environment.mem_builtins hp
      rw [hb] at hg
      cases List.mem_singleton.1 hg
  obtain ⟨same, kept⟩ := @evaluate_unmentioned _ 9 9 0 n m globals "secret" v (by decide)
    (by decide) functions rfl rfl
  rw [h] at same
  exact ⟨w, m', h, hnames, same, kept w m' h⟩

end Sigil
