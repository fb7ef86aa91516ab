import Mathlib.Data.List.Forall2
import Sigil.Proofs.Fuel
import Sigil.Random

/-!
# Read-only names

A name that starts with an underscore is bound once in a frame and keeps its value there.
Definitions and assignments see to it, but a name that is set is bound whatever it is bound to, and
a loop sets its names anew for every entry. What a loop does in its own frame therefore keeps only
what the frames around it bind (`Machine.KeepsAround`). But those are all the frames there are once
the frame of the loop is gone, so that whole evaluations keep the read-only names of every frame
(`Machine.KeepsReadOnly`).
-/

namespace Sigil

namespace Frame

/-- Every read-only name that `f` binds is bound by `g` to the same value. -/
def KeepsReadOnly (f g : Frame) : Prop :=
  ∀ name v, isReadOnly name = true → Table.get? name f = some v → Table.get? name g = some v

theorem KeepsReadOnly.refl (f : Frame) : KeepsReadOnly f f :=
  fun _ _ _ h => h

theorem KeepsReadOnly.trans {f g h : Frame} (hfg : KeepsReadOnly f g) (hgh : KeepsReadOnly g h) :
    KeepsReadOnly f h :=
  fun name v hn hv => hgh name v hn (hfg name v hn hv)

theorem keepsReadOnly_insert {f : Frame} {name : String} (v : Value)
    (h : isReadOnly name = true → Table.get? name f = none) :
    KeepsReadOnly f (Table.insert name v f) := by
  intro other w ho hw
  by_cases e : other = name
  · subst e
    rw [h ho] at hw
    cases hw
  · rw [Table.get?_insert_of_ne e]
    exact hw

end Frame

namespace Environment

/-- Every frame keeps its read-only names. -/
def FramesKept (fs gs : List Frame) : Prop :=
  List.Forall₂ Frame.KeepsReadOnly fs gs

theorem FramesKept.refl (fs : List Frame) : FramesKept fs fs :=
  List.forall₂_same.2 fun f _ => .refl f

theorem FramesKept.trans {fs gs hs : List Frame} (hfg : FramesKept fs gs)
    (hgh : FramesKept gs hs) : FramesKept fs hs := by
  induction hfg generalizing hs with
  | nil => exact hgh
  | cons hf _ ih =>
    cases hgh with
    | cons hg hgs => exact .cons (hf.trans hg) (ih hgs)

theorem framesKept_replace? {name : String} {v old : Value} (hn : isReadOnly name = false)
    {fs gs : List Frame} (h : replace? name v fs = some (old, gs)) : FramesKept fs gs := by
  induction fs generalizing gs with
  | nil => cases h
  | cons f fs ih =>
    unfold replace? at h
    split at h
    · cases h
      exact .cons (Frame.keepsReadOnly_insert v fun ho => by rw [hn] at ho; cases ho)
        (FramesKept.refl fs)
    · obtain ⟨⟨_, gs'⟩, hg, e⟩ := Option.map_eq_some_iff.1 h
      cases e
      exact .cons (.refl f) (ih hg)

theorem framesKept_assign (e : Environment) (name : String) (v : Value) :
    FramesKept e.frames (e.assign name v).2.frames := by
  rcases e.assign_cases name v with ⟨old, e', he, replaced⟩ | ⟨err, he, -⟩
  · rw [he]
    refine framesKept_replace? ?_ replaced
    cases hn : isReadOnly name with
    | false => rfl
    | true =>
      unfold assign at he
      rw [hn] at he
      cases he
  · rw [he]
    exact FramesKept.refl _

theorem framesKept_define (e : Environment) (name : String) (v : Value) :
    FramesKept e.frames (e.define name v).2.frames := by
  unfold define
  split
  · exact FramesKept.refl _
  · next writable =>
    refine .cons (Frame.keepsReadOnly_insert v fun ho => ?_) (FramesKept.refl _)
    simpa [ho] using writable

/-- Setting a name that is not read-only. -/
theorem framesKept_set (e : Environment) {name : String} (v : Value)
    (hn : isReadOnly name = false) : FramesKept e.frames (e.set name v).frames :=
  .cons (Frame.keepsReadOnly_insert v fun ho => by rw [hn] at ho; cases ho) (FramesKept.refl _)

end Environment

section

variable [Generator]

namespace Machine

/-- The frames around the innermost keep their read-only names. -/
def KeepsAround (m m' : Machine) : Prop :=
  Environment.FramesKept m.env.outer m'.env.outer

/-- All frames keep their read-only names. -/
def KeepsReadOnly (m m' : Machine) : Prop :=
  Environment.FramesKept m.env.frames m'.env.frames

theorem KeepsReadOnly.of_env {m m' : Machine} (h : m'.env = m.env) : KeepsReadOnly m m' := by
  unfold KeepsReadOnly
  rw [h]
  exact .refl _

theorem KeepsReadOnly.around {m m' : Machine} (h : KeepsReadOnly m m') : KeepsAround m m' := by
  cases h with
  | cons _ h => exact h

/-- Around a frame that was added are all frames there were. -/
theorem KeepsAround.pop {m m' : Machine} (h : KeepsAround { m with env := m.env.push } m') :
    KeepsReadOnly m { m' with env := m'.env.pop } := by
  have kept : Environment.FramesKept m.env.frames m'.env.outer := h
  have left : m'.env.outer ≠ [] := by
    intro hn
    rw [hn] at kept
    cases kept
  show Environment.FramesKept m.env.frames m'.env.pop.frames
  rw [Environment.frames_pop left]
  exact kept

theorem lawful_keepsAround : Lawful KeepsAround where
  refl _ := .refl _
  trans h₁ h₂ := h₁.trans h₂
  report m _ _ _ := (KeepsReadOnly.of_env (m.env_emit _)).around
  print m _ := (KeepsReadOnly.of_env (m.env_emit _)).around
  set _ _ _ := .refl _
  assign m name v old env h := by
    have kept := Environment.framesKept_assign m.env name v
    rw [h] at kept
    have kept : KeepsReadOnly m { m with env } := kept
    exact kept.around
  draw _ _ := .refl _
  freshId _ _ := .refl _
  frame h := h.pop.around
  deeper h := h
  exhaust m _ _ _ := (KeepsReadOnly.of_env (m.env_emit _)).around

end Machine

namespace Eval

open Machine

/-- The computations that keep the read-only names of all frames. -/
theorem framed_keepsReadOnly :
    Correspondence.Framed .any id fun P x _ => Keeps KeepsReadOnly P x where
  pure ha m _ _ e := by cases e; exact ⟨ha, .of_env rfl⟩
  bind hx hf m b m' e := by
    obtain ⟨a, m₁, e₁, e₂⟩ := bind_eq_some_iff.1 e
    have h₁ := hx m a m₁ e₁
    have h₂ := hf a h₁.1 m₁ b m' e₂
    exact ⟨h₂.1, h₁.2.trans h₂.2⟩
  report _ _ m _ _ e := by cases e; exact ⟨trivial, .of_env (m.env_emit _)⟩
  print m _ _ e := by cases e; exact ⟨trivial, .of_env (m.env_emit _)⟩
  get? _ m _ _ e := by cases e; exact ⟨fun v _ => Vocabulary.any_value v, .of_env rfl⟩
  callee _ m _ _ e := by
    cases e
    exact ⟨fun v _ => (Vocabulary.any_value v).callable, .of_env rfl⟩
  define {name v} _ _ m a m' e := by
    rw [define_apply] at e
    cases e
    refine ⟨?_, Environment.framesKept_define m.env name v⟩
    rcases m.env.define_cases name v with he | ⟨err, he, fault⟩ <;> rw [he]
    · trivial
    · exact fault
  assign {name v} _ _ m a m' e := by
    rw [assign_apply] at e
    cases e
    refine ⟨?_, Environment.framesKept_assign m.env name v⟩
    rcases m.env.assign_cases name v with ⟨old, env, he, -⟩ | ⟨err, he, fault⟩ <;> rw [he]
    · exact Vocabulary.any_value old
    · exact fault
  inFrame hx m a m' e := by
    obtain ⟨m₁, e₁, rfl⟩ := inFrame_eq_some_iff.1 e
    have h₁ := hx _ a m₁ e₁
    exact ⟨h₁.1, h₁.2.around.pop⟩
  draw hf m b m' e := by
    obtain ⟨drawn, m₁, e₁, e₂⟩ := bind_eq_some_iff.1 e
    obtain ⟨random, -, rfl⟩ := draw_eq_some_iff.1 e₁
    have same : KeepsReadOnly m { m with random } := .of_env rfl
    have h := hf drawn { m with random } b m' e₂
    exact ⟨h.1, same.trans h.2⟩
  freshId hf m b m' e := by
    have taken : KeepsReadOnly m { m with nextId := m.nextId + 1 } := .of_env rfl
    have h := hf m.nextId { m with nextId := m.nextId + 1 } b m' e
    exact ⟨h.1, taken.trans h.2⟩
  admits := Vocabulary.any.admits
  previous {v} _ m _ _ e := by
    cases e
    exact ⟨trivial, Environment.framesKept_set m.env v (by decide)⟩
  iteration {ev _ index value? body es} hev hi hv hb he m a m' e := by
    -- In its frame the loop keeps the frames around; each turn of its body keeps all of them.
    obtain ⟨m₁, e₁, rfl⟩ := inFrame_eq_some_iff.1 e
    have around : Keeps KeepsAround Vocabulary.any.value
        (Operator.entries ev index value? body .nothing es) := by
      have turn : ∀ n, Vocabulary.any.node n → Keeps KeepsAround Vocabulary.any.value (ev n) := by
        intro n hn m v m' e
        have h := hev n hn m v m' e
        exact ⟨h.1, h.2.around⟩
      have congruent := lawful_keepsAround.closed.congruent
      exact @Correspondence.Basic.entries _ _ _ _ _ congruent.toBasic congruent.set ev ev turn
        index value? body hi hv hb .nothing es Vocabulary.value_nothing he
    have h₁ := around _ a m₁ e₁
    exact ⟨h₁.1, h₁.2.pop⟩

theorem keepsReadOnly_limited {P : Value → Prop} (hP : P .nothing) {limit line : Nat}
    {x : Eval Value} (hx : Keeps KeepsReadOnly P x) :
    Keeps KeepsReadOnly P (limited limit line x) := by
  intro m v m' e
  rw [limited_apply] at e
  split at e
  · cases e; exact ⟨hP, .of_env rfl⟩
  split at e
  · cases e; exact ⟨hP, .of_env (m.env_emit _)⟩
  · obtain ⟨m₁, e₁, rfl⟩ := deeper_eq_some_iff.1 e
    exact hx { m with depth := m.depth + 1 } v m₁ e₁

theorem keepsReadOnly_evaluate (limit fuel : Nat) (n : Node) :
    Keeps KeepsReadOnly Vocabulary.any.value (evaluate limit fuel n) :=
  @Correspondence.Framed.evaluate _ _ _ _ framed_keepsReadOnly (fun _ _ _ e => by cases e)
    limit limit (fun _ hx => keepsReadOnly_limited Vocabulary.value_nothing hx) fuel fuel
    (.refl _ fuel) n trivial

theorem keepsReadOnly_statements (limit fuel : Nat) (ns : List Node) :
    Keeps KeepsReadOnly Vocabulary.any.value (statements (evaluate limit fuel) ns) :=
  @Correspondence.Local.statements _ _ _ _ _ framed_keepsReadOnly.toLocal _ (evaluate limit fuel)
    (fun n _ => keepsReadOnly_evaluate limit fuel n) ns fun _ _ => trivial

end Eval

namespace Interpreter

theorem framesKept_run {fuel : Nat} {i j : Interpreter} {source : String} {o : Outcome}
    (h : i.run fuel source = some (o, j)) :
    Environment.FramesKept i.env.frames j.env.frames := by
  rcases run_cases source with ⟨d, hd⟩ | ⟨ts, -, hr⟩
  · rw [hd] at h
    cases h
    exact .refl _
  · rw [hr] at h
    obtain ⟨v, m, hs, -, rfl⟩ := evaluateProgram_eq_some_iff.1 h
    exact (Eval.keepsReadOnly_statements i.limit fuel _ _ v m hs).2

theorem framesKept_runAll {fuel : Nat} {i j : Interpreter} {sources : List String}
    {os : List Outcome} (h : i.runAll fuel sources = some (os, j)) :
    Environment.FramesKept i.env.frames j.env.frames := by
  induction sources generalizing i os with
  | nil => cases h; exact .refl _
  | cons source sources ih =>
    obtain ⟨⟨o, k⟩, hk, h⟩ := Option.bind_eq_some_iff.1 h
    obtain ⟨⟨os', j'⟩, hj, e⟩ := Option.map_eq_some_iff.1 h
    cases e
    exact (framesKept_run hk).trans (ih hj)

end Interpreter

/-- **Read-only names keep their value**: whenever the evaluation of a node, or of statements, ends,
every frame that was there still binds the read-only names it bound to the same values. So a
read-only global has the value it was first given after any further runs. -/
theorem readOnly_names_kept :
    (∀ {limit fuel : Nat} {n : Node} {m m' : Machine} {v : Value},
      evaluate limit fuel n m = some (v, m') →
        Environment.FramesKept m.env.frames m'.env.frames) ∧
    (∀ {limit fuel : Nat} {ns : List Node} {m m' : Machine} {v : Value},
      Eval.statements (evaluate limit fuel) ns m = some (v, m') →
        Environment.FramesKept m.env.frames m'.env.frames) ∧
    ∀ {fuel : Nat} {i j : Interpreter} {sources : List String} {os : List Outcome}
      {name : String} {v : Value}, i.runAll fuel sources = some (os, j) →
      isReadOnly name = true → Table.get? name i.env.inner = some v →
        Table.get? name j.env.inner = some v := by
  refine ⟨fun h => ?_, fun h => ?_, fun h hn hv => ?_⟩
  · exact (Eval.keepsReadOnly_evaluate _ _ _ _ _ _ h).2
  · exact (Eval.keepsReadOnly_statements _ _ _ _ _ _ h).2
  · cases Interpreter.framesKept_runAll h with
    | cons inner _ => exact inner _ _ hn hv

end

open scoped Sigil.Random

/-- A read-only global that is assigned, defined again, counted up, made the value of a loop and the
parameter of a function: in a scope, where it may be defined once more, as statements, and as a
run. -/
theorem readOnly_names_kept_session :
    let i := { ({} : Config).interpreter (Generator.ofSeed 0) with
      env := Environment.initial.set "_x" (.number 1) }
    let source := ". _x 'b'\n: _x 'c' f ~ _x (: _x 'd')\n++ _x\n@ 'ef' _i _x (. _x 'g')\nf 'h'"
    let ns := (parse ((Token.lex source).toOption.getD [])).1
    (∃ v m, evaluate 9 9 (.scope ns 1) (i.machine []) = some (v, m) ∧ m.trace.length = 5 ∧
      Environment.FramesKept i.env.frames m.env.frames) ∧
    (∃ v m, Eval.statements (evaluate 9 9) ns (i.machine []) = some (v, m) ∧ m.trace.length = 6 ∧
      Environment.FramesKept i.env.frames m.env.frames) ∧
    ∃ o j, i.runAll 9 [source] = some ([o], j) ∧ o.diagnostics.length = 6 ∧
      Table.get? "_x" i.env.inner = some (.number 1) ∧
      Table.get? "_x" j.env.inner = some (.number 1) := by
  intro i source ns
  refine ⟨?_, ?_, ?_⟩
  · have h : (evaluate 9 9 (.scope ns 1) (i.machine [])).map (·.2.trace.length) = some 5 := by
      decide +kernel
    obtain ⟨⟨v, m⟩, h, ht⟩ := Option.map_eq_some_iff.1 h
    exact ⟨v, m, h, ht, readOnly_names_kept.1 h⟩
  · have h : (Eval.statements (evaluate 9 9) ns (i.machine [])).map (·.2.trace.length) =
        some 6 := by decide +kernel
    obtain ⟨⟨v, m⟩, h, ht⟩ := Option.map_eq_some_iff.1 h
    exact ⟨v, m, h, ht, readOnly_names_kept.2.1 h⟩
  · have h : (i.runAll 9 [source]).map (fun p => p.1.map (·.diagnostics.length)) = some [6] := by
      decide +kernel
    obtain ⟨⟨os, j⟩, h, ho⟩ := Option.map_eq_some_iff.1 h
    obtain ⟨o, os, rfl, hd, hn⟩ := List.map_eq_cons_iff.1 ho
    obtain rfl := List.map_eq_nil_iff.1 hn
    exact ⟨o, j, h, hd, rfl, readOnly_names_kept.2.2 h (by decide) rfl⟩

end Sigil
