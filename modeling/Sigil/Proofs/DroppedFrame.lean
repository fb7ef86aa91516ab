import Sigil.Proofs.Frames

/-!
# What a dropped frame leaves

Names are set and defined in the innermost frame and assigned wherever they are bound. Of writes to
an environment whose innermost frame is then dropped, only assignments that reach the frames around
it are left. Which ones do depends on what the innermost frame binds when they run, and so on the
writes before them: a `Step` is a write with the environment that it runs in.

A write that goes outward does the same without the innermost frame (`Write.answer_pop`,
`Write.after_pop`), and any other is gone with that frame (`Write.pop_after_of_inward`). So a
sequence of writes leaves what its outward steps alone make of the frames around
(`Environment.pop_keeps_outward`).
-/

namespace Sigil

namespace Environment

theorem assign_pop {e : Environment} (he : 2 ≤ e.depth) {name : String}
    (hn : Table.get? name e.inner = none) (v : Value) :
    e.pop.assign name v = ((e.assign name v).1, (e.assign name v).2.pop) := by
  obtain ⟨inner, _ | ⟨f, fs⟩⟩ := e
  · exact absurd he (Nat.lt_irrefl 1)
  unfold assign
  split
  · rfl
  simp only [hn, pop, replace?]
  cases Table.get? name f with
  | some old => rfl
  | none => cases replace? name v fs <;> rfl

theorem outer_assign {e e' : Environment} {name : String} {v old : Value}
    (hn : (Table.get? name e.inner).isSome) (h : e.assign name v = (.ok old, e')) :
    e'.outer = e.outer := by
  unfold assign at h
  split at h
  · cases h
  · obtain ⟨w, hw⟩ := Option.isSome_iff_exists.1 hn
    rw [hw] at h
    cases h
    rfl

theorem depth_assign {e e' : Environment} {name : String} {v old : Value}
    (h : e.assign name v = (.ok old, e')) : e'.depth = e.depth := by
  have same := congrArg List.length (names_assign h)
  simpa only [names, List.length_map, depth] using same

theorem pop_congr {e e' : Environment} (he : 2 ≤ e.depth) (h : e'.outer = e.outer) :
    e'.pop = e.pop := by
  obtain ⟨inner, _ | ⟨f, fs⟩⟩ := e
  · exact absurd he (Nat.lt_irrefl 1)
  · unfold pop
    rw [h]

end Environment

/-! ## One write -/

/-- A way to write a name. -/
inductive Write where
  | set (name : String) (v : Value)
  | define (name : String) (v : Value)
  | assign (name : String) (v : Value)

namespace Write

/-- What a write answers. Only an assignment answers with a value, the one that the name had
before. -/
def answer : Write → Environment → Except EvalError (Option Value)
  | set _ _, _ => .ok none
  | define name v, e => (e.define name v).1.map fun _ => none
  | assign name v, e => (e.assign name v).1.map some

/-- The environment that a write leaves. -/
def after : Write → Environment → Environment
  | set name v, e => e.set name v
  | define name v, e => (e.define name v).2
  | assign name v, e => (e.assign name v).2

/-- Whether a write assigns a name that the innermost frame does not bind. -/
def isOutward : Write → Environment → Bool
  | assign name _, e => (Table.get? name e.inner).isNone
  | set _ _, _ | define _ _, _ => false

variable {w : Write} {e : Environment}

/-- What a write can do: fail and change nothing, bind a name in the innermost frame, or change a
binding. -/
theorem after_cases (w : Write) (e : Environment) :
    (∃ err, w.answer e = .error err ∧ w.after e = e) ∨
      (w.answer e = .ok none ∧ ∃ name v, w.after e = e.set name v) ∨
      ∃ name v old, w = assign name v ∧ w.answer e = .ok (some old) ∧
        e.assign name v = (.ok old, w.after e) := by
  cases w with
  | set name v => exact .inr (.inl ⟨rfl, name, v, rfl⟩)
  | define name v =>
    rcases e.define_cases name v with h | ⟨err, h, -⟩
    · exact .inr (.inl ⟨by rw [answer, h]; rfl, name, v, by rw [after, h]⟩)
    · exact .inl ⟨err, by rw [answer, h]; rfl, by rw [after, h]⟩
  | assign name v =>
    rcases e.assign_cases name v with ⟨old, e', h, -⟩ | ⟨err, h, -⟩
    · exact .inr (.inr ⟨name, v, old, rfl, by rw [answer, h]; rfl, by rw [after, h]⟩)
    · exact .inl ⟨err, by rw [answer, h]; rfl, by rw [after, h]⟩

theorem after_of_error {err : EvalError} (h : w.answer e = .error err) : w.after e = e := by
  obtain ⟨-, -, same⟩ | ⟨ok, -⟩ | ⟨name, v, old, -, ok, -⟩ := w.after_cases e
  · exact same
  · rw [ok] at h; cases h
  · rw [ok] at h; cases h

theorem depth_after (w : Write) (e : Environment) : (w.after e).depth = e.depth := by
  obtain ⟨-, -, h⟩ | ⟨-, name, v, h⟩ | ⟨name, v, old, -, -, h⟩ := w.after_cases e
  · rw [h]
  · rw [h, Environment.depth_set]
  · exact Environment.depth_assign h

theorem answer_pop (he : 2 ≤ e.depth) (h : w.isOutward e = true) :
    w.answer e.pop = w.answer e := by
  cases w with
  | assign name v =>
    simp only [answer, Environment.assign_pop he (Option.isNone_iff_eq_none.1 h)]
  | set | define => cases h

theorem after_pop (he : 2 ≤ e.depth) (h : w.isOutward e = true) :
    w.after e.pop = (w.after e).pop := by
  cases w with
  | assign name v =>
    simp only [after, Environment.assign_pop he (Option.isNone_iff_eq_none.1 h)]
  | set | define => cases h

theorem pop_after_of_inward (he : 2 ≤ e.depth) (h : w.isOutward e = false) :
    (w.after e).pop = e.pop := by
  refine Environment.pop_congr he ?_
  obtain ⟨-, -, same⟩ | ⟨-, name, v, bound⟩ | ⟨name, v, old, rfl, -, assigned⟩ := w.after_cases e
  · rw [same]
  · rw [bound]; rfl
  · exact Environment.outer_assign (Option.isNone_eq_false_iff.1 h) assigned

end Write

/-! ## Writes one after the other -/

/-- A write, and the environment in which it runs. -/
structure Step where
  before : Environment
  write : Write

namespace Step

def answer (s : Step) : Except EvalError (Option Value) :=
  s.write.answer s.before

def after (s : Step) : Environment :=
  s.write.after s.before

def isOutward (s : Step) : Bool :=
  s.write.isOutward s.before

end Step

namespace Environment

/-- The steps of writes that run one after the other. -/
def steps : Environment → List Write → List Step
  | _, [] => []
  | e, w :: ws => ⟨e, w⟩ :: steps (w.after e) ws

/-- The environment after writes that run one after the other. -/
def afterAll : Environment → List Write → Environment
  | e, [] => e
  | e, w :: ws => afterAll (w.after e) ws

/-- The steps that assign a name which the innermost frame does not bind when they run. -/
def outwardSteps (e : Environment) (ws : List Write) : List Step :=
  (e.steps ws).filter Step.isOutward

theorem outwardSteps_of_outward {e : Environment} {w : Write} (h : w.isOutward e = true)
    (ws : List Write) :
    e.outwardSteps (w :: ws) = ⟨e, w⟩ :: (w.after e).outwardSteps ws :=
  List.filter_cons_of_pos h

theorem outwardSteps_of_inward {e : Environment} {w : Write} (h : w.isOutward e = false)
    (ws : List Write) : e.outwardSteps (w :: ws) = (w.after e).outwardSteps ws :=
  List.filter_cons_of_neg (by rw [Step.isOutward, h]; exact Bool.false_ne_true)

/-- The two runs in step: after every write, what is left without the innermost frame is what the
outward writes so far made of it. -/
theorem pop_afterAll {e : Environment} (he : 2 ≤ e.depth) (ws : List Write) :
    (e.afterAll ws).pop = e.pop.afterAll ((e.outwardSteps ws).map (·.write)) ∧
    (e.pop.steps ((e.outwardSteps ws).map (·.write))).map Step.answer =
      (e.outwardSteps ws).map Step.answer := by
  induction ws generalizing e with
  | nil => exact ⟨rfl, rfl⟩
  | cons w ws ih =>
    obtain ⟨left, answers⟩ := ih (e := w.after e) (by rw [w.depth_after]; exact he)
    cases h : w.isOutward e with
    | true =>
      rw [outwardSteps_of_outward h]
      simp only [List.map_cons, afterAll, steps, Write.after_pop he h]
      refine ⟨left, ?_⟩
      rw [answers]
      exact congrArg (· :: _) (Write.answer_pop he h)
    | false =>
      rw [outwardSteps_of_inward h, ← Write.pop_after_of_inward he h]
      exact ⟨left, answers⟩

/-- **Dropping a frame keeps exactly the outward assignments**: writes to an environment with a
frame to drop, and then the loss of that frame, come to the same as the loss of the frame and then,
in order, those assignments whose name it did not bind when they ran. These give the same answers
both times, and a write that fails changes nothing. -/
theorem pop_keeps_outward {e : Environment} (he : 2 ≤ e.depth) (ws : List Write) :
    (e.afterAll ws).pop = e.pop.afterAll ((e.outwardSteps ws).map (·.write)) ∧
    (e.pop.steps ((e.outwardSteps ws).map (·.write))).map Step.answer =
      (e.outwardSteps ws).map Step.answer ∧
    ∀ s ∈ e.steps ws, ∀ err, s.answer = .error err → s.after = s.before := by
  obtain ⟨left, answers⟩ := pop_afterAll he ws
  exact ⟨left, answers, fun _ _ _ failed => Write.after_of_error failed⟩

/-- An assignment goes out as long as the name is bound further out only. After a definition of the
name it does not, and a name that is read-only or bound nowhere is refused with and without the
frame. -/
theorem pop_keeps_outward_shadowed :
    let e : Environment := ⟨[("y", .number 1)], [[("x", .number 2)], [("x", .nothing)]]⟩
    let ws : List Write := [.assign "x" (.string "out"), .define "x" (.number 3),
      .assign "x" (.string "in"), .assign "y" .nothing, .define "_k" .nothing,
      .set "_k" (.number 4), .define "_k" (.number 5), .assign "_k" (.number 6),
      .assign "_m" .nothing, .assign "z" .nothing]
    let out : List Write :=
      [.assign "x" (.string "out"), .assign "_m" .nothing, .assign "z" .nothing]
    2 ≤ e.depth ∧ (e.outwardSteps ws).map (·.write) = out ∧
    (e.afterAll ws).pop = ⟨[("x", .string "out")], [[("x", .nothing)]]⟩ ∧
    (e.afterAll ws).pop = e.pop.afterAll out ∧
    (e.pop.steps out).map Step.answer =
      [.ok (some (.number 2)), .error (.readOnly "_m"), .error (.undeclared "z")] ∧
    (e.pop.steps out).map Step.answer = (e.outwardSteps ws).map Step.answer ∧
    ∀ s ∈ e.steps ws, ∀ err, s.answer = .error err → s.after = s.before := by
  intro e ws out
  have deep : 2 ≤ e.depth := by decide
  have reach : (e.outwardSteps ws).map (·.write) = out := by
    simp [e, ws, out, outwardSteps, steps, Step.isOutward, Write.isOutward, Write.after,
      set, define, assign, replace?, isReadOnly, Table.get?, Table.insert]
  obtain ⟨left, answers, failed⟩ := pop_keeps_outward deep ws
  rw [reach] at left answers
  have frames : e.pop.afterAll out = ⟨[("x", .string "out")], [[("x", .nothing)]]⟩ := rfl
  have given : (e.pop.steps out).map Step.answer =
      [.ok (some (.number 2)), .error (.readOnly "_m"), .error (.undeclared "z")] := rfl
  exact ⟨deep, reach, left.trans frames, left, given, answers, failed⟩

end Environment

end Sigil
