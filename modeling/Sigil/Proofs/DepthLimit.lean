import Sigil.Proofs.Fuel
import Sigil.Random

/-!
# The depth limit

Reaching the limit is the last thing that can be seen of a run: `Machine.Winding` says so of the
machine before and after. Two evaluations that differ in their limits go on in step until the lower
limit is reached (`Eval.Shortened`). So a run that stays below its limit is the same under every
higher one, and a run that reaches it shows, up to the report of that, a beginning of what it would
show under a higher one (`Interpreter.runsTo_withLimit`).
-/

namespace Sigil

def Diagnostic.isLimit : Diagnostic → Bool
  | eval e _ => e.isLimit
  | lex _ | parse _ => false

def Event.isLimit : Event → Bool
  | report d => d.isLimit
  | print _ => false

theorem Outcome.exists_isLimit_iff {o : Outcome} :
    (∃ d ∈ o.diagnostics, d.isLimit = true) ↔ ∃ e ∈ o.events, e.isLimit = true := by
  constructor
  · rintro ⟨d, hd, hl⟩
    obtain ⟨e, he, hed⟩ := List.mem_filterMap.1 hd
    cases e with
    | print => cases hed
    | report => cases hed; exact ⟨_, he, hl⟩
  · rintro ⟨e, he, hl⟩
    cases e with
    | print => cases hl
    | report d => exact ⟨d, List.mem_filterMap.2 ⟨_, he, rfl⟩, hl⟩

section

variable [Generator]

namespace Machine

/-- From `m` to `m'` events are only added; none are once the limit is reached; and the report of
the limit is the last of them, and is there exactly if the limit is reached between the two. -/
structure Winding (m m' : Machine) : Prop where
  grows : m.trace <:+ m'.trace
  quiet : m.exhausted = true → m'.exhausted = true ∧ m'.trace = m.trace
  below : m'.exhausted = false → ∀ e ∈ m'.trace, e.isLimit = true → e ∈ m.trace
  reached : m.exhausted = false → m'.exhausted = true →
    ∃ e es, m'.trace = e :: es ∧ e.isLimit = true ∧ ∀ d ∈ es, d.isLimit = true → d ∈ m.trace

theorem Winding.of_eq {m m' : Machine} (ht : m'.trace = m.trace)
    (hx : m'.exhausted = m.exhausted) : Winding m m' where
  grows := ht ▸ List.suffix_rfl
  quiet h := ⟨hx.trans h, ht⟩
  below _ e he _ := by rwa [ht] at he
  reached h h' := by rw [hx, h] at h'; cases h'

theorem Winding.trans {m₁ m₂ m₃ : Machine} (h₁ : Winding m₁ m₂) (h₂ : Winding m₂ m₃) :
    Winding m₁ m₃ where
  grows := h₁.grows.trans h₂.grows
  quiet h := by
    have q₁ := h₁.quiet h
    have q₂ := h₂.quiet q₁.1
    exact ⟨q₂.1, q₂.2.trans q₁.2⟩
  below h e he hl := by
    have hx : m₂.exhausted = false := by
      cases hm : m₂.exhausted with
      | false => rfl
      | true => rw [(h₂.quiet hm).1] at h; cases h
    exact h₁.below hx e (h₂.below h e he hl) hl
  reached h h' := by
    cases hm : m₂.exhausted with
    | true => rw [(h₂.quiet hm).2]; exact h₁.reached h hm
    | false =>
      obtain ⟨e, es, ht, he, hes⟩ := h₂.reached hm h'
      exact ⟨e, es, ht, he, fun d hd hl => h₁.below hm d (hes d hd hl) hl⟩

theorem Winding.emit {m : Machine} {e : Event} (he : e.isLimit = false) : Winding m (m.emit e) := by
  unfold Machine.emit
  split
  · exact .of_eq rfl rfl
  · next hx =>
    have hx : m.exhausted = false := by simpa using hx
    refine ⟨List.suffix_cons _ _, fun h => ?_, fun _ d hd hl => ?_, fun _ h => ?_⟩
    · rw [hx] at h; cases h
    · rcases List.mem_cons.1 hd with rfl | hd
      · rw [he] at hl; cases hl
      · exact hd
    · exact absurd h (by simp [hx])

theorem lawful_winding : Lawful Winding where
  refl m := .of_eq rfl rfl
  trans := Winding.trans
  report m e line he := .emit he
  print m text := .emit rfl
  set m name v := .of_eq rfl rfl
  assign m _ _ _ _ _ := .of_eq rfl rfl
  draw m random := .of_eq rfl rfl
  freshId m nextId := .of_eq rfl rfl
  frame h := ⟨h.grows, h.quiet, h.below, h.reached⟩
  deeper h := ⟨h.grows, h.quiet, h.below, h.reached⟩
  exhaust m limit line hx := by
    have ht : (m.emit (.report (.eval (.depthLimit limit) line))).trace =
        .report (.eval (.depthLimit limit) line) :: m.trace := by simp [emit, hx]
    refine ⟨?_, fun h => ?_, fun h => ?_, fun _ _ => ⟨_, _, ht, rfl, fun d hd _ => hd⟩⟩
    · exact ht ▸ List.suffix_cons _ _
    · rw [hx] at h; cases h
    · cases h

end Machine

namespace Eval

/-- The second computation goes on where the first is cut short by its limit: it ends like the first
if the limit is not reached, and shows at least what the first showed before reaching it. -/
def Shortened {α : Type} (x y : Eval α) : Prop :=
  ∀ m a m', m.exhausted = false → x m = some (a, m') →
    (m'.exhausted = false → y m = some (a, m')) ∧
    (m'.exhausted = true → ∀ b m'', y m = some (b, m'') → m'.trace.tail <:+ m''.trace)

theorem shortened_bind {α β : Type} {P : α → Prop} {Q : β → Prop} {x y : Eval α}
    {f g : α → Eval β} (hy : Keeps Machine.Winding P y) (h : Shortened x y)
    (hx : ∀ m a m', x m = some (a, m') → P a) (hf : ∀ a, P a → Keeps Machine.Winding Q (f a))
    (hg : ∀ a, P a → Keeps Machine.Winding Q (g a)) (hfg : ∀ a, P a → Shortened (f a) (g a)) :
    Shortened (x >>= f) (y >>= g) := by
  intro m b m' hm e
  obtain ⟨a, m₁, ex, ef⟩ := bind_eq_some_iff.1 e
  have ha := hx m a m₁ ex
  obtain ⟨below, reached⟩ := h m a m₁ hm ex
  cases hm₁ : m₁.exhausted with
  | false =>
    -- in step so far: the two can differ only in what comes after
    have ey := below hm₁
    obtain ⟨below', reached'⟩ := hfg a ha m₁ b m' hm₁ ef
    refine ⟨fun h' => bind_eq_some_iff.2 ⟨a, m₁, ey, below' h'⟩, fun h' c m'' e' => ?_⟩
    obtain ⟨a', m₂, ey', eg⟩ := bind_eq_some_iff.1 e'
    rw [ey] at ey'
    cases ey'
    exact reached' h' c m'' eg
  | true =>
    -- the first is winding down and shows nothing more
    obtain ⟨hx', ht⟩ := (hf a ha m₁ b m' ef).2.quiet hm₁
    refine ⟨fun h' => ?_, fun _ c m'' e' => ?_⟩
    · rw [hx'] at h'; cases h'
    · obtain ⟨a', m₂, ey, eg⟩ := bind_eq_some_iff.1 e'
      rw [ht]
      exact (reached hm₁ a' m₂ ey).trans (hg a' (hy m a' m₂ ey).1 m₂ c m'' eg).2.grows

theorem comparison_shortened : Comparison Machine.Winding Shortened where
  refl x m a m' _ e := by
    refine ⟨fun _ => e, fun _ b m'' e' => ?_⟩
    rw [e] at e'
    cases e'
    exact List.tail_suffix _
  bind hx hy h hf hg hfg :=
    shortened_bind hy h (fun m a m' e => (hx m a m' e).1) hf hg hfg
  cut y m a m' _ e := by cases e
  inFrame h m a m' hm e := by
    obtain ⟨m₁, e₁, rfl⟩ := inFrame_eq_some_iff.1 e
    obtain ⟨below, reached⟩ := h { m with env := m.env.push } a m₁ hm e₁
    refine ⟨fun h' => inFrame_eq_some_iff.2 ⟨m₁, below h', rfl⟩, fun h' b m'' e' => ?_⟩
    obtain ⟨m₂, e₂, rfl⟩ := inFrame_eq_some_iff.1 e'
    exact reached h' b m₂ e₂

/-- Only the lower limit can be reached alone, and nothing was shown since the two were in step. -/
theorem shortened_limited {limit limit' line : Nat} (hl : limit ≤ limit') {P : Value → Prop}
    (hP : P .nothing) {x y : Eval Value} (hy : Keeps Machine.Winding P y) (h : Shortened x y) :
    Shortened (limited limit line x) (limited limit' line y) := by
  intro m a m' hm e
  rw [limited_apply, if_neg (by simp [hm])] at e
  split at e
  · cases e
    refine ⟨fun h' => Bool.noConfusion h', fun _ b m'' e' => ?_⟩
    have hg := (Machine.lawful_winding.keeps_limited hP hy m b m'' e').2.grows
    simpa [Machine.emit, hm] using hg
  · next hd =>
    obtain ⟨m₁, e₁, rfl⟩ := deeper_eq_some_iff.1 e
    obtain ⟨below, reached⟩ := h { m with depth := m.depth + 1 } a m₁ hm e₁
    rw [limited_of_below hm (by omega)]
    refine ⟨fun h' => deeper_eq_some_iff.2 ⟨m₁, below h', rfl⟩, fun h' b m'' e' => ?_⟩
    obtain ⟨m₂, e₂, rfl⟩ := deeper_eq_some_iff.1 e'
    exact reached h' b m₂ e₂

end Eval

theorem both_statements_shortened {limit limit' : Nat} (hl : limit ≤ limit') (fuel : Nat)
    (ns : List Node) :
    Eval.Both Machine.Winding Eval.Shortened Vocabulary.any.value
      (Eval.statements (evaluate limit fuel) ns) (Eval.statements (evaluate limit' fuel) ns) := by
  have closed := Machine.lawful_winding.closed_comparison Eval.comparison_shortened
  have nothing : Vocabulary.any.value .nothing := Vocabulary.value_nothing
  refine closed.statements (fun n _ => closed.evaluate ?_ (Nat.le_refl fuel) trivial)
    fun _ _ => trivial
  rintro line x y - ⟨hx, hy, h⟩
  exact ⟨Machine.lawful_winding.keeps_limited nothing hx,
    Machine.lawful_winding.keeps_limited nothing hy, Eval.shortened_limited hl nothing hy h⟩

end

namespace Interpreter

section

variable [Generator]

/-- The interpreter with another limit. -/
def withLimit (i : Interpreter) (limit : Nat) : Interpreter :=
  { i with limit }

/-- An evaluation that starts with nothing but faults of the text reports the limit exactly if it
reaches it. -/
theorem exhausted_iff {i : Interpreter} {errors : List ParseError} {m : Machine} (v : Value)
    (h : (i.machine (errors.map fun e => .report (.parse e))).Winding m) :
    m.exhausted = true ↔
      ∃ d ∈ (Outcome.mk v m.trace.reverse).diagnostics, d.isLimit = true := by
  rw [Outcome.exists_isLimit_iff]
  constructor
  · intro hx
    obtain ⟨e, es, ht, he, -⟩ := h.reached rfl hx
    exact ⟨e, by simp [ht], he⟩
  · rintro ⟨e, he, hl⟩
    cases hx : m.exhausted with
    | true => rfl
    | false =>
      have hm : e ∈ (errors.map fun e => Event.report (.parse e)).reverse :=
        h.below hx e (List.mem_reverse.1 he) hl
      obtain ⟨p, -, rfl⟩ := List.mem_map.1 (List.mem_reverse.1 hm)
      cases hl

section

variable {i j j' : Interpreter} {ns : List Node} {errors : List ParseError} {o o' : Outcome}
  {limit limit' fuel : Nat} (hl : limit ≤ limit')

include hl

theorem evaluateProgram_of_below
    (h : (i.withLimit limit).evaluateProgram fuel ns errors = some (o, j))
    (hn : ∀ d ∈ o.diagnostics, d.isLimit = false) :
    (i.withLimit limit').evaluateProgram fuel ns errors = some (o, j.withLimit limit') := by
  obtain ⟨v, m, hs, rfl, rfl⟩ := evaluateProgram_eq_some_iff.1 h
  obtain ⟨hk, -, hc⟩ := both_statements_shortened hl fuel ns
  have hx : m.exhausted = false := by
    rw [← Bool.not_eq_true, exhausted_iff v (hk _ v m hs).2]
    rintro ⟨d, hd, hdl⟩
    rw [hn d hd] at hdl
    cases hdl
  exact evaluateProgram_eq_some_iff.2 ⟨v, m, (hc _ v m rfl hs).1 hx, rfl, rfl⟩

theorem events_of_reached
    (h : (i.withLimit limit).evaluateProgram fuel ns errors = some (o, j))
    (hx : ∃ d ∈ o.diagnostics, d.isLimit = true)
    (h' : (i.withLimit limit').evaluateProgram fuel ns errors = some (o', j')) :
    o.events.dropLast <+: o'.events := by
  obtain ⟨v, m, hs, rfl, -⟩ := evaluateProgram_eq_some_iff.1 h
  obtain ⟨v', m', hs', rfl, -⟩ := evaluateProgram_eq_some_iff.1 h'
  obtain ⟨hk, -, hc⟩ := both_statements_shortened hl fuel ns
  rw [← exhausted_iff v (hk _ v m hs).2] at hx
  rw [List.dropLast_reverse, List.reverse_prefix]
  exact (hc _ v m rfl hs).2 hx v' m' hs'

end

/-- **The limit only cuts**: a run that does not report its limit is the same under a higher one,
and one that does shows, but for that report, a beginning of what a run under a higher limit shows
if it ends. -/
theorem runsTo_withLimit (i : Interpreter) (source : String) {limit limit' : Nat}
    (hl : limit ≤ limit') :
    (∀ o j, (i.withLimit limit).RunsTo source o j → (∀ d ∈ o.diagnostics, d.isLimit = false) →
      (i.withLimit limit').RunsTo source o (j.withLimit limit')) ∧
    (∀ o j o' j', (i.withLimit limit).RunsTo source o j →
      (∃ d ∈ o.diagnostics, d.isLimit = true) → (i.withLimit limit').RunsTo source o' j' →
      o.events.dropLast <+: o'.events) := by
  rcases run_cases source with ⟨d, hd⟩ | ⟨ts, -, hr⟩
  · refine ⟨fun o j ⟨f, h⟩ _ => ⟨f, ?_⟩, fun o j o' j' ⟨f, h⟩ _ ⟨f', h'⟩ => ?_⟩
    · rw [hd] at h ⊢
      cases h
      rfl
    · rw [hd] at h h'
      cases h
      cases h'
      exact List.dropLast_prefix _
  · refine ⟨fun o j ⟨f, h⟩ hn => ⟨f, ?_⟩, fun o j o' j' ⟨f, h⟩ hx ⟨f', h'⟩ => ?_⟩
    · rw [hr] at h ⊢
      exact evaluateProgram_of_below hl h hn
    · have h₁ := run_mono (Nat.le_max_left f f') h
      have h₂ := run_mono (Nat.le_max_right f f') h'
      rw [hr] at h₁ h₂
      exact events_of_reached hl h₁ hx h₂

end

open scoped Sigil.Random

/-- Four levels of calls, under limits that they reach and that they do not reach. -/
theorem runsTo_withLimit_nested :
    let i := ({} : Config).interpreter (Generator.ofSeed 0)
    let source := "; 'a'\n; (; (; 'b'))"
    (∃ o j, (i.withLimit 5).RunsTo source o j ∧ (∀ d ∈ o.diagnostics, d.isLimit = false) ∧
      (i.withLimit 9).RunsTo source o (j.withLimit 9)) ∧
    (∃ o j o' j', (i.withLimit 3).RunsTo source o j ∧
      (∃ d ∈ o.diagnostics, d.isLimit = true) ∧ (i.withLimit 9).RunsTo source o' j' ∧
      o.output = ["a"] ∧ o.events.dropLast <+: o'.events) := by
  intro i source
  have below : ((i.withLimit 5).run 9 source).map (·.1.diagnostics.all (!·.isLimit)) =
      some true := by decide +kernel
  have reached : ((i.withLimit 3).run 9 source).map
      (fun p => (p.1.diagnostics.any (·.isLimit), p.1.output)) = some (true, ["a"]) := by
    decide +kernel
  obtain ⟨⟨o, j⟩, h, hn⟩ := Option.map_eq_some_iff.1 below
  obtain ⟨⟨o', j'⟩, h', hx⟩ := Option.map_eq_some_iff.1 reached
  simp only [List.all_eq_true, Bool.not_eq_true'] at hn
  simp only [Prod.mk.injEq, List.any_eq_true] at hx
  have h₁ := (runsTo_withLimit i source (show 5 ≤ 9 by omega)).1 o j ⟨9, h⟩ hn
  have h₂ := (runsTo_withLimit i source (show 3 ≤ 9 by omega)).2 o' j' o _ ⟨9, h'⟩ hx.1 h₁
  exact ⟨⟨o, j, ⟨9, h⟩, hn, h₁⟩, ⟨o', j', o, _, ⟨9, h'⟩, hx.1, h₁, hx.2, h₂⟩⟩

end Interpreter

end Sigil
