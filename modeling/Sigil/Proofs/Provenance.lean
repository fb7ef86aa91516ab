import Sigil.Proofs.Reports
import Sigil.Proofs.Segmentation
import Sigil.Proofs.Sequencing

/-!
# Where lines come from

Neither the reader nor evaluation computes with lines: they pass them on, and so commute with every
renumbering (`parse_renumber`, `Eval.carried_evaluate`). `Supports L a` says that a renumbering that
keeps the lines of `L` keeps `a`. What supports the tokens of a text supports its trees and faults,
and what supports trees and an environment supports what comes of evaluating them: the values, the
functions in them, and the faults that are reported. No line of a tree has to be followed to the
place where it is reported.

So a diagnostic of a run has the line of a token: of the text that is run, or, for a fault of
evaluation, of a text from which a function was kept (`Interpreter.After.diagnostics_located`).
-/

namespace Sigil

/-- Every renumbering that keeps the lines of `L` keeps `a`, which then has no others. -/
def Supports {α : Type} [Lined α] (L : List Nat) (a : α) : Prop :=
  ∀ ρ : Nat → Nat, (∀ l ∈ L, ρ l = l) → renumber ρ a = a

namespace Supports

variable {α : Type} [Lined α] {L M : List Nat}

theorem mono {a : α} (h : Supports L a) (hs : L ⊆ M) : Supports M a :=
  fun ρ hρ => h ρ fun l hl => hρ l (hs hl)

theorem of_mem {as : List α} (h : Supports L as) {a : α} (ha : a ∈ as) : Supports L a := by
  intro ρ hρ
  have fixed : as.map (renumber ρ) = as.map id := (h ρ hρ).trans (List.map_id as).symm
  exact List.map_inj_left.1 fixed a ha

/-- A line of which every such renumbering is told is one of `L`. -/
theorem mem_of_fixed {l : Nat} (h : ∀ ρ : Nat → Nat, (∀ k ∈ L, ρ k = k) → ρ l = l) : l ∈ L := by
  refine Classical.byContradiction fun hl => ?_
  have moved := h (fun k => if k ∈ L then k else k + 1) fun k hk => if_pos hk
  rw [if_neg hl] at moved
  omega

theorem line_mem {d : Diagnostic} (h : Supports L d) : d.line ∈ L := by
  refine mem_of_fixed fun ρ hρ => ?_
  have line : (renumber ρ d).line = ρ d.line := by
    cases d with
    | lex e => cases e <;> rfl
    | parse e => cases e <;> rfl
    | eval e l => rfl
  rw [← line, h ρ hρ]

end Supports

/-! ## The lines of tokens -/

namespace Token

/-- The lines of the tokens of a source text. -/
def lines (source : String) : List Nat :=
  match lex source with
  | .ok ts => ts.map (·.line)
  | .error _ => []

theorem lines_of_lex {source : String} {ts : List Token} (h : lex source = .ok ts) :
    lines source = ts.map (·.line) := by
  rw [lines, h]

/-- The lines of what comes of a text: of its tokens, or of the error. -/
def outcomeLines : Except LexError (List Token) → List Nat
  | .ok ts => ts.map (·.line)
  | .error e => [e.line]

theorem mem_outcomeLines_map {outcome : Except LexError (List Token)} {t : Token} {l : Nat}
    (h : l ∈ outcomeLines (outcome.map (t :: ·))) : l = t.line ∨ l ∈ outcomeLines outcome := by
  cases outcome with
  | ok ts => exact List.mem_cons.1 h
  | error e => exact .inr h

/-- What comes of a text lies on the lines from where the text begins to where it ends. -/
theorem Segments.line_between {before text : List Char} {outcome : Except LexError (List Token)}
    (h : Segments before text outcome) {l : Nat} (hl : l ∈ outcomeLines outcome) :
    lineAt before ≤ l ∧ l ≤ lineAt (before ++ text) := by
  induction h with
  | done => cases hl
  | token hg hw rest ih =>
    simp only [List.append_assoc, lineAt_append, List.count_append] at ih ⊢
    rcases mem_outcomeLines_map hl with rfl | hl
    · simp only [lineAt_append]
      omega
    · have between := ih hl
      omega
  | unterminated | invalid =>
    rw [List.mem_singleton.1 hl]
    simp only [LexError.line, lineAt_append, List.count_append]
    omega

theorem outcomeLines_between {source : String} {l : Nat} (h : l ∈ outcomeLines (lex source)) :
    1 ≤ l ∧ l ≤ 1 + source.toList.count '\n' :=
  (segments_lex source).line_between h

theorem lines_between {source : String} {l : Nat} (h : l ∈ lines source) :
    1 ≤ l ∧ l ≤ 1 + source.toList.count '\n' := by
  refine outcomeLines_between ?_
  unfold lines at h
  split at h
  · next hts => rwa [hts]
  · cases h

end Token

theorem supports_tokens (ts : List Token) : Supports (ts.map (·.line)) ts := by
  intro ρ hρ
  refine map_eq_self fun t ht => ?_
  have line : ρ t.line = t.line := hρ t.line (List.mem_map_of_mem ht)
  show (⟨t.kind, ρ t.line⟩ : Token) = t
  rw [line]

theorem supports_parse (ts : List Token) : Supports (ts.map (·.line)) (parse ts) := by
  intro ρ hρ
  rw [← parse_renumber, supports_tokens ts ρ hρ]

/-! ## Evaluation -/

theorem Environment.supports_initial (L : List Nat) : Supports L initial :=
  fun _ _ => rfl

theorem supports_statements [Generator] {L : List Nat} {limit fuel : Nat} {ns : List Node}
    {m m' : Machine} {v : Value} (e : Eval.statements (evaluate limit fuel) ns m = some (v, m'))
    (hn : Supports L ns) (hm : Supports L m) : Supports L m' := by
  intro ρ hρ
  have whole := (Eval.congruent_carried (ρ := ρ) (T := [])).framed.statements
    (fun n _ => Eval.carried_evaluate limit fuel n) (fun n (_ : n ∈ ns) => trivial)
  have after : ∀ m : Machine, m.after ρ [] = renumber ρ m := by
    intro m
    unfold Machine.after
    rw [List.append_nil]
    rfl
  have carried := (whole m).1
  rw [hn ρ hρ, after, hm ρ hρ, e, Option.map_some, after] at carried
  exact (congrArg (·.2) (Option.some.inj carried)).symm

/-! ## Runs -/

/-- Where a diagnostic of the run of `source` points, if the texts in `earlier` were run before it:
an error of its characters at one of its lines, a fault of its structure at the line of one of its
tokens, and a fault of evaluation at that of a token of its own or of an earlier text. -/
def Diagnostic.Located (earlier : List String) (source : String) : Diagnostic → Prop
  | .lex e => 1 ≤ e.line ∧ e.line ≤ 1 + source.toList.count '\n'
  | .parse e => e.line ∈ Token.lines source
  | .eval _ line => ∃ text ∈ source :: earlier, line ∈ Token.lines text

theorem Diagnostic.Located.between {source : String} {d : Diagnostic} (h : d.Located [] source) :
    1 ≤ d.line ∧ d.line ≤ 1 + source.toList.count '\n' := by
  cases d with
  | lex e => exact h
  | parse e => exact Token.lines_between h
  | eval e line =>
    obtain ⟨text, ht, hl⟩ := h
    rw [List.mem_singleton.1 ht] at hl
    exact Token.lines_between hl

namespace Interpreter

section

variable [Generator]

/-- The interpreters that a new one becomes by runs of texts, which are latest first. -/
inductive After : List String → Interpreter → Prop where
  | new (c : Config) (fresh : Generator.State) : After [] (c.interpreter fresh)
  | run {earlier : List String} {i j : Interpreter} {source : String} {o : Outcome} :
      After earlier i → i.RunsTo source o j → After (source :: earlier) j

variable {earlier : List String} {i j : Interpreter} {source : String} {o : Outcome}

theorem supports_machine {L : List Nat} {errors : List ParseError} (hi : Supports L i.env)
    (he : Supports L errors) :
    Supports L (i.machine (errors.map fun e => .report (.parse e))) := by
  intro ρ hρ
  have events : renumber ρ (errors.map fun e => Event.report (.parse e)) =
      (renumber ρ errors).map fun e => Event.report (.parse e) := by
    show (errors.map _).map (renumber ρ) = (errors.map (renumber ρ)).map _
    rw [List.map_map, List.map_map]
    rfl
  show Machine.mk (renumber ρ i.env) _ _ _ _
    (renumber ρ (errors.map fun e => Event.report (.parse e)).reverse) = _
  rw [hi ρ hρ, renumber_reverse, events, he ρ hρ]
  rfl

/-- Evaluating a text adds faults of its own to those of the text, at lines that are there. -/
theorem located_of_evaluateProgram {L : List Nat} {fuel : Nat} {ns : List Node}
    {errors : List ParseError} (h : i.evaluateProgram fuel ns errors = some (o, j))
    (hi : Supports L i.env) (hn : Supports L ns) (he : Supports L errors) :
    Supports L j.env ∧ ∀ d ∈ o.diagnostics, (∃ e ∈ errors, d = .parse e) ∨
      ∃ err line, d = .eval err line ∧ line ∈ L := by
  obtain ⟨v, m, hs, rfl, rfl⟩ := evaluateProgram_eq_some_iff.1 h
  have final : Supports L m := supports_statements hs hn (supports_machine hi he)
  have trace : Supports L m.trace := fun ρ hρ => congrArg Machine.trace (final ρ hρ)
  have added := (Machine.lawful_adds.keeps_statements i.limit fuel ns _ v m hs).2
  refine ⟨fun ρ hρ => congrArg Machine.env (final ρ hρ), fun d hd => ?_⟩
  obtain ⟨reported, before | ⟨err, line, rfl, -⟩⟩ := Outcome.diagnostic_of_adds added hd
  · exact .inl before
  · have event : Supports L (Diagnostic.eval err line) :=
      fun ρ hρ => Event.report.inj (trace.of_mem reported ρ hρ)
    exact .inr ⟨err, line, rfl, event.line_mem⟩

/-- A run keeps no line but those of its tokens and of the environment before it, and reports no
other. -/
theorem RunsTo.located (hi : Supports (earlier.flatMap Token.lines) i.env)
    (h : i.RunsTo source o j) :
    Supports ((source :: earlier).flatMap Token.lines) j.env ∧
      ∀ d ∈ o.diagnostics, d.Located earlier source := by
  have kept : Supports ((source :: earlier).flatMap Token.lines) i.env :=
    hi.mono (List.subset_append_right _ _)
  rcases h.cases with ⟨e, hts, rfl, rfl⟩ | ⟨ts, hts, outcome⟩
  · refine ⟨kept, fun d hd => ?_⟩
    rw [List.mem_singleton.1 hd]
    exact Token.outcomeLines_between (by rw [hts]; exact List.mem_singleton_self _)
  have read : Supports (Token.lines source) (parse ts) :=
    Token.lines_of_lex hts ▸ supports_parse ts
  have nodes : Supports (Token.lines source) (parse ts).1 :=
    fun ρ hρ => congrArg Prod.fst (read ρ hρ)
  have faults : Supports (Token.lines source) (parse ts).2 :=
    fun ρ hρ => congrArg Prod.snd (read ρ hρ)
  have located : ∀ e ∈ (parse ts).2, (Diagnostic.parse e).Located earlier source := by
    intro e he
    have diagnostic : Supports (Token.lines source) (Diagnostic.parse e) :=
      fun ρ hρ => congrArg Diagnostic.parse (faults.of_mem he ρ hρ)
    exact diagnostic.line_mem
  rcases outcome with ⟨e, he, rfl, rfl⟩ | ⟨fuel, h⟩
  · refine ⟨kept, fun d hd => ?_⟩
    rw [List.mem_singleton.1 hd]
    exact located e he
  · have own : Token.lines source ⊆ (source :: earlier).flatMap Token.lines :=
      List.subset_append_left _ _
    obtain ⟨env, reports⟩ := located_of_evaluateProgram h kept (nodes.mono own) (faults.mono own)
    refine ⟨env, fun d hd => ?_⟩
    rcases reports d hd with ⟨e, he, rfl⟩ | ⟨err, line, rfl, hl⟩
    · exact located e he
    · exact List.mem_flatMap.1 hl

theorem After.supports (h : After earlier i) : Supports (earlier.flatMap Token.lines) i.env := by
  induction h with
  | new c fresh => exact Environment.supports_initial _
  | run _ hr ih => exact (hr.located ih).1

/-- **Every diagnostic points at a line of the source**: after any runs of a new interpreter, a
fault of the structure of the next text has the line of one of its tokens, a fault of evaluation
that of a token of this text or of an earlier one, and an error of its characters lies on one of its
lines. A diagnostic of a first run lies on a line of its text. -/
theorem After.diagnostics_located (hi : After earlier i) (h : i.RunsTo source o j) :
    ∀ d ∈ o.diagnostics, d.Located earlier source ∧
      (earlier = [] → 1 ≤ d.line ∧ d.line ≤ 1 + source.toList.count '\n') := by
  intro d hd
  have located := (h.located hi.supports).2 d hd
  refine ⟨located, ?_⟩
  rintro rfl
  exact located.between

end

open scoped Sigil.Random

/-- A function from the third line of the first text asks for a name that is not bound, in the run
of a second text of one line, which has a faulty key. -/
theorem After.diagnostics_located_session :
    let first := ": f ~ a (: b a\n\n+ b missing)"
    let second := "f ok \x7b[] no\x7d"
    ∃ (i j : Interpreter) (o : Outcome), After [first] i ∧ i.RunsTo second o j ∧
      o.diagnostics.map (·.line) = [1, 3, 3] ∧ ∀ d ∈ o.diagnostics, d.Located [first] second := by
  intro first second
  have computed : ((({} : Config).interpreter (Generator.ofSeed 0)).run 9 first).bind (fun p =>
      (p.2.run 9 second).map fun q => q.1.diagnostics.map (·.line)) = some [1, 3, 3] := by
    decide +kernel
  obtain ⟨⟨_, i⟩, defined, computed⟩ := Option.bind_eq_some_iff.1 computed
  obtain ⟨⟨o, j⟩, called, lines⟩ := Option.map_eq_some_iff.1 computed
  have after : After [first] i := .run (.new {} (Generator.ofSeed 0)) ⟨9, defined⟩
  exact ⟨i, j, o, after, ⟨9, called⟩, lines,
    fun d hd => (after.diagnostics_located ⟨9, called⟩ d hd).1⟩

end Interpreter

end Sigil
