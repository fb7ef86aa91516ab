import Sigil.Proofs.ReadBack

/-!
# Which texts are refused

Strings and comments can be told from the rest of a text without cutting it into tokens: `Region`
goes through the characters and looks at quotes, backslashes, commas and newlines only. A text is
refused if it ends inside a string, or if a control character that is no blank stands outside
strings and comments where a token starts: after a delimiter, or in front of everything
(`lex_refuses_iff`). Behind the first character of an atom a control character is one more character
of the atom.
-/

namespace Sigil.Token

/-! ## Regions -/

/-- What a place in a text is inside of. -/
inductive Region where
  | code
  | comment
  | string
  | escape
  deriving DecidableEq

namespace Region

/-- The region after one more character. -/
def next : Region → Char → Region
  | code, c => if c = ',' then comment else if c = quote then string else code
  | comment, c => if c = '\n' then code else comment
  | string, c => if c = quote then code else if c = backslash then escape else string
  | escape, _ => string

def after (text : List Char) : Region :=
  text.foldl next code

theorem after_concat (text : List Char) (c : Char) : after (text ++ [c]) = (after text).next c := by
  simp [after]

end Region

/-- Whether a token can start after a text: there is no atom that would go on. -/
def Ends (text : List Char) : Prop :=
  ∀ c ∈ text.getLast?, isDelimiter c = true

theorem ends_concat {text : List Char} {c : Char} : Ends (text ++ [c]) ↔ isDelimiter c = true := by
  simp [Ends]

/-- A control character that is no blank, outside strings and comments, where a token starts. -/
structure Misplaced (before : List Char) (c : Char) : Prop where
  control : Text.isControl c = true
  notBlank : Text.isBlank c = false
  code : Region.after before = .code
  ends : Ends before

/-! ## Regions and modes -/

def Mode.region : Mode → Region
  | gap | atom _ => .code
  | comment => .comment
  | string .. => .string
  | escape .. => .escape

/-- What the mode of a lexer says of the text before it. -/
structure Lexer.Follows (l : Lexer) (text : List Char) : Prop where
  region : l.mode.region = Region.after text
  gap : l.mode = .gap → Ends text
  atom : ∀ seen, l.mode = .atom seen → ¬Ends text

theorem isDelimiter_eq_true {c : Char} (h : isDelimiter c = true) :
    Text.isBlank c = true ∨ c = ',' ∨ c = quote ∨ ∃ k, bracket? c = some k := by
  simp only [isDelimiter, Bool.or_eq_true, beq_iff_eq, Option.isSome_iff_exists] at h
  rcases h with ((blank | comma) | quote) | bracket
  · exact .inl blank
  · exact .inr (.inl comma)
  · exact .inr (.inr (.inl quote))
  · exact .inr (.inr (.inr bracket))

theorem isControl_bracket {c : Char} {k : Kind} (h : bracket? c = some k) :
    Text.isControl c = false := by
  unfold bracket? at h
  split at h <;> cases h <;> rfl

theorem Misplaced.not_isDelimiter {before : List Char} {c : Char} (h : Misplaced before c) :
    isDelimiter c = false := by
  rw [Bool.eq_false_iff]
  intro hd
  rcases isDelimiter_eq_true hd with blank | rfl | rfl | ⟨k, bracket⟩
  · rw [h.notBlank] at blank
    cases blank
  · cases h.control
  · cases h.control
  · have control := h.control
    rw [isControl_bracket bracket] at control
    cases control

namespace Lexer

section

variable {text : List Char} {c : Char}

theorem Follows.intro_gap {l : Lexer} (hm : l.mode = .gap)
    (hr : Region.after (text ++ [c]) = .code) (hd : isDelimiter c = true) :
    l.Follows (text ++ [c]) :=
  ⟨by rw [hm, hr]; rfl, fun _ => ends_concat.2 hd, fun seen e => by rw [hm] at e; cases e⟩

theorem Follows.intro_atom {l : Lexer} {seen : List Char} (hm : l.mode = .atom seen)
    (hr : Region.after (text ++ [c]) = .code) (hd : isDelimiter c = false) :
    l.Follows (text ++ [c]) := by
  refine ⟨by rw [hm, hr]; rfl, fun e => (by rw [hm] at e; cases e), fun _ _ ends => ?_⟩
  rw [ends_concat, hd] at ends
  cases ends

theorem Follows.intro_other {l : Lexer} (hr : l.mode.region = Region.after (text ++ [c]))
    (hc : l.mode.region ≠ .code) : l.Follows (text ++ [c]) := by
  refine ⟨hr, fun e => ?_, fun seen e => ?_⟩ <;> rw [e] at hc <;> exact absurd rfl hc

theorem start_delimiter (hd : isDelimiter c = true)
    (hr : Region.after (text ++ [c]) = Region.code.next c) (l : Lexer) :
    ∃ l', l.start c = .ok l' ∧ l'.Follows (text ++ [c]) := by
  by_cases comma : c = ','
  · subst comma
    exact ⟨_, rfl, .intro_other hr.symm Region.noConfusion⟩
  by_cases opens : c = quote
  · subst opens
    exact ⟨_, rfl, .intro_other hr.symm Region.noConfusion⟩
  have code : Region.after (text ++ [c]) = .code := by
    rw [hr, Region.next, if_neg comma, if_neg opens]
  rcases isDelimiter_eq_true hd with blank | rfl | rfl | ⟨k, bracket⟩
  · obtain ⟨l', hs, hm, -⟩ := start_blank (l := l) blank
    exact ⟨l', hs, .intro_gap hm code hd⟩
  · exact absurd rfl comma
  · exact absurd rfl opens
  · exact ⟨_, start_bracket bracket l, .intro_gap rfl code hd⟩

/-- Between tokens, a character is refused or begins something. -/
theorem step_gap {l : Lexer} (hl : l.mode = .gap) (h : l.Follows text) (c : Char) :
    (Misplaced text c ∧ l.step c = .error (.invalidCharacter c l.line)) ∨
      (¬Misplaced text c ∧ ∃ l', l.step c = .ok l' ∧ l'.Follows (text ++ [c])) := by
  have code : Region.after text = .code := by rw [← h.region, hl]; rfl
  have next : Region.after (text ++ [c]) = Region.code.next c := by
    rw [Region.after_concat, code]
  have step : l.step c = l.start c := by rw [Lexer.step, hl]
  rw [step]
  cases hd : isDelimiter c with
  | true =>
    refine .inr ⟨fun m => ?_, start_delimiter hd next l⟩
    rw [m.not_isDelimiter] at hd
    cases hd
  | false =>
    obtain ⟨blank, comma, opens, -⟩ := isDelimiter_eq_false hd
    cases control : Text.isControl c with
    | true => exact .inl ⟨⟨control, blank, code, h.gap hl⟩, start_control control blank l⟩
    | false =>
      refine .inr ⟨fun m => ?_, _, start_atom hd control l, .intro_atom rfl ?_ hd⟩
      · rw [m.control] at control
        cases control
      · rw [next, Region.next, if_neg comma, if_neg opens]

/-- One character: it is refused if it is misplaced, and otherwise the lexer goes on with what the
text has become. -/
theorem step_follows {l : Lexer} (h : l.Follows text) (c : Char) :
    (Misplaced text c ∧ l.step c = .error (.invalidCharacter c l.line)) ∨
      (¬Misplaced text c ∧ ∃ l', l.step c = .ok l' ∧ l'.Follows (text ++ [c])) := by
  have region := h.region
  have next := Region.after_concat text c
  have elsewhere : Region.after text ≠ .code → ¬Misplaced text c := fun hr m => hr m.code
  rw [← region] at next elsewhere
  cases mode : l.mode with
  | gap => exact step_gap mode h c
  | comment =>
    rw [mode] at next elsewhere
    refine .inr ⟨elsewhere Region.noConfusion, ?_⟩
    rw [Lexer.step, mode]
    by_cases newline : c = '\n'
    · subst newline
      exact start_delimiter rfl next l
    · have stays : Region.after (text ++ [c]) = .comment := next.trans (if_neg newline)
      refine ⟨l, if_neg newline, .intro_other (by rw [mode, stays]; rfl) ?_⟩
      rw [mode]
      exact Region.noConfusion
  | atom seen =>
    rw [mode] at next
    refine .inr ⟨fun m => h.atom seen mode m.ends, ?_⟩
    rw [Lexer.step, mode]
    cases hd : isDelimiter c with
    | true => exact start_delimiter hd next _
    | false =>
      obtain ⟨-, comma, opens, -⟩ := isDelimiter_eq_false hd
      refine ⟨_, rfl, .intro_atom rfl ?_ hd⟩
      rw [next, Mode.region, Region.next, if_neg comma, if_neg opens]
  | string start seen =>
    rw [mode] at next elsewhere
    refine .inr ⟨elsewhere Region.noConfusion, ?_⟩
    rw [Lexer.step, mode]
    by_cases closes : c = quote
    · subst closes
      exact ⟨_, rfl, .intro_gap rfl next rfl⟩
    by_cases escapes : c = backslash
    · subst escapes
      exact ⟨_, rfl, .intro_other next.symm Region.noConfusion⟩
    · have stays : Region.after (text ++ [c]) = .string :=
        next.trans ((if_neg closes).trans (if_neg escapes))
      refine ⟨_, (if_neg closes).trans (if_neg escapes), .intro_other stays.symm Region.noConfusion⟩
  | escape start seen =>
    rw [mode] at next elsewhere
    refine .inr ⟨elsewhere Region.noConfusion, ?_⟩
    rw [Lexer.step, mode]
    exact ⟨_, rfl, .intro_other next.symm Region.noConfusion⟩

theorem read_follows {l : Lexer} (h : l.Follows text) (cs : List Char) :
    (∃ before c after, cs = before ++ c :: after ∧ Misplaced (text ++ before) c ∧
      ∃ line, l.read cs = .error (.invalidCharacter c line)) ∨
    ((∀ before c after, cs = before ++ c :: after → ¬Misplaced (text ++ before) c) ∧
      ∃ l', l.read cs = .ok l' ∧ l'.Follows (text ++ cs)) := by
  induction cs generalizing text l with
  | nil =>
    refine .inr ⟨fun before c after e => ?_, l, rfl, by rwa [List.append_nil]⟩
    cases before <;> cases e
  | cons c cs ih =>
    rcases step_follows h c with ⟨misplaced, refused⟩ | ⟨placed, l', taken, follows⟩
    · refine .inl ⟨[], c, cs, rfl, by rwa [List.append_nil], l.line, ?_⟩
      rw [read_cons, refused]
      rfl
    · have read : l.read (c :: cs) = l'.read cs := by
        rw [read_cons, taken]
        rfl
      rw [read]
      rcases ih follows with ⟨before, d, after, rfl, misplaced, refused⟩ | ⟨rest, l'', ok, follows⟩
      · refine .inl ⟨c :: before, d, after, rfl, ?_, refused⟩
        rwa [List.append_assoc] at misplaced
      · refine .inr ⟨fun before d after e => ?_, l'', ok, by rwa [List.append_assoc] at follows⟩
        cases before with
        | nil =>
          cases e
          rwa [List.append_nil]
        | cons b before =>
          obtain ⟨rfl, tail⟩ := List.cons.inj e
          have later := rest before d after tail
          rwa [List.append_assoc] at later

end

theorem follows_nil : Follows {} [] :=
  ⟨rfl, fun _ _ hc => (by cases hc), fun _ e => by cases e⟩

theorem finish_error_iff {l : Lexer} {text : List Char} (h : l.Follows text) :
    (∃ e, l.finish = .error e) ↔ Region.after text = .string ∨ Region.after text = .escape := by
  rw [← h.region]
  unfold finish
  cases l.mode <;> simp [Mode.region]

end Lexer

theorem lex_error_iff (source : String) :
    (∃ e, lex source = .error e) ↔
      Region.after source.toList = .string ∨ Region.after source.toList = .escape ∨
      ∃ before c after, source.toList = before ++ c :: after ∧ Misplaced before c := by
  unfold lex
  rcases Lexer.read_follows Lexer.follows_nil source.toList with
    ⟨before, c, after, e, misplaced, line, refused⟩ | ⟨placed, l, ok, follows⟩
  · rw [refused]
    exact iff_of_true ⟨_, rfl⟩ (.inr (.inr ⟨before, c, after, e, misplaced⟩))
  · rw [ok]
    refine (Lexer.finish_error_iff follows).trans ?_
    rw [List.nil_append, ← or_assoc]
    refine (or_iff_left ?_).symm
    rintro ⟨before, c, after, e, misplaced⟩
    exact placed before c after e misplaced

/-- **Control characters where a token starts are refused**: a text has no tokens if and only if it
ends inside a string, or outside strings and comments a control character that is no blank stands in
front of everything or right after a delimiter. So no name of a text that has tokens starts with a
control character. -/
theorem lex_refuses_iff (source : String) :
    ((∃ e, lex source = .error e) ↔
      Region.after source.toList = .string ∨ Region.after source.toList = .escape ∨
      ∃ before c after, source.toList = before ++ c :: after ∧ Misplaced before c) ∧
    ∀ ts, lex source = .ok ts → ∀ t ∈ ts, ∀ name, t.kind = .key name ∨ t.kind = .word name →
      ∀ c ∈ name.toList.head?, Text.isControl c = false := by
  refine ⟨lex_error_iff source, fun ts ok t ht name kind => ?_⟩
  obtain ⟨left, written, right, hw⟩ := (segments_lex source).written_of_mem ok ht
  obtain ⟨atom, rfl, -⟩ := hw.isAtom kind
  exact atom.visible

/-- Right after a string a control character is refused; inside an atom, a comment or a string it is
not. -/
theorem lex_refuses_iff_places :
    let source := "x\x01 ,\x02\n'\x03'"
    Misplaced "x ('a'".toList '\x01' ∧ (∃ e, lex "x ('a'\x01" = .error e) ∧
    lex source = .ok [⟨.word "x\x01", 1⟩, ⟨.newline, 1⟩, ⟨.string "\x03", 2⟩] ∧
    ∀ c ∈ "x\x01".toList.head?, Text.isControl c = false := by
  intro source
  have ends : Ends "x ('a'".toList := by
    intro c hc
    rw [show "x ('a'".toList.getLast? = some quote by decide +kernel] at hc
    cases hc
    rfl
  have misplaced : Misplaced "x ('a'".toList '\x01' := ⟨rfl, rfl, by decide +kernel, ends⟩
  have ok : lex source = .ok [⟨.word "x\x01", 1⟩, ⟨.newline, 1⟩, ⟨.string "\x03", 2⟩] := by
    decide +kernel
  exact ⟨misplaced,
    (lex_refuses_iff _).1.2 (.inr (.inr ⟨_, _, [], by decide +kernel, misplaced⟩)), ok,
    (lex_refuses_iff source).2 _ ok _ List.mem_cons_self _ (.inr rfl)⟩

/-- A control character outside strings and comments that is not refused, and is part of a name. -/
theorem lex_keeps_control :
    let source := String.ofList ['a', '\x07', 'b']
    (Region.after ['a'] = .code ∧ Text.isControl '\x07' = true ∧ Text.isBlank '\x07' = false) ∧
      lex source = .ok [⟨.word source, 1⟩] := by
  decide +kernel

end Sigil.Token
