import Sigil.Proofs.Seam

/-!
# How a text is cut into tokens

A text is a gap, a token, a gap, a token and so on up to a last gap. `Segments` says what the gaps
and the written tokens are and on which line each token stands, or where such a text first goes
wrong. It knows nothing of a lexer that goes through the characters: a comment, a string and an atom
are each looked at as a whole. The lexer gives the one answer that `Segments` allows (`lex_eq_iff`).

Two facts make this up. On each piece the lexer does what the piece says (`Lexer.run_segments`), so
that there is at most one answer; and every text can be cut (`exists_segments`).
-/

namespace Sigil.Token

/-! ## Pieces of a text -/

/-- What may stand between tokens before the text `after`: blanks that are not newlines, and a
comment from a comma up to the next newline or the end. -/
inductive Gap (after : List Char) : List Char → Prop where
  | nil : Gap after []
  | blank {c : Char} {gap : List Char} (blank : Text.isBlank c = true) (inLine : c ≠ '\n')
      (rest : Gap after gap) : Gap after (c :: gap)
  | comment {body : List Char} (inLine : '\n' ∉ body) (stop : ∀ c ∈ after.head?, c = '\n') :
      Gap after (',' :: body)

/-- The text that stands between the quotes of a string, and what it means. A quote in it is
escaped. -/
inductive Decodes : List Char → List Char → Prop where
  | nil : Decodes [] []
  | char {c : Char} {body text : List Char} (notQuote : c ≠ quote) (notBackslash : c ≠ backslash)
      (rest : Decodes body text) : Decodes (c :: body) (c :: text)
  | quote {body text : List Char} (rest : Decodes body text) :
      Decodes (backslash :: quote :: body) (quote :: text)
  | backslash {body text : List Char} (rest : Decodes body text) :
      Decodes (backslash :: backslash :: body) (backslash :: text)
  | newline {body text : List Char} (rest : Decodes body text) :
      Decodes (backslash :: 'n' :: body) ('\n' :: text)
  | tab {body text : List Char} (rest : Decodes body text) :
      Decodes (backslash :: 't' :: body) ('\t' :: text)
  | verbatim {c : Char} {body text : List Char} (other : c ∉ [quote, backslash, 'n', 't'])
      (rest : Decodes body text) : Decodes (backslash :: c :: body) (backslash :: c :: text)

/-- The characters of an atom between `before` and `after`: as many as there are up to a delimiter
on either side. The first of them is not a control character. -/
structure IsAtom (before cs after : List Char) : Prop where
  nonempty : cs ≠ []
  chars : ∀ c ∈ cs, isDelimiter c = false
  left : ∀ c ∈ before.getLast?, isDelimiter c = true
  right : ∀ c ∈ after.head?, isDelimiter c = true
  visible : ∀ c ∈ cs.head?, Text.isControl c = false

theorem IsAtom.alone {cs : List Char} (nonempty : cs ≠ [])
    (chars : ∀ c ∈ cs, isDelimiter c = false)
    (visible : ∀ c ∈ cs.head?, Text.isControl c = false) : IsAtom [] cs [] :=
  ⟨nonempty, chars, fun _ h => (by cases h), fun _ h => (by cases h), visible⟩

/-- How a token is written between the texts `before` and `after`. -/
inductive Written (before after : List Char) : List Char → Kind → Prop where
  | newline : Written before after ['\n'] .newline
  | opener (g : Group) : Written before after [g.opening] (.opener g)
  | closer (g : Group) : Written before after [g.closing] (.closer g)
  | string {body text : List Char} (h : Decodes body text) :
      Written before after (quote :: (body ++ [quote])) (.string (String.ofList text))
  | number {cs : List Char} {x : Float} (atom : IsAtom before cs after)
      (numeral : Numeral.read? cs = some x) : Written before after cs (.number x)
  | key {cs : List Char} (atom : IsAtom before cs after) (numeral : Numeral.read? cs = none)
      (start : cs.head?.any isKeyStart = true) :
      Written before after cs (.key (String.ofList cs))
  | word {cs : List Char} (atom : IsAtom before cs after) (numeral : Numeral.read? cs = none)
      (start : cs.head?.any isKeyStart = false) :
      Written before after cs (.word (String.ofList cs))

/-- The line of what comes after the text `before`. -/
def lineAt (before : List Char) : Nat :=
  1 + before.count '\n'

/-- What comes of a text that stands after `before`: its tokens, one after the other with gaps
between them; or an error where, after tokens and a gap, there is a quote that nothing closes or a
control character that is no blank. -/
inductive Segments : List Char → List Char → Except LexError (List Token) → Prop where
  | done {before gap : List Char} (hg : Gap [] gap) : Segments before gap (.ok [])
  | token {before gap written after : List Char} {kind : Kind}
      {outcome : Except LexError (List Token)} (hg : Gap (written ++ after) gap)
      (hw : Written (before ++ gap) after written kind)
      (rest : Segments (before ++ gap ++ written) after outcome) :
      Segments before (gap ++ written ++ after)
        (outcome.map (⟨kind, lineAt (before ++ gap)⟩ :: ·))
  | unterminated {before gap body text stub : List Char}
      (hg : Gap (quote :: (body ++ stub)) gap) (hb : Decodes body text)
      (hs : stub = [] ∨ stub = [backslash]) :
      Segments before (gap ++ quote :: (body ++ stub))
        (.error (.unterminatedString (lineAt (before ++ gap))))
  | invalid {before gap after : List Char} {c : Char} (hg : Gap (c :: after) gap)
      (control : Text.isControl c = true) (notBlank : Text.isBlank c = false) :
      Segments before (gap ++ c :: after)
        (.error (.invalidCharacter c (lineAt (before ++ gap))))

theorem isDelimiter_eq_false {c : Char} (h : isDelimiter c = false) :
    Text.isBlank c = false ∧ c ≠ ',' ∧ c ≠ quote ∧ bracket? c = none := by
  simp only [isDelimiter, Bool.or_eq_false_iff, beq_eq_false_iff_ne] at h
  obtain ⟨⟨⟨blank, comma⟩, quote⟩, bracket⟩ := h
  exact ⟨blank, comma, quote, by simpa using bracket⟩

theorem Gap.count_newline {after gap : List Char} (h : Gap after gap) : gap.count '\n' = 0 := by
  induction h with
  | nil => rfl
  | blank _ inLine _ ih => rw [List.count_cons_of_ne inLine, ih]
  | comment inLine =>
    rw [List.count_cons_of_ne (by decide)]
    exact List.count_eq_zero_of_not_mem inLine

theorem lineAt_append (before cs : List Char) :
    lineAt (before ++ cs) = lineAt before + cs.count '\n' := by
  rw [lineAt, lineAt, List.count_append, Nat.add_assoc]

theorem Gap.lineAt_append {after gap : List Char} (h : Gap after gap) (before : List Char) :
    lineAt (before ++ gap) = lineAt before := by
  rw [Token.lineAt_append, h.count_newline, Nat.add_zero]

/-! ## The lexer on each piece -/

namespace Lexer

/-- What comes of the characters that are left. -/
def run (l : Lexer) (cs : List Char) : Except LexError (List Token) :=
  (l.read cs).bind finish

theorem run_cons {l l' : Lexer} {c : Char} (h : l.step c = .ok l') (cs : List Char) :
    l.run (c :: cs) = l'.run cs := by
  rw [run, read_cons, h]
  rfl

theorem run_append {l l' : Lexer} {cs : List Char} (h : l.read cs = .ok l') (ds : List Char) :
    l.run (cs ++ ds) = l'.run ds := by
  rw [run, read_append, h]
  rfl

theorem start_blank_inLine {c : Char} (hb : Text.isBlank c = true) (hn : c ≠ '\n') (l : Lexer) :
    l.start c = .ok { l with mode := .gap } := by
  have comma : c ≠ ',' := by
    rintro rfl
    cases hb
  rw [start, if_neg hn, if_neg comma, if_pos hb]

theorem start_control {c : Char} (hc : Text.isControl c = true) (hb : Text.isBlank c = false)
    (l : Lexer) : l.start c = .error (.invalidCharacter c l.line) := by
  have other : ∀ d : Char, Text.isControl d = false ∨ Text.isBlank d = true → c ≠ d := by
    rintro d hd rfl
    rcases hd with hd | hd
    · rw [hc] at hd; cases hd
    · rw [hb] at hd; cases hd
  rw [start, if_neg (other '\n' (.inr rfl)), if_neg (other ',' (.inl rfl)), hb,
    if_neg (other quote (.inl rfl)), if_pos hc]
  rfl

theorem start_bracket {c : Char} {k : Kind} (h : bracket? c = some k) (l : Lexer) :
    l.start c = .ok (l.emit k l.line) := by
  unfold bracket? at h
  split at h <;> cases h <;> rfl

theorem start_atom {c : Char} (hd : isDelimiter c = false) (hc : Text.isControl c = false)
    (l : Lexer) : l.start c = .ok { l with mode := .atom [c] } := by
  obtain ⟨blank, comma, quote, bracket⟩ := isDelimiter_eq_false hd
  have newline : c ≠ '\n' := by
    rintro rfl
    cases blank
  simp only [start, if_neg newline, if_neg comma, blank, if_neg quote, hc, bracket]
  rfl

theorem read_atom {seen cs : List Char} (h : ∀ c ∈ cs, isDelimiter c = false) (l : Lexer)
    (hl : l.mode = .atom seen) : l.read cs = .ok { l with mode := .atom (cs.reverse ++ seen) } := by
  induction cs generalizing l seen with
  | nil => rw [List.reverse_nil, List.nil_append, ← hl]; rfl
  | cons c cs ih =>
    rw [List.forall_mem_cons] at h
    have hs : l.step c = .ok { l with mode := .atom (c :: seen) } := by
      rw [step, hl]
      simp [h.1]
    rw [read_cons, hs]
    refine (ih h.2 { l with mode := .atom (c :: seen) } rfl).trans ?_
    simp

section

variable {line : Nat} {tokens : List Token}

theorem read_comment {body : List Char} (h : '\n' ∉ body) :
    read ⟨.comment, line, tokens⟩ body = .ok ⟨.comment, line, tokens⟩ := by
  induction body with
  | nil => rfl
  | cons c body ih =>
    obtain ⟨hc, hb⟩ := not_or.1 (mt List.mem_cons.2 h)
    have stays : step ⟨.comment, line, tokens⟩ c = .ok ⟨.comment, line, tokens⟩ :=
      if_neg (Ne.symm hc)
    rw [read_cons, stays]
    exact ih hb

theorem run_gap {after gap : List Char} (h : Gap after gap) :
    run ⟨.gap, line, tokens⟩ (gap ++ after) = run ⟨.gap, line, tokens⟩ after := by
  induction h with
  | nil => rfl
  | @blank c gap hb hn _ ih =>
    have skipped : step ⟨.gap, line, tokens⟩ c = .ok ⟨.gap, line, tokens⟩ :=
      start_blank_inLine hb hn _
    exact (run_cons skipped _).trans ih
  | comment inLine stop =>
    -- a comment ends in its own mode, which treats a newline and the end as a gap does
    refine (run_cons rfl _).trans ((run_append (read_comment inLine) after).trans ?_)
    cases after with
    | nil => rfl
    | cons c cs =>
      cases stop c rfl
      rfl

/-- A backslash and the character after it are taken together. -/
theorem read_escape {c : Char} {body text seen : List Char} {start line : Nat}
    (h : ∀ line seen, read ⟨.string start seen, line, tokens⟩ body =
      .ok ⟨.string start (text.reverse ++ seen), line + body.count '\n', tokens⟩) :
    read ⟨.string start seen, line, tokens⟩ (backslash :: c :: body) =
      .ok ⟨.string start ((unescape c ++ text).reverse ++ seen),
        line + (backslash :: c :: body).count '\n', tokens⟩ := by
  have taken : step ⟨.escape start seen, line, tokens⟩ c =
      .ok ⟨.string start ((unescape c).reverse ++ seen), line + [c].count '\n', tokens⟩ := by
    rw [step, lineAfter_eq]
  have count : (backslash :: c :: body).count '\n' = [c].count '\n' + body.count '\n' := by
    rw [List.count_cons_of_ne (by decide), ← List.count_append]
    rfl
  have opened : step ⟨.string start seen, line, tokens⟩ backslash =
      .ok ⟨.escape start seen, line, tokens⟩ := rfl
  rw [read_cons, opened]
  change read ⟨.escape start seen, line, tokens⟩ (c :: body) = _
  rw [read_cons, taken, count, ← Nat.add_assoc, List.reverse_append, List.append_assoc]
  exact h _ _

/-- The lexer decodes the body of a string. -/
theorem read_decodes {body text : List Char} (h : Decodes body text) (start line : Nat)
    (seen : List Char) :
    read ⟨.string start seen, line, tokens⟩ body =
      .ok ⟨.string start (text.reverse ++ seen), line + body.count '\n', tokens⟩ := by
  induction h generalizing line seen with
  | nil => rfl
  | @char c body text hq hb _ ih =>
    have taken : step ⟨.string start seen, line, tokens⟩ c =
        .ok ⟨.string start (c :: seen), line + [c].count '\n', tokens⟩ := by
      simp only [step, if_neg hq, if_neg hb, lineAfter_eq]
    rw [read_cons, taken]
    refine (ih (line + [c].count '\n') (c :: seen)).trans ?_
    rw [Nat.add_assoc, ← List.count_append, List.reverse_cons, List.append_assoc]
    rfl
  | quote _ ih | backslash _ ih | newline _ ih | tab _ ih => exact read_escape ih
  | @verbatim c body text other _ ih =>
    have kept : unescape c ++ text = backslash :: c :: text := by
      simp only [List.mem_cons, not_or] at other
      simp [unescape, other]
    rw [← kept]
    exact read_escape ih

theorem run_atom {before cs after : List Char} (h : IsAtom before cs after) :
    run ⟨.gap, line, tokens⟩ (cs ++ after) =
      run ⟨.gap, line + cs.count '\n', ⟨.ofAtom cs, line⟩ :: tokens⟩ after := by
  have inLine : cs.count '\n' = 0 :=
    List.count_eq_zero_of_not_mem fun hn => Bool.noConfusion (h.chars _ hn)
  rw [inLine]
  cases cs with
  | nil => exact absurd rfl h.nonempty
  | cons c cs =>
    obtain ⟨hc, hcs⟩ := List.forall_mem_cons.1 h.chars
    have first : step ⟨.gap, line, tokens⟩ c = .ok ⟨.atom [c], line, tokens⟩ :=
      start_atom hc (h.visible c rfl) _
    have others := read_atom hcs ⟨.atom [c], line, tokens⟩ rfl
    have kind : Kind.ofAtom (cs.reverse ++ [c]).reverse = .ofAtom (c :: cs) := by simp
    refine (run_cons first _).trans ((run_append others after).trans ?_)
    rw [← kind]
    cases after with
    | nil => rfl
    | cons d after =>
      have stop : step ⟨.atom (cs.reverse ++ [c]), line, tokens⟩ d =
          step ⟨.gap, line, ⟨.ofAtom (cs.reverse ++ [c]).reverse, line⟩ :: tokens⟩ d :=
        if_pos (h.right d rfl)
      rw [run, read_cons, stop]
      rfl

theorem run_written {before after written : List Char} {kind : Kind}
    (h : Written before after written kind) :
    run ⟨.gap, line, tokens⟩ (written ++ after) =
      run ⟨.gap, line + written.count '\n', ⟨kind, line⟩ :: tokens⟩ after := by
  cases h with
  | newline => exact run_cons rfl after
  | opener g | closer g => cases g <;> exact run_cons rfl after
  | @string body text h =>
    have opened : step ⟨.gap, line, tokens⟩ quote = .ok ⟨.string line [], line, tokens⟩ := rfl
    have count : (quote :: (body ++ [quote])).count '\n' = body.count '\n' := by
      rw [List.count_cons_of_ne (by decide), List.count_append, List.count_singleton]
      rfl
    rw [List.cons_append, List.append_assoc, run_cons opened,
      run_append (read_decodes h line line []), count]
    refine (run_cons rfl after).trans ?_
    rw [List.append_nil, List.reverse_reverse]
    rfl
  | number atom numeral =>
    rw [run_atom atom, Kind.ofAtom, numeral]
  | key atom numeral start =>
    rw [run_atom atom, Kind.ofAtom, numeral]
    dsimp only
    rw [if_pos start]
  | word atom numeral start =>
    rw [run_atom atom, Kind.ofAtom, numeral]
    simp only [start]
    rfl

end

/-- The lexer gives the answer that a cut of the text says. -/
theorem run_segments {before text : List Char} {outcome : Except LexError (List Token)}
    (h : Segments before text outcome) (tokens : List Token) :
    run ⟨.gap, lineAt before, tokens⟩ text = outcome.map (tokens.reverse ++ ·) := by
  induction h generalizing tokens with
  | @done before gap hg =>
    have last : run ⟨.gap, lineAt before, tokens⟩ (gap ++ []) = .ok tokens.reverse := run_gap hg
    rw [List.append_nil] at last
    rw [last]
    exact congrArg Except.ok (List.append_nil _).symm
  | @token before gap written after kind outcome hg hw _ ih =>
    rw [List.append_assoc, run_gap hg, run_written hw, ← hg.lineAt_append before,
      ← lineAt_append, ih]
    cases outcome with
    | error e => rfl
    | ok ts => simp [Except.map]
  | @unterminated before gap body text stub hg hb hs =>
    have opened : step ⟨.gap, lineAt before, tokens⟩ quote =
        .ok ⟨.string (lineAt before) [], lineAt before, tokens⟩ := rfl
    rw [run_gap hg, run_cons opened, run_append (read_decodes hb _ _ []), hg.lineAt_append before]
    rcases hs with rfl | rfl <;> rfl
  | @invalid before gap after c hg control notBlank =>
    have refused : step ⟨.gap, lineAt before, tokens⟩ c =
        .error (.invalidCharacter c (lineAt before)) := start_control control notBlank _
    rw [run_gap hg, run, read_cons, refused, hg.lineAt_append before]
    rfl

end Lexer

/-! ## Cutting a text -/

/-- No atom goes on from `before` to `after`. -/
def Apart (before after : List Char) : Prop :=
  (∀ c ∈ before.getLast?, isDelimiter c = true) ∨ ∀ c ∈ after.head?, isDelimiter c = true

theorem apart_concat {c : Char} (h : isDelimiter c = true) (before after : List Char) :
    Apart (before ++ [c]) after := by
  left
  intro d hd
  rw [List.getLast?_concat] at hd
  cases hd
  exact h

theorem Apart.gap {before after gap : List Char} (h : Apart before (gap ++ after))
    (hg : Gap after gap) : Apart (before ++ gap) after := by
  induction hg generalizing before with
  | nil => rwa [List.append_nil]
  | @blank c gap hb _ _ ih =>
    have delimiter : isDelimiter c = true := by simp [isDelimiter, hb]
    rw [List.append_cons]
    exact ih (apart_concat delimiter before _)
  | comment _ stop =>
    right
    intro c hc
    rw [stop c hc]
    rfl

theorem exists_until (p : Char → Bool) (cs : List Char) :
    ∃ body after, cs = body ++ after ∧ (∀ c ∈ body, p c = false) ∧
      ∀ c ∈ after.head?, p c = true := by
  induction cs with
  | nil => exact ⟨[], [], rfl, List.forall_mem_nil _, fun _ h => by cases h⟩
  | cons c cs ih =>
    cases hp : p c with
    | true => exact ⟨[], c :: cs, rfl, List.forall_mem_nil _, fun _ h => by cases h; exact hp⟩
    | false =>
      obtain ⟨body, after, rfl, hb, stop⟩ := ih
      exact ⟨c :: body, after, rfl, List.forall_mem_cons.2 ⟨hp, hb⟩, stop⟩

/-- Every text starts with a gap that goes on as far as it can. -/
theorem exists_gap (cs : List Char) :
    ∃ gap after, cs = gap ++ after ∧ Gap after gap ∧
      ∀ c ∈ after.head?, c ≠ ',' ∧ (Text.isBlank c = true → c = '\n') := by
  induction cs with
  | nil => exact ⟨[], [], rfl, .nil, fun _ h => by cases h⟩
  | cons c cs ih =>
    by_cases comma : c = ','
    · obtain ⟨body, after, rfl, hb, stop⟩ := exists_until (· == '\n') cs
      have newline : ∀ d ∈ after.head?, d = '\n' := fun d hd => eq_of_beq (stop d hd)
      have inLine : '\n' ∉ body := fun hn => Bool.noConfusion (hb _ hn)
      refine ⟨c :: body, after, rfl, by rw [comma]; exact .comment inLine newline, fun d hd => ?_⟩
      cases newline d hd
      exact ⟨by decide, fun _ => rfl⟩
    by_cases blank : Text.isBlank c = true ∧ c ≠ '\n'
    · obtain ⟨gap, after, rfl, hg, stop⟩ := ih
      exact ⟨c :: gap, after, rfl, .blank blank.1 blank.2 hg, stop⟩
    · refine ⟨[], c :: cs, rfl, .nil, fun d hd => ?_⟩
      cases hd
      exact ⟨comma, fun hb => Classical.not_not.1 fun hn => blank ⟨hb, hn⟩⟩

theorem Decodes.escape {body text : List Char} (h : Decodes body text) (c : Char) :
    ∃ text, Decodes (Token.backslash :: c :: body) text := by
  by_cases other : c ∈ [Token.quote, Token.backslash, 'n', 't']
  · simp only [List.mem_cons, List.not_mem_nil, or_false] at other
    rcases other with rfl | rfl | rfl | rfl
    · exact ⟨_, h.quote⟩
    · exact ⟨_, h.backslash⟩
    · exact ⟨_, h.newline⟩
    · exact ⟨_, h.tab⟩
  · exact ⟨_, h.verbatim other⟩

/-- After an opening quote comes the body of a string, up to the first quote that is not escaped or
up to the end, which may cut an escape in two. -/
theorem exists_body : ∀ cs : List Char, ∃ body text after, cs = body ++ after ∧ Decodes body text ∧
    ((∃ rest, after = quote :: rest) ∨ after = [] ∨ after = [backslash])
  | [] => ⟨[], [], [], rfl, .nil, .inr (.inl rfl)⟩
  | c :: cs => by
    by_cases closes : c = quote
    · exact ⟨[], [], c :: cs, rfl, .nil, .inl ⟨cs, by rw [closes]⟩⟩
    by_cases escapes : c = backslash
    · subst escapes
      match cs with
      | [] => exact ⟨[], [], [backslash], rfl, .nil, .inr (.inr rfl)⟩
      | d :: cs =>
        obtain ⟨body, text, after, rfl, hb, stop⟩ := exists_body cs
        obtain ⟨text', hb'⟩ := hb.escape d
        exact ⟨_, text', after, rfl, hb', stop⟩
    · obtain ⟨body, text, after, rfl, hb, stop⟩ := exists_body cs
      exact ⟨c :: body, c :: text, after, rfl, .char closes escapes hb, stop⟩

theorem written_bracket {c : Char} {kind : Kind} (h : bracket? c = some kind)
    (before after : List Char) : Written before after [c] kind := by
  unfold bracket? at h
  split at h <;> cases h
  · exact .opener .scope
  · exact .closer .scope
  · exact .opener .collection
  · exact .closer .collection
  · exact .opener .mapping
  · exact .closer .mapping

theorem IsAtom.written {before cs after : List Char} (h : IsAtom before cs after) :
    Written before after cs (.ofAtom cs) := by
  unfold Kind.ofAtom
  split
  · next numeral => exact .number h numeral
  · next numeral =>
    split
    · next start => exact .key h numeral start
    · next start => exact .word h numeral (Bool.eq_false_iff.2 start)

theorem Written.isAtom {before after written : List Char} {kind : Kind} {name : String}
    (h : Written before after written kind) (hk : kind = .key name ∨ kind = .word name) :
    IsAtom before written after ∧ written = name.toList ∧ Kind.ofAtom written = kind := by
  cases h with
  | key atom numeral start =>
    rcases hk with hk | hk <;> cases hk
    exact ⟨atom, String.toList_ofList.symm, by simp [Kind.ofAtom, numeral, start]⟩
  | word atom numeral start =>
    rcases hk with hk | hk <;> cases hk
    exact ⟨atom, String.toList_ofList.symm, by simp [Kind.ofAtom, numeral, start]⟩
  | newline | opener | closer | string | number => rcases hk with hk | hk <;> cases hk

/-- What is not a gap starts with a token, with a quote that nothing closes, or with a control
character. -/
theorem exists_written {before cs : List Char} {c : Char} (hc : c ≠ ',')
    (hb : Text.isBlank c = true → c = '\n') (ha : Apart before (c :: cs)) :
    (∃ written after kind, c :: cs = written ++ after ∧ after.length ≤ cs.length ∧
      Written before after written kind ∧ Apart (before ++ written) after) ∨
    (∃ body text stub, c :: cs = quote :: (body ++ stub) ∧ Decodes body text ∧
      (stub = [] ∨ stub = [backslash])) ∨
    (Text.isControl c = true ∧ Text.isBlank c = false) := by
  by_cases newline : c = '\n'
  · subst newline
    exact .inl ⟨['\n'], cs, .newline, rfl, Nat.le_refl _, .newline, apart_concat rfl before cs⟩
  have blank : Text.isBlank c = false := Bool.eq_false_iff.2 fun h => newline (hb h)
  by_cases opens : c = quote
  · subst opens
    obtain ⟨body, text, after, rfl, decodes, ⟨after, rfl⟩ | stub⟩ := exists_body cs
    · refine .inl ⟨quote :: (body ++ [quote]), after, _, by simp, ?_, .string decodes, ?_⟩
      · simp
        omega
      · rw [← List.cons_append, ← List.append_assoc]
        exact apart_concat rfl _ after
    · exact .inr (.inl ⟨body, text, after, rfl, decodes, stub⟩)
  cases control : Text.isControl c with
  | true => exact .inr (.inr ⟨rfl, blank⟩)
  | false =>
    left
    cases bracket : bracket? c with
    | some kind =>
      have delimiter : isDelimiter c = true := by simp [isDelimiter, bracket]
      exact ⟨[c], cs, kind, rfl, Nat.le_refl _, written_bracket bracket before cs,
        apart_concat delimiter before cs⟩
    | none =>
      have plain : isDelimiter c = false := by simp [isDelimiter, blank, hc, opens, bracket]
      obtain ⟨body, after, rfl, hbody, stop⟩ := exists_until isDelimiter cs
      have left : ∀ d ∈ before.getLast?, isDelimiter d = true := by
        rcases ha with left | right
        · exact left
        · rw [right c rfl] at plain
          cases plain
      have atom : IsAtom before (c :: body) after :=
        { nonempty := List.cons_ne_nil c body
          chars := List.forall_mem_cons.2 ⟨plain, hbody⟩
          left := left
          right := stop
          visible := fun d hd => by cases hd; exact control }
      exact ⟨c :: body, after, _, rfl, by simp, atom.written, .inr stop⟩

theorem exists_segments {before cs : List Char} (ha : Apart before cs) :
    ∃ outcome, Segments before cs outcome := by
  induction length : cs.length using Nat.strongRecOn generalizing before cs with
  | ind n ih =>
    obtain ⟨gap, after, rfl, hg, stop⟩ := exists_gap cs
    cases after with
    | nil => exact ⟨_, by rw [List.append_nil]; exact .done hg⟩
    | cons c after =>
      obtain ⟨comma, blank⟩ := stop c rfl
      rcases exists_written comma blank (ha.gap hg) with
        ⟨written, rest, kind, split, shorter, hw, ha⟩ | ⟨body, text, stub, split, hb, hs⟩ | ⟨hc, hb⟩
      · have decreases : rest.length < n := by
          rw [← length, List.length_append, List.length_cons]
          omega
        obtain ⟨outcome, segments⟩ := ih rest.length decreases ha rfl
        rw [split] at hg ⊢
        rw [← List.append_assoc]
        exact ⟨_, .token hg hw segments⟩
      · rw [split] at hg ⊢
        exact ⟨_, .unterminated hg hb hs⟩
      · exact ⟨_, .invalid hg hc hb⟩

theorem Segments.written_of_mem {before text : List Char} {outcome : Except LexError (List Token)}
    (h : Segments before text outcome) {ts : List Token} (ho : outcome = .ok ts) {t : Token}
    (ht : t ∈ ts) : ∃ left written right, Written left right written t.kind := by
  induction h generalizing ts with
  | done =>
    cases ho
    cases ht
  | @token before gap written after kind outcome _ hw _ ih =>
    cases outcome with
    | error e => cases ho
    | ok rest =>
      cases ho
      rcases List.mem_cons.1 ht with rfl | ht
      · exact ⟨_, _, _, hw⟩
      · exact ih rfl ht
  | unterminated | invalid => cases ho

theorem segments_lex (source : String) : Segments [] source.toList (lex source) := by
  have apart : Apart [] source.toList := .inl fun _ h => by cases h
  obtain ⟨o, segments⟩ := exists_segments apart
  have answer : lex source = o := by
    refine (Lexer.run_segments segments []).trans ?_
    cases o <;> rfl
  rwa [answer]

/-- **The cut of a text**: what comes of a source text is what comes of it when it is cut into gaps
and written tokens, and nothing else. -/
theorem lex_eq_iff (source : String) (outcome : Except LexError (List Token)) :
    lex source = outcome ↔ Segments [] source.toList outcome := by
  have answer : ∀ {o}, Segments [] source.toList o → lex source = o := by
    intro o h
    refine (Lexer.run_segments h []).trans ?_
    cases o <;> rfl
  refine ⟨fun h => ?_, answer⟩
  have apart : Apart [] source.toList := .inl fun _ h => by cases h
  obtain ⟨o, segments⟩ := exists_segments apart
  rwa [← h, answer segments]

/-- A comment with a quote in it, a string over three lines that ends right before a number, an atom
that a bracket ends and one that a comment ends; then a quote in the second line that only an
escaped quote follows, and a control character where a token should start. -/
theorem lex_eq_iff_lines :
    let tokens : List Token :=
      [⟨.word "f", 1⟩, ⟨.newline, 1⟩, ⟨.string "a\n\\\n\\q'\t", 2⟩, ⟨.number 31, 4⟩,
        ⟨.word "x\x01", 4⟩, ⟨.opener .scope, 4⟩, ⟨.key "+", 4⟩]
    Segments [] "f ,' [\n\t'a\n\\\n\\q\\'\\t'0x1F x\x01(+,1".toList (.ok tokens) ∧
      Segments [] "[\n 'x\\'\n\\".toList (.error (.unterminatedString 2)) ∧
      Segments [] "x\x01\n \x01".toList (.error (.invalidCharacter '\x01' 2)) :=
  ⟨(lex_eq_iff _ _).1 rfl, (lex_eq_iff _ _).1 rfl, (lex_eq_iff _ _).1 rfl⟩

end Sigil.Token
