import Sigil.Proofs.Segmentation

/-!
# Writing strings

Every text can be written as a string. A quote and a backslash in it are escaped, and each newline
and each tab is either escaped or left as it is, whichever one likes; all other characters,
delimiters and control characters too, stand for themselves. A `Quotation` is a text with such a
choice.

What is written decodes to the text (`Quotation.decodes_body`), so the lexer turns quotations with
blanks between them into one string each (`lex_quotations`). A newline that is left as it is counts
as a line of the source; an escaped one does not.
-/

namespace Sigil.Token

/-- How a character is written between quotes. `escaped` matters for newlines and tabs only. -/
def spell (escaped : Bool) (c : Char) : List Char :=
  if c = quote ∨ c = backslash then [backslash, c]
  else if escaped = true ∧ c = '\n' then [backslash, 'n']
  else if escaped = true ∧ c = '\t' then [backslash, 't']
  else [c]

/-- A text to write as a string, and the places where a newline or a tab in it is escaped. -/
structure Quotation where
  text : String
  escaped : Nat → Bool

namespace Quotation

/-- What stands between the quotes. -/
def body (q : Quotation) : List Char :=
  (q.text.toList.mapIdx fun i c => spell (q.escaped i) c).flatten

def written (q : Quotation) : String :=
  String.ofList (quote :: (q.body ++ [quote]))

/-- The newlines that are left as they are in some quotations. -/
def breaks (qs : List Quotation) : Nat :=
  (qs.flatMap fun q => q.written.toList).count '\n'

@[simp] theorem breaks_nil : breaks [] = 0 := rfl

@[simp] theorem breaks_cons (q : Quotation) (qs : List Quotation) :
    breaks (q :: qs) = q.written.toList.count '\n' + breaks qs := by
  rw [breaks, breaks, List.flatMap_cons, List.count_append]

end Quotation

/-! ## Decoding what is written -/

theorem Decodes.spell {body text : List Char} (h : Decodes body text) (escaped : Bool) (c : Char) :
    Decodes (Token.spell escaped c ++ body) (c :: text) := by
  unfold Token.spell
  split
  · next special =>
    rcases special with rfl | rfl
    · exact h.quote
    · exact h.backslash
  · next plain =>
    obtain ⟨notQuote, notBackslash⟩ := not_or.1 plain
    split
    · next newline => rw [newline.2]; exact h.newline
    split
    · next tab => rw [tab.2]; exact h.tab
    · exact h.char notQuote notBackslash

theorem decodes_flatten_mapIdx_spell (escaped : Nat → Bool) (cs : List Char) :
    Decodes (cs.mapIdx fun i c => spell (escaped i) c).flatten cs := by
  -- the places count from the first character that is left
  induction cs generalizing escaped with
  | nil => exact .nil
  | cons c cs ih =>
    rw [List.mapIdx_cons, List.flatten_cons]
    exact (ih fun i => escaped (i + 1)).spell (escaped 0) c

theorem Quotation.decodes_body (q : Quotation) : Decodes q.body q.text.toList :=
  decodes_flatten_mapIdx_spell q.escaped q.text.toList

/-! ## Lexing what is written -/

namespace Lexer

variable (line : Nat) (tokens : List Token)

theorem run_quotation (q : Quotation) (after : List Char) :
    run ⟨.gap, line, tokens⟩ (q.written.toList ++ after) =
      run ⟨.gap, line + q.written.toList.count '\n', ⟨.string q.text, line⟩ :: tokens⟩ after := by
  have string : Written [] after q.written.toList (.string q.text) := by
    have h : Written [] after _ _ := .string q.decodes_body
    rwa [String.ofList_toList, ← String.toList_ofList (l := quote :: _)] at h
  exact run_written string

theorem run_quotation_cons (q : Quotation) (qs : List Quotation) :
    run ⟨.gap, line, tokens⟩ (String.intercalate " " ((q :: qs).map Quotation.written)).toList =
      run ⟨.gap, line + q.written.toList.count '\n', ⟨.string q.text, line⟩ :: tokens⟩
        (String.intercalate " " (qs.map Quotation.written)).toList := by
  cases qs with
  | nil =>
    have alone := run_quotation line tokens q []
    rw [List.append_nil] at alone
    simpa using alone
  | cons p qs =>
    have blank : ∀ after, Gap after [' '] := fun _ => .blank rfl (by decide) .nil
    have apart := fun after => (run_quotation line tokens q _).trans (run_gap (blank after))
    simpa using apart (String.intercalate " " ((p :: qs).map Quotation.written)).toList

/-- Quotations with blanks between them become one string each, and every one of them moves those
after it down by its breaks. -/
theorem run_quotations (qs : List Quotation) :
    run ⟨.gap, line, tokens⟩ (String.intercalate " " (qs.map Quotation.written)).toList =
      .ok (tokens.reverse ++ qs.mapIdx fun i q =>
        ⟨.string q.text, line + Quotation.breaks (qs.take i)⟩) := by
  induction qs generalizing line tokens with
  | nil => exact congrArg Except.ok (List.append_nil _).symm
  | cons q qs ih =>
    rw [run_quotation_cons, ih, List.mapIdx_cons]
    simp [Nat.add_assoc]

end Lexer

/-- **Every text can be written as a string**: texts that are written between quotes, with blanks
between them, are the strings that a lexer finds, one for each text and in their order. Each stands
on the line that the newlines written as they are in the texts before it lead to. -/
theorem lex_quotations (qs : List Quotation) :
    lex (String.intercalate " " (qs.map Quotation.written)) =
      .ok (qs.mapIdx fun i q => ⟨.string q.text, 1 + Quotation.breaks (qs.take i)⟩) :=
  Lexer.run_quotations 1 [] qs

/-- A quote, a newline that is escaped, and a backslash right before one that is not; then a tab, a
comma, a bracket and a control character as they are; and the empty text. -/
theorem lex_quotations_lines :
    lex "'it\\'s\\n\\\\\n' '\t,(\x07' ''" =
      .ok [⟨.string "it's\n\\\n", 1⟩, ⟨.string "\t,(\x07", 2⟩, ⟨.string "", 2⟩] :=
  lex_quotations [⟨"it's\n\\\n", (· == 4)⟩, ⟨"\t,(\x07", fun _ => false⟩, ⟨"", fun _ => true⟩]

end Sigil.Token
