import Mathlib.Data.List.Infix
import Sigil.Proofs.Fuel
import Sigil.Random
import Sigil.Session

/-!
# Refused lines

A session is its interpreter taken from line to line. `Session.Writes i texts blocks` is that walk,
with what it writes for each line, and `page` is the output that the blocks make up
(`prints_iff`). Since a refused text leaves the interpreter as it is (`run_of_refuses`), its line
can be deleted and the blocks of the others stay (`Writes.kept`).

For the input as bytes, all that matters is where its lines end: a list of lines is read back from
its bytes (`lines_flatten`), also when lines were deleted from it (`AreLines.sublist`), and what
follows a newline is read on its own (`lines_append`).
-/

namespace Sigil

/-! ## Texts that are refused -/

/-- Whether a text is not evaluated: its characters are no tokens, or its brackets leave the top
level unbalanced. -/
def Interpreter.refuses (text : String) : Bool :=
  match Token.lex text with
  | .error _ => true
  | .ok ts => (parse ts).2.any ParseError.isFatal

/-- A text on one line. -/
def OneLine (text : String) : Prop :=
  '\n' ∉ text.toList

instance : DecidablePred OneLine :=
  fun text => inferInstanceAs (Decidable ('\n' ∉ text.toList))

theorem oneLine_append {s t : String} : OneLine (s ++ t) ↔ OneLine s ∧ OneLine t := by
  unfold OneLine
  rw [String.toList_append, List.mem_append, not_or]

theorem oneLine_toDigits {b : Nat} (hb : 1 < b) (hb' : b ≤ 16) (n : Nat) :
    OneLine (String.ofList (Nat.toDigits b n)) := by
  have digit : ∀ k < 16, '\n' ∉ [Nat.digitChar k] := by decide
  unfold OneLine
  rw [String.toList_ofList]
  induction n using Nat.strongRecOn with
  | ind n ih =>
    rw [Nat.toDigits_eq_if hb]
    split
    · exact digit n (by omega)
    · have below : n % b < b := Nat.mod_lt n (by omega)
      rw [List.mem_append, not_or]
      exact ⟨ih _ (Nat.div_lt_self (by omega) hb), digit _ (by omega)⟩

theorem oneLine_toString (n : Nat) : OneLine (toString n) := by
  have digits : toString n = String.ofList (Nat.toDigits 10 n) := by
    rw [← String.toList_inj]
    simp
  rw [digits]
  exact oneLine_toDigits (by decide) (by decide) n

theorem LexError.oneLine_escaped (c : Char) : OneLine (escaped c) := by
  unfold escaped
  split
  · decide
  · simp only [oneLine_append]
    exact ⟨⟨by decide, oneLine_toDigits (by decide) (by decide) _⟩, by decide⟩

theorem LexError.oneLine_message (e : LexError) : OneLine e.message := by
  cases e with
  | unterminatedString line =>
    unfold message
    simp only [oneLine_append]
    exact ⟨⟨by decide, oneLine_toString line⟩, by decide⟩
  | invalidCharacter c line =>
    unfold message
    simp only [oneLine_append]
    exact ⟨⟨⟨⟨by decide, oneLine_escaped c⟩, by decide⟩, oneLine_toString line⟩, by decide⟩

theorem ParseError.oneLine_message {e : ParseError} (h : e.isFatal) : OneLine e.message := by
  cases e with
  | unclosed g line =>
    unfold message
    simp only [oneLine_append]
    refine ⟨⟨⟨⟨⟨⟨by decide, ?_⟩, by decide⟩, ?_⟩, by decide⟩, oneLine_toString line⟩, by decide⟩
    all_goals cases g <;> decide
  | unexpectedClosing g line =>
    unfold message
    simp only [oneLine_append]
    refine ⟨⟨⟨⟨by decide, ?_⟩, by decide⟩, oneLine_toString line⟩, by decide⟩
    cases g <;> decide
  | _ => cases h

/-- A refused text is answered with one error, and changes nothing. -/
theorem Interpreter.run_of_refuses [Generator] {text : String} (h : refuses text) :
    ∃ d : Diagnostic, d.severity = .error ∧ OneLine d.text ∧
      ∀ (fuel : Nat) (i : Interpreter), i.run fuel text = some (.refused d, i) := by
  unfold refuses at h
  cases hts : Token.lex text with
  | error e => exact ⟨.lex e, rfl, e.oneLine_message, fun _ _ => run_of_lexError hts⟩
  | ok ts =>
    simp only [hts, List.any_eq_true] at h
    obtain ⟨e, he⟩ := Option.isSome_iff_exists.1 (List.find?_isSome.2 h)
    have fatal : e.isFatal := List.find?_some he
    exact ⟨.parse e, if_pos fatal, ParseError.oneLine_message fatal, fun _ _ => run_of_fatal hts he⟩

/-- What a session writes for a refused text: one message behind a tab, and the text of nothing. -/
theorem Outcome.transcript_refused {d : Diagnostic} (h : d.severity = .error) :
    (refused d).transcript = "\t[!] " ++ d.text ++ "\n--> " ++ Value.nothing.format ++ "\n" := by
  have message : d.message = "[!] " ++ d.text := by
    rw [Diagnostic.message, h]
    rfl
  show "" ++ ("" ++ ("\t" ++ d.message ++ "\n")) ++ "--> " ++ _ ++ "\n" = _
  rw [message, ← String.toList_inj]
  simp only [String.toList_append, List.append_assoc]
  rfl

namespace Session

/-! ## Lines as bytes -/

/-- Lists of lines: each has one newline, at its end, which only the last may lack. -/
inductive AreLines : List (List UInt8) → Prop where
  | nil : AreLines []
  | last {line : List UInt8} : line ≠ [] → 10 ∉ line → AreLines [line]
  | cons {line : List UInt8} {rest : List (List UInt8)} : 10 ∉ line → AreLines rest →
      AreLines ((line ++ [10]) :: rest)

/-- A line begins with what was seen of it. -/
theorem lines_of_not_mem {line : List UInt8} (h : 10 ∉ line) (seen rest : List UInt8) :
    lines seen (line ++ rest) = lines (line.reverse ++ seen) rest := by
  induction line generalizing seen with
  | nil => rfl
  | cons b line ih =>
    rw [List.mem_cons, not_or] at h
    rw [List.cons_append, lines, if_neg (Ne.symm h.1), ih h.2]
    simp

theorem lines_newline (seen rest : List UInt8) :
    lines seen (10 :: rest) = (seen.reverse ++ [10]) :: lines [] rest := by
  rw [lines, if_pos rfl, List.reverse_cons]

theorem areLines_lines {seen : List UInt8} (h : 10 ∉ seen) (input : List UInt8) :
    AreLines (lines seen input) := by
  have seen' {seen : List UInt8} (h : 10 ∉ seen) : 10 ∉ seen.reverse :=
    fun hm => h (List.mem_reverse.1 hm)
  fun_induction lines seen input with
  | case1 => exact .nil
  | case2 seen hs => exact .last (by simpa using hs) (seen' h)
  | case3 seen bs ih =>
    rw [List.reverse_cons]
    exact .cons (seen' h) (ih (by simp))
  | case4 seen b bs hb ih => exact ih (by simp [h, Ne.symm hb])

theorem lines_flatten {ls : List (List UInt8)} (h : AreLines ls) : lines [] ls.flatten = ls := by
  induction h with
  | nil => rfl
  | last hne h =>
    rw [List.flatten_cons, lines_of_not_mem h]
    simp [lines, hne]
  | @cons line rest h _ ih =>
    rw [List.flatten_cons, List.append_assoc, lines_of_not_mem h, List.singleton_append,
      lines_newline, ih]
    simp

/-- What is left of lines are lines: whichever comes last may do without a newline. -/
theorem AreLines.sublist {ls ls' : List (List UInt8)} (h : AreLines ls) (hs : ls'.Sublist ls) :
    AreLines ls' := by
  induction h generalizing ls' with
  | nil => rw [List.sublist_nil.1 hs]; exact .nil
  | last hne h =>
    rcases List.sublist_singleton.1 hs with rfl | rfl
    · exact .nil
    · exact .last hne h
  | cons h _ ih =>
    rcases List.sublist_cons_iff.1 hs with inner | ⟨rest, rfl, inner⟩
    · exact ih inner
    · exact .cons h (ih inner)

/-- What follows a newline is read on its own. -/
theorem lines_append {input : List UInt8} (h : input.getLast? = some 10) (more : List UInt8) :
    lines [] (input ++ more) = lines [] input ++ lines [] more := by
  have split (seen bs : List UInt8) :
      lines seen (bs ++ 10 :: more) = lines seen (bs ++ [10]) ++ lines [] more := by
    fun_induction lines seen bs with
    | case1 | case2 => simp [lines]
    | case3 seen bs ih => simp [lines_newline, ih]
    | case4 seen b bs hb ih => simp [lines, hb, ih]
  obtain ⟨bs, rfl⟩ := List.getLast?_eq_some_iff.1 h
  rw [List.append_assoc, List.singleton_append, split]

/-! ## Lines as text -/

/-- The bytes of a text. -/
def bytes (text : String) : List UInt8 :=
  text.toUTF8.data.toList

theorem fromUTF8?_bytes (text : String) : String.fromUTF8? ⟨(bytes text).toArray⟩ = some text := by
  unfold bytes String.fromUTF8?
  exact dif_pos text.isValidUTF8

theorem readable_map_bytes (texts : List String) : readable (texts.map bytes) = texts := by
  induction texts with
  | nil => rfl
  | cons text texts ih => simp only [List.map_cons, readable, fromUTF8?_bytes, ih]

theorem readable_prefix (ls ls' : List (List UInt8)) : readable ls <+: readable (ls ++ ls') := by
  induction ls with
  | nil => exact List.nil_prefix
  | cons line ls ih =>
    rw [List.cons_append, readable, readable]
    split
    · exact (List.prefix_cons_inj _).2 ih
    · exact List.nil_prefix

theorem readable_of_invalid {line : List UInt8} (h : String.fromUTF8? ⟨line.toArray⟩ = none)
    (before rest : List (List UInt8)) : readable (before ++ line :: rest) = readable before := by
  induction before with
  | nil => simp only [List.nil_append, readable, h]
  | cons first before ih => rw [List.cons_append, readable, readable, ih]

/-! ## Sessions, line by line -/

section

variable [Generator]

/-- Texts that are run one after the other, and what is written for each of them. -/
inductive Writes : Interpreter → List String → List String → Prop where
  | nil (i : Interpreter) : Writes i [] []
  | cons {i j : Interpreter} {text : String} {o : Outcome} {texts blocks : List String} :
      i.RunsTo text o j → Writes j texts blocks → Writes i (text :: texts) (o.transcript :: blocks)

/-- The output that blocks make up: each of them behind a prompt, and the prompt at which the input
ends. -/
def page : List String → String
  | [] => prompt
  | block :: blocks => prompt ++ block ++ page blocks

/-- A session that ends, with its output. -/
def Prints (i : Interpreter) (input : List UInt8) (out : String) : Prop :=
  ∃ fuel, transcript fuel i input = some out

theorem transcriptOfLines_cons_eq_some_iff {fuel : Nat} {i : Interpreter} {text : String}
    {texts : List String} {out : String} :
    transcriptOfLines fuel i (text :: texts) = some out ↔
      ∃ o j rest, i.run fuel text = some (o, j) ∧ transcriptOfLines fuel j texts = some rest ∧
        out = prompt ++ o.transcript ++ rest := by
  rw [transcriptOfLines, Option.bind_eq_some_iff]
  constructor
  · rintro ⟨⟨o, j⟩, hr, h⟩
    obtain ⟨rest, hw, rfl⟩ := Option.map_eq_some_iff.1 h
    exact ⟨o, j, rest, hr, hw, rfl⟩
  · rintro ⟨o, j, rest, hr, hw, rfl⟩
    exact ⟨(o, j), hr, Option.map_eq_some_iff.2 ⟨rest, hw, rfl⟩⟩

theorem transcriptOfLines_mono {f f' : Nat} (hf : f ≤ f') {i : Interpreter} {texts : List String}
    {out : String} (h : transcriptOfLines f i texts = some out) :
    transcriptOfLines f' i texts = some out := by
  induction texts generalizing i out with
  | nil => exact h
  | cons text texts ih =>
    obtain ⟨o, j, rest, hr, hw, rfl⟩ := transcriptOfLines_cons_eq_some_iff.1 h
    exact transcriptOfLines_cons_eq_some_iff.2 ⟨o, j, rest, i.run_mono hf hr, ih hw, rfl⟩

/-- The walk and the function that writes it give the same output. -/
theorem exists_transcriptOfLines_iff {i : Interpreter} {texts : List String} {out : String} :
    (∃ fuel, transcriptOfLines fuel i texts = some out) ↔
      ∃ blocks, Writes i texts blocks ∧ out = page blocks := by
  constructor
  · rintro ⟨fuel, h⟩
    induction texts generalizing i out with
    | nil => exact ⟨[], .nil i, (Option.some.inj h).symm⟩
    | cons text texts ih =>
      obtain ⟨o, j, rest, hr, hw, rfl⟩ := transcriptOfLines_cons_eq_some_iff.1 h
      obtain ⟨blocks, hb, rfl⟩ := ih hw
      exact ⟨_, .cons ⟨fuel, hr⟩ hb, rfl⟩
  · rintro ⟨blocks, h, rfl⟩
    induction h with
    | nil => exact ⟨0, rfl⟩
    | @cons i j text o texts blocks hr _ ih =>
      obtain ⟨f, hr⟩ := hr
      obtain ⟨f', hw⟩ := ih
      have hr := i.run_mono (Nat.le_max_left f f') hr
      have hw := transcriptOfLines_mono (Nat.le_max_right f f') hw
      exact ⟨max f f', transcriptOfLines_cons_eq_some_iff.2 ⟨o, j, page blocks, hr, hw, rfl⟩⟩

theorem prints_iff {i : Interpreter} {input : List UInt8} {out : String} :
    Prints i input out ↔
      ∃ blocks, Writes i (readable (lines [] input)) blocks ∧ out = page blocks :=
  exists_transcriptOfLines_iff

theorem Writes.split {i : Interpreter} {texts more blocks : List String}
    (h : Writes i (texts ++ more) blocks) :
    ∃ first rest, blocks = first ++ rest ∧ Writes i texts first := by
  induction texts generalizing i blocks with
  | nil => exact ⟨[], blocks, rfl, .nil i⟩
  | cons text texts ih =>
    cases h with
    | cons hr hw =>
      obtain ⟨first, rest, rfl, hf⟩ := ih hw
      exact ⟨_, rest, rfl, .cons hr hf⟩

end

theorem page_prefix (first rest : List String) :
    (page first).toList <+: (page (first ++ rest)).toList := by
  induction first with
  | nil =>
    cases rest with
    | nil => exact List.prefix_rfl
    | cons block rest =>
      simp only [List.nil_append, page, String.toList_append, List.append_assoc]
      exact List.prefix_append _ _
  | cons block first ih =>
    simp only [List.cons_append, page, String.toList_append]
    exact (List.prefix_append_right_inj _).2 ih

/-! ## Deleting lines -/

/-- What is left of a list when the places with the mark `false` are deleted. -/
def kept {α : Type} : List Bool → List α → List α
  | mark :: marks, a :: as => if mark then a :: kept marks as else kept marks as
  | _, _ => []

theorem kept_sublist {α : Type} (marks : List Bool) (as : List α) : (kept marks as).Sublist as := by
  fun_induction kept marks as with
  | case1 marks a as ih => exact ih.cons_cons a
  | case2 mark marks a as hm ih => exact ih.cons a
  | case3 => exact List.nil_sublist _

/-- Every text with the mark `false` is refused. -/
def OnlyRefused (marks : List Bool) (texts : List String) : Prop :=
  List.Forall₂ (fun mark text => mark = false → Interpreter.refuses text) marks texts

/-- A line that is refused takes nothing with it but its own block. -/
theorem Writes.kept [Generator] {i : Interpreter} {texts blocks : List String}
    (h : Writes i texts blocks) {marks : List Bool} (hm : OnlyRefused marks texts) :
    Writes i (kept marks texts) (kept marks blocks) := by
  induction h generalizing marks with
  | nil i =>
    cases hm
    exact .nil i
  | @cons i j text o texts blocks hr _ ih =>
    cases hm with
    | @cons mark _ marks _ refused hm =>
      cases mark with
      | true => exact .cons hr (ih hm)
      | false =>
        -- the rest is run by the interpreter that the deleted line was run by
        obtain ⟨d, -, -, run⟩ := Interpreter.run_of_refuses (refused rfl)
        obtain ⟨-, rfl⟩ := hr.unique ⟨0, run 0 i⟩
        exact ih hm

/-- One line with an error behind a tab, and one with the text of nothing. -/
def IsRefusal (block : String) : Prop :=
  ∃ message, OneLine message ∧
    block = "\t[!] " ++ message ++ "\n--> " ++ Value.nothing.format ++ "\n"

theorem Writes.refused [Generator] {i : Interpreter} {texts blocks : List String}
    (h : Writes i texts blocks) :
    List.Forall₂ (fun text block => Interpreter.refuses text → IsRefusal block) texts blocks := by
  induction h with
  | nil => exact .nil
  | @cons i _ _ _ _ _ hr _ ih =>
    refine .cons (fun refused => ?_) ih
    obtain ⟨d, error, oneLine, run⟩ := Interpreter.run_of_refuses refused
    obtain ⟨rfl, -⟩ := hr.unique ⟨0, run 0 i⟩
    exact ⟨d.text, oneLine, Outcome.transcript_refused error⟩

/-- **Refused lines leave no trace.** In a session of valid lines that ends, a line that is refused
is answered with one error and the text of nothing, and after any refused lines are deleted from the
input, the session writes the blocks of the other lines as before, in their order. The output for
complete lines stays when more follows them, and from the first line on that is not valid text the
input counts for nothing. -/
theorem refused_lines_leave_no_trace [Generator] (i : Interpreter) (input : List UInt8) :
    (∀ texts out, lines [] input = texts.map bytes → Prints i input out →
      ∃ blocks, Writes i texts blocks ∧ out = page blocks ∧
        List.Forall₂ (fun text block => Interpreter.refuses text → IsRefusal block) texts blocks ∧
        ∀ marks, OnlyRefused marks texts →
          Writes i (kept marks texts) (kept marks blocks) ∧
          Prints i ((kept marks texts).flatMap bytes) (page (kept marks blocks))) ∧
    (∀ more out, input.getLast? = some 10 → Prints i (input ++ more) out →
      ∃ start, Prints i input start ∧ start.toList <+: out.toList) ∧
    ∀ before line rest, lines [] input = before ++ line :: rest →
      String.fromUTF8? ⟨line.toArray⟩ = none →
      ∀ fuel, transcript fuel i input = transcript fuel i before.flatten := by
  have areLines : AreLines (lines [] input) := areLines_lines (by simp) input
  refine ⟨fun texts out valid h => ?_, fun more out complete h => ?_,
    fun before line rest e invalid fuel => ?_⟩
  · obtain ⟨blocks, writes, rfl⟩ := prints_iff.1 h
    rw [valid, readable_map_bytes] at writes
    refine ⟨blocks, writes, rfl, writes.refused, fun marks only => ?_⟩
    have left : AreLines ((kept marks texts).map bytes) :=
      areLines.sublist (valid ▸ (kept_sublist marks texts).map bytes)
    refine ⟨writes.kept only, prints_iff.2 ⟨_, ?_, rfl⟩⟩
    rw [List.flatMap_def, lines_flatten left, readable_map_bytes]
    exact writes.kept only
  · obtain ⟨blocks, writes, rfl⟩ := prints_iff.1 h
    rw [lines_append complete] at writes
    obtain ⟨texts, read⟩ := readable_prefix (lines [] input) (lines [] more)
    rw [← read] at writes
    obtain ⟨first, rest, rfl, before⟩ := writes.split
    exact ⟨page first, prints_iff.2 ⟨first, before, rfl⟩, page_prefix first rest⟩
  · have left : AreLines before := areLines.sublist (e ▸ List.sublist_append_left _ _)
    rw [transcript, transcript, e, readable_of_invalid invalid, lines_flatten left]

open scoped Sigil.Random

/-- A line with a bracket too many and one with a string that does not end, both of which would
define a name anew, and after them a line that prints it. -/
theorem refused_lines_leave_no_trace_session :
    let i := ({ seed := some 7 } : Config).interpreter (Generator.ofSeed 0)
    let texts := [": x 'old'\n", ": x 'new')\n", ": x 'lost\n", "; x\n"]
    let input := texts.flatMap bytes
    let out := ">> --> old\n>> \t[!] unexpected closing bracket ')' (line 1)\n--> ∅\n" ++
      ">> \t[!] unclosed string (starting at line 1)\n--> ∅\n>> old\n--> old\n>> "
    Prints i input out ∧
    (∃ blocks, Writes i texts blocks ∧ out = page blocks ∧
      Prints i ([": x 'old'\n", "; x\n"].flatMap bytes)
        (page (kept [true, false, false, true] blocks))) ∧
    (∃ start, Prints i input start ∧ start.toList <+: (out ++ "old\n--> old\n>> ").toList) ∧
    ∀ fuel, transcript fuel i (input ++ [255]) = transcript fuel i input := by
  intro i texts input out
  have valid : lines [] input = texts.map bytes := by decide +kernel
  have prints : Prints i input out := ⟨9, by decide +kernel⟩
  have longer : Prints i (input ++ bytes "; x") (out ++ "old\n--> old\n>> ") :=
    ⟨9, by decide +kernel⟩
  have only : OnlyRefused [true, false, false, true] texts :=
    .cons (by decide +kernel) (.cons (by decide +kernel) (.cons (by decide +kernel)
      (.cons (by decide +kernel) .nil)))
  have split : lines [] (input ++ [255]) = texts.map bytes ++ [255] :: [] := by decide +kernel
  obtain ⟨blocks, writes, pages, -, deleted⟩ :=
    (refused_lines_leave_no_trace i input).1 texts out valid prints
  refine ⟨prints, ⟨blocks, writes, pages, (deleted _ only).2⟩, ?_, ?_⟩
  · exact (refused_lines_leave_no_trace i input).2.1 _ _ (by decide +kernel) longer
  · exact (refused_lines_leave_no_trace i (input ++ [255])).2.2 _ _ _ split (by decide +kernel)

end Session

end Sigil
