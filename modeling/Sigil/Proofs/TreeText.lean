import Sigil.Proofs.NumeralGrammar
import Sigil.Proofs.Sequencing

/-!
# Trees read back

The text of a tree puts every call and every group into brackets of its own. For most trees it is a
source text for the tree: `Node.isDisplayable` says for which. Left out are texts that a string
cannot hold without an escape, numbers and names that are no tokens of their own, and the dividers
that the text puts between the statements of a scope and the pairs of a mapping: in a source text a
semicolon belongs to a name, and a comma starts a comment.

`Node.ReadsBack` puts the two directions together: the text of a tree is cut into tokens, and these
tokens are read as the tree wherever a node can stand. It holds by induction on the tree
(`readsBack_of_isDisplayable`). The statements of a program stand on lines of their own, so that
each is read as it is read alone (`reads_programText`).
-/

namespace Sigil

/-! ## Displayable trees -/

/-- Whether a name, as a text of its own, is a single key. -/
def Token.isKeyText (name : String) : Bool :=
  lex name = .ok [⟨.key name, 1⟩]

/-- Whether a name, as a text of its own, is a single word. -/
def Token.isWordText (name : String) : Bool :=
  lex name = .ok [⟨.word name, 1⟩]

namespace Node

/-- Whether a text can stand between quotes as it is. -/
def isVerbatim (s : String) : Bool :=
  s.toList.all fun c => c != Token.quote && c != Token.backslash

/-- Whether a name is a word that does not stand for a truth value. -/
def isPlainWord (name : String) : Bool :=
  Token.isWordText name && name != Literal.booleanWord true && name != Literal.booleanWord false

/-- The literals with a text that is a token of their own. -/
def isDisplayableLiteral : Literal → Bool
  | .number x => Numeral.read? (Number.plain x).toList = some x
  | .string s => isVerbatim s
  | .boolean _ => true

/-- The nodes that can be the head of a call. -/
def isDisplayableHead : Node → Bool
  | reference name _ => Token.isKeyText name || isPlainWord name
  | _ => false

/-- The nodes that can be the key of a mapping. -/
def isDisplayableKey : Node → Bool
  | reference name _ => Token.isKeyText name || Token.isWordText name
  | literal (.string s) _ => isVerbatim s
  | _ => false

mutual

/-- Trees whose text is a source text for them. -/
def isDisplayable : Node → Bool
  | literal value _ => isDisplayableLiteral value
  | reference name _ => isPlainWord name
  | call head args _ => head.isDisplayableHead && allDisplayable args
  | scope body _ => body.isEmpty
  | collection items _ => allDisplayable items
  | mapping pairs _ => pairs.length ≤ 1 && pairsDisplayable pairs

def allDisplayable : List Node → Bool
  | [] => true
  | n :: ns => n.isDisplayable && allDisplayable ns

def pairsDisplayable : List (Node × Node) → Bool
  | [] => true
  | (key, value) :: pairs =>
    key.isDisplayableKey && value.isDisplayable && pairsDisplayable pairs

end

theorem allDisplayable_iff {ns : List Node} :
    allDisplayable ns = true ↔ ∀ n ∈ ns, n.isDisplayable = true := by
  induction ns with
  | nil => simp [allDisplayable]
  | cons n ns ih => simp [allDisplayable, ih]

end Node

/-! ## Cutting the text -/

namespace Token

theorem decodes_verbatim {cs : List Char} (h : ∀ c ∈ cs, c ≠ quote ∧ c ≠ backslash) :
    Decodes cs cs := by
  induction cs with
  | nil => exact .nil
  | cons c cs ih =>
    rw [List.forall_mem_cons] at h
    exact .char h.1.1 h.1.2 (ih h.2)

theorem lexes_string {s : String} (h : Node.isVerbatim s = true) :
    Lexes ("'" ++ s ++ "'").toList [.string s] := by
  have plain : ∀ c ∈ s.toList, c ≠ quote ∧ c ≠ backslash := by
    simpa [Node.isVerbatim] using h
  have text : ("'" ++ s ++ "'").toList = quote :: (s.toList ++ [quote]) := by simp [quote]
  rintro ⟨mode, line, tokens⟩ ⟨⟩
  refine ⟨⟨.gap, line + s.toList.count '\n', ⟨.string s, line⟩ :: tokens⟩, ?_,
    by simp [Lexer.kinds?, Lexer.kinds]⟩
  rw [text, Lexer.read_cons]
  change Lexer.read ⟨.string line [], line, tokens⟩ (s.toList ++ [quote]) = _
  rw [Lexer.read_append, Lexer.read_decodes (decodes_verbatim plain)]
  have seen : String.ofList (s.toList.reverse ++ []).reverse = s := by simp
  change Except.ok (Lexer.emit _ (.string (String.ofList (s.toList.reverse ++ []).reverse)) _) = _
  rw [seen]
  rfl

theorem lexes_numeral {cs : List Char} {x : Float} (h : Numeral.read? cs = some x) :
    Lexes cs [.number x] := by
  rw [← Kind.ofAtom_eq_number_iff.2 h]
  exact (Numeral.isAtom_of_isSome_read? (by rw [h]; rfl)).lexes

/-- A name that is a text of its own is cut in the same way inside a text. -/
theorem lexes_name {name : String} {kind : Kind} (hk : kind = .key name ∨ kind = .word name)
    (h : lex name = .ok [⟨kind, 1⟩]) : Lexes name.toList [kind] := by
  obtain ⟨left, written, right, hw⟩ := (segments_lex name).written_of_mem h List.mem_cons_self
  obtain ⟨atom, rfl, ofAtom⟩ : _ ∧ _ ∧ Kind.ofAtom written = kind := hw.isAtom hk
  rw [← ofAtom]
  exact atom.lexes

theorem lexes_keyText {name : String} (h : isKeyText name = true) :
    Lexes name.toList [.key name] :=
  lexes_name (.inl rfl) (of_decide_eq_true h)

theorem lexes_wordText {name : String} (h : isWordText name = true) :
    Lexes name.toList [.word name] :=
  lexes_name (.inr rfl) (of_decide_eq_true h)

theorem lexes_literal {l : Literal} (h : Node.isDisplayableLiteral l = true) :
    Lexes l.text.toList [Node.literalToken l] := by
  cases l with
  | number x => exact lexes_numeral (of_decide_eq_true h)
  | string s => exact lexes_string h
  | boolean b => exact lexes_booleanWord b

/-- The key of a mapping is a token, whichever of its forms it has. -/
theorem lexes_key {key : Node} (h : key.isDisplayableKey = true) :
    Lexes key.text.toList [key.keyToken isKeyText] := by
  cases key with
  | reference name line =>
    change Lexes name.toList [if isKeyText name then .key name else .word name]
    cases hk : isKeyText name with
    | true => exact lexes_keyText hk
    | false =>
      rw [Node.isDisplayableKey, hk] at h
      exact lexes_wordText h
  | literal l line =>
    cases l with
    | string s => exact lexes_string h
    | number | boolean => cases h
  | call | scope | collection | mapping => cases h

end Token

/-! ## Reading the tokens -/

namespace Reader

/-- Tokens that are read as a tree wherever a node can stand. A bare name must not stand in head
position. -/
def LegibleAs (ks : List Token.Kind) (n : Node) : Prop :=
  ∀ r : Reader, r.place ≠ .key → (n.name?.isSome → r.place = .inner) →
    r.ReadsAs ks (r.deliver (erase n))

theorem readsAs_flatten {ns : List Node} {kss : List (List Token.Kind)}
    (h : List.Forall₂ (fun n ks => LegibleAs ks n) ns kss) {r : Reader} (hr : r.Listing)
    (hi : r.place = .inner) : r.ReadsAs kss.flatten (r.deliverAll (erase ns)) := by
  induction h generalizing r with
  | nil => exact readsAs_nil r
  | @cons n ks ns kss hn _ ih =>
    obtain ⟨next, inner⟩ := hr.deliver (erase n)
    exact (hn r hr.place_ne_key fun _ => hi).trans (ih next inner)

/-- At the head of a scope a key and a word that is no truth value open the same call. -/
theorem readsAs_head {name : String} {k : Token.Kind}
    (hk : k = .key name ∨ k = .word name ∧ booleanWord? name = none) (r : Reader) :
    (r.push (.scope 0 [] true)).ReadsAs [k]
      ((r.push (.scope 0 [] true)).push (.call name 0 [])) := by
  rcases hk with rfl | ⟨rfl, hw⟩
  · exact readsAs_step (fun _ => Token.Kind.noConfusion) rfl
  · refine readsAs_step (fun _ => Token.Kind.noConfusion) ?_
    rw [step_word, if_neg Place.noConfusion, word, hw]
    rfl

end Reader

namespace Node

/-- The text of a tree is cut into tokens that are read as the tree. -/
def ReadsBack (n : Node) : Prop :=
  ∃ ks, Token.Lexes n.text.toList ks ∧ Reader.LegibleAs ks n

theorem exists_kinds {ns : List Node} (h : ∀ n ∈ ns, n.ReadsBack) :
    ∃ kss, List.Forall₂ (fun s ks => Token.Lexes s.toList ks) (texts ns) kss ∧
      List.Forall₂ (fun n ks => Reader.LegibleAs ks n) ns kss := by
  induction ns with
  | nil => exact ⟨[], .nil, .nil⟩
  | cons n ns ih =>
    rw [List.forall_mem_cons] at h
    obtain ⟨ks, hl, hr⟩ := h.1
    obtain ⟨kss, hls, hrs⟩ := ih h.2
    exact ⟨ks :: kss, .cons hl hls, .cons hr hrs⟩

theorem readsBack_literal {l : Literal} (h : isDisplayableLiteral l = true) (line : Nat) :
    (literal l line).ReadsBack :=
  ⟨_, Token.lexes_literal h, Reader.legible_literal (fun _ => false) l line⟩

theorem wellFormed_of_isPlainWord {name : String} (h : isPlainWord name = true) (line : Nat) :
    Token.isWordText name = true ∧ (reference name line).wellFormed = true := by
  simpa [isPlainWord, wellFormed, and_assoc] using h

theorem readsBack_reference {name : String} (h : isPlainWord name = true) (line : Nat) :
    (reference name line).ReadsBack := by
  obtain ⟨word, plain⟩ := wellFormed_of_isPlainWord h line
  exact ⟨_, Token.lexes_wordText word, Reader.legible_reference (fun _ => false) plain⟩

/-- The token of the head of a call. -/
theorem exists_headToken {head : Node} (h : head.isDisplayableHead = true) :
    ∃ name line k, head = reference name line ∧ Token.Lexes name.toList [k] ∧
      (k = .key name ∨ k = .word name ∧ Reader.booleanWord? name = none) := by
  cases head with
  | reference name line =>
    rw [isDisplayableHead, Bool.or_eq_true] at h
    rcases h with key | word
    · exact ⟨name, line, _, rfl, Token.lexes_keyText key, .inl rfl⟩
    · obtain ⟨word, plain⟩ := wellFormed_of_isPlainWord word 0
      exact ⟨name, line, _, rfl, Token.lexes_wordText word,
        .inr ⟨rfl, Reader.booleanWord?_eq_none plain⟩⟩
  | literal | call | scope | collection | mapping => cases h

theorem readsBack_call {head : Node} {args : List Node} (hh : head.isDisplayableHead = true)
    (ha : ∀ n ∈ args, n.ReadsBack) (line : Nat) : (call head args line).ReadsBack := by
  obtain ⟨name, start, k, rfl, hl, hk⟩ := exists_headToken hh
  obtain ⟨kss, hls, hrs⟩ := exists_kinds ha
  refine ⟨.opener .scope :: k :: (kss.flatten ++ [.closer .scope]), ?_, fun r hp _ => ?_⟩
  · have inside := Token.lexes_intercalate (List.Forall₂.cons hl hls)
    simpa [text, Group.opening, Group.closing] using inside.bracketed .scope
  · have tree : erase (call (reference name start) args line) =
        call (reference name 0) (erase args) 0 := renumber_call ..
    rw [tree]
    refine Reader.readsAs_call hp (Reader.readsAs_head hk r) (Reader.readsAs_flatten hrs ?_ rfl)
    exact fun _ _ _ _ e => by cases e

theorem readsBack_scope (line : Nat) : (scope [] line).ReadsBack := by
  refine ⟨[.opener .scope, .closer .scope], ?_, fun r hp _ => ?_⟩
  · simpa [text, texts, Group.opening, Group.closing] using Token.lexes_nil.bracketed .scope
  · exact Reader.readsAs_group (c := .scope 0 [] true) hp rfl rfl rfl (Reader.readsAs_nil _)

theorem readsBack_collection {items : List Node} (h : ∀ n ∈ items, n.ReadsBack) (line : Nat) :
    (collection items line).ReadsBack := by
  obtain ⟨kss, hls, hrs⟩ := exists_kinds h
  refine ⟨.opener .collection :: (kss.flatten ++ [.closer .collection]), ?_, fun r hp _ => ?_⟩
  · simpa [text, Group.opening, Group.closing] using
      (Token.lexes_intercalate hls).bracketed .collection
  · have inside := Reader.readsAs_flatten hrs (r := r.push (.collection 0 []))
      (fun _ _ _ _ e => by cases e) rfl
    rw [Reader.deliverAll_collection, List.append_nil] at inside
    have tree : erase (collection items line) = collection (erase items) 0 :=
      renumber_collection ..
    rw [tree]
    exact Reader.readsAs_brackets hp inside

theorem readsBack_mapping_nil (line : Nat) : (mapping [] line).ReadsBack := by
  refine ⟨[.opener .mapping, .closer .mapping], ?_, fun r hp _ => ?_⟩
  · simpa [text, pairTexts, Group.opening, Group.closing] using Token.lexes_nil.bracketed .mapping
  · exact Reader.readsAs_group (c := .mapping 0 [] .key) hp rfl rfl rfl (Reader.readsAs_nil _)

theorem isSome_key?_of_isDisplayableKey {key : Node} (h : key.isDisplayableKey = true) :
    key.key?.isSome := by
  cases key with
  | reference => rfl
  | literal l line =>
    cases l with
    | string s => rfl
    | number | boolean => cases h
  | call | scope | collection | mapping => cases h

theorem readsBack_mapping_pair {key value : Node} (hk : key.isDisplayableKey = true)
    (hv : value.ReadsBack) (line : Nat) : (mapping [(key, value)] line).ReadsBack := by
  obtain ⟨ks, hl, hr⟩ := hv
  refine ⟨.opener .mapping :: (key.keyToken Token.isKeyText :: ks ++ [.closer .mapping]), ?_,
    fun r hp _ => ?_⟩
  · have inside := (Token.lexes_key hk).join hl (c := ' ') rfl
    simpa [text, pairTexts, Group.opening, Group.closing, Token.blankKinds] using
      inside.bracketed .mapping
  · have first := Reader.readsAs_key Token.isKeyText (isSome_key?_of_isDisplayableKey hk) r []
    have second := hr (r.push (.mapping 0 [] (.value (erase key)))) Place.noConfusion fun _ => rfl
    exact Reader.readsAs_group (c := .mapping 0 [(erase key, erase value)] .key) hp rfl rfl rfl
      (first.trans second)

/-- A displayable tree is read back from its text. -/
theorem readsBack_of_isDisplayable {n : Node} (h : n.isDisplayable = true) : n.ReadsBack := by
  induction n using Node.induction with
  | literal l line => exact readsBack_literal h line
  | reference name line => exact readsBack_reference h line
  | call head args line _ ha =>
    rw [isDisplayable, Bool.and_eq_true, allDisplayable_iff] at h
    exact readsBack_call h.1 (fun n hn => ha n hn (h.2 n hn)) line
  | scope body line =>
    obtain rfl : body = [] := List.isEmpty_iff.1 h
    exact readsBack_scope line
  | collection items line hi =>
    rw [isDisplayable, allDisplayable_iff] at h
    exact readsBack_collection (fun n hn => hi n hn (h n hn)) line
  | mapping pairs line hv =>
    rcases pairs with _ | ⟨⟨key, value⟩, _ | ⟨p, pairs⟩⟩
    · exact readsBack_mapping_nil line
    · simp only [isDisplayable, pairsDisplayable, Bool.and_true, Bool.and_eq_true] at h
      exact readsBack_mapping_pair h.2.1 ((hv _ List.mem_cons_self).2 h.2.2) line
    · simp [isDisplayable] at h

end Node

/-! ## Programs -/

theorem reads_empty : Reads "" [] :=
  ⟨[], rfl, rfl⟩

/-- The text of a statement is a source text of one statement. A bare name is none: it would be the
head of a call. -/
theorem Node.ReadsBack.reads {n : Node} (h : n.ReadsBack) (hn : n.name? = none) :
    ∃ m, Reads n.text [m] ∧ erase m = erase n := by
  obtain ⟨ks, hl, hr⟩ := h
  exact hl.reads (hr {} Place.noConfusion fun bare => by rw [hn] at bare; cases bare)

/-- Texts of one statement each, one a line, are a source text of all the statements. -/
theorem Node.reads_programText {ns : List Node}
    (h : ∀ n ∈ ns, ∃ m, Reads n.text [m] ∧ erase m = erase n) :
    ∃ ms, Reads (programText ns) ms ∧ erase ms = erase ns := by
  induction ns with
  | nil => exact ⟨[], reads_empty, rfl⟩
  | cons n ns ih =>
    rw [List.forall_mem_cons] at h
    obtain ⟨m, hm, em⟩ := h.1
    obtain ⟨ms, hms, ems⟩ := ih h.2
    cases ns with
    | nil => exact ⟨[m], by simpa [programText, texts] using hm, congrArg (fun e => [e]) em⟩
    | cons n' ns =>
      -- the statements below come back on later lines
      obtain ⟨ρ, joined⟩ := hm.join hms
      refine ⟨m :: renumber ρ ms, by simpa [programText, texts] using joined, ?_⟩
      exact congrArg₂ List.cons em ((erase_nodes_renumber ρ ms).trans ems)

/-- **Programs read back**: for all displayable statements of which none is a bare name, the text of
the program is a source text with nothing wrong in it, for the same statements up to their lines. -/
theorem reads_displayable {ns : List Node}
    (h : ∀ n ∈ ns, n.isDisplayable = true ∧ n.name? = none) :
    ∃ ts, Token.lex (Node.programText ns) = .ok ts ∧ (parse ts).2 = [] ∧
      erase (parse ts).1 = erase ns := by
  obtain ⟨ms, ⟨ts, hl, hp⟩, hms⟩ := Node.reads_programText fun n hn =>
    (Node.readsBack_of_isDisplayable (h n hn).1).reads (h n hn).2
  exact ⟨ts, hl, by rw [hp], by rw [hp]; exact hms⟩

/-- A call with arguments of every kind, among them a string over two lines with brackets in it, and
a call, a collection and a mapping with nothing in them; a truth value and a string as statements;
and a mapping with the key `ok`. -/
theorem reads_displayable_nested :
    let ns : List Node := [
      .call (.reference "+" 7) [.literal (.number (-0.0)) 7, .literal (.number 1e21) 7,
        .literal (.string "(a,\n  b") 7, .call (.reference "f" 7) [] 7, .reference "x" 7,
        .scope [] 7, .collection [.collection [] 7, .literal (.boolean false) 7] 7] 7,
      .literal (.boolean true) 7,
      .mapping [(.reference "ok" 7, .reference "y" 7)] 7,
      .literal (.string "") 7,
      .mapping [(.literal (.string "a b") 7, .mapping [] 7)] 7]
    Node.programText ns = "(+ -0 1000000000000000000000 '(a,\n  b' (f) x () [[] no])\nok\n" ++
        "\x7bok y\x7d\n''\n\x7b'a b' \x7b\x7d\x7d" ∧
      ∃ ts, Token.lex (Node.programText ns) = .ok ts ∧ (parse ts).2 = [] ∧
        erase (parse ts).1 = erase ns := by
  intro ns
  have displayable : ns.all (fun n => n.isDisplayable && n.name?.isNone) = true := by
    decide +kernel
  refine ⟨by decide +kernel, reads_displayable fun n hn => ?_⟩
  simpa using List.all_eq_true.1 displayable n hn

end Sigil
