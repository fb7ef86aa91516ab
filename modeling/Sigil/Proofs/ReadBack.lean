import Sigil.Config
import Sigil.Proofs.Fuel
import Sigil.Proofs.NumberText
import Sigil.Proofs.Segmentation
import Sigil.Proofs.WellFormed
import Sigil.Random
import Sigil.Value.Equality
import Sigil.Value.Text

/-!
# Values read back

The text that a program prints for a value of numbers without exponents, truth values and
collections of one kind each is a source text for an equal value (`Interpreter.runsTo_format`).

The text passes three layers. The lexer drops the indentation and keeps the newlines
(`lexes_formatAt`); the reader drops the newlines, because they stand inside collections
(`readsAs_kinds`); and the evaluator goes as deep as the value is high (`evaluate_tree`). The value
that comes out is `Value.reread`, in which only the sign of a zero may have changed.
-/

namespace Sigil

/-! ## Readable values -/

/-- The number that the text of a number spells. -/
def Number.reread (x : Float) : Float :=
  (Numeral.read? (format x).toList).getD x

namespace Value

mutual

/-- Whether the text of a value is a source text for it: truth values, numbers without an exponent,
and collections of such values of one kind. -/
def readable : Value → Bool
  | number x => Number.readable x
  | boolean _ => true
  | collection items => sameKind items && allReadable items
  | string _ | mapping _ | operator _ | nothing => false

def allReadable : List Value → Bool
  | [] => true
  | v :: vs => v.readable && allReadable vs

end

mutual

/-- How many levels a value has. A collection has one more than the highest of its items. -/
def height : Value → Nat
  | collection items => maxHeight items + 1
  | number _ | string _ | boolean _ | mapping _ | operator _ | nothing => 1

def maxHeight : List Value → Nat
  | [] => 0
  | v :: vs => max v.height (maxHeight vs)

end

mutual

/-- The value that the text of a value spells. -/
def reread : Value → Value
  | number x => number (Number.reread x)
  | collection items => collection (allReread items)
  | v => v

def allReread : List Value → List Value
  | [] => []
  | v :: vs => v.reread :: allReread vs

end

theorem allReadable_iff {vs : List Value} :
    allReadable vs = true ↔ ∀ v ∈ vs, v.readable = true := by
  induction vs with
  | nil => simp [allReadable]
  | cons v vs ih => simp [allReadable, ih]

theorem height_le_maxHeight {v : Value} {vs : List Value} (h : v ∈ vs) :
    v.height ≤ maxHeight vs := by
  induction vs with
  | nil => cases h
  | cons w vs ih =>
    rw [maxHeight]
    rcases List.mem_cons.1 h with rfl | h
    · exact Nat.le_max_left ..
    · exact Nat.le_trans (ih h) (Nat.le_max_right ..)

theorem allReread_eq_map (vs : List Value) : allReread vs = vs.map reread := by
  induction vs with
  | nil => rfl
  | cons v vs ih => rw [allReread, ih, List.map_cons]

@[simp] theorem kind_reread (v : Value) : v.reread.kind = v.kind := by
  cases v <;> rfl

/-- Induction over the readable values, which have three kinds. -/
@[elab_as_elim]
theorem readable.induction {motive : (v : Value) → v.readable = true → Prop}
    (number : ∀ x h, motive (.number x) h) (boolean : ∀ b h, motive (.boolean b) h)
    (collection : ∀ items h, sameKind items = true → ∀ hi : ∀ v ∈ items, v.readable = true,
      (∀ v hv, motive v (hi v hv)) → motive (.collection items) h)
    (v : Value) (h : v.readable = true) : motive v h := by
  induction v using Value.induction with
  | number x => exact number x h
  | boolean b => exact boolean b h
  | collection items ih =>
    obtain ⟨hk, hi⟩ := Bool.and_eq_true_iff.1 h
    have hi := allReadable_iff.1 hi
    exact collection items h hk hi fun v hv => ih v hv (hi v hv)
  | string | mapping | operator | nothing => cases h

end Value

/-! ### What comes back -/

theorem Number.ofAtom_format {x : Float} (h : readable x = true) :
    Token.Kind.ofAtom (format x).toList = .number (reread x) := by
  obtain ⟨y, hy, -⟩ := read?_format h
  rw [Token.Kind.ofAtom, reread, hy]
  rfl

theorem Number.beq_reread {x : Float} (h : readable x = true) : (reread x == x) = true := by
  obtain ⟨y, hy, hxy⟩ := read?_format h
  rw [reread, hy]
  exact hxy

namespace Value

theorem equalItems_allReread {vs : List Value} (h : ∀ v ∈ vs, v.reread.equal v = true) :
    equalItems (allReread vs) vs = true := by
  induction vs with
  | nil => rfl
  | cons v vs ih =>
    rw [List.forall_mem_cons] at h
    rw [allReread, equalItems, h.1, ih h.2]
    rfl

/-- What is read back equals what was written. -/
theorem equal_reread {v : Value} (h : v.readable = true) : v.reread.equal v = true := by
  induction v, h using readable.induction with
  | number x h => exact Number.beq_reread h
  | boolean b => exact beq_self_eq_true b
  | collection items _ _ _ ih => exact equalItems_allReread ih

end Value

/-! ## Tokens -/

namespace Token

namespace Lexer

def kinds (l : Lexer) : List Kind :=
  l.tokens.reverse.map (·.kind)

/-- The tokens so far, with the atom that is under way. In a comment or string there are none. -/
def kinds? (l : Lexer) : Option (List Kind) :=
  match l.mode with
  | .gap => some l.kinds
  | .atom seen => some (l.kinds ++ [.ofAtom seen.reverse])
  | .comment | .string .. | .escape .. => none

end Lexer

/-- Between tokens, the characters are read as tokens of the given kinds. -/
def Lexes (cs : List Char) (ks : List Kind) : Prop :=
  ∀ l : Lexer, l.mode = .gap → ∃ l', l.read cs = .ok l' ∧ l'.kinds? = some (l.kinds ++ ks)

/-- The tokens of a blank. -/
def blankKinds (c : Char) : List Kind :=
  if c = '\n' then [.newline] else []

theorem Lexer.start_blank {l : Lexer} {c : Char} (hc : Text.isBlank c = true) :
    ∃ l', l.start c = .ok l' ∧ l'.mode = .gap ∧ l'.kinds = l.kinds ++ blankKinds c := by
  unfold start blankKinds
  split
  · exact ⟨_, rfl, rfl, by simp [kinds, emit]⟩
  · have hcomma : c ≠ ',' := by
      rintro rfl
      cases hc
    rw [if_neg hcomma]
    exact ⟨_, rfl, rfl, by simp [kinds]⟩

/-- A delimiter ends an atom, and what it begins comes after the atom. -/
theorem Lexer.step_delimiter {l : Lexer} {ks : List Kind} (h : l.kinds? = some ks) {c : Char}
    (hc : isDelimiter c = true) :
    ∃ l' : Lexer, l.step c = l'.start c ∧ l'.kinds = ks := by
  unfold kinds? at h
  unfold step
  split at h <;> rename_i hm <;> simp only [hm]
  · cases h
    exact ⟨l, rfl, rfl⟩
  · cases h
    exact ⟨l.emit (.ofAtom _) l.line, if_pos hc, by simp [kinds, emit]⟩
  all_goals cases h

theorem Lexer.step_blank {l : Lexer} {ks : List Kind} (h : l.kinds? = some ks) {c : Char}
    (hc : Text.isBlank c = true) :
    ∃ l', l.step c = .ok l' ∧ l'.mode = .gap ∧ l'.kinds = ks ++ blankKinds c := by
  obtain ⟨l₁, hs, hk⟩ := step_delimiter h (c := c) (by simp [isDelimiter, hc])
  obtain ⟨l₂, hb, hg, hk'⟩ := start_blank (l := l₁) hc
  exact ⟨l₂, hs.trans hb, hg, by rw [hk', hk]⟩

/-- A blank may stand between any two texts that are read as tokens: it ends an atom, and the atom
is a token. -/
theorem Lexes.join {cs ds : List Char} {ks ls : List Kind} (h : Lexes cs ks) (h' : Lexes ds ls)
    {c : Char} (hc : Text.isBlank c = true) :
    Lexes (cs ++ c :: ds) (ks ++ blankKinds c ++ ls) := by
  intro l hl
  obtain ⟨l₁, hr₁, hk₁⟩ := h l hl
  obtain ⟨l₂, hs₂, hg₂, hk₂⟩ := Lexer.step_blank hk₁ hc
  obtain ⟨l₃, hr₃, hk₃⟩ := h' l₂ hg₂
  refine ⟨l₃, ?_, by rw [hk₃, hk₂, List.append_assoc, List.append_assoc, List.append_assoc]⟩
  rw [Lexer.read_append, hr₁]
  change l₁.read (c :: ds) = _
  rw [Lexer.read_cons, hs₂]
  exact hr₃

theorem lexes_nil : Lexes [] [] :=
  fun l hl => ⟨l, rfl, by simp [Lexer.kinds?, hl]⟩

theorem Lexes.after_blanks {cs : List Char} {ks : List Kind} (h : Lexes cs ks) (n : Nat) :
    Lexes (List.replicate n ' ' ++ cs) ks := by
  induction n with
  | zero => exact h
  | succ n ih => exact lexes_nil.join ih rfl

theorem bracket?_opening (g : Group) : bracket? g.opening = some (.opener g) := by
  cases g <;> rfl

theorem bracket?_closing (g : Group) : bracket? g.closing = some (.closer g) := by
  cases g <;> rfl

/-- Brackets may stand around a text without blanks. -/
theorem Lexes.bracketed {cs : List Char} {ks : List Kind} (h : Lexes cs ks) (g : Group) :
    Lexes (g.opening :: (cs ++ [g.closing])) (.opener g :: (ks ++ [.closer g])) := by
  intro l hl
  have opened : l.step g.opening = .ok (l.emit (.opener g) l.line) := by
    rw [Lexer.step, hl]
    exact Lexer.start_bracket (bracket?_opening g) l
  obtain ⟨l₁, hr, hk⟩ := h (l.emit (.opener g) l.line) rfl
  have delimiter : isDelimiter g.closing = true := by simp [isDelimiter, bracket?_closing]
  obtain ⟨l₂, hs, hk₂⟩ := Lexer.step_delimiter hk delimiter
  refine ⟨l₂.emit (.closer g) l₂.line, ?_, ?_⟩
  · rw [Lexer.read_cons, opened]
    change (l.emit (.opener g) l.line).read (cs ++ [g.closing]) = _
    rw [Lexer.read_append, hr]
    change l₁.read [g.closing] = _
    rw [Lexer.read_cons, hs, Lexer.start_bracket (bracket?_closing g)]
    rfl
  · have kinds : (l₂.emit (.closer g) l₂.line).kinds = l₂.kinds ++ [.closer g] := by
      simp [Lexer.kinds, Lexer.emit]
    have start : (l.emit (.opener g) l.line).kinds = l.kinds ++ [.opener g] := by
      simp [Lexer.kinds, Lexer.emit]
    change some (l₂.emit (.closer g) l₂.line).kinds = _
    rw [kinds, hk₂, start]
    simp

/-- Texts with blanks between them. -/
theorem lexes_intercalate {texts : List String} {kss : List (List Kind)}
    (h : List.Forall₂ (fun s ks => Lexes s.toList ks) texts kss) :
    Lexes (String.intercalate " " texts).toList kss.flatten := by
  induction h with
  | nil => exact lexes_nil
  | @cons s ks texts kss hs hss ih =>
    cases hss with
    | nil => simpa using hs
    | cons => simpa [blankKinds] using hs.join ih (c := ' ') rfl

/-! ### Atoms -/

theorem lexes_atom {c : Char} {cs : List Char} (hc : Text.isControl c = false)
    (hd : ∀ d ∈ c :: cs, isDelimiter d = false) : Lexes (c :: cs) [.ofAtom (c :: cs)] := by
  rw [List.forall_mem_cons] at hd
  intro l hl
  have hs : l.step c = .ok { l with mode := .atom [c] } := by
    rw [Lexer.step, hl]
    exact Lexer.start_atom hd.1 hc l
  have hr : l.read (c :: cs) = .ok { l with mode := .atom (cs.reverse ++ [c]) } := by
    rw [Lexer.read_cons, hs]
    exact Lexer.read_atom hd.2 _ rfl
  exact ⟨_, hr, by simp [Lexer.kinds?, Lexer.kinds]⟩

theorem IsAtom.lexes {before cs after : List Char} (h : IsAtom before cs after) :
    Lexes cs [.ofAtom cs] := by
  cases cs with
  | nil => exact absurd rfl h.nonempty
  | cons c cs => exact lexes_atom (h.visible c rfl) h.chars

theorem lexes_booleanWord (b : Bool) :
    Lexes (Literal.booleanWord b).toList [.word (Literal.booleanWord b)] := by
  have plain : (Literal.booleanWord b).toList.all (!isDelimiter ·) = true := by
    cases b <;> decide
  simp only [List.all_eq_true, Bool.not_eq_true'] at plain
  cases b
  · exact lexes_atom (by decide) plain
  · exact lexes_atom (by decide) plain

theorem isDelimiter_of_isNumeralChar {c : Char} (h : Number.isNumeralChar c = true) :
    isDelimiter c = false ∧ Text.isControl c = false := by
  have hall : ∀ n < 58, Number.isNumeralChar (Char.ofNat n) = true →
      isDelimiter (Char.ofNat n) = false ∧ Text.isControl (Char.ofNat n) = false := by decide
  have hlt : c.toNat < 58 := by
    simp only [Number.isNumeralChar, Bool.or_eq_true, beq_iff_eq] at h
    rcases h with (h | rfl) | rfl
    · exact Nat.lt_succ_of_le (Char.isDigit_iff_toNat.1 h).2
    · decide
    · decide
  rw [← Char.ofNat_toNat c] at h ⊢
  exact hall c.toNat hlt h

theorem lexes_format {x : Float} (h : Number.readable x = true) :
    Lexes (Number.format x).toList [.number (Number.reread x)] := by
  have hchars := Number.isNumeralChar_of_mem_format h
  rw [← Number.ofAtom_format h]
  cases hf : (Number.format x).toList with
  | nil =>
    obtain ⟨y, hy, -⟩ := Number.read?_format h
    rw [hf] at hy
    cases hy
  | cons c cs =>
    rw [hf] at hchars
    exact lexes_atom (isDelimiter_of_isNumeralChar (hchars c (List.mem_cons_self ..))).2
      fun d hd => (isDelimiter_of_isNumeralChar (hchars d hd)).1

theorem Lexes.lex {source : String} {ks : List Kind} (h : Lexes source.toList ks) :
    ∃ ts, lex source = .ok ts ∧ ts.map (·.kind) = ks := by
  obtain ⟨l, hr, hk⟩ := h {} rfl
  have hf : ∃ ts, l.finish = .ok ts ∧ ts.map (·.kind) = ks := by
    unfold Lexer.kinds? at hk
    unfold Lexer.finish
    split at hk <;> rename_i hm <;> simp only [hm]
    · exact ⟨_, rfl, Option.some.inj hk⟩
    · -- the end of the text ends an atom too
      exact ⟨_, rfl, by simpa [Lexer.emit, Lexer.kinds] using hk⟩
    all_goals cases hk
  obtain ⟨ts, hf, hts⟩ := hf
  refine ⟨ts, ?_, hts⟩
  unfold Token.lex
  rw [hr]
  exact hf

end Token

namespace Value

mutual

/-- The tokens of the text of a value that lies `level` collections deep. -/
def kinds (level : Nat) : Value → List Token.Kind
  | number x => [.number x]
  | boolean b => [.word (Literal.booleanWord b)]
  | collection items =>
    (if level = 0 then [] else [.newline]) ++
      .opener .collection :: (allKinds (level + 1) items ++ [.closer .collection])
  | string _ | mapping _ | operator _ | nothing => []

def allKinds (level : Nat) : List Value → List Token.Kind
  | [] => []
  | v :: vs => v.kinds level ++ allKinds level vs

end

/-- A collection of values other than strings is no text. -/
theorem asText?_of_readable {items : List Value} (h : ∀ v ∈ items, v.readable = true) :
    asText? (.collection items) = none := by
  cases items with
  | nil => rfl
  | cons v vs =>
    have hv : char? v = none := by
      cases v with
      | string s => cases h (.string s) (List.mem_cons_self ..)
      | _ => rfl
    simp [asText?, hv]

theorem allKinds_allReread (level : Nat) (vs : List Value) :
    allKinds level (allReread vs) = (vs.map fun v => v.reread.kinds level).flatten := by
  induction vs with
  | nil => rfl
  | cons v vs ih => rw [allReread, allKinds, ih, List.map_cons, List.flatten_cons]

theorem lexes_formatItems {level : Nat} {vs : List Value}
    (h : ∀ v ∈ vs, Token.Lexes (formatAt level v).toList (v.reread.kinds level)) :
    Token.Lexes (String.intercalate " " (formatItems level vs)).toList
      (allKinds level (allReread vs)) := by
  rw [formatItems_eq_map, allKinds_allReread]
  refine Token.lexes_intercalate ?_
  rwa [List.forall₂_map_left_iff, List.forall₂_map_right_iff, List.forall₂_same]

/-- The text of a value is read as its tokens. Of the indentation only the newlines are left. -/
theorem lexes_formatAt {v : Value} (h : v.readable = true) (level : Nat) :
    Token.Lexes (formatAt level v).toList (v.reread.kinds level) := by
  induction v, h using readable.induction generalizing level with
  | number x h => exact Token.lexes_format h
  | boolean b => exact Token.lexes_booleanWord b
  | collection items _ _ hi ih =>
    have hitems := lexes_formatItems fun v hv => ih v hv (level + 1)
    have hblanks := (Token.lexes_nil.join hitems (c := ' ') rfl).join Token.lexes_nil (c := ' ') rfl
    have hbrackets := hblanks.bracketed .collection
    rw [formatAt, asText?_of_readable hi]
    cases level with
    | zero =>
      simpa [indent, reread, kinds, Token.blankKinds, Group.opening, Group.closing] using hbrackets
    | succ level =>
      have hline := Token.lexes_nil.join (hbrackets.after_blanks (2 * (level + 1))) (c := '\n') rfl
      simpa [indent, reread, kinds, Token.blankKinds, Group.opening, Group.closing] using hline

/-! ## Trees -/

mutual

/-- The tree of a value: literals in collections. -/
def tree : Value → Node
  | number x => .literal (.number x) 0
  | boolean b => .literal (.boolean b) 0
  | string s => .literal (.string s) 0
  | collection items => .collection (trees items) 0
  | mapping _ | operator _ | nothing => .scope [] 0

def trees : List Value → List Node
  | [] => []
  | v :: vs => v.tree :: trees vs

end

end Value

namespace Reader

/-- Inside a collection a newline is no more than a blank. -/
theorem readsAs_newline (r : Reader) (line : Nat) (items : List Node) :
    (r.push (.collection line items)).ReadsAs [.newline] (r.push (.collection line items)) :=
  readsAs_step (fun _ => Token.Kind.noConfusion) rfl

theorem readsAs_literal {l : Literal} {r : Reader} (hp : r.place ≠ .key) :
    r.ReadsAs [Node.literalToken l] (r.deliver (.literal l 0)) := by
  refine legible_literal (fun _ => false) l 0 r hp fun h => ?_
  cases h

theorem readsAs_allKinds (level : Nat) {vs : List Value}
    (h : ∀ v ∈ vs, ∀ (r : Reader) (items : List Node),
      (r.push (.collection 0 items)).ReadsAs (v.reread.kinds level)
        (r.push (.collection 0 (v.reread.tree :: items))))
    (r : Reader) (items : List Node) :
    (r.push (.collection 0 items)).ReadsAs (Value.allKinds level (Value.allReread vs))
      (r.push (.collection 0 ((Value.trees (Value.allReread vs)).reverse ++ items))) := by
  induction vs generalizing items with
  | nil => exact readsAs_nil _
  | cons v vs ih =>
    rw [List.forall_mem_cons] at h
    rw [Value.allReread, Value.trees, List.reverse_cons, List.append_assoc]
    exact (h.1 r items).trans (ih h.2 _)

/-- The brackets of a collection and what is between them. -/
theorem readsAs_brackets {r : Reader} (hp : r.place ≠ .key) {ks : List Token.Kind} {ns : List Node}
    (h : (r.push (.collection 0 [])).ReadsAs ks (r.push (.collection 0 ns.reverse))) :
    r.ReadsAs (.opener .collection :: (ks ++ [.closer .collection]))
      (r.deliver (.collection ns 0)) := by
  have group := readsAs_group (c := .collection 0 ns.reverse) hp rfl rfl rfl h
  rwa [Construct.node, List.reverse_reverse] at group

/-- The tokens of a value are read as its tree, at the top level or inside a collection. -/
theorem readsAs_kinds {v : Value} (h : v.readable = true) {r : Reader} (hp : r.place ≠ .key)
    (level : Nat) (hr : level = 0 ∨ ∃ s line items, r = push s (.collection line items)) :
    r.ReadsAs (v.reread.kinds level) (r.deliver v.reread.tree) := by
  induction v, h using Value.readable.induction generalizing r level with
  | number x => exact readsAs_literal (l := .number (Number.reread x)) hp
  | boolean b => exact readsAs_literal (l := .boolean b) hp
  | collection items _ _ _ ih =>
    have hitems := readsAs_allKinds (level + 1) (fun v hv s outer =>
      ih v hv (r := s.push (.collection 0 outer)) (fun e => by cases e) (level + 1)
        (.inr ⟨_, _, _, rfl⟩)) r []
    rw [List.append_nil] at hitems
    have hbrackets := readsAs_brackets hp hitems
    rw [Value.reread, Value.kinds]
    split
    next => exact hbrackets
    next hl =>
      obtain ⟨s, line, outer, rfl⟩ := hr.resolve_left hl
      exact (readsAs_newline s line outer).trans hbrackets

end Reader

/-- A text whose tokens are read as one node from the start is a source text of one statement. -/
theorem Token.Lexes.reads {source : String} {ks : List Token.Kind} {n : Node}
    (hl : Token.Lexes source.toList ks)
    (hr : Reader.ReadsAs {} ks (Reader.deliver {} n)) :
    ∃ m, Reads source [m] ∧ erase m = n := by
  obtain ⟨ts, hlex, hk⟩ := hl.lex
  have hparse : erase (parse ts) = ([n], []) := by
    have hread := hr []
    rw [List.append_nil] at hread
    rw [Reader.erase_parse hk, parse_eq, hread]
    rfl
  obtain ⟨nodes, errors⟩ := Prod.mk.inj hparse
  cases hp : (parse ts).1 with
  | nil => rw [hp] at nodes; cases nodes
  | cons m ms =>
    rw [hp] at nodes
    obtain ⟨hm, hms⟩ := List.cons.inj nodes
    obtain rfl : ms = [] := List.map_eq_nil_iff.1 hms
    exact ⟨m, ⟨ts, hlex, Prod.ext hp (List.map_eq_nil_iff.1 errors)⟩, hm⟩

/-- The text of a value is a source text of one statement, the tree of the value. -/
theorem Value.reads_format {v : Value} (h : v.readable = true) :
    ∃ n, Reads v.format [n] ∧ erase n = v.reread.tree := by
  have hl : Token.Lexes v.format.toList (v.reread.kinds 0) := lexes_formatAt h 0
  exact hl.reads (Reader.readsAs_kinds h (fun e => by cases e) 0 (.inl rfl))

/-! ## Evaluation -/

namespace Value

/-- The value of a node at a depth below the limit. -/
theorem evaluate_below [Generator] {limit fuel : Nat} {n : Node} {m : Machine}
    (hx : m.exhausted = false) (hd : m.depth < limit) {v : Value}
    (h : Eval.node (evaluate limit fuel) fuel n { m with depth := m.depth + 1 } =
      some (v, { m with depth := m.depth + 1 })) :
    evaluate limit (fuel + 1) n m = some (v, m) := by
  rw [evaluate_succ, Eval.limited_of_below hx hd, Eval.deeper_apply, h]
  rfl

theorem collection_of_sameKind [Generator] {vs : List Value} (h : sameKind vs = true) (line : Nat)
    (m : Machine) : Eval.collection line vs m = some (.collection vs, m) := by
  cases vs with
  | nil => rfl
  | cons v rest =>
    have hnone : rest.find? (·.kind ≠ v.kind) = none := by
      simpa [sameKind, List.find?_eq_none] using h
    simp only [Eval.collection, hnone]
    rfl

theorem sameKind_allReread (vs : List Value) : sameKind (allReread vs) = sameKind vs := by
  cases vs with
  | nil => rfl
  | cons v vs => simp [sameKind, allReread, allReread_eq_map, List.all_map, Function.comp_def]

theorem all_trees [Generator] {vs : List Value} {ns : List Node}
    (hn : erase ns = trees (allReread vs)) {ev : Node → Eval Value} {m : Machine}
    (h : ∀ v ∈ vs, ∀ n, erase n = v.reread.tree → ev n m = some (v.reread, m)) :
    Eval.all ev ns m = some (allReread vs, m) := by
  induction vs generalizing ns with
  | nil =>
    obtain rfl : ns = [] := List.map_eq_nil_iff.1 hn
    rfl
  | cons v vs ih =>
    rw [List.forall_mem_cons] at h
    cases ns with
    | nil => cases hn
    | cons n ns =>
      obtain ⟨hn, hns⟩ := List.cons.inj hn
      refine Eval.bind_eq_some_iff.2 ⟨_, _, h.1 n hn, ?_⟩
      exact Eval.bind_eq_some_iff.2 ⟨_, _, ih hns h.2, rfl⟩

theorem evaluate_literal [Generator] {n : Node} {l : Literal} (hn : erase n = .literal l 0)
    {limit fuel : Nat} (hf : 0 < fuel) {m : Machine} (hx : m.exhausted = false)
    (hd : m.depth < limit) :
    evaluate limit fuel n m = some (.ofLiteral l, m) := by
  obtain ⟨fuel, rfl⟩ := Nat.exists_eq_succ_of_ne_zero (Nat.ne_of_gt hf)
  cases n with
  | literal l' line =>
    cases hn
    exact evaluate_below hx hd rfl
  | _ => cases hn

/-- The tree of a value evaluates to the value, with nothing else changed, if the limit is as far
away as the value is high. -/
theorem evaluate_tree [Generator] {v : Value} (h : v.readable = true) {n : Node}
    (hn : erase n = v.reread.tree) {limit fuel : Nat} (hf : v.height ≤ fuel) {m : Machine}
    (hx : m.exhausted = false) (hd : m.depth + v.height ≤ limit) :
    evaluate limit fuel n m = some (v.reread, m) := by
  induction v, h using readable.induction generalizing n fuel m with
  | number x =>
    rw [height] at hf hd
    exact evaluate_literal (l := .number (Number.reread x)) hn hf hx hd
  | boolean b =>
    rw [height] at hf hd
    exact evaluate_literal (l := .boolean b) hn hf hx hd
  | collection items _ hk _ ih =>
    rw [height] at hf hd
    obtain ⟨fuel, rfl⟩ := Nat.exists_eq_succ_of_ne_zero (show fuel ≠ 0 by omega)
    cases n with
    | collection ns line =>
      have hns : erase ns = trees (allReread items) := by
        rw [erase, Node.renumber_collection] at hn
        exact (Node.collection.inj hn).1
      refine evaluate_below hx (by omega) (Eval.bind_eq_some_iff.2 ⟨_, _, all_trees hns ?_, ?_⟩)
      · -- the items lie one level deeper, and each is at least one level lower
        intro v hv n hn
        have hv' := height_le_maxHeight hv
        exact ih v hv hn (by omega) hx (by dsimp only; omega)
      · exact collection_of_sameKind (by rw [sameKind_allReread, hk]) line _
    | _ => cases hn

end Value

namespace Interpreter

/-- **Values read back**: for every value of truth values, numbers without exponents and collections
of one kind each, and for every interpreter whose limit is at least as high as the value, running
the text of the value reports and prints nothing and gives an equal value. -/
theorem runsTo_format [Generator] {v : Value} (h : v.readable = true) {i : Interpreter}
    (hl : v.height ≤ i.limit) :
    ∃ o j, i.RunsTo v.format o j ∧ o.diagnostics = [] ∧ o.output = [] ∧
      (o.value == v) = true := by
  obtain ⟨n, hr, hn⟩ := Value.reads_format h
  let m : Machine := { i.machine [] with env := i.env.set previousName .nothing }
  let m' : Machine := { m with env := m.env.set previousName v.reread }
  have hv : evaluate i.limit v.height n m = some (v.reread, m) :=
    Value.evaluate_tree h hn (Nat.le_refl _) rfl (by simpa [m, machine] using hl)
  have hs : Eval.statements (evaluate i.limit v.height) [n] (i.machine []) = some (v.reread, m') :=
    Eval.bind_eq_some_iff.2 ⟨(), m, rfl, Eval.bind_eq_some_iff.2 ⟨_, _, hv, rfl⟩⟩
  refine ⟨⟨v.reread, []⟩, i.keep m', ⟨v.height, ?_⟩, rfl, rfl, Value.equal_reread h⟩
  rw [hr.run]
  exact evaluateProgram_eq_some_iff.2 ⟨v.reread, m', hs, rfl, rfl⟩

open scoped Sigil.Random

/-- Collections of different heights, both ends of the range of numbers, and a limit that the value
reaches. -/
theorem runsTo_format_nested :
    let v : Value := .collection [
      .collection [.number 0.1, .number (-0.0), .number (-1e20)],
      .collection [],
      .collection [.boolean true, .boolean false],
      .collection [.collection [.number 1e-6]]]
    let i := ({ limit := 4 } : Config).interpreter (Generator.ofSeed 0)
    v.format = "[ \n  [ 0.1 0 -100000000000000000000 ] \n  [  ] \n  [ ok no ] \n  [ " ++
        "\n    [ 0.000001 ] ] ]" ∧
      v.height = i.limit ∧
      ∃ o j, i.RunsTo v.format o j ∧ o.diagnostics = [] ∧ o.output = [] ∧
        (o.value == v) = true := by
  intro v i
  have readable : v.readable = true := by decide +kernel
  have height : v.height = i.limit := by decide +kernel
  exact ⟨by decide +kernel, height, runsTo_format readable (Nat.le_of_eq height)⟩

end Interpreter

end Sigil
