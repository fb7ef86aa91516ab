import Sigil.Interpreter

/-!
# Renumbering lines

Tokens, trees, values and diagnostics keep the lines of a source text. `renumber ρ` changes them by
`ρ` and nothing else, at any depth. What a value is apart from the lines in its functions does not
depend on them, and neither does the text of a tree: the lemmas here say so, operation by operation.
-/

namespace Sigil

/-! ## Induction on trees and values -/

@[elab_as_elim]
theorem Node.induction {motive : Node → Prop}
    (literal : ∀ v l, motive (.literal v l))
    (reference : ∀ s l, motive (.reference s l))
    (call : ∀ head args l, motive head → (∀ n ∈ args, motive n) → motive (.call head args l))
    (scope : ∀ body l, (∀ n ∈ body, motive n) → motive (.scope body l))
    (collection : ∀ items l, (∀ n ∈ items, motive n) → motive (.collection items l))
    (mapping : ∀ pairs l, (∀ p ∈ pairs, motive p.1 ∧ motive p.2) → motive (.mapping pairs l))
    (n : Node) : motive n :=
  @Node.rec motive (fun ns => ∀ n ∈ ns, motive n) (fun ps => ∀ p ∈ ps, motive p.1 ∧ motive p.2)
    (fun p => motive p.1 ∧ motive p.2) literal reference call scope collection mapping
    (List.forall_mem_nil _) (fun _ _ h hs => List.forall_mem_cons.2 ⟨h, hs⟩)
    (List.forall_mem_nil _) (fun _ _ h hs => List.forall_mem_cons.2 ⟨h, hs⟩)
    (fun _ _ h₁ h₂ => ⟨h₁, h₂⟩) n

@[elab_as_elim]
theorem Value.induction {motive : Value → Prop}
    (number : ∀ x, motive (.number x)) (string : ∀ s, motive (.string s))
    (boolean : ∀ b, motive (.boolean b))
    (collection : ∀ items, (∀ v ∈ items, motive v) → motive (.collection items))
    (mapping : ∀ entries, (∀ p ∈ entries, motive p.2) → motive (.mapping entries))
    (operator : ∀ op, motive (.operator op)) (nothing : motive .nothing) (v : Value) : motive v :=
  @Value.rec motive (fun vs => ∀ v ∈ vs, motive v) (fun es => ∀ p ∈ es, motive p.2)
    (fun p => motive p.2) number string boolean collection mapping operator nothing
    (List.forall_mem_nil _) (fun _ _ h hs => List.forall_mem_cons.2 ⟨h, hs⟩)
    (List.forall_mem_nil _) (fun _ _ h hs => List.forall_mem_cons.2 ⟨h, hs⟩) (fun _ _ h => h) v

/-! ## What holds lines -/

/-- What may hold lines of a source text. -/
class Lined (α : Type) where
  renumber : (Nat → Nat) → α → α
  renumber_id : ∀ a, renumber id a = a

export Lined (renumber)

attribute [simp] Lined.renumber_id

/-- Without lines: all of them are zero. -/
def erase {α : Type} [Lined α] (a : α) : α :=
  renumber (fun _ => 0) a

instance : Lined Unit := ⟨fun _ a => a, fun _ => rfl⟩

instance : Lined String := ⟨fun _ a => a, fun _ => rfl⟩

instance : Lined Float := ⟨fun _ a => a, fun _ => rfl⟩

section

variable {α β : Type} [Lined α] [Lined β] (ρ : Nat → Nat)

instance : Lined (List α) where
  renumber ρ as := as.map (renumber ρ)
  renumber_id as := by
    have h : renumber id = (id : α → α) := funext Lined.renumber_id
    rw [h, List.map_id]

instance : Lined (Option α) where
  renumber ρ o := o.map (renumber ρ)
  renumber_id o := by cases o <;> simp

instance : Lined (Except EvalError α) where
  renumber ρ a := a.map (renumber ρ)
  renumber_id a := by cases a <;> simp [Except.map]

instance : Lined (α × β) where
  renumber ρ p := (renumber ρ p.1, renumber ρ p.2)
  renumber_id p := by simp

@[simp] theorem renumber_string (s : String) : renumber ρ s = s := rfl

@[simp] theorem renumber_nil : renumber ρ ([] : List α) = [] := rfl

@[simp] theorem renumber_cons (a : α) (as : List α) :
    renumber ρ (a :: as) = renumber ρ a :: renumber ρ as := rfl

@[simp] theorem renumber_append (as bs : List α) :
    renumber ρ (as ++ bs) = renumber ρ as ++ renumber ρ bs := List.map_append

@[simp] theorem renumber_reverse (as : List α) :
    renumber ρ as.reverse = (renumber ρ as).reverse := List.map_reverse

@[simp] theorem length_renumber (as : List α) : (renumber ρ as).length = as.length :=
  List.length_map _

theorem get_renumber (as : List α) (i : Fin (renumber ρ as).length) :
    (renumber ρ as).get i = renumber ρ (as.get (i.cast (length_renumber ρ as))) :=
  List.getElem_map _

@[simp] theorem renumber_none : renumber ρ (none : Option α) = none := rfl

@[simp] theorem renumber_some (a : α) : renumber ρ (some a) = some (renumber ρ a) := rfl

@[simp] theorem renumber_ok (a : α) :
    renumber ρ (.ok a : Except EvalError α) = .ok (renumber ρ a) := rfl

@[simp] theorem renumber_error (e : EvalError) :
    renumber ρ (.error e : Except EvalError α) = .error e := rfl

@[simp] theorem renumber_pair (a : α) (b : β) :
    renumber ρ (a, b) = (renumber ρ a, renumber ρ b) := rfl

end

theorem map_eq_self {α : Type} {f : α → α} {as : List α} (h : ∀ a ∈ as, f a = a) :
    as.map f = as := by
  rw [List.map_congr_left h, List.map_id']

theorem Table.get?_renumber {α : Type} [Lined α] (ρ : Nat → Nat) (name : String) (t : Table α) :
    Table.get? name (renumber ρ t) = renumber ρ (Table.get? name t) := by
  induction t with
  | nil => rfl
  | cons p t ih =>
    obtain ⟨key, entry⟩ := p
    rw [renumber_cons, renumber_pair, renumber_string, get?, get?, ih]
    split <;> rfl

theorem Table.renumber_insert {α : Type} [Lined α] (ρ : Nat → Nat) (name : String) (entry : α)
    (t : Table α) :
    renumber ρ (Table.insert name entry t) =
      Table.insert name (renumber ρ entry) (renumber ρ t) := by
  induction t with
  | nil => rfl
  | cons p t ih =>
    obtain ⟨key, old⟩ := p
    rw [renumber_cons, renumber_pair, renumber_string, insert, insert]
    split
    · rfl
    · rw [renumber_cons, ih]; rfl

/-! ## Trees -/

namespace Node

mutual

def relined (ρ : Nat → Nat) : Node → Node
  | literal value line => literal value (ρ line)
  | reference name line => reference name (ρ line)
  | call head args line => call (head.relined ρ) (allRelined ρ args) (ρ line)
  | scope body line => scope (allRelined ρ body) (ρ line)
  | collection items line => collection (allRelined ρ items) (ρ line)
  | mapping pairs line => mapping (pairsRelined ρ pairs) (ρ line)

def allRelined (ρ : Nat → Nat) : List Node → List Node
  | [] => []
  | n :: ns => n.relined ρ :: allRelined ρ ns

def pairsRelined (ρ : Nat → Nat) : List (Node × Node) → List (Node × Node)
  | [] => []
  | (key, value) :: pairs => (key.relined ρ, value.relined ρ) :: pairsRelined ρ pairs

end

theorem allRelined_eq_map (ρ : Nat → Nat) (ns : List Node) :
    allRelined ρ ns = ns.map (relined ρ) := by
  induction ns with
  | nil => rfl
  | cons n ns ih => rw [allRelined, ih]; rfl

theorem pairsRelined_eq_map (ρ : Nat → Nat) (pairs : List (Node × Node)) :
    pairsRelined ρ pairs = pairs.map fun p => (p.1.relined ρ, p.2.relined ρ) := by
  induction pairs with
  | nil => rfl
  | cons p pairs ih => rw [pairsRelined, ih]; rfl

theorem relined_id (n : Node) : n.relined id = n := by
  induction n using Node.induction with
  | literal | reference => rfl
  | call head args l hh ha => rw [relined, hh, allRelined_eq_map, map_eq_self ha]; rfl
  | scope body l hb => rw [relined, allRelined_eq_map, map_eq_self hb]; rfl
  | collection items l hi => rw [relined, allRelined_eq_map, map_eq_self hi]; rfl
  | mapping pairs l hp =>
    rw [relined, pairsRelined_eq_map, map_eq_self fun p h => by rw [(hp p h).1, (hp p h).2]]
    rfl

instance : Lined Node := ⟨relined, relined_id⟩

section

variable (ρ : Nat → Nat)

@[simp] theorem renumber_literal (v : Literal) (l : Nat) :
    renumber ρ (literal v l) = literal v (ρ l) := rfl

@[simp] theorem renumber_reference (s : String) (l : Nat) :
    renumber ρ (reference s l) = reference s (ρ l) := rfl

@[simp] theorem renumber_call (head : Node) (args : List Node) (l : Nat) :
    renumber ρ (call head args l) = call (renumber ρ head) (renumber ρ args) (ρ l) :=
  congrArg (call _ · _) (allRelined_eq_map ρ args)

@[simp] theorem renumber_scope (body : List Node) (l : Nat) :
    renumber ρ (scope body l) = scope (renumber ρ body) (ρ l) :=
  congrArg (scope · _) (allRelined_eq_map ρ body)

@[simp] theorem renumber_collection (items : List Node) (l : Nat) :
    renumber ρ (collection items l) = collection (renumber ρ items) (ρ l) :=
  congrArg (collection · _) (allRelined_eq_map ρ items)

@[simp] theorem renumber_mapping (pairs : List (Node × Node)) (l : Nat) :
    renumber ρ (mapping pairs l) = mapping (renumber ρ pairs) (ρ l) :=
  congrArg (mapping · _) (pairsRelined_eq_map ρ pairs)

@[simp] theorem line_renumber (n : Node) : (renumber ρ n).line = ρ n.line := by
  cases n <;> rfl

@[simp] theorem name?_renumber (n : Node) : (renumber ρ n).name? = n.name? := by
  cases n <;> rfl

@[simp] theorem key?_renumber (n : Node) : (renumber ρ n).key? = n.key? := by
  cases n with
  | literal v l => cases v <;> rfl
  | reference | call | scope | collection | mapping => rfl

theorem pairTexts_eq_map (pairs : List (Node × Node)) :
    pairTexts pairs = pairs.map fun p => p.1.text ++ " " ++ p.2.text := by
  induction pairs with
  | nil => rfl
  | cons p pairs ih => rw [pairTexts, ih]; rfl

theorem texts_renumber {ns : List Node} (h : ∀ n ∈ ns, (renumber ρ n).text = n.text) :
    texts (renumber ρ ns) = texts ns := by
  rw [texts_eq_map, texts_eq_map]
  exact List.map_map.trans (List.map_congr_left h)

@[simp] theorem text_renumber (n : Node) : (renumber ρ n).text = n.text := by
  induction n using Node.induction with
  | literal | reference => rfl
  | call head args l hh ha => rw [renumber_call, text, text, hh, texts_renumber ρ ha]
  | scope body l hb => rw [renumber_scope, text, text, texts_renumber ρ hb]
  | collection items l hi => rw [renumber_collection, text, text, texts_renumber ρ hi]
  | mapping pairs l hp =>
    rw [renumber_mapping, text, text, pairTexts_eq_map, pairTexts_eq_map]
    refine congrArg (fun ts => _ ++ String.intercalate ", " ts ++ _) ?_
    refine List.map_map.trans (List.map_congr_left fun p h => ?_)
    change (renumber ρ p.1).text ++ " " ++ (renumber ρ p.2).text = _
    rw [(hp p h).1, (hp p h).2]

end

end Node

/-! ## Values -/

instance : Lined Function where
  renumber ρ f := { f with body := renumber ρ f.body }
  renumber_id f := by simp

instance : Lined Operator where
  renumber ρ
    | .builtin b => .builtin b
    | .function f => .function (renumber ρ f)
  renumber_id op := by cases op <;> simp

namespace Value

mutual

def relined (ρ : Nat → Nat) : Value → Value
  | collection items => collection (itemsRelined ρ items)
  | mapping entries => mapping (entriesRelined ρ entries)
  | operator op => operator (renumber ρ op)
  | number x => number x
  | string s => string s
  | boolean b => boolean b
  | nothing => nothing

def itemsRelined (ρ : Nat → Nat) : List Value → List Value
  | [] => []
  | v :: vs => v.relined ρ :: itemsRelined ρ vs

def entriesRelined (ρ : Nat → Nat) : List (String × Value) → List (String × Value)
  | [] => []
  | (key, v) :: entries => (key, v.relined ρ) :: entriesRelined ρ entries

end

theorem itemsRelined_eq_map (ρ : Nat → Nat) (vs : List Value) :
    itemsRelined ρ vs = vs.map (relined ρ) := by
  induction vs with
  | nil => rfl
  | cons v vs ih => rw [itemsRelined, ih]; rfl

theorem entriesRelined_eq_map (ρ : Nat → Nat) (entries : List (String × Value)) :
    entriesRelined ρ entries = entries.map fun p => (p.1, p.2.relined ρ) := by
  induction entries with
  | nil => rfl
  | cons p entries ih => rw [entriesRelined, ih]; rfl

theorem relined_id (v : Value) : v.relined id = v := by
  induction v using Value.induction with
  | number | string | boolean | nothing => rfl
  | operator op => rw [relined, Lined.renumber_id]
  | collection items hi => rw [relined, itemsRelined_eq_map, map_eq_self hi]
  | mapping entries he =>
    rw [relined, entriesRelined_eq_map, map_eq_self fun p h => by rw [he p h]]

instance : Lined Value := ⟨relined, relined_id⟩

section

variable (ρ : Nat → Nat)

@[simp] theorem renumber_number (x : Float) : renumber ρ (number x) = number x := rfl

@[simp] theorem renumber_boolean (b : Bool) : renumber ρ (boolean b) = boolean b := rfl

@[simp] theorem renumber_text (s : String) : renumber ρ (string s) = string s := rfl

@[simp] theorem renumber_nothing : renumber ρ nothing = nothing := rfl

@[simp] theorem renumber_ofTruth (b : Bool) : renumber ρ (ofTruth b) = ofTruth b := rfl

@[simp] theorem renumber_operator (op : Operator) :
    renumber ρ (operator op) = operator (renumber ρ op) := rfl

@[simp] theorem renumber_collection (items : List Value) :
    renumber ρ (collection items) = collection (renumber ρ items) :=
  congrArg collection (itemsRelined_eq_map ρ items)

@[simp] theorem renumber_mapping (entries : List (String × Value)) :
    renumber ρ (mapping entries) = mapping (renumber ρ entries) :=
  congrArg mapping (entriesRelined_eq_map ρ entries)

@[simp] theorem renumber_ofLiteral (l : Literal) : renumber ρ (ofLiteral l) = ofLiteral l := by
  cases l <;> rfl

@[simp] theorem kind_renumber (v : Value) : (renumber ρ v).kind = v.kind := by
  cases v <;> rfl

@[simp] theorem truth_renumber (v : Value) : (renumber ρ v).truth = v.truth := by
  cases v <;> rfl

@[simp] theorem char?_renumber (v : Value) : (renumber ρ v).char? = v.char? := by
  cases v <;> rfl

theorem mapM_char?_renumber (vs : List Value) :
    (renumber ρ vs).mapM char? = vs.mapM char? := by
  induction vs with
  | nil => rfl
  | cons v vs ih => rw [renumber_cons, List.mapM_cons, List.mapM_cons, char?_renumber, ih]

@[simp] theorem asText?_renumber (v : Value) : (renumber ρ v).asText? = v.asText? := by
  cases v with
  | collection items =>
    rw [renumber_collection, asText?, asText?, mapM_char?_renumber]
    cases items <;> rfl
  | number | string | boolean | mapping | operator | nothing => rfl

@[simp] theorem length?_renumber (v : Value) : (renumber ρ v).length? = v.length? := by
  cases v with
  | collection items => rw [renumber_collection, length?, length?, length_renumber]
  | mapping entries => rw [renumber_mapping, length?, length?, length_renumber]
  | number | string | boolean | operator | nothing => rfl

theorem indexed_renumber (items : List Value) :
    indexed (renumber ρ items) = renumber ρ (indexed items) := by
  unfold indexed
  change (items.map (renumber ρ)).zipIdx.map _ = List.map (renumber ρ) _
  rw [List.zipIdx_map, List.map_map, List.map_map]
  rfl

@[simp] theorem entries?_renumber (v : Value) :
    (renumber ρ v).entries? = renumber ρ v.entries? := by
  cases v with
  | collection items => rw [renumber_collection, entries?, indexed_renumber]; rfl
  | string s =>
    have h : renumber ρ (s.toList.map fun c => string c.toString) =
        s.toList.map fun c => string c.toString := List.map_map
    rw [renumber_text, entries?, renumber_some, ← indexed_renumber, h]
  | mapping entries =>
    rw [renumber_mapping, entries?, entries?, renumber_some]
    change some ((entries.map (renumber ρ)).map _) = some (List.map (renumber ρ) _)
    rw [List.map_map, List.map_map]
    rfl
  | number | boolean | operator | nothing => rfl

theorem formatEntries_eq_map (entries : List (String × Value)) :
    formatEntries entries = entries.map fun p => p.1 ++ " → " ++ formatAt 0 p.2 ++ "\n" := by
  induction entries with
  | nil => rfl
  | cons p entries ih => rw [formatEntries, ih]; rfl

theorem formatAt_renumber (v : Value) (level : Nat) :
    (renumber ρ v).formatAt level = v.formatAt level := by
  induction v using Value.induction generalizing level with
  | number | string | boolean | operator | nothing => rfl
  | collection items hi =>
    have h : formatItems (level + 1) (renumber ρ items) = formatItems (level + 1) items := by
      rw [formatItems_eq_map, formatItems_eq_map]
      exact List.map_map.trans (List.map_congr_left fun v hv => hi v hv (level + 1))
    rw [renumber_collection, formatAt, formatAt, ← renumber_collection, asText?_renumber, h]
  | mapping entries he =>
    have h : formatEntries (renumber ρ entries) = formatEntries entries := by
      rw [formatEntries_eq_map, formatEntries_eq_map]
      refine List.map_map.trans (List.map_congr_left fun p hp => ?_)
      change p.1 ++ " → " ++ (renumber ρ p.2).formatAt 0 ++ "\n" = _
      rw [he p hp]
    rw [renumber_mapping, formatAt, formatAt, h]

@[simp] theorem format_renumber (v : Value) : (renumber ρ v).format = v.format :=
  formatAt_renumber ρ v 0

theorem sameText_renumber (v w : Value) :
    sameText (renumber ρ v) (renumber ρ w) = sameText v w := by
  unfold sameText
  rw [asText?_renumber, asText?_renumber]

theorem operatorEqual_renumber (o p : Operator) :
    (renumber ρ o).equal (renumber ρ p) = o.equal p := by
  cases o <;> cases p <;> rfl

theorem equalItems_renumber {xs : List Value}
    (h : ∀ v ∈ xs, ∀ w, (renumber ρ v).equal (renumber ρ w) = v.equal w) (ys : List Value) :
    equalItems (renumber ρ xs) (renumber ρ ys) = equalItems xs ys := by
  induction xs generalizing ys with
  | nil => cases ys <;> rfl
  | cons x xs ih =>
    obtain ⟨hx, hxs⟩ := List.forall_mem_cons.1 h
    cases ys with
    | nil => rfl
    | cons y ys => rw [renumber_cons, renumber_cons, equalItems, equalItems, hx, ih hxs]

theorem equalEntries_renumber {xs : List (String × Value)}
    (h : ∀ p ∈ xs, ∀ w, (renumber ρ p.2).equal (renumber ρ w) = p.2.equal w)
    (ys : List (String × Value)) :
    equalEntries (renumber ρ xs) (renumber ρ ys) = equalEntries xs ys := by
  induction xs with
  | nil => rfl
  | cons p xs ih =>
    obtain ⟨hx, hxs⟩ := List.forall_mem_cons.1 h
    obtain ⟨key, x⟩ := p
    rw [renumber_cons, renumber_pair, renumber_string, equalEntries, equalEntries, ih hxs,
      Table.get?_renumber]
    cases Table.get? key ys with
    | none => rfl
    | some y => rw [renumber_some]; simp only [hx]

theorem equal_renumber (v w : Value) : (renumber ρ v).equal (renumber ρ w) = v.equal w := by
  induction v using Value.induction generalizing w with
  | number | boolean | nothing => cases w <;> rfl
  | operator op =>
    cases w with
    | operator op' => exact operatorEqual_renumber ρ op op'
    | number | string | boolean | collection | mapping | nothing => rfl
  | string s =>
    cases w with
    | collection items => exact sameText_renumber ρ (string s) (collection items)
    | number | string | boolean | operator | mapping | nothing => rfl
  | collection items hi =>
    cases w with
    | collection items' =>
      rw [renumber_collection, renumber_collection, equal, equal, equalItems_renumber ρ hi]
    | string s => exact sameText_renumber ρ (collection items) (string s)
    | number | boolean | operator | mapping | nothing => rfl
  | mapping entries he =>
    cases w with
    | mapping entries' =>
      rw [renumber_mapping, renumber_mapping, equal, equal, equalEntries_renumber ρ he,
        length_renumber, length_renumber]
    | number | string | boolean | operator | collection | nothing => rfl

@[simp] theorem beq_renumber (v w : Value) : (renumber ρ v == renumber ρ w) = (v == w) :=
  equal_renumber ρ v w

@[simp] theorem compare?_renumber (v w : Value) :
    (renumber ρ v).compare? (renumber ρ w) = v.compare? w := by
  cases v <;> cases w <;> rfl

end

end Value

section

variable (ρ : Nat → Nat)

@[simp] theorem Fold.combine?_renumber (op : Fold) (v w : Value) :
    op.combine? (renumber ρ v) (renumber ρ w) = renumber ρ (op.combine? v w) := by
  cases v with
  | collection items =>
    cases w with
    | collection items' =>
      rw [Value.renumber_collection, Value.renumber_collection, combine?, combine?]
      split
      · rw [renumber_some, Value.renumber_collection, renumber_append]
      · rfl
    | number | string | boolean | operator | mapping | nothing => rfl
  | string s =>
    cases w with
    | string t =>
      rw [Value.renumber_text, Value.renumber_text, combine?]
      split <;> rfl
    | number | boolean | collection | operator | mapping | nothing => rfl
  | number | boolean | mapping | operator | nothing => cases w <;> rfl

@[simp] theorem Relation.holds?_renumber (rel : Relation) (v w : Value) :
    rel.holds? (renumber ρ v) (renumber ρ w) = rel.holds? v w := by
  have ordered : rel.ordered? (renumber ρ v) (renumber ρ w) = rel.ordered? v w := by
    unfold ordered?
    rw [Value.compare?_renumber]
    cases v <;> cases w <;> rfl
  cases rel with
  | equal => rw [holds?, holds?, Value.beq_renumber]
  | notEqual => rw [holds?, holds?, bne, bne, Value.beq_renumber]
  | less | greater | lessEqual | greaterEqual => exact ordered

end

/-! ## What happens in a run -/

instance : Lined LexError where
  renumber ρ
    | .unterminatedString line => .unterminatedString (ρ line)
    | .invalidCharacter c line => .invalidCharacter c (ρ line)
  renumber_id e := by cases e <;> rfl

instance : Lined ParseError where
  renumber ρ
    | .missingClosing g line => .missingClosing g (ρ line)
    | .unclosed g line => .unclosed g (ρ line)
    | .mismatchedClosing found expected line => .mismatchedClosing found expected (ρ line)
    | .unexpectedClosing g line => .unexpectedClosing g (ρ line)
    | .invalidKey found line => .invalidKey found (ρ line)
    | .missingValue key line => .missingValue key (ρ line)
  renumber_id e := by cases e <;> rfl

instance : Lined Diagnostic where
  renumber ρ
    | .lex e => .lex (renumber ρ e)
    | .parse e => .parse (renumber ρ e)
    | .eval e line => .eval e (ρ line)
  renumber_id d := by cases d <;> simp

instance : Lined Event where
  renumber ρ
    | .print text => .print text
    | .report d => .report (renumber ρ d)
  renumber_id e := by cases e <;> simp

instance : Lined Environment where
  renumber ρ e := ⟨renumber ρ e.inner, renumber ρ e.outer⟩
  renumber_id e := by simp

instance [Generator] : Lined Machine where
  renumber ρ m := { m with env := renumber ρ m.env, trace := renumber ρ m.trace }
  renumber_id m := by simp

namespace Environment

variable (ρ : Nat → Nat) (e : Environment)

@[simp] theorem renumber_push : renumber ρ e.push = (renumber ρ e).push := rfl

@[simp] theorem renumber_pop : renumber ρ e.pop = (renumber ρ e).pop := by
  obtain ⟨inner, outer⟩ := e
  cases outer <;> rfl

@[simp] theorem get?_renumber (name : String) :
    (renumber ρ e).get? name = renumber ρ (e.get? name) := by
  have find : ∀ fs : List Frame, find? name (renumber ρ fs) = renumber ρ (find? name fs) := by
    intro fs
    induction fs with
    | nil => rfl
    | cons f fs ih =>
      rw [renumber_cons, find?, find?, Table.get?_renumber, ih]
      cases Table.get? name f <;> rfl
  exact find e.frames

@[simp] theorem renumber_set (name : String) (v : Value) :
    renumber ρ (e.set name v) = (renumber ρ e).set name (renumber ρ v) :=
  congrArg (Environment.mk · _) (Table.renumber_insert ρ name v e.inner)

@[simp] theorem define_renumber (name : String) (v : Value) :
    (renumber ρ e).define name (renumber ρ v) = renumber ρ (e.define name v) := by
  unfold define
  have h : (Table.get? name (renumber ρ e).inner).isSome = (Table.get? name e.inner).isSome := by
    change (Table.get? name (renumber ρ e.inner)).isSome = _
    rw [Table.get?_renumber]
    cases Table.get? name e.inner <;> rfl
  rw [h, ← renumber_set]
  split <;> rfl

theorem replace?_renumber (name : String) (v : Value) (fs : List Frame) :
    replace? name (renumber ρ v) (renumber ρ fs) = renumber ρ (replace? name v fs) := by
  induction fs with
  | nil => rfl
  | cons f fs ih =>
    rw [renumber_cons, replace?, replace?, Table.get?_renumber, ih]
    cases Table.get? name f with
    | none => cases replace? name v fs <;> rfl
    | some old =>
      rw [renumber_some, ← Table.renumber_insert]
      rfl

@[simp] theorem assign_renumber (name : String) (v : Value) :
    (renumber ρ e).assign name (renumber ρ v) = renumber ρ (e.assign name v) := by
  unfold assign
  split
  · rfl
  · have inner : Table.get? name (renumber ρ e).inner = renumber ρ (Table.get? name e.inner) :=
      Table.get?_renumber ..
    have outer : replace? name (renumber ρ v) (renumber ρ e).outer =
        renumber ρ (replace? name v e.outer) := replace?_renumber ..
    rw [inner, outer]
    cases Table.get? name e.inner with
    | some old => rw [renumber_some, ← renumber_set]; rfl
    | none =>
      cases replace? name v e.outer <;> rfl

end Environment

@[simp] theorem Machine.renumber_emit [Generator] (ρ : Nat → Nat) (m : Machine) (e : Event) :
    renumber ρ (m.emit e) = (renumber ρ m).emit (renumber ρ e) := by
  unfold emit
  change _ = if m.exhausted then _ else _
  split <;> rfl

end Sigil
