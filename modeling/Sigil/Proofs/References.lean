import Sigil.Proofs.ReaderInvariant
import Sigil.Token.Lexer

/-!
# The names that trees refer to

`n.references` are the names whose values a tree asks for. The heads of calls and the keys of
mappings are not among them: those are the two places where a key of the source text ends up, so
all references of a program come from its words (`references_parse`). A word never starts like a
key (`lex_word`).
-/

namespace Sigil

/-- Whether a name starts like a key. -/
def isKeyName (name : String) : Bool :=
  name.toList.head?.any Token.isKeyStart

/-! ## Words -/

namespace Token

theorem Kind.isKeyName_ofAtom {cs : List Char} {name : String}
    (h : Kind.ofAtom cs = .word name) : isKeyName name = false := by
  unfold Kind.ofAtom at h
  split at h
  · cases h
  · split at h
    · cases h
    · next hc => cases h; simpa [isKeyName] using hc

/-- The words among tokens are no keys. -/
def PlainWords (ts : List Token) : Prop :=
  ∀ t ∈ ts, ∀ name, t.kind = .word name → isKeyName name = false

namespace Lexer

theorem plainWords_emit {l : Lexer} (h : PlainWords l.tokens) {kind : Kind} (line : Nat)
    (hk : ∀ name, kind = .word name → isKeyName name = false) :
    PlainWords (l.emit kind line).tokens := by
  intro t ht
  rcases List.mem_cons.1 ht with rfl | ht
  · exact hk
  · exact h t ht

theorem bracket?_ne_word {c : Char} {kind : Kind} (h : bracket? c = some kind) (name : String) :
    kind ≠ .word name := by
  unfold bracket? at h
  split at h <;> cases h <;> exact Kind.noConfusion

theorem plainWords_start {l l' : Lexer} {c : Char} (h : PlainWords l.tokens)
    (e : l.start c = .ok l') : PlainWords l'.tokens := by
  unfold start at e
  split at e
  · cases e; exact plainWords_emit h _ fun _ hk => by cases hk
  split at e
  · cases e; exact h
  split at e
  · cases e; exact h
  split at e
  · cases e; exact h
  split at e
  · cases e
  split at e
  · next hb =>
    cases e
    exact plainWords_emit h _ fun name hk => absurd hk (bracket?_ne_word hb name)
  · cases e; exact h

theorem plainWords_step {l l' : Lexer} {c : Char} (h : PlainWords l.tokens)
    (e : l.step c = .ok l') : PlainWords l'.tokens := by
  unfold step at e
  split at e
  · exact plainWords_start h e
  · split at e
    · exact plainWords_start h e
    · cases e; exact h
  · split at e
    · exact plainWords_start (plainWords_emit h _ fun _ hk => Kind.isKeyName_ofAtom hk) e
    · cases e; exact h
  · split at e
    · cases e; exact plainWords_emit h _ fun _ hk => by cases hk
    split at e
    · cases e; exact h
    · cases e; exact h
  · cases e; exact h

theorem plainWords_read {l l' : Lexer} {cs : List Char} (h : PlainWords l.tokens)
    (e : l.read cs = .ok l') : PlainWords l'.tokens := by
  induction cs generalizing l with
  | nil => cases e; exact h
  | cons c cs ih =>
    unfold read at e
    rw [List.foldlM_cons] at e
    cases hs : l.step c with
    | error err => rw [hs] at e; cases e
    | ok l₁ => rw [hs] at e; exact ih (plainWords_step h hs) e

end Lexer

/-- No word of a source text starts like a key. -/
theorem lex_word {source : String} {ts : List Token} (h : lex source = .ok ts) :
    PlainWords ts := by
  unfold lex at h
  cases hr : Lexer.read {} source.toList with
  | error e => rw [hr] at h; cases h
  | ok l =>
    rw [hr] at h
    have hl : PlainWords l.tokens := Lexer.plainWords_read (fun t ht => by cases ht) hr
    have hrev : ∀ {ts : List Token}, PlainWords ts → PlainWords ts.reverse :=
      fun h t ht => h t (List.mem_reverse.1 ht)
    change l.finish = .ok ts at h
    unfold Lexer.finish at h
    split at h
    · cases h; exact hrev hl
    · cases h; exact hrev hl
    · cases h; exact hrev (Lexer.plainWords_emit hl _ fun _ hk => Kind.isKeyName_ofAtom hk)
    · cases h
    · cases h

end Token

/-! ## Trees -/

namespace Node

mutual

/-- The names whose values a node asks for: those of references that are neither the head of a call
nor the key of a mapping. -/
def references : Node → List String
  | literal _ _ => []
  | reference name _ => [name]
  | call head args _ => (if head.name?.isSome then [] else head.references) ++ allReferences args
  | scope body _ => allReferences body
  | collection items _ => allReferences items
  | mapping pairs _ => entryReferences pairs

def allReferences : List Node → List String
  | [] => []
  | n :: ns => n.references ++ allReferences ns

def entryReferences : List (Node × Node) → List String
  | [] => []
  | (_, value) :: pairs => value.references ++ entryReferences pairs

end

theorem mem_allReferences {s : String} {ns : List Node} :
    s ∈ allReferences ns ↔ ∃ n ∈ ns, s ∈ n.references := by
  induction ns with
  | nil => simp [allReferences]
  | cons n ns ih => simp [allReferences, ih]

theorem mem_entryReferences {s : String} {pairs : List (Node × Node)} :
    s ∈ entryReferences pairs ↔ ∃ p ∈ pairs, s ∈ p.2.references := by
  induction pairs with
  | nil => simp [entryReferences]
  | cons p pairs ih => simp [entryReferences, ih]

/-- All names that the node refers to satisfy `P`. -/
def Refers (P : String → Prop) (n : Node) : Prop :=
  ∀ s ∈ n.references, P s

end Node

/-! ## The reader -/

namespace Construct

/-- The nodes of a construct that are evaluated. -/
def nodes : Construct → List Node
  | call _ _ args => args
  | scope _ body _ => body
  | collection _ items => items
  | mapping _ pairs _ => pairs.map (·.2)

theorem mem_nodes_add {c : Construct} {n k : Node} (h : k ∈ (c.add n).nodes) :
    k = n ∨ k ∈ c.nodes := by
  cases c with
  | call | scope | collection => exact List.mem_cons.1 h
  | mapping line pairs slot =>
    cases slot with
    | value key => exact List.mem_cons.1 h
    | key | droppedKey | droppedValue => exact .inr h

theorem references_node {c : Construct} {s : String} (h : s ∈ c.node.references) :
    ∃ n ∈ c.nodes, s ∈ n.references := by
  cases c with
  | call name line args =>
    obtain ⟨n, hn, hs⟩ := Node.mem_allReferences.1 h
    exact ⟨n, List.mem_reverse.1 hn, hs⟩
  | scope line body head =>
    rcases body with _ | ⟨n, _ | ⟨k, ns⟩⟩
    · cases h
    · exact ⟨n, List.mem_cons_self, h⟩
    · obtain ⟨n, hn, hs⟩ := Node.mem_allReferences.1 h
      exact ⟨n, List.mem_reverse.1 hn, hs⟩
  | collection line items =>
    obtain ⟨n, hn, hs⟩ := Node.mem_allReferences.1 h
    exact ⟨n, List.mem_reverse.1 hn, hs⟩
  | mapping line pairs slot =>
    obtain ⟨p, hp, hs⟩ := Node.mem_entryReferences.1 h
    exact ⟨p.2, List.mem_map.2 ⟨p, List.mem_reverse.1 hp, rfl⟩, hs⟩

/-- The nodes of a construct refer to names with `P`. -/
def Refers (P : String → Prop) (c : Construct) : Prop :=
  ∀ n ∈ c.nodes, n.Refers P

theorem Refers.add {P : String → Prop} {c : Construct} (h : c.Refers P) {n : Node}
    (hn : n.Refers P) : (c.add n).Refers P := by
  intro k hk
  rcases mem_nodes_add hk with rfl | hk
  · exact hn
  · exact h k hk

end Construct

theorem Reader.invariant_refers (P : String → Prop) :
    Invariant (·.Refers P) (fun _ ns => ∀ n ∈ ns, n.Refers P) (·.Refers P) P := by
  have reference : ∀ {name : String} (line : Nat), P name →
      (Node.reference name line).Refers P := by
    intro name line hp s hs
    rw [List.mem_singleton.1 hs]
    exact hp
  constructor
  case call => exact fun _ _ => List.forall_mem_nil _
  case group => intro g _ n hn; cases g <;> cases hn
  case literal => exact fun _ _ => List.forall_mem_nil _
  case node =>
    intro c hc s hs
    obtain ⟨n, hn, hs⟩ := Construct.references_node hs
    exact hc n hn s hs
  case add => exact fun hc _ hn => hc.add hn
  case word => exact fun line hc _ hw => hc.add (reference line hw)
  case key => exact fun hc _ => hc
  case droppedKey => exact fun _ _ hc => hc
  case droppedValue => exact fun _ _ hc => hc
  case breakLine => exact fun hc => hc
  case topAdd => exact fun hns hn => List.forall_mem_cons.2 ⟨hn, hns⟩
  case topWord => exact fun line hns hw => List.forall_mem_cons.2 ⟨reference line hw, hns⟩
  case topBreak => exact fun hns => hns

/-- The statements of a program refer only to names that are words of it. -/
theorem references_parse {P : String → Prop} {ts : List Token}
    (ht : ∀ t ∈ ts, ∀ name, t.kind = .word name → P name) :
    ∀ n ∈ (parse ts).1, n.Refers P := by
  obtain ⟨_, h⟩ := (Reader.invariant_refers P).parse (List.forall_mem_nil _)
    fun t hm name hk _ => ht t hm name hk
  exact fun n hn => h n (List.mem_reverse.2 hn)

end Sigil
