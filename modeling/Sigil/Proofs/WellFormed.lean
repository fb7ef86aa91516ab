import Sigil.Proofs.References
import Sigil.Proofs.Seam

/-!
# The trees that are read

Not every tree comes from tokens. `n.wellFormed` says which do: the head of a call is a name, a
scope never has one node alone and never starts with a bare name, keys of mappings are names or
strings, and no name that stands for a truth value is a reference.

The reader gives well-formed statements for all tokens, whatever is wrong with them
(`wellFormed_parse`), and all of those: written in full brackets (`Node.tokens`), a well-formed
program is read back as it was (`parse_tokens`).
-/

namespace Sigil

namespace Node

mutual

/-- Whether a tree can come from tokens. -/
def wellFormed : Node → Bool
  | literal _ _ => true
  | reference name _ => name != Literal.booleanWord true && name != Literal.booleanWord false
  | call head args _ => head.name?.isSome && allWellFormed args
  | scope body _ => body.length != 1 && body.head?.all (·.name?.isNone) && allWellFormed body
  | collection items _ => allWellFormed items
  | mapping pairs _ => pairsWellFormed pairs

def allWellFormed : List Node → Bool
  | [] => true
  | n :: ns => n.wellFormed && allWellFormed ns

def pairsWellFormed : List (Node × Node) → Bool
  | [] => true
  | (key, value) :: pairs => key.key?.isSome && value.wellFormed && pairsWellFormed pairs

end

/-- Whether statements can come from tokens. The first stands in head position, where a name is not
a reference. -/
def wellFormedProgram (statements : List Node) : Bool :=
  statements.head?.all (·.name?.isNone) && allWellFormed statements

theorem allWellFormed_iff {ns : List Node} : allWellFormed ns = true ↔ ∀ n ∈ ns, n.wellFormed := by
  induction ns with
  | nil => simp [allWellFormed]
  | cons n ns ih => simp [allWellFormed, ih]

theorem pairsWellFormed_iff {pairs : List (Node × Node)} :
    pairsWellFormed pairs = true ↔ ∀ p ∈ pairs, p.1.key?.isSome ∧ p.2.wellFormed := by
  induction pairs with
  | nil => simp [pairsWellFormed]
  | cons p pairs ih => simp [pairsWellFormed, ih]

theorem wellFormedProgram_iff {ns : List Node} :
    wellFormedProgram ns = true ↔
      (∀ n, ns.head? = some n → n.name? = none) ∧ ∀ n ∈ ns, n.wellFormed := by
  simp [wellFormedProgram, allWellFormed_iff, Option.all_eq_true]

theorem wellFormed_scope_iff {body : List Node} {line : Nat} :
    (scope body line).wellFormed = true ↔ body.length ≠ 1 ∧ wellFormedProgram body := by
  simp [wellFormed, wellFormedProgram, Bool.and_assoc]

end Node

/-! ## What is read is well-formed -/

/-- The statements so far, newest first, in a scope or at the top level: where there are none, the
next node is in head position, and so the first is no bare name. -/
structure Begun (head : Bool) (ns : List Node) : Prop where
  wellFormed : ∀ n ∈ ns, n.wellFormed
  head : ns = [] → head = true
  first : ∀ n, ns.getLast? = some n → n.name? = none

namespace Begun

variable {head : Bool} {ns : List Node}

theorem empty : Begun true [] :=
  ⟨List.forall_mem_nil _, fun _ => rfl, fun _ e => by cases e⟩

theorem breakLine (h : Begun head ns) : Begun true ns :=
  ⟨h.wellFormed, fun _ => rfl, h.first⟩

/-- The first node must not be a bare name. -/
theorem cons {n : Node} (h : Begun head ns) (hn : n.wellFormed) (hf : ns = [] → n.name? = none) :
    Begun false (n :: ns) := by
  refine ⟨List.forall_mem_cons.2 ⟨hn, h.wellFormed⟩, fun e => (by cases e), fun k hk => ?_⟩
  cases ns with
  | nil => cases hk; exact hf rfl
  | cons m ms => exact h.first k (by rwa [List.getLast?_cons_cons] at hk)

theorem program (h : Begun head ns) : Node.wellFormedProgram ns.reverse := by
  rw [Node.wellFormedProgram_iff]
  refine ⟨fun n hn => h.first n ?_, fun n hn => h.wellFormed n (List.mem_reverse.1 hn)⟩
  rwa [List.head?_reverse] at hn

end Begun

/-- What a construct has so far can become part of a well-formed tree. -/
def Construct.WellFormed : Construct → Prop
  | call _ _ args => ∀ n ∈ args, n.wellFormed
  | scope _ body head => Begun head body
  | collection _ items => ∀ n ∈ items, n.wellFormed
  | mapping _ pairs slot =>
    (∀ p ∈ pairs, p.1.key?.isSome ∧ p.2.wellFormed) ∧ ∀ key, slot = .value key → key.key?.isSome

namespace Construct

theorem WellFormed.node {c : Construct} (h : c.WellFormed) :
    c.node.wellFormed ∧ c.node.name? = none := by
  cases c with
  | call name line args =>
    refine ⟨?_, rfl⟩
    simp [Construct.node, Node.wellFormed, Node.name?, Node.allWellFormed_iff]
    exact h
  | scope line body head =>
    rcases body with _ | ⟨n, _ | ⟨m, ns⟩⟩
    · exact ⟨rfl, rfl⟩
    · exact ⟨h.wellFormed n List.mem_cons_self, h.first n rfl⟩
    · refine ⟨Node.wellFormed_scope_iff.2 ⟨by simp, h.program⟩, rfl⟩
  | collection line items =>
    refine ⟨?_, rfl⟩
    simp [Construct.node, Node.wellFormed, Node.allWellFormed_iff]
    exact h
  | mapping line pairs slot =>
    refine ⟨Node.pairsWellFormed_iff.2 fun p hp => h.1 p (List.mem_reverse.1 hp), rfl⟩

/-- A bare name can be added everywhere but in head position. -/
theorem WellFormed.add {c : Construct} {n : Node} (h : c.WellFormed) (hp : c.place ≠ .key)
    (hn : n.wellFormed) (hh : c.place = .head → n.name? = none) : (c.add n).WellFormed := by
  cases c with
  | call name line args => exact List.forall_mem_cons.2 ⟨hn, h⟩
  | scope line body head =>
    refine Begun.cons h hn fun e => hh ?_
    rw [place, h.head e]
    rfl
  | collection line items => exact List.forall_mem_cons.2 ⟨hn, h⟩
  | mapping line pairs slot =>
    cases slot with
    | key => exact absurd rfl hp
    | value key =>
      exact ⟨List.forall_mem_cons.2 ⟨⟨h.2 key rfl, hn⟩, h.1⟩, fun _ e => by cases e⟩
    | droppedKey | droppedValue => exact ⟨h.1, fun _ e => by cases e⟩

end Construct

theorem Reader.invariant_wellFormed :
    Invariant Construct.WellFormed Begun (fun n => n.wellFormed ∧ n.name? = none)
      (fun name => name != Literal.booleanWord true && name != Literal.booleanWord false) := by
  constructor
  case call => exact fun _ _ => List.forall_mem_nil _
  case group =>
    intro g line
    cases g with
    | scope => exact Begun.empty
    | collection => exact List.forall_mem_nil _
    | mapping => exact ⟨List.forall_mem_nil _, fun _ e => by cases e⟩
  case literal => exact fun _ _ => ⟨rfl, rfl⟩
  case node => exact fun h => h.node
  case add => exact fun h hp hn => h.add hp hn.1 fun _ => hn.2
  case word =>
    intro c name line h hp hw
    exact h.add (by rw [hp]; exact Place.noConfusion) hw fun e => by rw [hp] at e; cases e
  case key => exact fun h hk => ⟨h.1, fun _ e => by cases e; exact hk⟩
  case droppedKey => exact fun _ _ h => ⟨h.1, fun _ e => by cases e⟩
  case droppedValue => exact fun _ _ h => ⟨h.1, fun _ e => by cases e⟩
  case breakLine => exact fun h => Begun.breakLine h
  case topAdd => exact fun h hn => h.cons hn.1 fun _ => hn.2
  case topWord => exact fun line h hw => h.cons hw fun e => by cases h.head e
  case topBreak => exact fun h => h.breakLine

/-- Whatever the tokens, the statements are well-formed. -/
theorem wellFormed_parse (ts : List Token) : Node.wellFormedProgram (parse ts).1 := by
  have words : ∀ t ∈ ts, ∀ name, t.kind = .word name → Reader.booleanWord? name = none →
      name != Literal.booleanWord true && name != Literal.booleanWord false := by
    intro t _ name _ hb
    unfold Reader.booleanWord? at hb
    split at hb
    · cases hb
    split at hb
    · cases hb
    · simp [*]
  obtain ⟨head, h⟩ := Reader.invariant_wellFormed.parse Begun.empty words
  have whole := h.program
  rwa [List.reverse_reverse] at whole

/-! ## What is well-formed is read -/

namespace Node

/-- The token of a mapping's key. A name may be written as a key or as a word, and `keyed` says
which. -/
def keyToken (keyed : String → Bool) : Node → Token.Kind
  | literal (.string s) _ => .string s
  | n => if keyed n.text then .key n.text else .word n.text

/-- The token of a literal. -/
def literalToken : Literal → Token.Kind
  | .number x => .number x
  | .string s => .string s
  | .boolean b => .word (Literal.booleanWord b)

mutual

/-- A tree in full brackets: the head of a call is a key, and all other references are words. -/
def tokens (keyed : String → Bool) : Node → List Token.Kind
  | literal value _ => [literalToken value]
  | reference name _ => [.word name]
  | call head args _ =>
    .opener .scope :: .key head.text :: (allTokens keyed args ++ [.closer .scope])
  | scope body _ => .opener .scope :: (allTokens keyed body ++ [.closer .scope])
  | collection items _ => .opener .collection :: (allTokens keyed items ++ [.closer .collection])
  | mapping pairs _ => .opener .mapping :: (pairTokens keyed pairs ++ [.closer .mapping])

/-- Trees one after the other. -/
def allTokens (keyed : String → Bool) : List Node → List Token.Kind
  | [] => []
  | n :: ns => n.tokens keyed ++ allTokens keyed ns

def pairTokens (keyed : String → Bool) : List (Node × Node) → List Token.Kind
  | [] => []
  | (key, value) :: pairs => key.keyToken keyed :: (value.tokens keyed ++ pairTokens keyed pairs)

end

end Node

namespace Reader

/-- Tokens without lines. -/
def unlined (kinds : List Token.Kind) : List Token :=
  kinds.map (⟨·, 0⟩)

@[simp] theorem unlined_cons (k : Token.Kind) (ks : List Token.Kind) :
    unlined (k :: ks) = ⟨k, 0⟩ :: unlined ks := rfl

@[simp] theorem unlined_append (ks ls : List Token.Kind) :
    unlined (ks ++ ls) = unlined ks ++ unlined ls := List.map_append

/-- What is read depends on the lines of the tokens in its own lines only. -/
theorem erase_parse {ts : List Token} {ks : List Token.Kind} (h : ts.map (·.kind) = ks) :
    erase (parse ts) = parse (unlined ks) := by
  have plain : erase ts = unlined ks := by
    rw [← h, unlined, List.map_map]
    rfl
  rw [← plain]
  exact (parse_renumber _ ts).symm

/-- Tokens are read as a node that is delivered, whatever follows. -/
def ReadsAs (r : Reader) (kinds : List Token.Kind) (s : Reader) : Prop :=
  ∀ ts, r.read (unlined kinds ++ ts) = s.read ts

theorem ReadsAs.trans {r s t : Reader} {ks ls : List Token.Kind} (h : r.ReadsAs ks s)
    (h' : s.ReadsAs ls t) : r.ReadsAs (ks ++ ls) t := by
  intro ts
  rw [unlined_append, List.append_assoc, h, h']

theorem readsAs_nil (r : Reader) : r.ReadsAs [] r := fun _ => rfl

theorem readsAs_step {r s : Reader} {k : Token.Kind} (hk : ∀ g, k ≠ .closer g)
    (h : r.step ⟨k, 0⟩ = s) : r.ReadsAs [k] s := by
  intro ts
  rw [← h]
  exact read_other (t := ⟨k, 0⟩) hk r ts

theorem readsAs_closer {r s : Reader} {g : Group} (hg : r.inGroup = true)
    (h : r.close g 0 = s) : r.ReadsAs [.closer g] s := by
  intro ts
  rw [unlined_cons, List.cons_append, read_closer rfl, if_pos hg, ← h]
  rfl

/-! ### Groups -/

theorem readsAs_opener {r : Reader} (g : Group) (hp : r.place ≠ .key) :
    r.ReadsAs [.opener g] (r.push (.ofGroup g 0)) := by
  refine readsAs_step (fun _ => Token.Kind.noConfusion) ?_
  rw [step_opener, refuseKey_of_ne hp]

theorem inGroup_push {c : Construct} {g : Group} (r : Reader) (hg : c.group? = some g) :
    (r.push c).inGroup = true := by
  unfold inGroup push
  rw [List.any_cons, hg]
  rfl

/-- The bracket of a group that lacks nothing hands on its node. -/
theorem readsAs_close {c : Construct} {g : Group} (r : Reader) (hg : c.group? = some g)
    (hl : c.lacking = []) (hd : c.dropped = []) :
    (r.push c).ReadsAs [.closer g] (r.deliver c.node) := by
  have ends : bracketExit g 0 c r.stack r.errors = .finish [] false := by
    simp [bracketExit, hg]
  refine readsAs_closer (inGroup_push r hg) ((leave_upto (r := r.push c) ends).trans ?_)
  unfold ending push
  rw [hl, hd]
  rfl

/-- A group between its brackets, from what its nodes are read as. -/
theorem readsAs_group {r : Reader} {c : Construct} {g : Group} {ks : List Token.Kind}
    (hp : r.place ≠ .key) (hg : c.group? = some g) (hl : c.lacking = []) (hd : c.dropped = [])
    (h : (r.push (.ofGroup g 0)).ReadsAs ks (r.push c)) :
    r.ReadsAs (.opener g :: (ks ++ [.closer g])) (r.deliver c.node) :=
  (readsAs_opener g hp).trans (h.trans (readsAs_close r hg hl hd))

/-- The bracket of a scope around a call ends the call too, and of the two only the call is left. -/
theorem readsAs_close_call (r : Reader) (name : String) (args : List Node) :
    ((r.push (.scope 0 [] true)).push (.call name 0 args)).ReadsAs [.closer .scope]
      (r.deliver (.call (.reference name 0) args.reverse 0)) := by
  have inside : ((r.push (.scope 0 [] true)).push (.call name 0 args)).inGroup = true := by
    simp [inGroup, push, Construct.group?]
  exact readsAs_closer inside rfl

/-! ### Nodes one after the other -/

/-- The reader is not inside a mapping, so that nodes come one after the other. -/
def Listing (r : Reader) : Prop :=
  ∀ line pairs slot rest, r.stack ≠ .mapping line pairs slot :: rest

theorem Listing.place_ne_key {r : Reader} (h : r.Listing) : r.place ≠ .key := by
  intro hp
  obtain ⟨line, pairs, rest, hs⟩ := stack_of_place_key hp
  exact h line pairs .key rest hs

theorem Listing.deliver {r : Reader} (h : r.Listing) (n : Node) :
    (r.deliver n).Listing ∧ (r.deliver n).place = .inner := by
  obtain ⟨stack, head, nodes, errors⟩ := r
  cases stack with
  | nil => exact ⟨fun _ _ _ _ e => (by cases e), rfl⟩
  | cons c rest =>
    cases c with
    | call | scope | collection => exact ⟨fun _ _ _ _ e => (by cases e), rfl⟩
    | mapping line pairs slot => exact absurd rfl (h line pairs slot rest)

def deliverAll (r : Reader) (ns : List Node) : Reader :=
  ns.foldl deliver r

/-- What is to be shown of a tree: its tokens are read as the tree. A bare name must not stand in
head position. -/
def Legible (keyed : String → Bool) (n : Node) : Prop :=
  ∀ r : Reader, r.place ≠ .key → (n.name?.isSome → r.place = .inner) →
    r.ReadsAs (n.tokens keyed) (r.deliver (erase n))

theorem readsAs_all {keyed : String → Bool} {ns : List Node} (hn : ∀ n ∈ ns, Legible keyed n)
    {r : Reader} (hr : r.Listing)
    (hf : ∀ n, ns.head? = some n → n.name?.isSome → r.place = .inner) :
    r.ReadsAs (Node.allTokens keyed ns) (r.deliverAll (erase ns)) := by
  induction ns generalizing r with
  | nil => exact readsAs_nil r
  | cons n ns ih =>
    obtain ⟨hn, hns⟩ := List.forall_mem_cons.1 hn
    obtain ⟨next, inner⟩ := hr.deliver (erase n)
    exact (hn r hr.place_ne_key (hf n rfl)).trans (ih hns next fun _ _ _ => inner)

theorem deliverAll_call (r : Reader) (name : String) (args ns : List Node) :
    (r.push (.call name 0 args)).deliverAll ns = r.push (.call name 0 (ns.reverse ++ args)) := by
  induction ns generalizing args with
  | nil => rfl
  | cons n ns ih =>
    rw [List.reverse_cons, List.append_assoc]
    exact ih (n :: args)

/-- A call in brackets, from what its head and its arguments are read as. -/
theorem readsAs_call {r : Reader} {k : Token.Kind} {ks : List Token.Kind} {name : String}
    {args : List Node} (hp : r.place ≠ .key)
    (hk : (r.push (.scope 0 [] true)).ReadsAs [k]
      ((r.push (.scope 0 [] true)).push (.call name 0 [])))
    (ha : ((r.push (.scope 0 [] true)).push (.call name 0 [])).ReadsAs ks
      (((r.push (.scope 0 [] true)).push (.call name 0 [])).deliverAll args)) :
    r.ReadsAs (.opener .scope :: k :: (ks ++ [.closer .scope]))
      (r.deliver (.call (.reference name 0) args 0)) := by
  have closed := readsAs_close_call r name args.reverse
  rw [deliverAll_call, List.append_nil] at ha
  rw [List.reverse_reverse] at closed
  exact ((readsAs_opener .scope hp).trans hk).trans (ha.trans closed)

theorem deliverAll_collection (r : Reader) (items ns : List Node) :
    (r.push (.collection 0 items)).deliverAll ns =
      r.push (.collection 0 (ns.reverse ++ items)) := by
  induction ns generalizing items with
  | nil => rfl
  | cons n ns ih =>
    rw [List.reverse_cons, List.append_assoc]
    exact ih (n :: items)

theorem deliverAll_scope (r : Reader) (body ns : List Node) (head : Bool) :
    ∃ head', (r.push (.scope 0 body head)).deliverAll ns =
      r.push (.scope 0 (ns.reverse ++ body) head') := by
  induction ns generalizing body head with
  | nil => exact ⟨head, rfl⟩
  | cons n ns ih =>
    rw [List.reverse_cons, List.append_assoc]
    exact ih (n :: body) false

theorem deliverAll_top (ns : List Node) (r : Reader) (hs : r.stack = []) :
    (r.deliverAll ns).stack = [] ∧ (r.deliverAll ns).nodes = ns.reverse ++ r.nodes ∧
      (r.deliverAll ns).errors = r.errors := by
  induction ns generalizing r with
  | nil => exact ⟨hs, rfl, rfl⟩
  | cons n ns ih =>
    have next : r.deliver n = { r with nodes := n :: r.nodes, head := false } := by
      unfold deliver
      rw [hs]
    rw [List.reverse_cons, List.append_assoc]
    change ((r.deliver n).deliverAll ns).stack = [] ∧ ((r.deliver n).deliverAll ns).nodes = _ ∧
      ((r.deliver n).deliverAll ns).errors = _
    rw [next]
    exact ih _ hs

theorem endText_of_nil {r : Reader} (hs : r.stack = []) : r.endText = r := by
  obtain ⟨stack, head, nodes, errors⟩ := r
  cases hs
  rfl

/-! ### Trees -/

theorem booleanWord?_booleanWord (b : Bool) : booleanWord? (Literal.booleanWord b) = some b := by
  cases b <;> rfl

theorem booleanWord?_eq_none {name : String} (h : (Node.reference name 0).wellFormed) :
    booleanWord? name = none := by
  simp only [Node.wellFormed, Bool.and_eq_true, bne_iff_ne] at h
  unfold booleanWord?
  rw [if_neg h.1, if_neg h.2]

theorem legible_literal (keyed : String → Bool) (l : Literal) (line : Nat) :
    Legible keyed (.literal l line) := by
  intro r hp _
  refine readsAs_step (fun _ => ?_) ?_
  · cases l <;> exact Token.Kind.noConfusion
  cases l with
  | number x => exact (step_number r 0 x).trans (if_neg hp)
  | string s => rfl
  | boolean b =>
    refine (step_word r 0 (Literal.booleanWord b)).trans ((if_neg hp).trans ?_)
    rw [word, booleanWord?_booleanWord]
    rfl

theorem legible_reference (keyed : String → Bool) {name : String} {line : Nat}
    (hn : (Node.reference name line).wellFormed) : Legible keyed (.reference name line) := by
  intro r hp hi
  have place : r.place = .inner := hi rfl
  refine readsAs_step (fun _ => Token.Kind.noConfusion) ?_
  rw [step_word, if_neg hp, word, booleanWord?_eq_none hn, place]
  rfl

theorem legible_call (keyed : String → Bool) {head : Node} {args : List Node} {line : Nat}
    (hh : head.name?.isSome) (ha : ∀ n ∈ args, Legible keyed n) :
    Legible keyed (.call head args line) := by
  intro r hp _
  cases head with
  | reference name start =>
    have key : (r.push (.scope 0 [] true)).ReadsAs [.key name]
        ((r.push (.scope 0 [] true)).push (.call name 0 [])) :=
      readsAs_step (fun _ => Token.Kind.noConfusion) rfl
    have inside : ((r.push (.scope 0 [] true)).push (.call name 0 [])).Listing :=
      fun _ _ _ _ e => by cases e
    have tree : erase (Node.call (.reference name start) args line) =
        .call (.reference name 0) (erase args) 0 := Node.renumber_call ..
    rw [tree]
    exact readsAs_call hp key (readsAs_all ha inside fun _ _ _ => rfl)
  | literal | call | scope | collection | mapping => cases hh

theorem legible_scope (keyed : String → Bool) {body : List Node} {line : Nat}
    (hl : body.length ≠ 1) (hf : ∀ n, body.head? = some n → n.name? = none)
    (hb : ∀ n ∈ body, Legible keyed n) : Legible keyed (.scope body line) := by
  intro r hp _
  have inside : (r.push (.scope 0 [] true)).Listing := fun _ _ _ _ e => by cases e
  have whole := readsAs_all hb inside fun n hn hs => by rw [hf n hn] at hs; cases hs
  obtain ⟨head, he⟩ := deliverAll_scope r [] (erase body) true
  rw [he, List.append_nil] at whole
  have group := readsAs_group (c := .scope 0 (erase body).reverse head) hp rfl rfl rfl whole
  have node :
      (Construct.scope 0 (erase body).reverse head).node = erase (Node.scope body line) := by
    have length : (erase body).reverse.length ≠ 1 := by
      rw [List.length_reverse]
      exact fun e => hl ((length_renumber _ body).symm.trans e)
    rw [Construct.node]
    · rw [List.reverse_reverse]
      exact (Node.renumber_scope ..).symm
    · rintro n e
      rw [e] at length
      exact length rfl
  rwa [node] at group

theorem legible_collection (keyed : String → Bool) {items : List Node} {line : Nat}
    (hi : ∀ n ∈ items, Legible keyed n) : Legible keyed (.collection items line) := by
  intro r hp _
  have inside : (r.push (.collection 0 [])).Listing := fun _ _ _ _ e => by cases e
  have whole := readsAs_all hi inside fun _ _ _ => rfl
  rw [deliverAll_collection, List.append_nil] at whole
  have group := readsAs_group (c := .collection 0 (erase items).reverse) hp rfl rfl rfl whole
  have node : (Construct.collection 0 (erase items).reverse).node =
      erase (Node.collection items line) := by
    rw [Construct.node, List.reverse_reverse]
    exact (Node.renumber_collection ..).symm
  rwa [node] at group

theorem readsAs_key (keyed : String → Bool) {key : Node} (hk : key.key?.isSome) (r : Reader)
    (pairs : List (Node × Node)) :
    (r.push (.mapping 0 pairs .key)).ReadsAs [key.keyToken keyed]
      (r.push (.mapping 0 pairs (.value (erase key)))) := by
  have name : ∀ s, (r.push (.mapping 0 pairs .key)).ReadsAs [if keyed s then .key s else .word s]
      (r.push (.mapping 0 pairs (.value (.reference s 0)))) := by
    intro s
    split <;> exact readsAs_step (fun _ => Token.Kind.noConfusion) rfl
  cases key with
  | reference s line => exact name s
  | literal l line =>
    cases l with
    | string s => exact readsAs_step (fun _ => Token.Kind.noConfusion) rfl
    | number | boolean => cases hk
  | call | scope | collection | mapping => cases hk

theorem readsAs_pairs {keyed : String → Bool} {pairs : List (Node × Node)}
    (hk : ∀ p ∈ pairs, p.1.key?.isSome) (hv : ∀ p ∈ pairs, Legible keyed p.2) (r : Reader)
    (before : List (Node × Node)) :
    (r.push (.mapping 0 before .key)).ReadsAs (Node.pairTokens keyed pairs)
      (r.push (.mapping 0 ((erase pairs).reverse ++ before) .key)) := by
  induction pairs generalizing before with
  | nil => exact readsAs_nil _
  | cons p pairs ih =>
    obtain ⟨key, value⟩ := p
    obtain ⟨hk, hks⟩ := List.forall_mem_cons.1 hk
    obtain ⟨hv, hvs⟩ := List.forall_mem_cons.1 hv
    have first := readsAs_key keyed hk r before
    have second := hv (r.push (.mapping 0 before (.value (erase key)))) Place.noConfusion
      fun _ => rfl
    have rest := ih hks hvs ((erase key, erase value) :: before)
    have order : (erase ((key, value) :: pairs)).reverse ++ before =
        (erase pairs).reverse ++ (erase key, erase value) :: before := by
      refine (congrArg (· ++ before) List.reverse_cons).trans ?_
      rw [List.append_assoc]
      rfl
    rw [order]
    exact first.trans (second.trans rest)

theorem legible_mapping (keyed : String → Bool) {pairs : List (Node × Node)} {line : Nat}
    (hk : ∀ p ∈ pairs, p.1.key?.isSome) (hv : ∀ p ∈ pairs, Legible keyed p.2) :
    Legible keyed (.mapping pairs line) := by
  intro r hp _
  have whole := readsAs_pairs hk hv r []
  rw [List.append_nil] at whole
  have group := readsAs_group (c := .mapping 0 (erase pairs).reverse .key) hp rfl rfl rfl whole
  have node : (Construct.mapping 0 (erase pairs).reverse .key).node =
      erase (Node.mapping pairs line) := by
    rw [Construct.node, List.reverse_reverse]
    exact (Node.renumber_mapping ..).symm
  rwa [node] at group

/-- A well-formed tree is read back from its tokens wherever a node can stand. -/
theorem legible_tokens (keyed : String → Bool) {n : Node} (h : n.wellFormed) :
    Legible keyed n := by
  induction n using Node.induction with
  | literal l line => exact legible_literal keyed l line
  | reference name line => exact legible_reference keyed h
  | call head args line _ ha =>
    simp only [Node.wellFormed, Bool.and_eq_true, Node.allWellFormed_iff] at h
    exact legible_call keyed h.1 fun n hn => ha n hn (h.2 n hn)
  | scope body line hb =>
    obtain ⟨hl, hp⟩ := Node.wellFormed_scope_iff.1 h
    obtain ⟨hf, hw⟩ := Node.wellFormedProgram_iff.1 hp
    exact legible_scope keyed hl hf fun n hn => hb n hn (hw n hn)
  | collection items line hi =>
    have hw := Node.allWellFormed_iff.1 h
    exact legible_collection keyed fun n hn => hi n hn (hw n hn)
  | mapping pairs line hv =>
    have hw := Node.pairsWellFormed_iff.1 h
    exact legible_mapping keyed (fun p hp => (hw p hp).1) fun p hp => (hv p hp).2 (hw p hp).2

end Reader

/-- A well-formed program is read back from its tokens, with nothing wrong. -/
theorem parse_tokens (keyed : String → Bool) {ns : List Node} (h : Node.wellFormedProgram ns)
    {ts : List Token} (ht : ts.map (·.kind) = Node.allTokens keyed ns) :
    erase (parse ts) = (erase ns, []) := by
  obtain ⟨hf, hw⟩ := Node.wellFormedProgram_iff.1 h
  have whole := Reader.readsAs_all (fun n hn => Reader.legible_tokens keyed (hw n hn))
    (r := {}) (fun _ _ _ _ e => by cases e) (fun n hn hs => by rw [hf n hn] at hs; cases hs) []
  obtain ⟨stack, nodes, errors⟩ := Reader.deliverAll_top (erase ns) {} rfl
  have ends : (Reader.read {} (Reader.unlined (Node.allTokens keyed ns))).1 =
      Reader.deliverAll {} (erase ns) := by
    rw [List.append_nil] at whole
    rw [whole]
    exact Reader.endText_of_nil stack
  rw [Reader.erase_parse ht, parse_eq, ends, nodes, errors]
  simp

/-- **The image of the reader**: for all tokens, the statements that are read are well-formed; and
every well-formed program is what is read, with nothing wrong, from its tokens in full brackets,
whatever their lines. -/
theorem parse_image :
    (∀ ts, Node.wellFormedProgram (parse ts).1) ∧
    ∀ ns, Node.wellFormedProgram ns → ∀ (keyed : String → Bool) (ts : List Token),
      ts.map (·.kind) = Node.allTokens keyed ns →
      (parse ts).2 = [] ∧ erase (parse ts).1 = erase ns := by
  refine ⟨wellFormed_parse, fun ns h keyed ts ht => ?_⟩
  obtain ⟨nodes, errors⟩ := Prod.mk.inj (parse_tokens keyed h ht)
  exact ⟨List.map_eq_nil_iff.1 errors, nodes⟩

/-- A call of a function literal on a mapping whose keys are a symbol, a truth value and a string,
then a scope of two, an empty scope and a word. -/
theorem parse_image_nested :
    let ns : List Node :=
      [.call (.reference "f" 1) [.reference "x" 1, .mapping [(.reference "+" 2, .reference "y" 2),
        (.reference "ok" 2, .collection [.literal (.number 1.5) 3, .scope [] 3] 3),
        (.literal (.string "k") 4, .call (.reference "ok" 4) [] 4)] 2] 1,
      .scope [.literal (.boolean false) 5, .reference "z" 5] 5, .scope [] 5, .reference "w" 6]
    ∃ ts, Node.wellFormedProgram ns ∧ ts.map (·.kind) = Node.allTokens isKeyName ns ∧
      Node.wellFormedProgram (parse ts).1 ∧ (parse ts).2 = [] ∧ erase (parse ts).1 = erase ns := by
  intro ns
  have tokens : (Reader.unlined (Node.allTokens isKeyName ns)).map (·.kind) =
      Node.allTokens isKeyName ns := by
    rw [Reader.unlined, List.map_map]
    exact List.map_id _
  have wellFormed : Node.wellFormedProgram ns := by decide +kernel
  obtain ⟨image, back⟩ := parse_image
  exact ⟨_, wellFormed, tokens, image _, back ns wellFormed isKeyName _ tokens⟩

end Sigil
