import Mathlib.Data.List.Forall2
import Sigil.Proofs.ReaderInvariant

/-!
# The leaves of a program

Brackets, newlines and head positions only say how the other tokens hang together: each of those is
one leaf of the program, and the leaves come in the order of the text. What is not a leaf has been
reported: the pair of a key that is no name, a key without its value, or all that follows a closing
bracket outside all groups (`ParseError.isLoss`). Groups that lack their brackets lose nothing.

The argument counts the leaves of everything the reader holds, finished or open (`Reader.leaves`).
No operation of the reader adds, moves or repeats leaves beyond those of the token it takes, and one
that drops some of them leaves a fault behind or is bound to (`Reader.Takes`).
-/

namespace Sigil

/-! ## Leaves and the tokens that spell them -/

namespace Node

mutual

/-- The literals and references of a tree from left to right. The head of a call stands before its
arguments, the key of a pair before its value. -/
def leaves : Node → List Node
  | literal value line => [literal value line]
  | reference name line => [reference name line]
  | call head args _ => head.leaves ++ allLeaves args
  | scope body _ => allLeaves body
  | collection items _ => allLeaves items
  | mapping pairs _ => pairLeaves pairs

def allLeaves : List Node → List Node
  | [] => []
  | n :: ns => n.leaves ++ allLeaves ns

def pairLeaves : List (Node × Node) → List Node
  | [] => []
  | (key, value) :: pairs => key.leaves ++ value.leaves ++ pairLeaves pairs

end

theorem allLeaves_concat (ns : List Node) (n : Node) :
    allLeaves (ns ++ [n]) = allLeaves ns ++ n.leaves := by
  induction ns with
  | nil => simp [allLeaves]
  | cons k ns ih => simp [allLeaves, ih]

theorem pairLeaves_concat (pairs : List (Node × Node)) (key value : Node) :
    pairLeaves (pairs ++ [(key, value)]) = pairLeaves pairs ++ (key.leaves ++ value.leaves) := by
  induction pairs with
  | nil => simp [pairLeaves]
  | cons p pairs ih => simp [pairLeaves, ih]

end Node

namespace Token

/-- Whether a token is a leaf of the tree and not part of its structure. -/
def isLeaf (t : Token) : Bool :=
  match t.kind with
  | .newline | .opener _ | .closer _ => false
  | .string _ | .number _ | .key _ | .word _ => true

/-- The leaf of a token. A word for a truth value is a name where it is the key of a mapping. -/
inductive Spells : Token → Node → Prop where
  | number (x : Float) (line : Nat) : Spells ⟨.number x, line⟩ (.literal (.number x) line)
  | string (s : String) (line : Nat) : Spells ⟨.string s, line⟩ (.literal (.string s) line)
  | boolean (b : Bool) (line : Nat) :
    Spells ⟨.word (Literal.booleanWord b), line⟩ (.literal (.boolean b) line)
  | key (name : String) (line : Nat) : Spells ⟨.key name, line⟩ (.reference name line)
  | word (name : String) (line : Nat) : Spells ⟨.word name, line⟩ (.reference name line)

theorem exists_spelled (ts : List Token) :
    ∃ ls, List.Forall₂ Spells (ts.filter isLeaf) ls := by
  induction ts with
  | nil => exact ⟨[], .nil⟩
  | cons t ts ih =>
    obtain ⟨ls, h⟩ := ih
    obtain ⟨kind, line⟩ := t
    cases kind with
    | newline | opener | closer => exact ⟨ls, h⟩
    | string s => exact ⟨_, .cons (.string s line) h⟩
    | number x => exact ⟨_, .cons (.number x line) h⟩
    | key name => exact ⟨_, .cons (.key name line) h⟩
    | word name => exact ⟨_, .cons (.word name line) h⟩

/-- Some of the leaves are spelled by some of the tokens, in order. -/
theorem exists_spelling {us : List Token} {ls ms : List Node} (h : List.Forall₂ Spells us ls)
    (hs : ms.Sublist ls) : ∃ ts, ts.Sublist us ∧ List.Forall₂ Spells ts ms := by
  induction hs generalizing us with
  | slnil => exact ⟨[], us.nil_sublist, .nil⟩
  | cons n _ ih =>
    obtain - | ⟨_, h⟩ := h
    obtain ⟨ts, hs, ht⟩ := ih h
    exact ⟨ts, hs.cons _, ht⟩
  | cons_cons n _ ih =>
    obtain - | ⟨hn, h⟩ := h
    obtain ⟨ts, hs, ht⟩ := ih h
    exact ⟨_ :: ts, hs.cons_cons _, .cons hn ht⟩

end Token

/-- A fault that comes with tokens that are no leaves: those of a dropped pair, a key that has no
value, or everything from a closing bracket on. -/
def ParseError.isLoss : ParseError → Bool
  | invalidKey .. | missingValue .. | unexpectedClosing .. => true
  | missingClosing .. | unclosed .. | mismatchedClosing .. => false

/-! ## Open constructs -/

namespace Construct

/-- The leaves of what a construct holds; a mapping holds a key that waits for its value. -/
def leaves : Construct → List Node
  | call name line args => .reference name line :: Node.allLeaves args.reverse
  | scope _ body _ => Node.allLeaves body.reverse
  | collection _ items => Node.allLeaves items.reverse
  | mapping _ pairs (.value key) => Node.pairLeaves pairs.reverse ++ key.leaves
  | mapping _ pairs _ => Node.pairLeaves pairs.reverse

theorem leaves_ofGroup (g : Group) (line : Nat) : (ofGroup g line).leaves = [] := by
  cases g <;> rfl

/-- A node that is added comes last, unless it is part of a pair that is dropped. -/
theorem leaves_add {c : Construct} {n : Node} (hc : c.dropped = []) (hn : (c.add n).dropped = []) :
    (c.add n).leaves = c.leaves ++ n.leaves := by
  cases c with
  | call | scope | collection => simp [add, leaves, Node.allLeaves_concat]
  | mapping line pairs slot =>
    cases slot with
    | key => rfl
    | value key => simp [add, leaves, Node.pairLeaves_concat]
    | droppedKey => cases hn
    | droppedValue => cases hc

theorem leaves_add_sublist (c : Construct) (n : Node) :
    (c.add n).leaves.Sublist (c.leaves ++ n.leaves) := by
  cases c with
  | call | scope | collection => rw [leaves_add rfl rfl]
  | mapping line pairs slot =>
    cases slot with
    | key | value => rw [leaves_add rfl rfl]
    | droppedKey | droppedValue => exact List.sublist_append_left _ _

/-- A construct that ends keeps its leaves, unless a key lacks its value. -/
theorem leaves_node {c : Construct} (h : c.lacking = []) : c.node.leaves = c.leaves := by
  cases c with
  | call | collection => rfl
  | scope line body head =>
    rcases body with _ | ⟨n, _ | ⟨k, ns⟩⟩
    · rfl
    · exact (List.append_nil _).symm
    · rfl
  | mapping line pairs slot =>
    cases slot with
    | value key => cases h
    | key | droppedKey | droppedValue => rfl

theorem leaves_node_sublist (c : Construct) : c.node.leaves.Sublist c.leaves := by
  by_cases h : c.lacking = []
  · rw [leaves_node h]
  · cases c with
    | call | scope | collection => exact absurd rfl h
    | mapping line pairs slot =>
      cases slot with
      | value key => exact List.sublist_append_left _ _
      | key | droppedKey | droppedValue => exact absurd rfl h

theorem dropped_eq_nil {c : Construct} (h : ∀ e ∈ c.dropped, e.isLoss = false) :
    c.dropped = [] := by
  revert h
  unfold dropped
  split
  · exact fun h => Bool.noConfusion (h _ List.mem_cons_self)
  · exact fun _ => rfl

theorem lacking_eq_nil {c : Construct} (h : ∀ e ∈ c.lacking, e.isLoss = false) :
    c.lacking = [] := by
  revert h
  unfold lacking
  split
  · exact fun h => Bool.noConfusion (h _ List.mem_cons_self)
  · exact fun _ => rfl

end Construct

/-! ## The reader -/

namespace Reader

open List (Forall₂)

def stackLeaves (cs : List Construct) : List Node :=
  cs.reverse.flatMap Construct.leaves

/-- The leaves of all that the reader holds, in the order of the text: first the statements, then
the open constructs from the outermost inwards. -/
def leaves (r : Reader) : List Node :=
  Node.allLeaves r.nodes.reverse ++ stackLeaves r.stack

theorem stackLeaves_cons (c : Construct) (cs : List Construct) :
    stackLeaves (c :: cs) = stackLeaves cs ++ c.leaves := by
  simp [stackLeaves]

/-- Nothing has been dropped, and no open mapping is about to drop a pair. -/
structure Lossless (r : Reader) : Prop where
  errors : ∀ e ∈ r.errors, e.isLoss = false
  stack : ∀ c ∈ r.stack, c.dropped = []

/-- What the reader holds grows by the leaves `ls` on the right, less what is dropped; and if it is
still lossless, nothing has been dropped. -/
structure Takes (r : Reader) (ls : List Node) (r' : Reader) : Prop where
  sublist : r'.leaves.Sublist (r.leaves ++ ls)
  kept : r'.Lossless → r.Lossless ∧ r'.leaves = r.leaves ++ ls

namespace Takes

variable {r r' r'' : Reader} {ls ms : List Node}

/-- An operation that drops nothing. -/
theorem of_eq (hl : r'.leaves = r.leaves ++ ls) (h : r'.Lossless → r.Lossless) : r.Takes ls r' :=
  ⟨by rw [hl], fun h' => ⟨h h', hl⟩⟩

/-- An operation that leaves a fault behind may drop what it takes. -/
theorem of_not_lossless (hl : r'.leaves.Sublist r.leaves) (h : ¬ r'.Lossless) (ls : List Node) :
    r.Takes ls r' :=
  ⟨hl.trans (List.sublist_append_left _ _), fun h' => absurd h' h⟩

theorem refl (r : Reader) : r.Takes [] r :=
  of_eq (List.append_nil _).symm id

theorem trans (h : r.Takes ls r') (h' : r'.Takes ms r'') : r.Takes (ls ++ ms) r'' where
  sublist := by
    rw [← List.append_assoc]
    exact h'.sublist.trans (h.sublist.append_right ms)
  kept := fun lossless => by
    obtain ⟨middle, hm⟩ := h'.kept lossless
    obtain ⟨first, hl⟩ := h.kept middle
    exact ⟨first, by rw [hm, hl, List.append_assoc]⟩

end Takes

theorem takes_push (r : Reader) (c : Construct) : r.Takes c.leaves (r.push c) := by
  refine .of_eq ?_ fun h => ⟨h.errors, fun d hd => h.stack d (List.mem_cons_of_mem c hd)⟩
  change Node.allLeaves r.nodes.reverse ++ stackLeaves (c :: r.stack) = _
  rw [stackLeaves_cons, ← List.append_assoc]
  rfl

theorem takes_deliver (r : Reader) (n : Node) : r.Takes n.leaves (r.deliver n) := by
  obtain ⟨stack, head, nodes, errors⟩ := r
  cases stack with
  | nil =>
    refine .of_eq ?_ fun h => ⟨h.errors, h.stack⟩
    simp [leaves, deliver, stackLeaves, Node.allLeaves_concat]
  | cons c rest =>
    have grown : ∀ d : Construct, (⟨d :: rest, head, nodes, errors⟩ : Reader).leaves =
        Node.allLeaves nodes.reverse ++ stackLeaves rest ++ d.leaves := by
      intro d
      rw [leaves, stackLeaves_cons, List.append_assoc]
    refine ⟨?_, fun h => ?_⟩
    · change (⟨c.add n :: rest, head, nodes, errors⟩ : Reader).leaves.Sublist _
      rw [grown, grown, List.append_assoc _ c.leaves]
      exact (Construct.leaves_add_sublist c n).append_left _
    · obtain ⟨kept, others⟩ := List.forall_mem_append.1 h.errors
      obtain ⟨added, rest'⟩ := List.forall_mem_cons.1 h.stack
      have dropped := Construct.dropped_eq_nil kept
      refine ⟨⟨others, List.forall_mem_cons.2 ⟨dropped, rest'⟩⟩, ?_⟩
      change (⟨c.add n :: rest, head, nodes, errors⟩ : Reader).leaves = _
      rw [grown, grown, List.append_assoc _ c.leaves, Construct.leaves_add dropped added]

theorem takes_breakLine (r : Reader) : r.Takes [] r.breakLine := by
  obtain ⟨stack, head, nodes, errors⟩ := r
  unfold breakLine
  split
  · exact .of_eq (List.append_nil _).symm fun h => ⟨h.errors, h.stack⟩
  · next hs =>
    cases hs
    refine .of_eq ?_ fun h => ⟨h.errors, ?_⟩
    · rw [List.append_nil, leaves, leaves, stackLeaves_cons, stackLeaves_cons]
      rfl
    · exact List.forall_mem_cons.2 ⟨rfl, (List.forall_mem_cons.1 h.stack).2⟩
  · exact .refl _

/-- A key that is refused is no leaf, and neither is what comes with it. -/
theorem leaves_refuseKey {slot : Slot} (hs : ∀ key, slot ≠ .value key) (r : Reader) :
    (r.refuseKey slot).leaves = r.leaves := by
  unfold refuseKey
  split
  · next hr =>
    rw [leaves, leaves, hr, stackLeaves_cons, stackLeaves_cons]
    cases slot with
    | value key => exact absurd rfl (hs key)
    | key | droppedKey | droppedValue => rfl
  · rfl

theorem takes_refuseKey_opener (r : Reader) (found : String) (line : Nat) :
    r.Takes [] (r.refuseKey (.droppedKey found line)) := by
  refine .of_eq ((leaves_refuseKey (by rintro _ ⟨⟩) r).trans (List.append_nil _).symm) ?_
  unfold refuseKey
  split
  · next hr =>
    refine fun h => ⟨h.errors, ?_⟩
    rw [hr]
    exact List.forall_mem_cons.2 ⟨rfl, (List.forall_mem_cons.1 h.stack).2⟩
  · exact id

theorem takes_refuseKey_number {r : Reader} (hp : r.place = .key) (found : String) (line : Nat)
    (ls : List Node) : r.Takes ls (r.refuseKey (.droppedValue found line)) := by
  refine .of_not_lossless (by rw [leaves_refuseKey (by rintro _ ⟨⟩)]) (fun h => ?_) ls
  obtain ⟨start, pairs, rest, hs⟩ := stack_of_place_key hp
  have stack := h.stack
  rw [refuseKey, hs] at stack
  cases stack _ List.mem_cons_self

theorem Takes.ending {r r' : Reader} {c : Construct} {cs : List Construct}
    {faults : List ParseError}
    (h : Takes { r.ending c faults with stack := cs } c.node.leaves r') :
    Takes { r with stack := c :: cs } [] r' := by
  have opened : leaves { r with stack := c :: cs } =
      leaves { r.ending c faults with stack := cs } ++ c.leaves := by
    rw [leaves, stackLeaves_cons, ← List.append_assoc]
    rfl
  refine ⟨?_, fun lossless => ?_⟩
  · rw [List.append_nil, opened]
    exact h.sublist.trans ((Construct.leaves_node_sublist c).append_left _)
  · obtain ⟨⟨errors, stack⟩, taken⟩ := h.kept lossless
    obtain ⟨lacking, errors⟩ := List.forall_mem_append.1 errors
    obtain ⟨dropped, errors⟩ := List.forall_mem_append.1 (List.forall_mem_append.1 errors).2
    refine ⟨⟨errors, List.forall_mem_cons.2 ⟨Construct.dropped_eq_nil dropped, stack⟩⟩, ?_⟩
    rw [List.append_nil, opened, taken, Construct.leaves_node (Construct.lacking_eq_nil lacking)]

/-- Going outwards drops nothing but what it reports, whatever ends and wherever it stops. -/
theorem takes_leave (exit : Construct → List Construct → List ParseError → Exit) (r : Reader)
    (cs : List Construct) (node? : Option Node) :
    Takes { r with stack := cs } (node?.elim [] Node.leaves) (r.leave exit cs node?) := by
  induction cs generalizing r node? with
  | nil =>
    cases node? with
    | none => exact .refl _
    | some n => exact takes_deliver _ n
  | cons c cs ih =>
    have alone : ∀ (r : Reader) (c : Construct),
        Takes { r with stack := c :: cs } [] (r.leave exit (c :: cs) none) := by
      intro r c
      cases he : exit c cs r.errors with
      | stay => rw [leave_stay he]; exact .refl _
      | finish faults outwards =>
        cases outwards with
        | true => rw [leave_through he]; exact (ih (r.ending c faults) (some c.node)).ending
        | false => rw [leave_upto he]; exact (takes_deliver _ c.node).ending
    cases node? with
    | none => exact alone r c
    | some n =>
      have handed := (takes_deliver { r with stack := c :: cs } n).trans
        (alone { r with errors := c.dropped ++ r.errors } (c.add n))
      rw [List.append_nil] at handed
      exact handed

theorem takes_endCalls (r : Reader) : r.Takes [] r.endCalls :=
  takes_leave callsExit r r.stack none

theorem takes_endText (r : Reader) : r.Takes [] r.endText :=
  takes_leave textExit r r.stack none

/-! ## Steps -/

section

variable (r : Reader) (line : Nat)

theorem takes_literal (v : Literal) :
    r.Takes [.literal v line] (r.deliver (.literal v line)) :=
  takes_deliver r (.literal v line)

theorem takes_reference (name : String) :
    r.Takes [.reference name line] (r.deliver (.reference name line)) :=
  takes_deliver r (.reference name line)

theorem takes_call (name : String) :
    r.Takes [.reference name line] (r.push (.call name line [])) :=
  takes_push r (.call name line [])

end

theorem takes_word (r : Reader) (name : String) (line : Nat) :
    ∃ n, Token.Spells ⟨.word name, line⟩ n ∧ r.Takes [n] (r.word name line) := by
  unfold word
  split
  · next b hb =>
    have spelled : Literal.booleanWord b = name := by
      unfold booleanWord? at hb
      split at hb
      · next h => cases hb; exact h.symm
      · split at hb
        · next h => cases hb; exact h.symm
        · cases hb
    rw [← spelled]
    exact ⟨_, .boolean b line, takes_literal r line _⟩
  · refine ⟨_, .word name line, ?_⟩
    split
    · exact takes_call r line name
    · exact takes_reference r line name

/-- One token gives its leaf or, if it is a newline or a bracket, none. -/
theorem takes_step (r : Reader) (t : Token) :
    ∃ ls, Forall₂ Token.Spells ([t].filter Token.isLeaf) ls ∧ r.Takes ls (r.step t) := by
  obtain ⟨kind, line⟩ := t
  cases kind with
  | newline => exact ⟨[], .nil, (takes_endCalls r).trans (takes_breakLine _)⟩
  | opener g =>
    have pushed := takes_push (r.refuseKey (.droppedKey g.opening.toString line)) (.ofGroup g line)
    rw [Construct.leaves_ofGroup] at pushed
    exact ⟨[], .nil, (takes_refuseKey_opener r _ line).trans pushed⟩
  | closer g => exact ⟨[], .nil, takes_leave (bracketExit g line) r r.stack none⟩
  | string s => exact ⟨_, .cons (.string s line) .nil, takes_literal r line _⟩
  | number x =>
    refine ⟨_, .cons (.number x line) .nil, ?_⟩
    rw [step_number]
    split
    · next hp => exact takes_refuseKey_number hp _ line _
    · exact takes_literal r line _
  | key name =>
    refine ⟨_, .cons (.key name line) .nil, ?_⟩
    rw [step_key]
    split
    · exact takes_reference r line name
    · exact takes_call r line name
  | word name =>
    rw [step_word]
    split
    · exact ⟨_, .cons (.word name line) .nil, takes_reference r line name⟩
    · obtain ⟨n, hn, taken⟩ := takes_word r name line
      exact ⟨[n], .cons hn .nil, taken⟩

/-! ## Runs -/

theorem stack_leave_textExit (r : Reader) (cs : List Construct) (node? : Option Node) :
    (r.leave textExit cs node?).stack = [] := by
  induction cs generalizing r node? with
  | nil => cases node? <;> rfl
  | cons c cs ih =>
    have alone : ∀ (r : Reader) (c : Construct), (r.leave textExit (c :: cs) none).stack = [] := by
      intro r c
      cases hg : c.group? with
      | none => rw [leave_through (by rw [textExit, hg])]; exact ih _ _
      | some g => rw [leave_through (by rw [textExit, hg])]; exact ih _ _
    cases node? with
    | none => exact alone r c
    | some n => rw [leave_some]; exact alone _ _

/-- All tokens that are leaves are taken, and if no fault tells of a loss nothing stays open. -/
theorem takes_read (r : Reader) (ts : List Token) :
    ∃ ls, Forall₂ Token.Spells (ts.filter Token.isLeaf) ls ∧ r.Takes ls (r.read ts).1 ∧
      ((∀ e ∈ (r.read ts).1.errors, e.isLoss = false) → (r.read ts).1.stack = []) := by
  induction ts generalizing r with
  | nil => exact ⟨[], .nil, takes_endText r, fun _ => stack_leave_textExit r r.stack none⟩
  | cons t ts ih =>
    have next : ∃ ls, Forall₂ Token.Spells ((t :: ts).filter Token.isLeaf) ls ∧
        r.Takes ls ((r.step t).read ts).1 ∧
        ((∀ e ∈ ((r.step t).read ts).1.errors, e.isLoss = false) →
          ((r.step t).read ts).1.stack = []) := by
      obtain ⟨ls, first, taken⟩ := takes_step r t
      obtain ⟨ms, rest, run, stack⟩ := ih (r.step t)
      refine ⟨ls ++ ms, ?_, taken.trans run, stack⟩
      have split : (t :: ts).filter Token.isLeaf =
          [t].filter Token.isLeaf ++ ts.filter Token.isLeaf := List.filter_append [t] ts
      rw [split]
      exact List.rel_append first rest
    unfold read
    split
    · next g _ =>
      split
      · exact next
      · -- the tokens that are not taken spell leaves too, and the fault says that these are lost
        have lossy : ¬ ∀ e ∈ (r.endCalls.fault (.unexpectedClosing g t.line)).errors,
            e.isLoss = false := fun h => Bool.noConfusion (h _ List.mem_cons_self)
        have kept : (r.endCalls.fault (.unexpectedClosing g t.line)).leaves.Sublist r.leaves := by
          have calls := (takes_endCalls r).sublist
          rwa [List.append_nil] at calls
        obtain ⟨ls, spelled⟩ := Token.exists_spelled (t :: ts)
        exact ⟨ls, spelled, .of_not_lossless kept (fun h => lossy h.errors) ls,
          fun h => absurd h lossy⟩
    · exact next

end Reader

/-- **No token is lost, repeated or moved**: if no fault is one that drops tokens, the leaves of
the program are the tokens that are neither newlines nor brackets, one for one and in order; and in
any case they are some of these tokens in order. -/
theorem leaves_parse (ts : List Token) :
    ((∀ e ∈ (parse ts).2, e.isLoss = false) →
      List.Forall₂ Token.Spells (ts.filter Token.isLeaf) (Node.allLeaves (parse ts).1)) ∧
    ∃ us, us.Sublist (ts.filter Token.isLeaf) ∧
      List.Forall₂ Token.Spells us (Node.allLeaves (parse ts).1) := by
  obtain ⟨ls, spelled, taken, empty⟩ := Reader.takes_read {} ts
  have statements : (Reader.read {} ts).1.leaves =
      Node.allLeaves (parse ts).1 ++ Reader.stackLeaves (Reader.read {} ts).1.stack := rfl
  constructor
  · intro h
    have errors : ∀ e ∈ (Reader.read {} ts).1.errors, e.isLoss = false :=
      fun e he => h e (List.mem_reverse.2 he)
    have lossless : (Reader.read {} ts).1.Lossless :=
      ⟨errors, by rw [empty errors]; exact List.forall_mem_nil _⟩
    have all : (Reader.read {} ts).1.leaves = ls := (taken.kept lossless).2
    rw [statements, empty errors] at all
    rwa [← all, Reader.stackLeaves, List.reverse_nil, List.flatMap_nil, List.append_nil] at spelled
  · have part : (Node.allLeaves (parse ts).1).Sublist ls := by
      have kept : (Reader.read {} ts).1.leaves.Sublist ls := taken.sublist
      rw [statements] at kept
      exact (List.sublist_append_left _ _).trans kept
    exact Token.exists_spelling spelled part

/-- A collection that a scope around it ends, one that the wrong bracket ends, a mapping that the
end of the text ends, and a truth value as a key: three faults and no loss. -/
theorem leaves_parse_recovered :
    let ts : List Token :=
      [⟨.word "f", 1⟩, ⟨.opener .scope, 1⟩, ⟨.word "ok", 1⟩, ⟨.opener .collection, 1⟩,
        ⟨.key "+", 1⟩, ⟨.number 1.5, 1⟩, ⟨.closer .scope, 1⟩, ⟨.word "x", 1⟩, ⟨.newline, 1⟩,
        ⟨.opener .mapping, 2⟩, ⟨.word "no", 2⟩, ⟨.opener .collection, 2⟩, ⟨.string "s", 2⟩,
        ⟨.closer .scope, 2⟩, ⟨.key "1st", 3⟩, ⟨.key "2nd", 3⟩, ⟨.word "y", 3⟩]
    (parse ts).2 = [.missingClosing .collection 1, .mismatchedClosing .scope .collection 2,
      .unclosed .mapping 2] ∧
    (∀ e ∈ (parse ts).2, e.isLoss = false) ∧
    List.Forall₂ Token.Spells (ts.filter Token.isLeaf) (Node.allLeaves (parse ts).1) ∧
    ∃ us, us.Sublist (ts.filter Token.isLeaf) ∧
      List.Forall₂ Token.Spells us (Node.allLeaves (parse ts).1) := by
  intro ts
  have errors : (parse ts).2 = [.missingClosing .collection 1,
      .mismatchedClosing .scope .collection 2, .unclosed .mapping 2] := by decide +kernel
  have noLoss : ∀ e ∈ (parse ts).2, e.isLoss = false := by
    rw [errors]
    decide
  obtain ⟨all, part⟩ := leaves_parse ts
  exact ⟨errors, noLoss, all noLoss, part⟩

end Sigil
