import Sigil.Proofs.Leaves
import Sigil.Proofs.Seam

/-!
# Reading goes on

Nodes can be read from tokens one by one, and a program from what they leave. Each reading that
finds more than newlines takes a token that is none (`Cursor.NodeRead`), so that reading on comes to
the end of the tokens; a program takes them all or stops before a closing bracket
(`Cursor.ProgramRead`).

Two facts about single steps make this up. Faults are only ever added, and among them there is never
a second group without end (`ParseError.Accrue`). And from the first token of a node on, something
is open or the node is there, but not both (`Reader.Underway`): when the reading ends, nothing is
open.
-/

namespace Sigil

open Reader (isUnclosed)

/-! ## Faults -/

/-- The faults `after`, newest first, are the faults `before` and those found since: none of a
closing bracket outside all groups, and one of a group without end only if there was none. -/
structure ParseError.Accrue (before after : List ParseError) : Prop where
  added : ∃ faults, after = faults ++ before ∧ ∀ g line, .unexpectedClosing g line ∉ faults
  once : before.countP isUnclosed ≤ 1 → after.countP isUnclosed ≤ 1

namespace ParseError

variable {before between after faults : List ParseError}

theorem Accrue.refl (es : List ParseError) : Accrue es es :=
  ⟨⟨[], rfl, fun _ _ => List.not_mem_nil⟩, id⟩

theorem Accrue.trans (h : Accrue before between) (h' : Accrue between after) :
    Accrue before after := by
  obtain ⟨old, rfl, hold⟩ := h.added
  obtain ⟨new, rfl, hnew⟩ := h'.added
  refine ⟨⟨new ++ old, (List.append_assoc ..).symm, fun g line hm => ?_⟩, h'.once ∘ h.once⟩
  rcases List.mem_append.1 hm with hm | hm
  · exact hnew g line hm
  · exact hold g line hm

theorem countP_isUnclosed (h : ∀ e ∈ faults, e.isFatal = false) :
    faults.countP isUnclosed = 0 :=
  List.countP_eq_zero.2 fun e he => by simp [Reader.not_isUnclosed (h e he)]

/-- Faults that are not fatal may always be added. -/
theorem accrue_append (h : ∀ e ∈ faults, e.isFatal = false) (es : List ParseError) :
    Accrue es (faults ++ es) := by
  refine ⟨⟨faults, rfl, fun g line hm => Bool.noConfusion (h _ hm)⟩, fun once => ?_⟩
  rw [List.countP_append, countP_isUnclosed h]
  omega

end ParseError

namespace Construct

theorem isFatal_of_mem_dropped {c : Construct} {e : ParseError} (h : e ∈ c.dropped) :
    e.isFatal = false := by
  unfold dropped at h
  split at h
  · rw [List.mem_singleton.1 h]; rfl
  · cases h

theorem isFatal_of_mem_lacking {c : Construct} {e : ParseError} (h : e ∈ c.lacking) :
    e.isFatal = false := by
  unfold lacking at h
  split at h
  · rw [List.mem_singleton.1 h]; rfl
  · cases h

end Construct

/-- A newline and a closing bracket start no node; every other token does. -/
def Token.startsNode (t : Token) : Bool :=
  match t.kind with
  | .newline | .closer _ => false
  | .opener _ | .string _ | .number _ | .key _ | .word _ => true

namespace Reader

open ParseError (Accrue accrue_append)

/-! ## Steps -/

theorem errors_refuseKey (r : Reader) (slot : Slot) : (r.refuseKey slot).errors = r.errors := by
  unfold refuseKey
  split <;> rfl

theorem nodes_refuseKey (r : Reader) (slot : Slot) : (r.refuseKey slot).nodes = r.nodes := by
  unfold refuseKey
  split <;> rfl

/-- A token that starts a node gives a node, opens a construct, or is refused as a key. -/
theorem step_of_startsNode (r : Reader) {t : Token} (ht : t.startsNode = true) :
    (∃ n, r.step t = r.deliver n) ∨ (∃ slot c, r.step t = (r.refuseKey slot).push c) ∨
      ∃ slot, r.place = .key ∧ r.step t = r.refuseKey slot := by
  have opens : ∀ c, r.place ≠ .key → ∃ slot d, r.push c = (r.refuseKey slot).push d :=
    fun c hp => ⟨.key, c, by rw [refuseKey_of_ne hp]⟩
  obtain ⟨kind, line⟩ := t
  cases kind with
  | newline | closer => cases ht
  | opener g => exact .inr (.inl ⟨_, _, step_opener r line g⟩)
  | string s => exact .inl ⟨_, rfl⟩
  | number x =>
    rw [step_number]
    split
    · next hp => exact .inr (.inr ⟨_, hp, rfl⟩)
    · exact .inl ⟨_, rfl⟩
  | key name =>
    rw [step_key]
    split
    · exact .inl ⟨_, rfl⟩
    · next hp => exact .inr (.inl (opens _ hp))
  | word name =>
    rw [step_word, word]
    split
    · exact .inl ⟨_, rfl⟩
    next hp =>
    split
    · exact .inl ⟨_, rfl⟩
    split
    · exact .inr (.inl (opens _ hp))
    · exact .inl ⟨_, rfl⟩

/-! ## Faults that are found -/

theorem accrue_deliver (r : Reader) (n : Node) : Accrue r.errors (r.deliver n).errors := by
  unfold deliver
  split
  · exact .refl _
  · exact accrue_append (fun _ => Construct.isFatal_of_mem_dropped) _

/-- A construct that ends adds the faults of its pairs to those of its brackets. -/
theorem accrue_ending {r : Reader} {faults : List ParseError}
    (h : Accrue r.errors (faults ++ r.errors)) (c : Construct) :
    Accrue r.errors (r.ending c faults).errors := by
  have dropped : ∀ e ∈ c.dropped, e.isFatal = false := fun _ => Construct.isFatal_of_mem_dropped
  have lacking : ∀ e ∈ c.lacking, e.isFatal = false := fun _ => Construct.isFatal_of_mem_lacking
  obtain ⟨⟨added, same, strays⟩, once⟩ := h
  obtain rfl := List.append_cancel_right same
  -- the dropped pairs come in between, but none of their faults is a group without end
  have found : Accrue (c.dropped ++ r.errors) (faults ++ (c.dropped ++ r.errors)) := by
    refine ⟨⟨faults, rfl, strays⟩, fun before => ?_⟩
    simp only [List.countP_append, ParseError.countP_isUnclosed dropped] at once before ⊢
    omega
  exact ((accrue_append dropped _).trans found).trans (accrue_append lacking _)

/-- Going outwards adds what is found at each construct that ends. -/
theorem accrue_leave {exit : Construct → List Construct → List ParseError → Exit}
    (h : ∀ c cs es faults outwards, exit c cs es = .finish faults outwards →
      Accrue es (faults ++ es)) (r : Reader) (cs : List Construct) (node? : Option Node) :
    Accrue r.errors (r.leave exit cs node?).errors := by
  induction r, cs, node? using leave_induction with
  | nil r node? =>
    cases node? with
    | none => exact .refl _
    | some n => exact accrue_deliver { r with stack := [] } n
  | add r c cs n ih =>
    rw [leave_some]
    exact (accrue_append (fun _ => Construct.isFatal_of_mem_dropped) _).trans ih
  | cons r c cs ih =>
    cases he : exit c cs r.errors with
    | stay => rw [leave_stay he]; exact .refl _
    | finish faults outwards =>
      have ended := accrue_ending (h _ _ _ _ _ he) c
      cases outwards with
      | true => rw [leave_through he]; exact ended.trans (ih _ _)
      | false =>
        rw [leave_upto he]
        exact ended.trans (accrue_deliver { r.ending c faults with stack := cs } c.node)

theorem accrue_endCalls (r : Reader) : Accrue r.errors r.endCalls.errors := by
  refine accrue_leave (fun c cs es faults outwards he => ?_) r r.stack none
  unfold callsExit at he
  split at he <;> cases he
  exact .refl es

theorem accrue_close (r : Reader) (g : Group) (line : Nat) :
    Accrue r.errors (r.close g line).errors := by
  refine accrue_leave (fun c cs es faults outwards he => accrue_append (fun e hm => ?_) es)
    r r.stack none
  unfold bracketExit at he
  split at he
  · cases he; cases hm
  · split at he
    · cases he; cases hm
    · split at he <;> cases he <;> rw [List.mem_singleton.1 hm] <;> rfl

/-- The end of the text looks for a group without end before it adds one. -/
theorem accrue_endText (r : Reader) : Accrue r.errors r.endText.errors := by
  refine accrue_leave (fun c cs es faults outwards he => ?_) r r.stack none
  unfold textExit at he
  split at he
  · cases he; exact .refl es
  · next g _ =>
    cases he
    split
    · exact .refl es
    · next first =>
      have none : es.countP isUnclosed = 0 := List.countP_eq_zero.2 (by simpa using first)
      refine ⟨⟨_, rfl, by simp⟩, fun _ => ?_⟩
      rw [List.countP_append, none]
      exact List.countP_le_length

theorem accrue_step (r : Reader) (t : Token) : Accrue r.errors (r.step t).errors := by
  cases ht : t.startsNode with
  | true =>
    obtain ⟨n, hs⟩ | ⟨slot, c, hs⟩ | ⟨slot, -, hs⟩ := step_of_startsNode r ht
    · rw [hs]
      exact accrue_deliver r n
    · rw [hs, push, errors_refuseKey]
      exact .refl _
    · rw [hs, errors_refuseKey]
      exact .refl _
  | false =>
    obtain ⟨kind, line⟩ := t
    cases kind with
    | newline =>
      have calls := accrue_endCalls r
      rw [step_newline, breakLine]
      split <;> exact calls
    | closer g => exact accrue_close r g line
    | opener | string | number | key | word => cases ht

/-! ## A node under way -/

/-- From the first token of a node on, either something is open or the node is there. -/
def Underway (r : Reader) : Prop :=
  r.nodes = [] ↔ r.stack ≠ []

section

variable {r : Reader}

theorem underway_push (h : r.nodes = []) (c : Construct) : (r.push c).Underway :=
  iff_of_true h (List.cons_ne_nil c r.stack)

theorem underway_deliver (h : r.nodes = []) (n : Node) : (r.deliver n).Underway := by
  unfold deliver
  split
  · next hs => exact iff_of_false (List.cons_ne_nil n r.nodes) fun opened => opened hs
  · next c rest hs => exact iff_of_true h (List.cons_ne_nil (c.add n) rest)

/-- Going outwards hands on the node of what has ended, so that something stays open or the node is
there. -/
theorem underway_leave (exit : Construct → List Construct → List ParseError → Exit) (r : Reader)
    (cs : List Construct) (node? : Option Node) (h : r.nodes = [])
    (hc : cs ≠ [] ∨ node?.isSome = true) : (r.leave exit cs node?).Underway := by
  induction r, cs, node? using leave_induction with
  | nil r node? =>
    cases node? with
    | none => rcases hc with hc | hc <;> contradiction
    | some n => exact underway_deliver (r := { r with stack := [] }) h n
  | add r c cs n ih =>
    rw [leave_some]
    exact ih h (.inl (List.cons_ne_nil _ _))
  | cons r c cs ih =>
    cases he : exit c cs r.errors with
    | stay => rw [leave_stay he]; exact iff_of_true h (List.cons_ne_nil c cs)
    | finish faults outwards =>
      cases outwards with
      | true => rw [leave_through he]; exact ih _ _ h (.inr rfl)
      | false =>
        rw [leave_upto he]
        exact underway_deliver (r := { r.ending c faults with stack := cs }) h c.node

theorem Underway.breakLine (h : r.Underway) : r.breakLine.Underway := by
  unfold Reader.breakLine
  split
  · exact h
  · next line body head rest hs =>
    have nodes : r.nodes = [] := h.2 (by rw [hs]; exact List.cons_ne_nil _ _)
    exact iff_of_true nodes (List.cons_ne_nil _ _)
  · exact h

/-- Every token that starts a node or comes after one that does leaves the node under way. -/
theorem underway_step {t : Token} (h : r.nodes = []) (ht : t.startsNode = true ∨ r.stack ≠ []) :
    (r.step t).Underway := by
  cases hs : t.startsNode with
  | true =>
    obtain ⟨n, hs⟩ | ⟨slot, c, hs⟩ | ⟨slot, hp, hs⟩ := step_of_startsNode r hs
    · rw [hs]
      exact underway_deliver h n
    · rw [hs]
      exact underway_push ((r.nodes_refuseKey slot).trans h) c
    · obtain ⟨line, pairs, rest, mapping⟩ := stack_of_place_key hp
      rw [hs, refuseKey, mapping]
      exact iff_of_true h (List.cons_ne_nil _ _)
  | false =>
    have opened : r.stack ≠ [] := ht.resolve_left (Bool.eq_false_iff.1 hs)
    obtain ⟨kind, line⟩ := t
    cases kind with
    | newline => exact (underway_leave callsExit r r.stack none h (.inl opened)).breakLine
    | closer g => exact underway_leave (bracketExit g line) r r.stack none h (.inl opened)
    | opener | string | number | key | word => cases hs

end

/-! ## Reading one node -/

/-- What comes of reading a node that is under way: it is there, and nothing is open. -/
structure Finishes (r : Reader) (ts : List Token) (s : Reader) (rest : List Token) : Prop where
  stack : s.stack = []
  nodes : s.nodes ≠ []
  tokens : rest <:+ ts
  errors : Accrue r.errors s.errors

section

variable {r : Reader}

theorem Finishes.step {s : Reader} {t : Token} {ts rest : List Token}
    (h : Finishes (r.step t) ts s rest) : Finishes r (t :: ts) s rest :=
  ⟨h.stack, h.nodes, h.tokens.trans (List.suffix_cons t ts), (accrue_step r t).trans h.errors⟩

/-- Outside all groups the end of its calls ends the node. -/
theorem Underway.finishes_endCalls (h : r.Underway) (hs : r.stack ≠ []) (hg : r.inGroup = false)
    (ts : List Token) : Finishes r ts r.endCalls ts := by
  have calls : openGroups r.stack = [] := by
    by_contra groups
    rw [inGroup_iff.2 groups] at hg
    cases hg
  obtain ⟨same, empty⟩ := leave_calls calls r none
  have stack : r.endCalls.stack = [] := by rw [endCalls, same]; exact empty
  have ended := underway_leave callsExit r r.stack none (h.2 hs) (.inl hs)
  exact ⟨stack, fun nodes => ended.1 nodes stack, List.suffix_rfl, accrue_endCalls r⟩

theorem Underway.finishes_endText (h : r.Underway) : Finishes r [] r.endText [] := by
  have stack : r.endText.stack = [] := stack_leave_textExit r r.stack none
  refine ⟨stack, fun nodes => ?_, List.suffix_rfl, accrue_endText r⟩
  by_cases hs : r.stack = []
  · rw [endText, hs] at nodes
    exact h.1 nodes hs
  · exact (underway_leave textExit r r.stack none (h.2 hs) (.inl hs)).1 nodes stack

/-- A node that is under way is read to its end. -/
theorem Underway.finishes_readNode (h : r.Underway) (ts : List Token) :
    Finishes r ts (r.readNode ts).1 (r.readNode ts).2 := by
  induction ts generalizing r with
  | nil => exact h.finishes_endText
  | cons t ts ih =>
    unfold readNode
    split
    · next there =>
      have nodes : r.nodes ≠ [] := by simpa using there
      have stack : r.stack = [] := by_contra fun hs => nodes (h.2 hs)
      exact ⟨stack, nodes, List.suffix_rfl, .refl _⟩
    · next missing =>
      have nodes : r.nodes = [] := by simpa using missing
      have opened : r.stack ≠ [] := h.1 nodes
      have taken : (r.step t).Underway := underway_step nodes (.inr opened)
      have next := (ih taken).step
      split
      · exact next
      · next outside =>
        -- only calls are open, and a newline or a closing bracket ends them and stays in front
        have calls := h.finishes_endCalls opened (Bool.eq_false_iff.2 outside) (t :: ts)
        split
        · next hs => exact absurd hs opened
        · exact calls
        · next hs => exact absurd hs opened
        · exact calls
        · exact next

end

end Reader

/-! ## Reading on -/

namespace Cursor

open ParseError (Accrue)

/-- What reading one node may come to. Only newlines are left; or behind newlines there is a closing
bracket, which is taken and reported; or there is a token with which the node starts. -/
inductive NodeRead (c : Cursor) : Option Node → Cursor → Prop where
  | atEnd (blank : ∀ t ∈ c.tokens, t.kind = .newline) : NodeRead c none ⟨[], c.errors⟩
  | bracket {lines rest : List Token} {g : Group} {line : Nat}
      (blank : ∀ t ∈ lines, t.kind = .newline)
      (tokens : c.tokens = lines ++ ⟨.closer g, line⟩ :: rest) :
      NodeRead c none ⟨rest, .unexpectedClosing g line :: c.errors⟩
  | node {lines taken rest : List Token} {t : Token} {n : Node} {errors : List ParseError}
      (blank : ∀ t ∈ lines, t.kind = .newline) (starts : t.startsNode = true)
      (tokens : c.tokens = lines ++ t :: (taken ++ rest)) (faults : Accrue c.errors errors) :
      NodeRead c (some n) ⟨rest, errors⟩

/-- What reading a program may come to: all tokens are taken, or a closing bracket is reported and
stays in front. -/
inductive ProgramRead (c : Cursor) : Cursor → Prop where
  | all {errors : List ParseError} (faults : Accrue c.errors errors) : ProgramRead c ⟨[], errors⟩
  | bracket {taken rest : List Token} {g : Group} {line : Nat} {errors : List ParseError}
      (tokens : c.tokens = taken ++ ⟨.closer g, line⟩ :: rest) (faults : Accrue c.errors errors) :
      ProgramRead c ⟨⟨.closer g, line⟩ :: rest, .unexpectedClosing g line :: errors⟩

/-- The cursor after one node has been read for each head flag. -/
def afterNodes (c : Cursor) (heads : List Bool) : Cursor :=
  heads.foldl (fun c head => (c.node head).2) c

theorem NodeRead.newline {t : Token} {ts : List Token} {es : List ParseError}
    {node? : Option Node} {c : Cursor} (h : NodeRead ⟨ts, es⟩ node? c) (ht : t.kind = .newline) :
    NodeRead ⟨t :: ts, es⟩ node? c := by
  cases h with
  | atEnd blank => exact .atEnd (List.forall_mem_cons.2 ⟨ht, blank⟩)
  | bracket blank tokens =>
    exact .bracket (List.forall_mem_cons.2 ⟨ht, blank⟩) (congrArg (t :: ·) tokens)
  | node blank starts tokens faults =>
    exact .node (List.forall_mem_cons.2 ⟨ht, blank⟩) starts (congrArg (t :: ·) tokens) faults

theorem node_of_readNode {c : Cursor} {head : Bool} {r : Reader} {rest : List Token}
    (h : Reader.readNode { head, errors := c.errors } c.tokens = (r, rest)) :
    c.node head = (r.nodes.head?, ⟨rest, r.errors⟩) := by
  rw [node, h]

/-- A token that starts a node is taken, and the node is read to its end. -/
theorem nodeRead_of_startsNode {t : Token} (ht : t.startsNode = true) (ts : List Token)
    (es : List ParseError) (head : Bool) :
    NodeRead ⟨t :: ts, es⟩ (node ⟨t :: ts, es⟩ head).1 (node ⟨t :: ts, es⟩ head).2 ∧
      (Reader.readNode { head, errors := es } (t :: ts)).1.stack = [] := by
  have first : Reader.readNode { head, errors := es } (t :: ts) =
      (Reader.step { head, errors := es } t).readNode ts := by
    obtain ⟨kind, line⟩ := t
    cases kind with
    | newline | closer => cases ht
    | opener | string | number | key | word => rfl
  have taken : (Reader.step { head, errors := es } t).Underway :=
    Reader.underway_step rfl (.inl ht)
  obtain ⟨stack, nodes, ⟨used, split⟩, errors⟩ := taken.finishes_readNode ts
  obtain ⟨n, others, there⟩ := List.exists_cons_of_ne_nil nodes
  have tokens : t :: ts =
      [] ++ t :: (used ++ ((Reader.step { head, errors := es } t).readNode ts).2) :=
    congrArg (t :: ·) split.symm
  have faults := (Reader.accrue_step { head, errors := es } t).trans errors
  rw [node_of_readNode first, first, there]
  exact ⟨.node (List.forall_mem_nil _) ht tokens faults, stack⟩

/-- Newlines are passed over until a token decides. -/
theorem nodeRead (c : Cursor) (head : Bool) :
    c.NodeRead (c.node head).1 (c.node head).2 ∧
      (Reader.readNode { head, errors := c.errors } c.tokens).1.stack = [] := by
  obtain ⟨ts, es⟩ := c
  induction ts with
  | nil => exact ⟨.atEnd (List.forall_mem_nil _), rfl⟩
  | cons t ts ih =>
    obtain ⟨kind, line⟩ := t
    cases kind with
    | newline => exact ⟨ih.1.newline rfl, ih.2⟩
    | closer g => exact ⟨.bracket (List.forall_mem_nil _) rfl, rfl⟩
    | opener | string | number | key | word => exact nodeRead_of_startsNode rfl ts es head

theorem ProgramRead.step {t : Token} {ts : List Token} {es es' : List ParseError} {c : Cursor}
    (h : ProgramRead ⟨ts, es'⟩ c) (he : Accrue es es') : ProgramRead ⟨t :: ts, es⟩ c := by
  cases h with
  | all faults => exact .all (he.trans faults)
  | @bracket taken rest g line _ tokens faults =>
    have further : t :: ts = (t :: taken) ++ ⟨.closer g, line⟩ :: rest :=
      congrArg (t :: ·) tokens
    exact .bracket further (he.trans faults)

theorem programRead_read (r : Reader) (ts : List Token) :
    ProgramRead ⟨ts, r.errors⟩ ⟨(r.read ts).2, (r.read ts).1.errors⟩ := by
  induction ts generalizing r with
  | nil => exact .all (Reader.accrue_endText r)
  | cons t ts ih =>
    have next := (ih (r.step t)).step (Reader.accrue_step r t) (t := t)
    obtain ⟨kind, line⟩ := t
    cases kind with
    | closer g =>
      rw [Reader.read_closer rfl]
      split
      · exact next
      · have front : (⟨.closer g, line⟩ : Token) :: ts = [] ++ ⟨.closer g, line⟩ :: ts := rfl
        exact .bracket front (Reader.accrue_endCalls r)
    | newline | opener | string | number | key | word => exact next

theorem NodeRead.suffix {c c' : Cursor} {node? : Option Node} (h : c.NodeRead node? c') :
    c'.tokens <:+ c.tokens := by
  cases h with
  | atEnd blank => exact List.nil_suffix
  | @bracket lines rest g line blank tokens =>
    exact ⟨lines ++ [⟨.closer g, line⟩], by rw [tokens, List.append_assoc]; rfl⟩
  | @node lines taken rest t _ _ blank starts tokens faults =>
    exact ⟨lines ++ t :: taken, by rw [tokens, List.append_assoc]; rfl⟩

theorem NodeRead.once {c c' : Cursor} {node? : Option Node} (h : c.NodeRead node? c')
    (hc : c.errors.countP isUnclosed ≤ 1) : c'.errors.countP isUnclosed ≤ 1 := by
  cases h with
  | atEnd => exact hc
  | bracket => exact hc
  | node _ _ _ faults => exact faults.once hc

theorem ProgramRead.once {c c' : Cursor} (h : c.ProgramRead c')
    (hc : c.errors.countP isUnclosed ≤ 1) : c'.errors.countP isUnclosed ≤ 1 := by
  cases h with
  | all faults => exact faults.once hc
  | bracket _ faults => exact faults.once hc

/-- What holds of a cursor after any number of nodes. -/
theorem afterNodes_reads (c : Cursor) (heads : List Bool) (hc : c.errors.countP isUnclosed ≤ 1) :
    (c.afterNodes heads).tokens <:+ c.tokens ∧
      (c.afterNodes heads).errors.countP isUnclosed ≤ 1 := by
  induction heads generalizing c with
  | nil => exact ⟨List.suffix_rfl, hc⟩
  | cons head heads ih =>
    have read := (c.nodeRead head).1
    obtain ⟨tokens, once⟩ := ih (c.node head).2 (read.once hc)
    exact ⟨tokens.trans read.suffix, once⟩

/-- **Reading goes on**: let `c` be what is left of the tokens after any number of nodes have been
read. Reading one more finds only newlines, or takes a token that is none; no node comes of it only
at the end, or at a closing bracket that is taken and reported; and nothing is open when it is over.
Reading a program instead takes all tokens, or stops before a closing bracket that it reports. No
fault is ever lost, and at most one is of a group without end. -/
theorem readings_progress (ts : List Token) (heads : List Bool) :
    let c := Cursor.afterNodes { tokens := ts } heads
    c.tokens <:+ ts ∧ c.errors.countP isUnclosed ≤ 1 ∧
      (∀ head, c.NodeRead (c.node head).1 (c.node head).2 ∧
        (Reader.readNode { head, errors := c.errors } c.tokens).1.stack = []) ∧
      c.ProgramRead c.program.2 ∧ c.program.2.errors.countP isUnclosed ≤ 1 := by
  intro c
  obtain ⟨tokens, once⟩ := afterNodes_reads { tokens := ts } heads (Nat.zero_le 1)
  have program : c.ProgramRead c.program.2 := programRead_read { errors := c.errors } c.tokens
  exact ⟨tokens, once, c.nodeRead, program, program.once once⟩

/-- A closing bracket in front, which a program stops at and a node takes; then a call with a scope
that the bracket of a mapping ends, and below it a mapping in which a collection has no end. -/
theorem readings_progress_faults :
    let ts : List Token :=
      [⟨.newline, 1⟩, ⟨.closer .scope, 2⟩, ⟨.word "f", 2⟩, ⟨.opener .scope, 2⟩,
        ⟨.closer .mapping, 2⟩, ⟨.newline, 2⟩, ⟨.newline, 3⟩, ⟨.opener .mapping, 4⟩,
        ⟨.word "x", 4⟩, ⟨.opener .collection, 4⟩]
    let c := Cursor.afterNodes { tokens := ts } [true, true]
    (Cursor.program { tokens := ts }).2 = ⟨ts.tail, [.unexpectedClosing .scope 2]⟩ ∧
      c.tokens = ts.drop 5 ∧
      c.errors = [.mismatchedClosing .mapping .scope 2, .unexpectedClosing .scope 2] ∧
      c.program.2 = ⟨[], .unclosed .collection 4 :: c.errors⟩ ∧
      c.program.2.errors.countP isUnclosed ≤ 1 :=
  ⟨rfl, rfl, rfl, rfl, (readings_progress _ [true, true]).2.2.2.2⟩

end Cursor

end Sigil
