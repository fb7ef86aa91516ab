import Sigil.Proofs.BracketFaults
import Sigil.Proofs.ReaderInvariant

/-!
# Texts joined by a newline

At a newline outside strings and groups both the lexer and the reader are back where they start. So
the tokens of `a ++ "\n" ++ b` are those of `a`, a newline, and those of `b` some lines further down
(`lex_join`), and likewise the statements and faults (`parse_join`); how many lines is the number of
newlines above (`Lexer.line_read`), and together this is `read_below`. In both layers what is read
after other text is the image of what is read alone: `after` moves the lines and puts what was there
before underneath, and every step commutes with it.
-/

namespace Sigil

/-! ## Tokens -/

instance : Lined Token where
  renumber ρ t := { t with line := ρ t.line }
  renumber_id _ := rfl

@[simp] theorem Token.kind_renumber (ρ : Nat → Nat) (t : Token) :
    (renumber ρ t).kind = t.kind := rfl

instance : Lined Token.Mode where
  renumber ρ
    | .gap => .gap
    | .comment => .comment
    | .atom seen => .atom seen
    | .string start seen => .string (ρ start) seen
    | .escape start seen => .escape (ρ start) seen
  renumber_id mode := by cases mode <;> rfl

namespace Token

/-- What comes of a text that stands `k` lines further down, by what comes of it alone. -/
def shifted {α β : Type} (k : Nat) (f : α → β) (x : Except LexError α) : Except LexError β :=
  (x.map f).mapError (renumber (· + k))

namespace Lexer

/-- The lexer `k` lines further down, behind the tokens `ts`, which are newest first. -/
def after (k : Nat) (ts : List Token) (l : Lexer) : Lexer :=
  { mode := renumber (· + k) l.mode
    line := l.line + k
    tokens := renumber (· + k) l.tokens ++ ts }

theorem after_lineAfter (k : Nat) (ts : List Token) (l : Lexer) (c : Char) :
    (l.after k ts).lineAfter c = l.lineAfter c + k := by
  unfold lineAfter
  split
  · exact Nat.add_right_comm ..
  · rfl

variable {k : Nat} {ts : List Token}

theorem after_start (l : Lexer) (c : Char) :
    (l.after k ts).start c = shifted k (after k ts) (l.start c) := by
  unfold start
  split
  · have next : (l.after k ts).line + 1 = l.line + 1 + k := Nat.add_right_comm ..
    rw [next]
    rfl
  split
  · rfl
  split
  · rfl
  split
  · rfl
  split
  · rfl
  split <;> rfl

theorem after_step (l : Lexer) (c : Char) :
    (l.after k ts).step c = shifted k (after k ts) (l.step c) := by
  obtain ⟨mode, line, tokens⟩ := l
  cases mode with
  | gap => exact after_start _ c
  | comment =>
    unfold step
    dsimp only [after, renumber]
    split
    · exact after_start ⟨.comment, line, tokens⟩ c
    · rfl
  | atom seen =>
    unfold step
    dsimp only [after, renumber]
    split
    · exact after_start (emit ⟨.atom seen, line, tokens⟩ (.ofAtom seen.reverse) line) c
    · rfl
  | string start seen =>
    have next := after_lineAfter k ts ⟨.string start seen, line, tokens⟩ c
    unfold step
    dsimp only [after, renumber] at next ⊢
    split
    · rfl
    split
    · rfl
    · rw [next]; rfl
  | escape start seen =>
    have next := after_lineAfter k ts ⟨.escape start seen, line, tokens⟩ c
    unfold step
    dsimp only [after, renumber] at next ⊢
    rw [next]
    rfl

theorem read_cons (l : Lexer) (c : Char) (cs : List Char) :
    l.read (c :: cs) = (l.step c).bind (read · cs) :=
  List.foldlM_cons

theorem after_read (l : Lexer) (cs : List Char) :
    (l.after k ts).read cs = shifted k (after k ts) (l.read cs) := by
  induction cs generalizing l with
  | nil => rfl
  | cons c cs ih =>
    rw [read_cons, read_cons, after_step]
    cases l.step c with
    | error e => rfl
    | ok l' => exact ih l'

theorem after_finish (l : Lexer) :
    (l.after k ts).finish = shifted k (fun us => ts.reverse ++ renumber (· + k) us) l.finish := by
  have tokens : ∀ us : List Token, (renumber (· + k) us ++ ts).reverse =
      ts.reverse ++ renumber (· + k) us.reverse := by
    intro us
    rw [List.reverse_append, renumber_reverse]
  obtain ⟨mode, line, us⟩ := l
  cases mode with
  | gap | comment => exact congrArg Except.ok (tokens us)
  | atom seen => exact congrArg Except.ok (tokens (⟨.ofAtom seen.reverse, line⟩ :: us))
  | string | escape => rfl

/-- Where a text may end, a newline leads back to the start. -/
theorem step_newline {l : Lexer} (h : l.finish = .ok ts) :
    l.step '\n' = .ok (after l.line (⟨.newline, l.line⟩ :: ts.reverse) {}) := by
  have next : ∀ us : List Token, start ⟨.gap, l.line, us⟩ '\n' =
      .ok (after l.line (⟨.newline, l.line⟩ :: us) {}) := by
    intro us
    unfold start after
    rw [if_pos rfl]
    dsimp only [emit, renumber]
    rw [Nat.add_comm]
    rfl
  obtain ⟨mode, line, us⟩ := l
  cases mode with
  | gap | comment | atom => cases h; rw [List.reverse_reverse]; exact next _
  | string | escape => cases h

/-! ### The line counter -/

theorem lineAfter_eq (l : Lexer) (c : Char) : l.lineAfter c = l.line + [c].count '\n' := by
  by_cases hc : c = '\n' <;> simp [lineAfter, hc]

theorem line_start {l l' : Lexer} {c : Char} (h : l.start c = .ok l') :
    l'.line = l.lineAfter c := by
  unfold start at h
  unfold lineAfter
  split at h
  · next hc => cases h; rw [if_pos hc]
  · next hc =>
    rw [if_neg hc]
    split at h
    · cases h; rfl
    split at h
    · cases h; rfl
    split at h
    · cases h; rfl
    split at h
    · cases h
    split at h <;> cases h <;> rfl

theorem line_step {l l' : Lexer} {c : Char} (h : l.step c = .ok l') :
    l'.line = l.lineAfter c := by
  have inLine : ∀ {d : Char}, d ≠ '\n' → c = d → l.line = l.lineAfter c := by
    rintro d hd rfl
    exact (if_neg hd).symm
  unfold step at h
  split at h
  · exact line_start h
  · split at h
    · exact line_start h
    · next hc => cases h; exact (if_neg hc).symm
  · split at h
    · have next := line_start h
      exact next
    · next hc =>
      cases h
      refine (if_neg ?_).symm
      rintro rfl
      exact hc rfl
  · split at h
    · next hc => cases h; exact inLine (by decide) hc
    split at h
    · next hc => cases h; exact inLine (by decide) hc
    · cases h; rfl
  · cases h; rfl

/-- The lexer counts the newlines, whatever it is in the middle of. -/
theorem line_read {l l' : Lexer} {cs : List Char} (h : l.read cs = .ok l') :
    l'.line = l.line + cs.count '\n' := by
  induction cs generalizing l with
  | nil => cases h; rfl
  | cons c cs ih =>
    rw [read_cons] at h
    cases hs : l.step c with
    | error e => rw [hs] at h; cases h
    | ok l₁ =>
      rw [hs] at h
      rw [ih h, line_step hs, lineAfter_eq, Nat.add_assoc, ← List.count_append]
      rfl

end Lexer

/-- The lexer at the end of a text that has tokens. -/
theorem exists_read_of_lex {a : String} {ts : List Token} (h : lex a = .ok ts) :
    ∃ l, Lexer.read {} a.toList = .ok l ∧ l.finish = .ok ts ∧
      l.line = 1 + a.toList.count '\n' := by
  unfold lex at h
  cases hr : Lexer.read {} a.toList with
  | error e => rw [hr] at h; cases h
  | ok l => rw [hr] at h; exact ⟨l, rfl, h, Lexer.line_read hr⟩

/-- The tokens of a text that follows another on a new line. -/
theorem lex_join {a : String} {l : Lexer} {ts : List Token} (hr : Lexer.read {} a.toList = .ok l)
    (hf : l.finish = .ok ts) (b : String) :
    lex (a ++ "\n" ++ b) =
      shifted l.line (fun us => ts ++ ⟨.newline, l.line⟩ :: renumber (· + l.line) us) (lex b) := by
  have text : (a ++ "\n" ++ b).toList = a.toList ++ '\n' :: b.toList := by simp
  unfold lex
  rw [text, Lexer.read_append, hr]
  change ((l.read ('\n' :: b.toList)).bind Lexer.finish) = _
  rw [Lexer.read_cons, Lexer.step_newline hf]
  change ((Lexer.after l.line _ {}).read b.toList).bind Lexer.finish = _
  rw [Lexer.after_read]
  cases Lexer.read {} b.toList with
  | error e => rfl
  | ok l' =>
    refine (Lexer.after_finish l').trans ?_
    simp only [List.reverse_cons, List.reverse_reverse, List.append_assoc, List.singleton_append]
    rfl

end Token

/-! ## Trees -/

section

variable (ρ : Nat → Nat)

instance : Lined Slot where
  renumber ρ
    | .key => .key
    | .value key => .value (renumber ρ key)
    | .droppedKey found line => .droppedKey found (ρ line)
    | .droppedValue found line => .droppedValue found (ρ line)
  renumber_id slot := by cases slot <;> simp

instance : Lined Construct where
  renumber ρ
    | .call name line args => .call name (ρ line) (renumber ρ args)
    | .scope line body head => .scope (ρ line) (renumber ρ body) head
    | .collection line items => .collection (ρ line) (renumber ρ items)
    | .mapping line pairs slot => .mapping (ρ line) (renumber ρ pairs) (renumber ρ slot)
  renumber_id c := by cases c <;> simp

instance : Lined Exit where
  renumber ρ
    | .stay => .stay
    | .finish faults outwards => .finish (renumber ρ faults) outwards
  renumber_id e := by cases e <;> simp

namespace Construct

variable (c : Construct)

@[simp] theorem group?_renumber : (renumber ρ c).group? = c.group? := by
  cases c <;> rfl

@[simp] theorem line_renumber : (renumber ρ c).line = ρ c.line := by
  cases c <;> rfl

@[simp] theorem add_renumber (n : Node) :
    (renumber ρ c).add (renumber ρ n) = renumber ρ (c.add n) := by
  cases c with
  | call | scope | collection => rfl
  | mapping line pairs slot => cases slot <;> rfl

@[simp] theorem node_renumber : (renumber ρ c).node = renumber ρ c.node := by
  cases c with
  | call name line args =>
    change Node.call _ (renumber ρ args).reverse _ = renumber ρ (Node.call _ args.reverse line)
    rw [Node.renumber_call, renumber_reverse]
    rfl
  | scope line body head =>
    rcases body with _ | ⟨n, _ | ⟨n', ns⟩⟩
    · rfl
    · rfl
    · change Node.scope (renumber ρ (n :: n' :: ns)).reverse _ = renumber ρ (Node.scope _ line)
      rw [Node.renumber_scope, renumber_reverse]
  | collection line items =>
    change Node.collection (renumber ρ items).reverse _ = renumber ρ (Node.collection _ line)
    rw [Node.renumber_collection, renumber_reverse]
  | mapping line pairs slot =>
    change Node.mapping (renumber ρ pairs).reverse _ = renumber ρ (Node.mapping _ line)
    rw [Node.renumber_mapping, renumber_reverse]

@[simp] theorem dropped_renumber : (renumber ρ c).dropped = renumber ρ c.dropped := by
  cases c with
  | call | scope | collection => rfl
  | mapping line pairs slot => cases slot <;> rfl

@[simp] theorem lacking_renumber : (renumber ρ c).lacking = renumber ρ c.lacking := by
  cases c with
  | call | scope | collection => rfl
  | mapping line pairs slot =>
    cases slot with
    | value key =>
      change [ParseError.missingValue (renumber ρ key).text (renumber ρ key).line] = _
      rw [Node.text_renumber, Node.line_renumber]
      rfl
    | key | droppedKey | droppedValue => rfl

@[simp] theorem ofGroup_renumber (g : Group) (line : Nat) :
    ofGroup g (ρ line) = renumber ρ (ofGroup g line) := by
  cases g <;> rfl

end Construct

end

namespace Reader

/-- The reader with its lines renumbered, behind the statements `ns` and the faults `es`, which are
newest first. -/
def after (ρ : Nat → Nat) (ns : List Node) (es : List ParseError) (r : Reader) : Reader :=
  { stack := renumber ρ r.stack
    head := r.head
    nodes := renumber ρ r.nodes ++ ns
    errors := renumber ρ r.errors ++ es }

variable {ρ : Nat → Nat} {ns : List Node} {es : List ParseError}

theorem after_deliver (r : Reader) (n : Node) :
    (r.after ρ ns es).deliver (renumber ρ n) = (r.deliver n).after ρ ns es := by
  obtain ⟨stack, head, nodes, errors⟩ := r
  cases stack with
  | nil => rfl
  | cons c rest => simp [deliver, after]

theorem after_ending (r : Reader) (c : Construct) (faults : List ParseError) :
    (r.after ρ ns es).ending (renumber ρ c) (renumber ρ faults) =
      (r.ending c faults).after ρ ns es := by
  simp [ending, after]

/-- Where the two readers decide alike, going outwards comes to the same. -/
theorem after_leave {exit exit' : Construct → List Construct → List ParseError → Exit}
    (h : ∀ c rest errors, exit' (renumber ρ c) (renumber ρ rest) (renumber ρ errors ++ es) =
      renumber ρ (exit c rest errors)) (r : Reader) (cs : List Construct) (node? : Option Node) :
    (r.after ρ ns es).leave exit' (renumber ρ cs) (renumber ρ node?) =
      (r.leave exit cs node?).after ρ ns es := by
  induction cs generalizing r node? with
  | nil =>
    cases node? with
    | none => rfl
    | some n => exact after_deliver { r with stack := [] } n
  | cons c cs ih =>
    have alone : ∀ (r : Reader) (c : Construct),
        (r.after ρ ns es).leave exit' (renumber ρ c :: renumber ρ cs) none =
          (r.leave exit (c :: cs) none).after ρ ns es := by
      intro r c
      have he' := h c cs r.errors
      cases he : exit c cs r.errors with
      | stay =>
        rw [he] at he'
        rw [leave_stay he, leave_stay he']
        rfl
      | finish faults outwards =>
        rw [he] at he'
        cases outwards with
        | true =>
          rw [leave_through he, leave_through he', after_ending, Construct.node_renumber]
          exact ih (r.ending c faults) (some c.node)
        | false =>
          rw [leave_upto he, leave_upto he', after_ending, Construct.node_renumber]
          exact after_deliver { r.ending c faults with stack := cs } c.node
    cases node? with
    | none => exact alone r c
    | some n =>
      have around := alone { r with errors := c.dropped ++ r.errors } (c.add n)
      rw [renumber_some, renumber_cons, leave_some, leave_some, ← around]
      simp [after]

theorem after_endCalls (r : Reader) : (r.after ρ ns es).endCalls = r.endCalls.after ρ ns es := by
  refine after_leave (fun c rest errors => ?_) r r.stack none
  unfold callsExit
  rw [Construct.group?_renumber]
  split <;> rfl

theorem after_close (r : Reader) (g : Group) (line : Nat) :
    (r.after ρ ns es).close g (ρ line) = (r.close g line).after ρ ns es := by
  refine after_leave (fun c rest errors => ?_) r r.stack none
  have open_around :
      (renumber ρ rest).any (·.group? == some g) = rest.any (·.group? == some g) := by
    refine List.any_map.trans (congrArg rest.any (funext fun d => ?_))
    exact congrArg (· == some g) (Construct.group?_renumber ρ d)
  unfold bracketExit
  rw [Construct.group?_renumber, Construct.line_renumber, open_around]
  cases c.group? with
  | none => rfl
  | some g' =>
    dsimp only
    split
    · rfl
    split <;> rfl

/-- The end of the text looks for a fault of its own kind, which the faults before must not hold. -/
theorem after_endText (hes : ∀ e ∈ es, isUnclosed e = false) (r : Reader) :
    (r.after ρ ns es).endText = r.endText.after ρ ns es := by
  refine after_leave (fun c rest errors => ?_) r r.stack none
  have none : es.any isUnclosed = false :=
    List.any_eq_false.2 fun e he => by rw [hes e he]; exact Bool.false_ne_true
  have found : (renumber ρ errors ++ es).any isUnclosed = errors.any isUnclosed := by
    rw [List.any_append, none, Bool.or_false]
    refine List.any_map.trans (congrArg errors.any (funext fun e => ?_))
    cases e <;> rfl
  unfold textExit
  rw [Construct.group?_renumber, Construct.line_renumber, found]
  cases c.group? with
  | none => rfl
  | some g =>
    dsimp only
    split <;> rfl

theorem after_breakLine (r : Reader) : (r.after ρ ns es).breakLine = r.breakLine.after ρ ns es := by
  obtain ⟨stack, head, nodes, errors⟩ := r
  cases stack with
  | nil => rfl
  | cons c rest => cases c <;> rfl

theorem after_place (r : Reader) : (r.after ρ ns es).place = r.place := by
  obtain ⟨stack, head, nodes, errors⟩ := r
  cases stack with
  | nil => rfl
  | cons c rest =>
    cases c with
    | call | scope | collection => rfl
    | mapping line pairs slot => cases slot <;> rfl

theorem after_refuseKey (r : Reader) (slot : Slot) :
    (r.after ρ ns es).refuseKey (renumber ρ slot) = (r.refuseKey slot).after ρ ns es := by
  obtain ⟨stack, head, nodes, errors⟩ := r
  cases stack with
  | nil => rfl
  | cons c rest =>
    cases c with
    | call | scope | collection => rfl
    | mapping line pairs slot' => cases slot' <;> rfl

theorem after_push (r : Reader) (c : Construct) :
    (r.after ρ ns es).push (renumber ρ c) = (r.push c).after ρ ns es :=
  rfl

theorem after_word (r : Reader) (name : String) (line : Nat) :
    (r.after ρ ns es).word name (ρ line) = (r.word name line).after ρ ns es := by
  unfold word
  rw [after_place]
  split
  · next b _ => exact after_deliver r (.literal (.boolean b) line)
  split
  · exact after_push r (.call name line [])
  · exact after_deliver r (.reference name line)

theorem after_step (r : Reader) (t : Token) :
    (r.after ρ ns es).step (renumber ρ t) = (r.step t).after ρ ns es := by
  obtain ⟨kind, line⟩ := t
  change (r.after ρ ns es).step ⟨kind, ρ line⟩ = _
  cases kind with
  | newline => rw [step_newline, step_newline, after_endCalls, after_breakLine]
  | closer g => exact after_close r g line
  | opener g =>
    rw [step_opener, step_opener, Construct.ofGroup_renumber, ← after_push, ← after_refuseKey]
    rfl
  | string s => exact after_deliver r (.literal (.string s) line)
  | number x =>
    rw [step_number, step_number, after_place]
    split
    · exact after_refuseKey r (.droppedValue _ line)
    · exact after_deliver r (.literal (.number x) line)
  | key name =>
    rw [step_key, step_key, after_place]
    split
    · exact after_deliver r (.reference name line)
    · exact after_push r (.call name line [])
  | word name =>
    rw [step_word, step_word, after_place]
    split
    · exact after_deliver r (.reference name line)
    · exact after_word r name line

theorem after_inGroup (r : Reader) : (r.after ρ ns es).inGroup = r.inGroup := by
  refine List.any_map.trans (congrArg r.stack.any (funext fun c => ?_))
  exact congrArg Option.isSome (Construct.group?_renumber ρ c)

theorem after_read (hes : ∀ e ∈ es, isUnclosed e = false) (r : Reader) (ts : List Token) :
    (r.after ρ ns es).read (renumber ρ ts) =
      ((r.read ts).1.after ρ ns es, renumber ρ (r.read ts).2) := by
  induction ts generalizing r with
  | nil => exact congrArg (·, []) (after_endText hes r)
  | cons t ts ih =>
    have next := ih (r.step t)
    rw [← after_step] at next
    cases hk : t.kind with
    | closer g =>
      rw [renumber_cons, read_closer hk, read_closer ((t.kind_renumber ρ).trans hk), after_inGroup]
      split
      · exact next
      · rw [after_endCalls]
        rfl
    | newline | opener | string | number | key | word =>
      rw [renumber_cons, read_other (by simp [hk]), read_other (by simp [hk])]
      exact next

/-! ### The end of a text and the end of a line -/

/-- A reader that finds nothing fatal takes all tokens, one by one. -/
theorem read_append {r : Reader} {ts : List Token}
    (h : ∀ e ∈ (r.read ts).1.errors, e.isFatal = false) :
    (r.read ts).1 = (ts.foldl step r).endText ∧
      ∀ us, r.read (ts ++ us) = (ts.foldl step r).read us := by
  induction ts generalizing r with
  | nil => exact ⟨rfl, fun us => rfl⟩
  | cons t ts ih =>
    cases hk : t.kind with
    | closer g =>
      rw [read_closer hk] at h ⊢
      split at h
      · next hg =>
        rw [if_pos hg]
        refine ⟨(ih h).1, fun us => ?_⟩
        rw [List.cons_append, read_closer hk, if_pos hg]
        exact (ih h).2 us
      · cases h _ List.mem_cons_self
    | newline | opener | string | number | key | word =>
      have other : ∀ g, t.kind ≠ .closer g := by simp [hk]
      rw [read_other other] at h ⊢
      refine ⟨(ih h).1, fun us => ?_⟩
      rw [List.cons_append, read_other other]
      exact (ih h).2 us

/-- Where the end of the text finds no group, only calls are open. -/
theorem openGroups_of_endText {r : Reader} (h : ∀ e ∈ r.endText.errors, isUnclosed e = false) :
    openGroups r.stack = [] := by
  have found : r.endText.brackets = unclosedAfter r.brackets (openGroups r.stack) ++ r.brackets :=
    brackets_leave_textExit r r.stack none
  have none : ∀ e ∈ r.endText.brackets, isUnclosed e = false :=
    fun e he => h e (List.mem_filter.1 he).1
  rw [found] at none
  have before : r.brackets.any isUnclosed = false := by
    refine List.any_eq_false.2 fun e he => ?_
    rw [none e (List.mem_append_right _ he)]
    exact Bool.false_ne_true
  rw [unclosedAfter, before] at none
  cases hg : openGroups r.stack with
  | nil => rfl
  | cons p rest =>
    rw [hg] at none
    cases none (.unclosed p.1 p.2) List.mem_cons_self

/-- Ending calls and ending the text are the same outside all groups, and leave nothing open. -/
theorem leave_calls {cs : List Construct} (h : openGroups cs = []) (r : Reader)
    (node? : Option Node) :
    r.leave callsExit cs node? = r.leave textExit cs node? ∧
      (r.leave textExit cs node?).stack = [] := by
  induction cs generalizing r node? with
  | nil => cases node? <;> exact ⟨rfl, rfl⟩
  | cons c cs ih =>
    have hc : c.group? = none ∧ openGroups cs = [] := by
      cases hg : c.group? with
      | none =>
        rw [openGroups_cons_of_none (by simp [Construct.opened?, hg])] at h
        exact ⟨rfl, h⟩
      | some g =>
        rw [openGroups_cons_of_some (p := (g, c.line)) (by simp [Construct.opened?, hg])] at h
        cases h
    have alone : ∀ (r : Reader) (c : Construct), c.group? = none →
        r.leave callsExit (c :: cs) none = r.leave textExit (c :: cs) none ∧
          (r.leave textExit (c :: cs) none).stack = [] := by
      intro r c hg
      have calls : callsExit c cs r.errors = .finish [] true := by simp [callsExit, hg]
      have text : textExit c cs r.errors = .finish [] true := by simp [textExit, hg]
      rw [leave_through calls, leave_through text]
      exact ih hc.2 (r.ending c []) (some c.node)
    cases node? with
    | none => exact alone r c hc.1
    | some n =>
      have same : (c.add n).group? = c.group? := by
        cases c with
        | call | scope | collection => rfl
        | mapping line pairs slot => cases slot <;> rfl
      rw [leave_some, leave_some]
      exact alone _ (c.add n) (same.trans hc.1)

/-- A new line after a text with no fatal fault leads back to the start. -/
theorem step_newline_of_endText {r : Reader} (ρ : Nat → Nat)
    (h : ∀ e ∈ r.endText.errors, isUnclosed e = false) (line : Nat) :
    r.step ⟨.newline, line⟩ = after ρ r.endText.nodes r.endText.errors {} := by
  obtain ⟨same, empty⟩ := leave_calls (openGroups_of_endText h) r none
  have calls : r.endCalls = r.endText := same
  have nothing : r.endText.stack = [] := empty
  rw [step_newline, calls, breakLine, nothing]
  simp [after]

end Reader

theorem parse_eq (ts : List Token) :
    parse ts = ((Reader.read {} ts).1.nodes.reverse, (Reader.read {} ts).1.errors.reverse) :=
  rfl

/-- Trees and faults depend on lines in nothing but their own lines. -/
theorem parse_renumber (ρ : Nat → Nat) (ts : List Token) :
    parse (renumber ρ ts) = renumber ρ (parse ts) := by
  have whole : Reader.read {} (renumber ρ ts) =
      ((Reader.read {} ts).1.after ρ [] [], renumber ρ (Reader.read {} ts).2) :=
    Reader.after_read (List.forall_mem_nil _) {} ts
  rw [parse_eq, parse_eq, whole]
  simp [Reader.after]

/-- After a text with no fatal fault, what stands on the lines below is read as if it stood
alone. -/
theorem parse_join {ts : List Token} (h : ∀ e ∈ (parse ts).2, e.isFatal = false) (line : Nat)
    (ρ : Nat → Nat) (us : List Token) :
    parse (ts ++ ⟨.newline, line⟩ :: renumber ρ us) =
      ((parse ts).1 ++ renumber ρ (parse us).1, (parse ts).2 ++ renumber ρ (parse us).2) := by
  have hf : ∀ e ∈ (Reader.read {} ts).1.errors, e.isFatal = false :=
    fun e he => h e (List.mem_reverse.2 he)
  have hu : ∀ e ∈ (Reader.read {} ts).1.errors, Reader.isUnclosed e = false :=
    fun e he => Reader.not_isUnclosed (hf e he)
  obtain ⟨ends, appended⟩ := Reader.read_append hf
  have start : (ts.foldl Reader.step {}).step ⟨.newline, line⟩ =
      Reader.after ρ (Reader.read {} ts).1.nodes (Reader.read {} ts).1.errors {} := by
    rw [ends] at hu ⊢
    exact Reader.step_newline_of_endText ρ hu line
  have whole : (Reader.read {} (ts ++ ⟨.newline, line⟩ :: renumber ρ us)).1 =
      (Reader.read {} us).1.after ρ (Reader.read {} ts).1.nodes (Reader.read {} ts).1.errors := by
    rw [appended, Reader.read_other (by simp), start, Reader.after_read hu]
  rw [parse_eq, parse_eq, parse_eq, whole]
  simp [Reader.after]

/-! ## Source texts -/

/-- A source text with nothing wrong in it has the given statements. -/
def Reads (source : String) (statements : List Node) : Prop :=
  ∃ ts, Token.lex source = .ok ts ∧ parse ts = (statements, [])

theorem Reads.run [Generator] {source : String} {ns : List Node} (h : Reads source ns) (fuel : Nat)
    (i : Interpreter) : i.run fuel source = i.evaluateProgram fuel ns [] := by
  obtain ⟨ts, hl, hp⟩ := h
  rw [Interpreter.run_of_not_fatal hl (by rw [hp]; rfl), hp]

theorem Reads.join {a b : String} {ns ms : List Node} (ha : Reads a ns) (hb : Reads b ms) :
    ∃ ρ : Nat → Nat, Reads (a ++ "\n" ++ b) (ns ++ renumber ρ ms) := by
  obtain ⟨ts, hla, hpa⟩ := ha
  obtain ⟨us, hlb, hpb⟩ := hb
  obtain ⟨l, hr, hf, -⟩ := Token.exists_read_of_lex hla
  refine ⟨(· + l.line), ts ++ ⟨.newline, l.line⟩ :: renumber (· + l.line) us, ?_, ?_⟩
  · rw [Token.lex_join hr hf, hlb]
    rfl
  · rw [parse_join (by rw [hpa]; exact List.forall_mem_nil _), hpa, hpb]
    rfl

/-- **Texts compose at newlines**: below a text that has tokens and no fatal fault, any other text
is read as it is read alone, as many lines further down as there are above it. If it has no tokens,
neither have both together; otherwise its statements and faults follow those of the text above. -/
theorem read_below {a : String} {ts : List Token} (ha : Token.lex a = .ok ts)
    (hf : ∀ e ∈ (parse ts).2, e.isFatal = false) (b : String) :
    let k := 1 + a.toList.count '\n'
    (∀ e, Token.lex b = .error e →
      Token.lex (a ++ "\n" ++ b) = .error (renumber (· + k) e)) ∧
    ∀ us, Token.lex b = .ok us → ∃ vs, Token.lex (a ++ "\n" ++ b) = .ok vs ∧
      parse vs = ((parse ts).1 ++ renumber (· + k) (parse us).1,
        (parse ts).2 ++ renumber (· + k) (parse us).2) := by
  intro k
  obtain ⟨l, hr, hfin, hk⟩ := Token.exists_read_of_lex ha
  have joined := Token.lex_join hr hfin b
  rw [hk] at joined
  refine ⟨fun e he => ?_, fun us hus => ?_⟩
  · rw [joined, he]
    rfl
  · refine ⟨ts ++ ⟨.newline, k⟩ :: renumber (· + k) us, ?_, parse_join hf k (· + k) us⟩
    rw [joined, hus]
    rfl

/-- Above, a collection that the wrong bracket ends, a string over two lines for the value of a
number, and a comment with a quote in it. Below, a scope that nothing ends after a key without a
value; and then a quote that nothing closes. -/
theorem read_below_faults :
    let a := "+ 1 [2 )\n\x7b3 'a\nb' x y\x7d , '"
    let b := "\x7bz\x7d\n(f"
    ∃ ts us vs, Token.lex a = .ok ts ∧ Token.lex b = .ok us ∧
      Token.lex (a ++ "\n" ++ b) = .ok vs ∧
      (parse ts).2 = [.mismatchedClosing .scope .collection 1, .invalidKey "3" 2] ∧
      (parse us).2 = [.missingValue "z" 1, .unclosed .scope 2] ∧
      parse vs = ((parse ts).1 ++ renumber (· + 3) (parse us).1,
        (parse ts).2 ++ renumber (· + 3) (parse us).2) ∧
      Token.lex (a ++ "\n" ++ "\n'") = .error (.unterminatedString 5) := by
  intro a b
  have faults : ∀ s es, (Token.lex s).toOption.map (fun ts => (parse ts).2) = some es →
      ∃ ts, Token.lex s = .ok ts ∧ (parse ts).2 = es := by
    intro s es h
    obtain ⟨ts, hl, hp⟩ := Option.map_eq_some_iff.1 h
    cases hs : Token.lex s with
    | error e => rw [hs] at hl; cases hl
    | ok us => rw [hs] at hl; cases hl; exact ⟨ts, rfl, hp⟩
  obtain ⟨ts, ha, hts⟩ := faults a [.mismatchedClosing .scope .collection 1, .invalidKey "3" 2]
    (by decide +kernel)
  obtain ⟨us, hb, hus⟩ := faults b [.missingValue "z" 1, .unclosed .scope 2] (by decide +kernel)
  have lines : 1 + a.toList.count '\n' = 3 := by decide +kernel
  have hf : ∀ e ∈ (parse ts).2, e.isFatal = false := by rw [hts]; decide
  obtain ⟨vs, hvs, hp⟩ := (read_below ha hf b).2 us hb
  rw [lines] at hp
  have hl := (read_below ha hf "\n'").1 (.unterminatedString 2) rfl
  rw [lines] at hl
  exact ⟨ts, us, vs, ha, hb, hvs, hts, hus, hp, hl⟩

end Sigil
