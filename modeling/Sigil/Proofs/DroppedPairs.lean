import Mathlib.Data.List.Basic
import Sigil.Proofs.Enclosure
import Sigil.Proofs.WellFormed

/-!
# Pairs that are dropped

A mapping takes keys and values in turn. A number or a group in the place of a key is no key: it is
read together with the value after it, the pair is dropped with one fault, and the mapping waits for
a key again. So a pair without a key takes no other pair with it (`Reader.exists_readsTo_pairs`),
and a mapping is read as its pairs that have a key (`parse_drops_pairs`).

What stands between the brackets is given as parts with newlines between them (`Spaced`): keys or
what is in their place (`KeyPart`), and trees in full brackets (`ValuePart`).
-/

namespace Sigil

/-! ## Trees in full brackets, with their lines -/

namespace Node

variable (keyed : String → Bool)

theorem balanced_allTokens {ns : List Node}
    (h : ∀ n ∈ ns, Brackets.Balanced ((n.tokens keyed).filter Brackets.isBracket)) :
    Brackets.Balanced ((allTokens keyed ns).filter Brackets.isBracket) := by
  induction ns with
  | nil => exact .nil
  | cons n ns ih =>
    obtain ⟨hn, hns⟩ := List.forall_mem_cons.1 h
    rw [allTokens, List.filter_append]
    exact hn.append (ih hns)

theorem isBracket_keyToken (key : Node) : Brackets.isBracket (key.keyToken keyed) = false := by
  unfold keyToken
  split
  · rfl
  · split <;> rfl

theorem balanced_pairTokens {pairs : List (Node × Node)}
    (h : ∀ p ∈ pairs, Brackets.Balanced ((p.2.tokens keyed).filter Brackets.isBracket)) :
    Brackets.Balanced ((pairTokens keyed pairs).filter Brackets.isBracket) := by
  induction pairs with
  | nil => exact .nil
  | cons p pairs ih =>
    obtain ⟨hp, hps⟩ := List.forall_mem_cons.1 h
    rw [pairTokens, List.filter_cons_of_neg (by rw [isBracket_keyToken]; exact Bool.false_ne_true),
      List.filter_append]
    exact hp.append (ih hps)

theorem balanced_brackets (g : Group) (ks : List Token.Kind)
    (h : Brackets.Balanced (ks.filter Brackets.isBracket)) :
    Brackets.Balanced ((.opener g :: (ks ++ [.closer g])).filter Brackets.isBracket) := by
  rw [List.filter_cons_of_pos rfl, List.filter_append]
  exact .group h .nil

theorem balanced_tokens (n : Node) :
    Brackets.Balanced ((n.tokens keyed).filter Brackets.isBracket) := by
  induction n using Node.induction with
  | literal l line => cases l <;> exact .nil
  | reference name line => exact .nil
  | call head args line _ ha =>
    exact balanced_brackets .scope (.key head.text :: _) (balanced_allTokens keyed ha)
  | scope body line hb => exact balanced_brackets .scope _ (balanced_allTokens keyed hb)
  | collection items line hi => exact balanced_brackets .collection _ (balanced_allTokens keyed hi)
  | mapping pairs line hp =>
    exact balanced_brackets .mapping _ (balanced_pairTokens keyed fun p h => (hp p h).2)

/-- A tree that is neither a literal nor a name stands in brackets of its own. -/
theorem exists_brackets {n : Node} (hl : ∀ l line, n ≠ .literal l line) (hr : n.name? = none) :
    ∃ g ks, n.tokens keyed = .opener g :: (ks ++ [.closer g]) ∧
      Brackets.Balanced (ks.filter Brackets.isBracket) := by
  have all : ∀ ns : List Node, Brackets.Balanced ((allTokens keyed ns).filter Brackets.isBracket) :=
    fun ns => balanced_allTokens keyed fun n _ => balanced_tokens keyed n
  cases n with
  | literal l line => exact absurd rfl (hl l line)
  | reference => cases hr
  | call head args line => exact ⟨.scope, .key head.text :: allTokens keyed args, rfl, all args⟩
  | scope body line => exact ⟨.scope, allTokens keyed body, rfl, all body⟩
  | collection items line => exact ⟨.collection, allTokens keyed items, rfl, all items⟩
  | mapping pairs line =>
    exact ⟨.mapping, pairTokens keyed pairs, rfl,
      balanced_pairTokens keyed fun p _ => balanced_tokens keyed p.2⟩

end Node

namespace Reader

theorem step_literal {r : Reader} (hp : r.place ≠ .key) (l : Literal) (line : Nat) :
    r.step ⟨Node.literalToken l, line⟩ = r.deliver (.literal l line) := by
  cases l with
  | number x => exact (step_number r line x).trans (if_neg hp)
  | string s => rfl
  | boolean b =>
    refine (step_word r line (Literal.booleanWord b)).trans ((if_neg hp).trans ?_)
    rw [word, booleanWord?_booleanWord]

theorem step_reference {r : Reader} (hp : r.place = .inner) {name : String} {line : Nat}
    (hn : booleanWord? name = none) :
    r.step ⟨.word name, line⟩ = r.deliver (.reference name line) := by
  rw [step_word, word, hn, hp]
  rfl

theorem exists_eq_bracketed {g : Group} {ks : List Token.Kind} {ts : List Token}
    (h : ts.map (·.kind) = .opener g :: (ks ++ [.closer g])) :
    ∃ line us line', ts = Token.bracketed g line us line' ∧ us.map (·.kind) = ks := by
  obtain ⟨⟨_, line⟩, vs, rfl, rfl, inside⟩ := List.map_eq_cons_iff.1 h
  obtain ⟨us, ws, rfl, hu, last⟩ := List.map_eq_append_iff.1 inside
  obtain ⟨⟨_, line'⟩, xs, rfl, rfl, none⟩ := List.map_eq_cons_iff.1 last
  rw [List.map_eq_nil_iff.1 none]
  exact ⟨line, us, line', rfl, hu⟩

/-- A well-formed tree in full brackets, on whatever lines, is read as that tree but for lines. -/
theorem exists_readsTo_tokens {keyed : String → Bool} {n : Node} (hn : n.wellFormed)
    {ts : List Token} (ht : ts.map (·.kind) = n.tokens keyed) :
    ∃ n', erase n' = erase n ∧ ∀ r : Reader, r.place = .inner → r.ReadsTo ts (r.deliver n') := by
  by_cases hl : ∃ l line, n = .literal l line
  · obtain ⟨l, line, rfl⟩ := hl
    obtain ⟨⟨_, start⟩, us, rfl, rfl, hu⟩ := List.map_eq_cons_iff.1 ht
    rw [List.map_eq_nil_iff.1 hu]
    refine ⟨.literal l start, rfl, fun r hp => ?_⟩
    rw [← step_literal (by rw [hp]; exact Place.noConfusion)]
    exact readsTo_step (fun g => by cases l <;> exact Token.Kind.noConfusion) r
  cases hr : n.name? with
  | some name =>
    cases n with
    | reference s line =>
      obtain ⟨⟨_, start⟩, us, rfl, rfl, hu⟩ := List.map_eq_cons_iff.1 ht
      rw [List.map_eq_nil_iff.1 hu]
      refine ⟨.reference s start, rfl, fun r hp => ?_⟩
      rw [← step_reference hp (booleanWord?_eq_none hn)]
      exact readsTo_step (fun g => Token.Kind.noConfusion) r
    | literal | call | scope | collection | mapping => cases hr
  | none =>
    obtain ⟨g, ks, hk, hb⟩ := n.exists_brackets keyed (fun l line e => hl ⟨l, line, e⟩) hr
    obtain ⟨line, us, line', rfl, hu⟩ := exists_eq_bracketed (ht.trans hk)
    obtain ⟨es, n', hp, reads⟩ := exists_bracketed g line line' (by rwa [Brackets.ofTokens, hu])
    have program : Node.wellFormedProgram [n] := by
      refine Node.wellFormedProgram_iff.2 ⟨fun m e => ?_, fun m e => ?_⟩
      · cases e
        exact hr
      · rwa [List.mem_singleton.1 e]
    have alone := parse_tokens keyed program (ht.trans (List.append_nil _).symm)
    rw [hp] at alone
    obtain ⟨node, errors⟩ := Prod.mk.inj alone
    have none : es = [] := List.reverse_eq_nil_iff.1 (List.map_eq_nil_iff.1 errors)
    subst none
    exact ⟨n', (List.cons.inj node).1, fun r hp => reads r (by rw [hp]; exact Place.noConfusion)⟩

end Reader

/-! ## What stands between the brackets of a mapping -/

/-- Tokens in the place of a key, and the key that they are: a name or a string is one, and a number
or a group with nothing wrong in it is none. -/
inductive IsKey : List Token → Option Node → Prop where
  | key (name : String) (line : Nat) : IsKey [⟨.key name, line⟩] (some (.reference name line))
  | word (name : String) (line : Nat) : IsKey [⟨.word name, line⟩] (some (.reference name line))
  | string (s : String) (line : Nat) :
      IsKey [⟨.string s, line⟩] (some (.literal (.string s) line))
  | number (x : Float) (line : Nat) : IsKey [⟨.number x, line⟩] none
  | group {g : Group} {line line' : Nat} {ts : List Token} :
      Brackets.Balanced (Brackets.ofTokens ts) →
      (parse (Token.bracketed g line ts line')).2 = [] →
      IsKey (Token.bracketed g line ts line') none

structure KeyPart where
  tokens : List Token
  key? : Option Node
  isKey : IsKey tokens key?

/-- The tokens of a value: a well-formed tree in full brackets. -/
structure ValuePart where
  node : Node
  keyed : String → Bool
  tokens : List Token
  wellFormed : node.wellFormed
  inFull : tokens.map (·.kind) = node.tokens keyed

namespace KeyPart

/-- The fault of a pair without a key. It names the first token in the place of the key. -/
def fault? (k : KeyPart) : Option ParseError :=
  match k.key? with
  | some _ => none
  | none => k.tokens.head?.map fun t => .invalidKey t.text t.line

/-- The fault of a mapping that ends before the value. -/
def lacking? (k : KeyPart) : Option ParseError :=
  match k.key? with
  | some key => some (.missingValue key.text key.line)
  | none => k.fault?

/-- What a mapping waits for after the key. -/
def slot (k : KeyPart) : Slot :=
  match k.key?, k.tokens.head? with
  | some key, _ => .value key
  | none, some t => .droppedValue t.text t.line
  | none, none => .key

theorem slot_cases (k : KeyPart) :
    (∃ key, k.key? = some key ∧ k.slot = .value key ∧ k.fault? = none ∧
      k.lacking? = some (.missingValue key.text key.line)) ∨
    ∃ found line, k.key? = none ∧ k.slot = .droppedValue found line ∧
      k.fault? = some (.invalidKey found line) ∧ k.lacking? = some (.invalidKey found line) := by
  obtain ⟨tokens, key?, isKey⟩ := k
  cases isKey with
  | key | word | string => exact .inl ⟨_, rfl, rfl, rfl, rfl⟩
  | number | group => exact .inr ⟨_, _, rfl, rfl, rfl, rfl⟩

end KeyPart

structure PairPart where
  key : KeyPart
  value : ValuePart

namespace PairPart

def tokens (p : PairPart) : List (List Token) :=
  [p.key.tokens, p.value.tokens]

/-- The pair that is read, if it has a key. The value is without lines. -/
def kept? (p : PairPart) : Option (Node × Node) :=
  p.key.key?.map (·, erase p.value.node)

def fault? (p : PairPart) : Option ParseError :=
  p.key.fault?

end PairPart

/-- Pairs, and possibly a last key without a value. -/
structure Contents where
  pairs : List PairPart
  last? : Option KeyPart

namespace Contents

def parts (c : Contents) : List (List Token) :=
  c.pairs.flatMap PairPart.tokens ++ c.last?.toList.map KeyPart.tokens

/-- What is wrong, in the order of the parts. -/
def faults (c : Contents) : List ParseError :=
  c.pairs.filterMap PairPart.fault? ++ c.last?.toList.filterMap KeyPart.lacking?

end Contents

/-- The parts one after the other, with any number of newlines before each of them and at the
end. -/
def Spaced : List (List Token) → List Token → Prop
  | [], ts => ∀ t ∈ ts, t.kind = .newline
  | part :: rest, ts => ∃ gap us, ts = gap ++ (part ++ us) ∧ (∀ t ∈ gap, t.kind = .newline) ∧
      Spaced rest us

namespace Spaced

variable {parts : List (List Token)} {ts : List Token}

theorem part (part : List Token) (h : Spaced parts ts) : Spaced (part :: parts) (part ++ ts) :=
  ⟨[], ts, rfl, List.forall_mem_nil _, h⟩

theorem newline (line : Nat) (h : Spaced parts ts) : Spaced parts (⟨.newline, line⟩ :: ts) := by
  cases parts with
  | nil => exact List.forall_mem_cons.2 ⟨rfl, h⟩
  | cons part rest =>
    obtain ⟨gap, us, rfl, hg, hr⟩ := h
    exact ⟨⟨.newline, line⟩ :: gap, us, rfl, List.forall_mem_cons.2 ⟨rfl, hg⟩, hr⟩

end Spaced

/-! ## Reading it -/

namespace Reader

section

variable (r : Reader) (line : Nat) (pairs : List (Node × Node))

/-- Newlines mean nothing between the parts of a mapping. -/
theorem readsTo_newlines (slot : Slot) {gap : List Token} (h : ∀ t ∈ gap, t.kind = .newline) :
    (r.push (.mapping line pairs slot)).ReadsTo gap (r.push (.mapping line pairs slot)) := by
  induction gap with
  | nil => exact readsTo_nil _
  | cons t gap ih =>
    obtain ⟨ht, hgap⟩ := List.forall_mem_cons.1 h
    have first : (r.push (.mapping line pairs slot)).ReadsTo [t]
        (r.push (.mapping line pairs slot)) := by
      obtain ⟨_, start⟩ := t
      cases ht
      exact readsTo_step (fun g => Token.Kind.noConfusion) _
    exact first.trans (ih hgap)

theorem readsTo_key (k : KeyPart) :
    (r.push (.mapping line pairs .key)).ReadsTo k.tokens (r.push (.mapping line pairs k.slot)) := by
  obtain ⟨tokens, key?, isKey⟩ := k
  cases isKey with
  | key | word | string | number => exact readsTo_step (fun g => Token.Kind.noConfusion) _
  | @group g start stop ts hb he =>
    -- the group is read as a node in a pair that is already bound to be dropped
    obtain ⟨es, n, hp, reads⟩ := exists_bracketed g start stop hb
    have none : es = [] := by
      rw [hp] at he
      exact List.reverse_eq_nil_iff.1 he
    subst none
    exact reads (r.push (.mapping line pairs (.droppedKey g.opening.toString start)))
      Place.noConfusion

theorem exists_readsTo_value (key : Node) (v : ValuePart) :
    ∃ n, erase n = erase v.node ∧
      (r.push (.mapping line pairs (.value key))).ReadsTo v.tokens
        (r.push (.mapping line ((key, n) :: pairs) .key)) := by
  obtain ⟨n, hn, reads⟩ := exists_readsTo_tokens v.wellFormed v.inFull
  exact ⟨n, hn, reads _ rfl⟩

/-- The value of a pair without a key is read and forgotten. -/
theorem readsTo_droppedValue (found : String) (start : Nat) (v : ValuePart) :
    (r.push (.mapping line pairs (.droppedValue found start))).ReadsTo v.tokens
      ((r.fault (.invalidKey found start)).push (.mapping line pairs .key)) := by
  obtain ⟨n, -, reads⟩ := exists_readsTo_tokens v.wellFormed v.inFull
  exact reads _ rfl

theorem readsTo_closing {c : Construct} {g : Group} (hg : c.group? = some g) (stop : Nat) :
    (r.push c).ReadsTo [⟨.closer g, stop⟩]
      ({ r with errors := c.lacking ++ (c.dropped ++ r.errors) }.deliver c.node) := by
  have ends : bracketExit g stop c r.stack r.errors = .finish [] false := by
    simp [bracketExit, hg]
  have closed : (r.push c).step ⟨.closer g, stop⟩ =
      { r with errors := c.lacking ++ (c.dropped ++ r.errors) }.deliver c.node :=
    leave_upto (r := r.push c) ends
  rw [← closed]
  exact readsTo_closer rfl (inGroup_push r hg)

end

theorem exists_readsTo_pair (p : PairPart) {gap gap' : List Token}
    (hg : ∀ t ∈ gap, t.kind = .newline) (hg' : ∀ t ∈ gap', t.kind = .newline) (r : Reader)
    (line : Nat) (before : List (Node × Node)) :
    ∃ read : List (Node × Node), read.map (fun q => (q.1, erase q.2)) = p.kept?.toList ∧
      (r.push (.mapping line before .key)).ReadsTo
        (gap ++ (p.key.tokens ++ (gap' ++ p.value.tokens)))
        ({ r with errors := p.fault?.toList.reverse ++ r.errors }.push
          (.mapping line (read.reverse ++ before) .key)) := by
  have first := (readsTo_newlines r line before .key hg).trans
    ((readsTo_key r line before p.key).trans (readsTo_newlines r line before p.key.slot hg'))
  rw [← List.append_assoc p.key.tokens, ← List.append_assoc gap]
  unfold PairPart.kept? PairPart.fault?
  rcases p.key.slot_cases with ⟨key, hk, hs, hf, -⟩ | ⟨found, start, hk, hs, hf, -⟩
  · rw [hs] at first
    obtain ⟨n, hn, second⟩ := exists_readsTo_value r line before key p.value
    refine ⟨[(key, n)], ?_, ?_⟩
    · rw [hk, ← hn]
      rfl
    · rw [hf]
      exact first.trans second
  · rw [hs] at first
    refine ⟨[], by rw [hk]; rfl, ?_⟩
    rw [hf]
    exact first.trans (readsTo_droppedValue r line before found start p.value)

/-- After any pairs the mapping waits for a key, and has taken those that have one. -/
theorem exists_readsTo_pairs {ps : List PairPart} {after : List (List Token)} {ts : List Token}
    (h : Spaced (ps.flatMap PairPart.tokens ++ after) ts) (r : Reader) (line : Nat)
    (before : List (Node × Node)) :
    ∃ (xs us : List Token) (read : List (Node × Node)), ts = xs ++ us ∧ Spaced after us ∧
      read.map (fun q => (q.1, erase q.2)) = ps.filterMap PairPart.kept? ∧
      (r.push (.mapping line before .key)).ReadsTo xs
        ({ r with errors := (ps.filterMap PairPart.fault?).reverse ++ r.errors }.push
          (.mapping line (read.reverse ++ before) .key)) := by
  induction ps generalizing ts r before with
  | nil => exact ⟨[], ts, [], rfl, h, rfl, readsTo_nil _⟩
  | cons p ps ih =>
    obtain ⟨gap, _, rfl, hg, gap', ts, rfl, hg', h⟩ := h
    obtain ⟨read, hr, first⟩ := exists_readsTo_pair p hg hg' r line before
    obtain ⟨xs, us, more, rfl, hu, hm, rest⟩ := ih h _ _
    refine ⟨gap ++ (p.key.tokens ++ (gap' ++ p.value.tokens)) ++ xs, us, read ++ more, ?_, hu,
      ?_, ?_⟩
    · simp only [List.append_assoc]
    · rw [List.map_append, hr, hm]
      simp only [List.filterMap_eq_flatMap_toList, List.flatMap_cons]
    · have whole := first.trans rest
      simp only [List.filterMap_eq_flatMap_toList, List.flatMap_cons, List.reverse_append,
        List.append_assoc] at whole ⊢
      exact whole

/-- A mapping may end after a key, which then is at fault whether or not it is one. -/
theorem readsTo_last {last? : Option KeyPart} {ts : List Token}
    (h : Spaced (last?.toList.map KeyPart.tokens) ts) (r : Reader) (line line' : Nat)
    (pairs : List (Node × Node)) :
    (r.push (.mapping line pairs .key)).ReadsTo (ts ++ [⟨.closer .mapping, line'⟩])
      ({ r with errors := (last?.toList.filterMap KeyPart.lacking?).reverse ++ r.errors }.deliver
        (.mapping pairs.reverse line)) := by
  cases last? with
  | none => exact (readsTo_newlines r line pairs .key h).trans (readsTo_closing r rfl line')
  | some k =>
    obtain ⟨gap, us, rfl, hg, hu⟩ := h
    have first := (readsTo_newlines r line pairs .key hg).trans
      ((readsTo_key r line pairs k).trans (readsTo_newlines r line pairs k.slot hu))
    rw [Option.toList_some]
    rcases k.slot_cases with ⟨key, -, hs, -, hf⟩ | ⟨found, start, -, hs, -, hf⟩
    · rw [hs] at first
      rw [List.filterMap_cons_some hf]
      exact first.trans (readsTo_closing r rfl line')
    · rw [hs] at first
      rw [List.filterMap_cons_some hf]
      exact first.trans (readsTo_closing r rfl line')

/-- The contents of a mapping between its brackets, wherever it stands. -/
theorem exists_readsTo_contents (c : Contents) {ts : List Token} (h : Spaced c.parts ts)
    {r : Reader} (hp : r.place ≠ .key) (line line' : Nat) :
    ∃ read : List (Node × Node),
      read.map (fun q => (q.1, erase q.2)) = c.pairs.filterMap PairPart.kept? ∧
      r.ReadsTo (Token.bracketed .mapping line ts line')
        ({ r with errors := c.faults.reverse ++ r.errors }.deliver (.mapping read line)) := by
  obtain ⟨xs, us, read, rfl, hu, hr, inside⟩ := exists_readsTo_pairs h r line []
  refine ⟨read, hr, ?_⟩
  have last := readsTo_last hu
    { r with errors := (c.pairs.filterMap PairPart.fault?).reverse ++ r.errors } line line'
    read.reverse
  rw [List.append_nil] at inside
  rw [List.reverse_reverse, ← List.append_assoc, ← List.reverse_append] at last
  unfold Token.bracketed
  rw [List.append_assoc]
  exact (readsTo_opener hp .mapping line).trans (inside.trans last)

end Reader

/-- **A pair without a key drops itself alone**: between the brackets of a mapping, pairs with a key
and pairs with a number or a group in its place may follow each other in any order, on one line or
on many. They are read as one mapping of those that have a key, in their order, and each of the
others is one fault, which names the first token of what is in the place of the key. A last key
without a value is a fault and no pair. -/
theorem parse_drops_pairs (c : Contents) {ts : List Token} (h : Spaced c.parts ts)
    (line line' : Nat) :
    ∃ read : List (Node × Node),
      parse (Token.bracketed .mapping line ts line') = ([.mapping read line], c.faults) ∧
      read.map (fun q => (q.1, erase q.2)) = c.pairs.filterMap PairPart.kept? := by
  obtain ⟨read, hr, reads⟩ :=
    Reader.exists_readsTo_contents c h (r := {}) Place.noConfusion line line'
  rw [List.append_nil] at reads
  refine ⟨read, ?_, hr⟩
  rw [Reader.parse_of_readsTo reads, List.reverse_reverse]

/-- A pair, a pair with a number for its key, one with a group over two lines for its key, a pair
with a call for its value, and a number that nothing follows. -/
theorem parse_drops_pairs_mixture :
    ∃ (c : Contents) (ts : List Token) (read : List (Node × Node)),
      Token.lex "\x7ba\n1 2 [x]\n\n(b\nc) ok 'k' (+ x)\n3\n\x7d" =
        .ok (Token.bracketed .mapping 1 ts 7) ∧ Spaced c.parts ts ∧
      parse (Token.bracketed .mapping 1 ts 7) = ([.mapping read 1],
        [.invalidKey "2" 2, .invalidKey "(" 4, .invalidKey "3" 6]) ∧
      read.map (fun q => (q.1, erase q.2)) =
        [(.reference "a" 1, .literal (.number 1) 0),
          (.literal (.string "k") 5, .call (.reference "+" 0) [.reference "x" 0] 0)] := by
  let c : Contents :=
    { pairs :=
        [⟨⟨[⟨.word "a", 1⟩], _, .word "a" 1⟩,
          ⟨.literal (.number 1) 0, fun _ => true, [⟨.number 1, 2⟩], rfl, rfl⟩⟩,
        ⟨⟨[⟨.number 2, 2⟩], _, .number 2 2⟩,
          ⟨.collection [.reference "x" 0] 0, fun _ => true,
            Token.bracketed .collection 2 [⟨.word "x", 2⟩] 2, by decide, rfl⟩⟩,
        ⟨⟨Token.bracketed .scope 4 [⟨.word "b", 4⟩, ⟨.newline, 4⟩, ⟨.word "c", 5⟩] 5, _,
            .group .nil rfl⟩,
          ⟨.literal (.boolean true) 0, fun _ => true, [⟨.word "ok", 5⟩], rfl, rfl⟩⟩,
        ⟨⟨[⟨.string "k", 5⟩], _, .string "k" 5⟩,
          ⟨.call (.reference "+" 0) [.reference "x" 0] 0, fun _ => true,
            Token.bracketed .scope 5 [⟨.key "+", 5⟩, ⟨.word "x", 5⟩] 5, by decide, rfl⟩⟩]
      last? := some ⟨[⟨.number 3, 6⟩], _, .number 3 6⟩ }
  have spaced : Spaced c.parts _ := .part _ (.newline 1 (.part _ (.part _ (.part _ (.newline 2
    (.newline 3 (.part _ (.part _ (.part _ (.part _ (.newline 5 (.part _ (.newline 6
      (List.forall_mem_nil _))))))))))))))
  have faults : c.faults = [.invalidKey "2" 2, .invalidKey "(" 4, .invalidKey "3" 6] := by
    decide +kernel
  obtain ⟨read, parsed, pairs⟩ := parse_drops_pairs c spaced 1 7
  rw [faults] at parsed
  exact ⟨c, _, read, by decide +kernel, spaced, parsed, pairs⟩

end Sigil
