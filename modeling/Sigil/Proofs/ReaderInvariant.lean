import Sigil.Node.Reader

/-!
# What the reader keeps

`leave` goes outwards one construct at a time: it stays (`leave_stay`), ends the construct and goes
on (`leave_through`), or ends it and stops (`leave_upto`).

A property of open constructs and one of the top level hold after every token if nodes, words and
keys can be added where the reader adds them (`Reader.Invariant`). The reader never leaves a mapping
that waits for a key with something else under way: only the innermost construct can wait for one
(`Reader.Sound.around`).
-/

namespace Sigil

/-- Where the next token stands in a construct that is innermost. -/
def Construct.place : Construct → Place
  | scope _ _ head => if head then .head else .inner
  | mapping _ _ .key => .key
  | call .. | collection .. | mapping .. => .inner

namespace Reader

theorem place_of_stack {r : Reader} {c : Construct} {rest : List Construct}
    (h : r.stack = c :: rest) : r.place = c.place := by
  unfold place
  rw [h]
  cases c with
  | call | scope | collection => rfl
  | mapping line pairs slot => cases slot <;> rfl

theorem stack_of_place_key {r : Reader} (h : r.place = .key) :
    ∃ line pairs rest, r.stack = .mapping line pairs .key :: rest := by
  unfold place at h
  split at h
  · split at h <;> cases h
  · split at h <;> cases h
  · next hs => exact ⟨_, _, _, hs⟩
  · cases h

theorem place_ne_key {r : Reader} (h : ∀ c ∈ r.stack, c.place ≠ .key) : r.place ≠ .key := by
  intro hp
  obtain ⟨line, pairs, rest, hs⟩ := stack_of_place_key hp
  rw [hs] at h
  exact h _ List.mem_cons_self rfl

theorem refuseKey_of_ne {r : Reader} (h : r.place ≠ .key) (slot : Slot) :
    r.refuseKey slot = r := by
  unfold refuseKey
  split
  · next hs => exact absurd (place_of_stack hs) h
  · rfl

/-! ## Steps -/

section

variable (r : Reader) (line : Nat)

theorem step_newline : r.step ⟨.newline, line⟩ = r.endCalls.breakLine := rfl

theorem step_opener (g : Group) : r.step ⟨.opener g, line⟩ =
    (r.refuseKey (.droppedKey g.opening.toString line)).push (.ofGroup g line) := rfl

theorem step_number (x : Float) : r.step ⟨.number x, line⟩ =
    if r.place = .key then r.refuseKey (.droppedValue (Number.plain x) line)
    else r.deliver (.literal (.number x) line) := rfl

theorem step_key (name : String) : r.step ⟨.key name, line⟩ =
    if r.place = .key then r.deliver (.reference name line)
    else r.push (.call name line []) := rfl

theorem step_word (name : String) : r.step ⟨.word name, line⟩ =
    if r.place = .key then r.deliver (.reference name line) else r.word name line := rfl

end

/-! ## Going outwards -/

/-- The reader with the faults of a construct that ends. -/
def ending (r : Reader) (c : Construct) (faults : List ParseError) : Reader :=
  { r with errors := c.lacking ++ (faults ++ (c.dropped ++ r.errors)) }

section

variable {exit : Construct → List Construct → List ParseError → Exit} {r : Reader} {c : Construct}
  {cs : List Construct} {faults : List ParseError}

/-- The node of a construct that has ended counts as the newest of the construct around it. -/
theorem leave_some (exit : Construct → List Construct → List ParseError → Exit) (r : Reader)
    (c : Construct) (cs : List Construct) (n : Node) :
    r.leave exit (c :: cs) (some n) =
      { r with errors := c.dropped ++ r.errors }.leave exit (c.add n :: cs) none :=
  rfl

theorem leave_stay (h : exit c cs r.errors = .stay) :
    r.leave exit (c :: cs) none = { r with stack := c :: cs } := by
  unfold leave; simp only [h]

theorem leave_through (h : exit c cs r.errors = .finish faults true) :
    r.leave exit (c :: cs) none = (r.ending c faults).leave exit cs (some c.node) := by
  rw [leave]; simp only [h]; rfl

theorem leave_upto (h : exit c cs r.errors = .finish faults false) :
    r.leave exit (c :: cs) none = { r.ending c faults with stack := cs }.deliver c.node := by
  rw [leave]; simp only [h]; rfl

end

/-- Induction on the constructs that the reader goes out of. A node that has just ended is put into
the construct around it first. -/
@[elab_as_elim]
theorem leave_induction {motive : Reader → List Construct → Option Node → Prop}
    (nil : ∀ r node?, motive r [] node?)
    (add : ∀ r c cs n, motive { r with errors := c.dropped ++ r.errors } (c.add n :: cs) none →
      motive r (c :: cs) (some n))
    (cons : ∀ r c cs, (∀ r n, motive r cs (some n)) → motive r (c :: cs) none)
    (r : Reader) (cs : List Construct) (node? : Option Node) : motive r cs node? := by
  induction cs generalizing r node? with
  | nil => exact nil r node?
  | cons c cs ih =>
    have alone : ∀ r c, motive r (c :: cs) none := fun r c => cons r c cs fun r n => ih r (some n)
    cases node? with
    | none => exact alone r c
    | some n => exact add r c cs n (alone _ _)

/-! ## Invariants -/

/-- What makes `C` a property of all open constructs and `T` one of the top level, given its head
flag and its statements. `N` is what the nodes that are added satisfy, `W` the words that are
references. -/
structure Invariant (C : Construct → Prop) (T : Bool → List Node → Prop) (N : Node → Prop)
    (W : String → Prop) : Prop where
  call : ∀ name line, C (.call name line [])
  group : ∀ g line, C (.ofGroup g line)
  literal : ∀ l line, N (.literal l line)
  node : ∀ {c : Construct}, C c → N c.node
  add : ∀ {c : Construct} {n : Node}, C c → c.place ≠ .key → N n → C (c.add n)
  word : ∀ {c : Construct} {name : String} (line : Nat), C c → c.place = .inner → W name →
    C (c.add (.reference name line))
  key : ∀ {line : Nat} {pairs : List (Node × Node)} {n : Node}, C (.mapping line pairs .key) →
    n.key?.isSome → C (.mapping line pairs (.value n))
  droppedKey : ∀ {line : Nat} {pairs : List (Node × Node)} (found : String) (start : Nat),
    C (.mapping line pairs .key) → C (.mapping line pairs (.droppedKey found start))
  droppedValue : ∀ {line : Nat} {pairs : List (Node × Node)} (found : String) (start : Nat),
    C (.mapping line pairs .key) → C (.mapping line pairs (.droppedValue found start))
  breakLine : ∀ {line : Nat} {body : List Node} {head : Bool}, C (.scope line body head) →
    C (.scope line body true)
  topAdd : ∀ {head : Bool} {ns : List Node} {n : Node}, T head ns → N n → T false (n :: ns)
  topWord : ∀ {ns : List Node} {name : String} (line : Nat), T false ns → W name →
    T false (.reference name line :: ns)
  topBreak : ∀ {head : Bool} {ns : List Node}, T head ns → T true ns

/-- A reader with the properties of an invariant. -/
structure Sound (C : Construct → Prop) (T : Bool → List Node → Prop) (r : Reader) : Prop where
  top : T r.head r.nodes
  stack : ∀ c ∈ r.stack, C c
  around : ∀ c ∈ r.stack.tail, c.place ≠ .key

section

variable {C : Construct → Prop} {T : Bool → List Node → Prop} {N : Node → Prop}
  {W : String → Prop} {r : Reader}

theorem Sound.of_stack {c : Construct} {rest : List Construct} (h : r.Sound C T)
    (hs : r.stack = c :: rest) :
    C c ∧ (∀ d ∈ rest, C d) ∧ ∀ d ∈ rest, d.place ≠ .key := by
  have hc := h.stack
  have ha := h.around
  rw [hs] at hc ha
  exact ⟨hc c List.mem_cons_self, (List.forall_mem_cons.1 hc).2, ha⟩

theorem Sound.push {c : Construct} (h : r.Sound C T) (hp : r.place ≠ .key) (hc : C c) :
    (r.push c).Sound C T := by
  refine ⟨h.top, List.forall_mem_cons.2 ⟨hc, h.stack⟩, fun d hd => ?_⟩
  cases hs : r.stack with
  | nil => rw [Reader.push, hs] at hd; cases hd
  | cons e rest =>
    rw [Reader.push, hs] at hd
    rcases List.mem_cons.1 hd with rfl | hd
    · rwa [place_of_stack hs] at hp
    · exact (h.of_stack hs).2.2 d hd

/-- Replacing the innermost construct. -/
theorem Sound.replace {c d : Construct} {rest : List Construct} {errors : List ParseError}
    (h : r.Sound C T) (hs : r.stack = c :: rest) (hd : C d) :
    Sound C T { r with stack := d :: rest, errors } := by
  obtain ⟨-, hrest, ha⟩ := h.of_stack hs
  exact ⟨h.top, List.forall_mem_cons.2 ⟨hd, hrest⟩, ha⟩

theorem Sound.refuseKey {slot : Slot} (h : r.Sound C T)
    (hslot : ∀ line pairs, C (.mapping line pairs .key) → C (.mapping line pairs slot)) :
    (r.refuseKey slot).Sound C T := by
  unfold Reader.refuseKey
  split
  · next hs => exact h.replace hs (hslot _ _ (h.of_stack hs).1)
  · exact h

namespace Invariant

variable (hI : Invariant C T N W)

include hI

theorem deliver {n : Node} (h : r.Sound C T) (hp : r.place ≠ .key) (hn : N n) :
    (r.deliver n).Sound C T := by
  unfold Reader.deliver
  split
  · exact ⟨hI.topAdd h.top hn, h.stack, h.around⟩
  · next hs =>
    rw [place_of_stack hs] at hp
    exact h.replace hs (hI.add (h.of_stack hs).1 hp hn)

theorem deliver_word {name : String} (line : Nat) (h : r.Sound C T) (hp : r.place = .inner)
    (hw : W name) : (r.deliver (.reference name line)).Sound C T := by
  unfold Reader.deliver
  split
  · next hs =>
    have head : r.head = false := by
      unfold place at hp
      rw [hs] at hp
      cases hh : r.head with
      | false => rfl
      | true => rw [hh] at hp; cases hp
    have top := h.top
    rw [head] at top
    exact ⟨hI.topWord line top hw, h.stack, h.around⟩
  · next hs =>
    rw [place_of_stack hs] at hp
    exact h.replace hs (hI.word line (h.of_stack hs).1 hp hw)

theorem deliver_key {n : Node} (h : r.Sound C T) (hp : r.place = .key) (hn : n.key?.isSome) :
    (r.deliver n).Sound C T := by
  obtain ⟨line, pairs, rest, hs⟩ := stack_of_place_key hp
  unfold Reader.deliver
  rw [hs]
  exact h.replace hs (hI.key (h.of_stack hs).1 hn)

theorem newLine (h : r.Sound C T) : r.breakLine.Sound C T := by
  unfold Reader.breakLine
  split
  · exact ⟨hI.topBreak h.top, h.stack, h.around⟩
  · next hs => exact h.replace hs (hI.breakLine (h.of_stack hs).1)
  · exact h

/-- Going outwards adds the node of each construct that ends to the one around it, which does not
wait for a key. -/
theorem leave {exit : Construct → List Construct → List ParseError → Exit}
    {cs : List Construct} {node? : Option Node} (ht : T r.head r.nodes) (hc : ∀ c ∈ cs, C c)
    (ha : ∀ c ∈ cs.tail, c.place ≠ .key)
    (hn : ∀ n, node? = some n → N n ∧ ∀ c ∈ cs, c.place ≠ .key) :
    (r.leave exit cs node?).Sound C T := by
  induction cs generalizing r node? with
  | nil =>
    have empty : Sound C T { r with stack := [] } := ⟨ht, hc, ha⟩
    cases node? with
    | none => exact empty
    | some n => exact hI.deliver empty (place_ne_key ha) (hn n rfl).1
  | cons c cs ih =>
    obtain ⟨hc, hcs⟩ := List.forall_mem_cons.1 hc
    have alone : ∀ {r : Reader} {c : Construct}, T r.head r.nodes → C c →
        (r.leave exit (c :: cs) none).Sound C T := by
      intro r c ht hc
      cases he : exit c cs r.errors with
      | stay =>
        rw [leave_stay he]
        exact ⟨ht, List.forall_mem_cons.2 ⟨hc, hcs⟩, ha⟩
      | finish faults outwards =>
        cases outwards with
        | true =>
          rw [leave_through he]
          refine ih ht hcs (fun d hd => ha d (List.mem_of_mem_tail hd)) fun n e => ?_
          cases e
          exact ⟨hI.node hc, ha⟩
        | false =>
          rw [leave_upto he]
          refine hI.deliver ⟨ht, hcs, fun d hd => ?_⟩ (place_ne_key ha) (hI.node hc)
          exact ha d (List.mem_of_mem_tail hd)
    cases node? with
    | none => exact alone ht hc
    | some n =>
      obtain ⟨hn, hp⟩ := hn n rfl
      rw [leave_some]
      exact alone ht (hI.add hc (hp c List.mem_cons_self) hn)

theorem endCalls (h : r.Sound C T) : r.endCalls.Sound C T :=
  hI.leave h.top h.stack h.around fun _ e => by cases e

theorem close (h : r.Sound C T) (g : Group) (line : Nat) : (r.close g line).Sound C T :=
  hI.leave h.top h.stack h.around fun _ e => by cases e

theorem endText (h : r.Sound C T) : r.endText.Sound C T :=
  hI.leave h.top h.stack h.around fun _ e => by cases e

theorem opening (h : r.Sound C T) (g : Group) (found : String) (line : Nat) :
    ((r.refuseKey (.droppedKey found line)).push (.ofGroup g line)).Sound C T := by
  refine (h.refuseKey fun _ _ => hI.droppedKey found line).push ?_ (hI.group g line)
  by_cases hp : r.place = .key
  · obtain ⟨l, pairs, rest, hs⟩ := stack_of_place_key hp
    unfold Reader.refuseKey
    rw [hs]
    exact Place.noConfusion
  · rw [refuseKey_of_ne hp]
    exact hp

theorem takeWord {name : String} (line : Nat) (h : r.Sound C T) (hp : r.place ≠ .key)
    (hw : booleanWord? name = none → W name) : (r.word name line).Sound C T := by
  unfold Reader.word
  split
  · exact hI.deliver h hp (hI.literal _ _)
  · next hb =>
    split
    · exact h.push hp (hI.call _ _)
    · next hh =>
      refine hI.deliver_word line h ?_ (hw hb)
      cases hr : r.place with
      | head => exact absurd hr hh
      | inner => rfl
      | key => exact absurd hr hp

theorem step {t : Token} (h : r.Sound C T)
    (hw : ∀ name, t.kind = .word name → booleanWord? name = none → W name) :
    (r.step t).Sound C T := by
  obtain ⟨kind, line⟩ := t
  cases kind with
  | newline => exact hI.newLine (hI.endCalls h)
  | closer g => exact hI.close h g line
  | opener g => exact hI.opening h g _ line
  | string s =>
    by_cases hp : r.place = .key
    · exact hI.deliver_key h hp rfl
    · exact hI.deliver h hp (hI.literal _ _)
  | number x =>
    rw [step_number]
    split
    · exact h.refuseKey fun _ _ => hI.droppedValue _ _
    · next hp => exact hI.deliver h hp (hI.literal _ _)
  | key name =>
    rw [step_key]
    split
    · next hp => exact hI.deliver_key h hp rfl
    · next hp => exact h.push hp (hI.call _ _)
  | word name =>
    rw [step_word]
    split
    · next hp => exact hI.deliver_key h hp rfl
    · next hp => exact hI.takeWord line h hp (hw name rfl)

theorem read {ts : List Token} (h : r.Sound C T)
    (hw : ∀ t ∈ ts, ∀ name, t.kind = .word name → booleanWord? name = none → W name) :
    (r.read ts).1.Sound C T := by
  induction ts generalizing r with
  | nil => exact hI.endText h
  | cons t ts ih =>
    obtain ⟨ht, hts⟩ := List.forall_mem_cons.1 hw
    unfold Reader.read
    split
    · split
      · exact ih (hI.step h ht) hts
      · have hc := hI.endCalls h
        exact ⟨hc.top, hc.stack, hc.around⟩
    · exact ih (hI.step h ht) hts

end Invariant

end

end Reader

/-- The statements of a text have what the top level has after every token. -/
theorem Reader.Invariant.parse {C : Construct → Prop} {T : Bool → List Node → Prop}
    {N : Node → Prop} {W : String → Prop} (hI : Invariant C T N W) (start : T true [])
    {ts : List Token}
    (hw : ∀ t ∈ ts, ∀ name, t.kind = .word name → booleanWord? name = none → W name) :
    ∃ head, T head (parse ts).1.reverse := by
  have empty : Sound C T {} := ⟨start, List.forall_mem_nil _, List.forall_mem_nil _⟩
  refine ⟨(Reader.read {} ts).1.head, ?_⟩
  have top := (hI.read empty hw).top
  unfold Sigil.parse Cursor.program
  rw [List.reverse_reverse]
  exact top

end Sigil
