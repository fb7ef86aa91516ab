import Sigil.Proofs.Seam

/-!
# Groups on their own

While a group is open the reader touches nothing but what lies above the place where it was opened:
the constructs around it, and the statements and faults from before, stay as they are. `r.onto base`
is the reader `r` on top of another, and a step of the whole is a step of `r` alone as long as `r`
has a group to close (`Enclosed.step`, `Enclosed.closer`). So tokens between matching brackets come
to the same wherever the brackets stand (`Enclosed.read`), and a group is read as the one node, with
the faults, that it is when it stands alone (`exists_bracketed`).
-/

namespace Sigil

namespace Reader

/-! ## Tokens that lead from one reader to another -/

/-- Reading the tokens leads to the second reader, whatever follows. -/
def ReadsTo (r : Reader) (ts : List Token) (s : Reader) : Prop :=
  ∀ rest, r.read (ts ++ rest) = s.read rest

theorem readsTo_nil (r : Reader) : r.ReadsTo [] r := fun _ => rfl

theorem ReadsTo.trans {r s t : Reader} {ts us : List Token} (h : r.ReadsTo ts s)
    (h' : s.ReadsTo us t) : r.ReadsTo (ts ++ us) t := by
  intro rest
  rw [List.append_assoc, h, h']

theorem readsTo_step {t : Token} (ht : ∀ g, t.kind ≠ .closer g) (r : Reader) :
    r.ReadsTo [t] (r.step t) :=
  fun rest => read_other ht r rest

theorem readsTo_closer {r : Reader} {t : Token} {g : Group} (ht : t.kind = .closer g)
    (hg : r.inGroup = true) : r.ReadsTo [t] (r.step t) := by
  intro rest
  rw [List.cons_append, read_closer ht, if_pos hg]
  rfl

theorem readsTo_opener {r : Reader} (hp : r.place ≠ .key) (g : Group) (line : Nat) :
    r.ReadsTo [⟨.opener g, line⟩] (r.push (.ofGroup g line)) := by
  have opened := readsTo_step (t := ⟨.opener g, line⟩) (fun _ => Token.Kind.noConfusion) r
  rwa [step_opener, refuseKey_of_ne hp] at opened

/-- Tokens that lead to a single node at the top level. -/
theorem parse_of_readsTo {ts : List Token} {es : List ParseError} {n : Node}
    (h : ReadsTo {} ts (deliver { errors := es } n)) : parse ts = ([n], es.reverse) := by
  have whole := h []
  rw [List.append_nil] at whole
  rw [parse_eq, whole]
  rfl

/-! ## A reader on top of another -/

/-- The reader above all that is open in `base`, with what `base` has found before. -/
def onto (r base : Reader) : Reader :=
  { base with stack := r.stack ++ base.stack, errors := r.errors ++ base.errors }

section

variable {r : Reader} (base : Reader)

theorem deliver_onto (h : r.stack ≠ []) (n : Node) :
    (r.onto base).deliver n = (r.deliver n).onto base := by
  obtain ⟨stack, head, nodes, errors⟩ := r
  cases stack with
  | nil => exact absurd rfl h
  | cons c rest => simp [deliver, onto]

theorem ending_onto (r : Reader) (c : Construct) (faults : List ParseError) :
    (r.onto base).ending c faults = (r.ending c faults).onto base := by
  simp [ending, onto]

theorem place_onto (h : r.stack ≠ []) : (r.onto base).place = r.place := by
  obtain ⟨stack, head, nodes, errors⟩ := r
  cases stack with
  | nil => exact absurd rfl h
  | cons c rest =>
    exact (place_of_stack (c := c) rfl).trans (place_of_stack rfl).symm

theorem refuseKey_onto (h : r.stack ≠ []) (slot : Slot) :
    (r.onto base).refuseKey slot = (r.refuseKey slot).onto base := by
  obtain ⟨stack, head, nodes, errors⟩ := r
  cases stack with
  | nil => exact absurd rfl h
  | cons c rest =>
    cases c with
    | call | scope | collection => rfl
    | mapping line pairs slot' => cases slot' <;> rfl

theorem breakLine_onto (h : r.stack ≠ []) : (r.onto base).breakLine = r.breakLine.onto base := by
  obtain ⟨stack, head, nodes, errors⟩ := r
  cases stack with
  | nil => exact absurd rfl h
  | cons c rest => cases c <;> rfl

theorem word_onto (h : r.stack ≠ []) (name : String) (line : Nat) :
    (r.onto base).word name line = (r.word name line).onto base := by
  unfold word
  rw [place_onto base h]
  split
  · exact deliver_onto base h _
  split
  · rfl
  · exact deliver_onto base h _

/-- Ending calls stops at the innermost group. -/
theorem leave_calls_onto (r : Reader) (cs : List Construct) (node? : Option Node)
    (h : openGroups cs ≠ []) :
    (r.onto base).leave callsExit (cs ++ base.stack) node? =
      (r.leave callsExit cs node?).onto base := by
  induction r, cs, node? using leave_induction with
  | nil => exact absurd rfl h
  | add r c cs n ih =>
    have groups : openGroups (c.add n :: cs) ≠ [] := by
      rwa [openGroups_cons_congr (c.opened?_add n)]
    rw [List.cons_append, leave_some, leave_some, ← ih groups, onto, onto, List.append_assoc]
    rfl
  | cons r c cs ih =>
    cases hg : c.group? with
    | none =>
      rw [openGroups_cons_of_none (by simp [Construct.opened?, hg])] at h
      rw [List.cons_append, leave_through (by rw [callsExit, hg]; rfl),
        leave_through (by rw [callsExit, hg]; rfl), ending_onto, ih _ _ h]
    | some g =>
      rw [List.cons_append, leave_stay (by rw [callsExit, hg]; rfl),
        leave_stay (by rw [callsExit, hg]; rfl)]
      rfl

/-- A token that closes nothing is read above the base. -/
theorem step_onto {t : Token} (ht : ∀ g, t.kind ≠ .closer g) (h : openGroups r.stack ≠ []) :
    (r.onto base).step t = (r.step t).onto base := by
  have open_ : r.stack ≠ [] := by
    intro e
    rw [e] at h
    exact h rfl
  obtain ⟨kind, line⟩ := t
  cases kind with
  | newline =>
    have ended : (r.onto base).endCalls = r.endCalls.onto base :=
      leave_calls_onto base r r.stack none h
    have still : r.endCalls.stack ≠ [] := by
      intro e
      have groups : openGroups r.endCalls.stack = openGroups r.stack :=
        congrArg Prod.fst (view_endCalls r)
      rw [e] at groups
      exact h groups.symm
    rw [step_newline, step_newline, ended, breakLine_onto base still]
  | closer g => exact absurd rfl (ht g)
  | opener g =>
    rw [step_opener, step_opener, refuseKey_onto base open_]
    rfl
  | string s => exact deliver_onto base open_ _
  | number x =>
    rw [step_number, step_number, place_onto base open_]
    split
    · exact refuseKey_onto base open_ _
    · exact deliver_onto base open_ _
  | key name =>
    rw [step_key, step_key, place_onto base open_]
    split
    · exact deliver_onto base open_ _
    · rfl
  | word name =>
    rw [step_word, step_word, place_onto base open_]
    split
    · exact deliver_onto base open_ _
    · exact word_onto base open_ name line

end

/-! ## Stacks with a group at the bottom -/

/-- The outermost construct, if there is one, is a group. -/
def Rooted : List Construct → Prop
  | [] => True
  | [c] => c.group?.isSome
  | _ :: c :: cs => Rooted (c :: cs)

namespace Rooted

variable {c d : Construct} {cs : List Construct}

theorem tail (h : Rooted (c :: cs)) : Rooted cs := by
  cases cs with
  | nil => trivial
  | cons d ds => exact h

theorem cons (h : Rooted cs) (hne : cs ≠ []) (c : Construct) : Rooted (c :: cs) := by
  cases cs with
  | nil => exact absurd rfl hne
  | cons d ds => exact h

theorem replace (h : Rooted (c :: cs)) (hg : d.group? = c.group?) : Rooted (d :: cs) := by
  cases cs with
  | nil => exact (congrArg Option.isSome hg).trans h
  | cons e es => exact h

theorem add (h : Rooted (c :: cs)) (n : Node) : Rooted (c.add n :: cs) := by
  refine h.replace ?_
  cases c with
  | call | scope | collection => rfl
  | mapping line pairs slot => cases slot <;> rfl

theorem eq_nil (h : Rooted cs) (hg : openGroups cs = []) : cs = [] := by
  induction cs with
  | nil => rfl
  | cons c cs ih =>
    cases hc : c.group? with
    | none =>
      rw [openGroups_cons_of_none (by simp [Construct.opened?, hc])] at hg
      have empty := ih h.tail hg
      subst empty
      have root : c.group?.isSome := h
      rw [hc] at root
      cases root
    | some g =>
      rw [openGroups_cons_of_some (p := (g, c.line)) (by simp [Construct.opened?, hc])] at hg
      cases hg

theorem deliver {r : Reader} (h : Rooted r.stack) (n : Node) : Rooted (r.deliver n).stack := by
  unfold Reader.deliver
  split
  · exact h
  · next hs =>
    rw [hs] at h
    exact h.add n

theorem refuseKey {r : Reader} (h : Rooted r.stack) (slot : Slot) :
    Rooted (r.refuseKey slot).stack := by
  unfold Reader.refuseKey
  split
  · next hs =>
    rw [hs] at h
    exact h.replace rfl
  · exact h

theorem breakLine {r : Reader} (h : Rooted r.stack) : Rooted r.breakLine.stack := by
  unfold Reader.breakLine
  split
  · exact h
  · next hs =>
    rw [hs] at h
    exact h.replace rfl
  · exact h

theorem leaveCalls {r : Reader} {cs : List Construct} {node? : Option Node} (h : Rooted cs) :
    Rooted (r.leave callsExit cs node?).stack := by
  induction r, cs, node? using leave_induction with
  | nil r node? => cases node? <;> exact trivial
  | add r c cs n ih =>
    rw [leave_some]
    exact ih (h.add n)
  | cons r c cs ih =>
    cases hg : c.group? with
    | none =>
      rw [leave_through (by rw [callsExit, hg]; rfl)]
      exact ih _ _ h.tail
    | some g =>
      rw [leave_stay (by rw [callsExit, hg]; rfl)]
      exact h

theorem step {r : Reader} {t : Token} (ht : ∀ g, t.kind ≠ .closer g) (h : Rooted r.stack)
    (open_ : r.stack ≠ []) : Rooted (r.step t).stack := by
  obtain ⟨kind, line⟩ := t
  cases kind with
  | newline => exact breakLine h.leaveCalls
  | closer g => exact absurd rfl (ht g)
  | opener g =>
    refine (h.refuseKey _).cons ?_ _
    unfold Reader.refuseKey
    split
    · exact List.cons_ne_nil _ _
    · exact open_
  | string s => exact h.deliver _
  | number x =>
    rw [step_number]
    split
    · exact h.refuseKey _
    · exact h.deliver _
  | key name =>
    rw [step_key]
    split
    · exact h.deliver _
    · exact h.cons open_ _
  | word name =>
    rw [step_word]
    split
    · exact h.deliver _
    unfold Reader.word
    split
    · exact h.deliver _
    split
    · exact h.cons open_ _
    · exact h.deliver _

end Rooted

/-! ## Inside a group -/

/-- The bracket of the innermost group ends it, and hands its node to what is around it. -/
theorem exists_leave_onto {g : Group} {gs : List Group} (line : Nat) (r : Reader)
    (cs : List Construct) (node? : Option Node) (h : (openGroups cs).map (·.1) = g :: gs)
    (hr : Rooted cs) :
    ∃ (s : Reader) (n : Node), (openGroups s.stack).map (·.1) = gs ∧ Rooted s.stack ∧
      ∀ base, (r.onto base).leave (bracketExit g line) (cs ++ base.stack) node? =
        (s.onto base).deliver n := by
  induction r, cs, node? using leave_induction with
  | nil => cases h
  | add r c cs n ih =>
    rw [openGroups_cons_congr (c.opened?_add n).symm] at h
    obtain ⟨s, m, hg, hs, hl⟩ := ih h (hr.add n)
    refine ⟨s, m, hg, hs, fun base => ?_⟩
    rw [List.cons_append, leave_some, ← hl, onto, onto, List.append_assoc]
    rfl
  | cons r c cs ih =>
    cases hg : c.group? with
    | none =>
      rw [openGroups_cons_of_none (by simp [Construct.opened?, hg])] at h
      obtain ⟨s, m, hg', hs, hl⟩ := ih (r.ending c []) c.node h hr.tail
      refine ⟨s, m, hg', hs, fun base => ?_⟩
      rw [List.cons_append, leave_through (by rw [bracketExit, hg]), ending_onto, hl]
    | some k =>
      rw [openGroups_cons_of_some (p := (k, c.line)) (by simp [Construct.opened?, hg]),
        List.map_cons] at h
      obtain ⟨rfl, groups⟩ := List.cons.inj h
      refine ⟨{ r.ending c [] with stack := cs }, c.node, groups, hr.tail, fun base => ?_⟩
      have upto : bracketExit k line c (cs ++ base.stack) (r.onto base).errors =
          .finish [] false := by simp [bracketExit, hg]
      rw [List.cons_append, leave_upto upto, ending_onto]
      rfl

/-- The groups `gs` are open, innermost first, inside a group `g` that nothing is open around. -/
structure Enclosed (r : Reader) (gs : List Group) (g : Group) : Prop where
  groups : (openGroups r.stack).map (·.1) = gs ++ [g]
  rooted : Rooted r.stack

theorem enclosed_ofGroup (g : Group) (line : Nat) :
    Enclosed { stack := [.ofGroup g line] } [] g := by
  cases g <;> exact ⟨rfl, rfl⟩

namespace Enclosed

variable {r : Reader} {g k : Group} {gs : List Group} {t : Token}

theorem openGroups_ne_nil (h : r.Enclosed gs g) : openGroups r.stack ≠ [] := by
  intro e
  have groups := h.groups
  rw [e] at groups
  exact List.append_ne_nil_of_right_ne_nil gs (List.cons_ne_nil g []) groups.symm

theorem stack_ne_nil (h : r.Enclosed gs g) : r.stack ≠ [] := by
  intro e
  refine h.openGroups_ne_nil ?_
  rw [e]
  rfl

theorem inGroup_onto (h : r.Enclosed gs g) (base : Reader) : (r.onto base).inGroup = true := by
  refine inGroup_iff.2 fun e => h.openGroups_ne_nil ?_
  have none : openGroups (r.stack ++ base.stack) = [] := e
  rw [openGroups, List.filterMap_append] at none
  exact (List.append_eq_nil_iff.1 none).1

/-- A token that is no closing bracket is read above the base. -/
theorem readsTo_step (h : r.Enclosed gs g) (ht : ∀ k, t.kind ≠ .closer k) (base : Reader) :
    (r.onto base).ReadsTo [t] ((r.step t).onto base) := by
  rw [← step_onto base ht h.openGroups_ne_nil]
  exact Reader.readsTo_step ht _

theorem step (h : r.Enclosed gs g) (ht : Brackets.isBracket t.kind = false) :
    (r.step t).Enclosed gs g := by
  have other : ∀ k, t.kind ≠ .closer k := by
    intro k e
    rw [e] at ht
    cases ht
  refine ⟨?_, h.rooted.step other h.stack_ne_nil⟩
  have same := congrArg Prod.fst (view_step_of_not_isBracket ht r)
  rw [← h.groups]
  exact congrArg (List.map Prod.fst) same

theorem opener (h : r.Enclosed gs g) (ht : t.kind = .opener k) :
    (r.step t).Enclosed (k :: gs) g := by
  refine ⟨?_, h.rooted.step (by simp [ht]) h.stack_ne_nil⟩
  have more := congrArg Prod.fst (view_step_opener ht r)
  rw [List.cons_append, ← h.groups]
  exact congrArg (List.map Prod.fst) more

/-- As long as a group is open around it, the bracket of a group is read above the base. -/
theorem closer (h : r.Enclosed (k :: gs) g) (ht : t.kind = .closer k) :
    ∃ s : Reader, s.Enclosed gs g ∧ ∀ base, (r.onto base).ReadsTo [t] (s.onto base) := by
  have innermost : (openGroups r.stack).map (·.1) = k :: (gs ++ [g]) := h.groups
  obtain ⟨s, n, groups, rooted, hl⟩ :=
    exists_leave_onto t.line r r.stack none innermost h.rooted
  have inside : s.Enclosed gs g := ⟨groups, rooted⟩
  refine ⟨s.deliver n, ⟨?_, rooted.deliver n⟩, fun base => ?_⟩
  · have same := congrArg Prod.fst (view_deliver s n)
    rw [← groups]
    exact congrArg (List.map Prod.fst) same
  · have ended : (r.onto base).step t = (s.deliver n).onto base := by
      rw [← deliver_onto base inside.stack_ne_nil, ← hl base, Reader.step, ht]
      rfl
    rw [← ended]
    exact readsTo_closer ht (h.inGroup_onto base)

/-- The bracket of the outermost group hands its node, and what was found inside, to the base. -/
theorem closeLast (h : r.Enclosed [] g) (ht : t.kind = .closer g) :
    ∃ (es : List ParseError) (n : Node), ∀ base, (r.onto base).ReadsTo [t]
      ({ base with errors := es ++ base.errors }.deliver n) := by
  obtain ⟨s, n, groups, rooted, hl⟩ :=
    exists_leave_onto t.line r r.stack none h.groups h.rooted
  have none : s.stack = [] := rooted.eq_nil (List.map_eq_nil_iff.1 groups)
  refine ⟨s.errors, n, fun base => ?_⟩
  have below : s.onto base = { base with errors := s.errors ++ base.errors } := by
    rw [onto, none]
    rfl
  have ended : (r.onto base).step t = (s.onto base).deliver n := by
    rw [← hl base, Reader.step, ht]
    rfl
  rw [← below, ← ended]
  exact readsTo_closer ht (h.inGroup_onto base)

/-- Tokens that close the groups inside the outermost, and match otherwise, are read above the
base. -/
theorem read {ts : List Token} (h : r.Enclosed gs g)
    (hb : Brackets.Closes gs (Brackets.ofTokens ts)) :
    ∃ s : Reader, s.Enclosed [] g ∧ ∀ base, (r.onto base).ReadsTo ts (s.onto base) := by
  -- by induction on the tokens; `gs` is what they have still to close
  induction ts generalizing r gs with
  | nil =>
    cases gs with
    | nil => exact ⟨r, h, fun base => readsTo_nil _⟩
    | cons k gs =>
      obtain ⟨xs, ys, e, -⟩ := hb
      cases xs <;> cases e
  | cons t ts ih =>
    obtain ⟨r', gs', h', hb', first⟩ : ∃ (r' : Reader) (gs' : List Group), r'.Enclosed gs' g ∧
        Brackets.Closes gs' (Brackets.ofTokens ts) ∧
        ∀ base, (r.onto base).ReadsTo [t] (r'.onto base) := by
      rw [Brackets.ofTokens_cons] at hb
      cases ht : t.kind with
      | opener k =>
        rw [ht] at hb
        exact ⟨r.step t, k :: gs, h.opener ht, Brackets.closes_opener.1 hb,
          h.readsTo_step (by simp [ht])⟩
      | closer k =>
        rw [ht] at hb
        cases gs with
        | nil => exact (Brackets.not_balanced_closer hb).elim
        | cons j gs =>
          obtain ⟨rfl, closed⟩ := Brackets.closes_closer.1 hb
          obtain ⟨s, hs, hl⟩ := h.closer ht
          exact ⟨s, gs, hs, closed, hl⟩
      | newline | string | number | key | word =>
        have other : Brackets.isBracket t.kind = false := by rw [ht]; rfl
        rw [other] at hb
        exact ⟨r.step t, gs, h.step other, hb, h.readsTo_step (by simp [ht])⟩
    obtain ⟨s, hs, rest⟩ := ih h' hb'
    exact ⟨s, hs, fun base => (first base).trans (rest base)⟩

end Enclosed

end Reader

/-! ## Groups -/

/-- Tokens between the brackets of a group. -/
def Token.bracketed (g : Group) (line : Nat) (ts : List Token) (line' : Nat) : List Token :=
  ⟨.opener g, line⟩ :: (ts ++ [⟨.closer g, line'⟩])

open Reader in
/-- A group whose brackets match is one node, which it is wherever a node can stand, and what is
wrong with it is the same everywhere. -/
theorem exists_bracketed (g : Group) (line : Nat) {ts : List Token} (line' : Nat)
    (hb : Brackets.Balanced (Brackets.ofTokens ts)) :
    ∃ (es : List ParseError) (n : Node),
      parse (Token.bracketed g line ts line') = ([n], es.reverse) ∧
      ∀ r : Reader, r.place ≠ .key → r.ReadsTo (Token.bracketed g line ts line')
        ({ r with errors := es ++ r.errors }.deliver n) := by
  have closes : Brackets.Closes [] (Brackets.ofTokens ts) := hb
  obtain ⟨s, hs, inside⟩ := (enclosed_ofGroup g line).read closes
  obtain ⟨es, n, last⟩ := hs.closeLast (t := ⟨.closer g, line'⟩) rfl
  have whole : ∀ r : Reader, r.place ≠ .key → r.ReadsTo (Token.bracketed g line ts line')
      ({ r with errors := es ++ r.errors }.deliver n) := by
    intro r hp
    exact (readsTo_opener hp g line).trans ((inside r).trans (last r))
  have alone := whole {} Place.noConfusion
  rw [List.append_nil] at alone
  exact ⟨es, n, parse_of_readsTo alone, whole⟩

end Sigil
