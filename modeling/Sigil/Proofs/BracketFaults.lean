import Sigil.Proofs.Brackets
import Sigil.Proofs.Fuel

/-!
# The reader's faults of brackets

The reader meets brackets inside calls, values and pairs that it drops, and ends groups early where
one is missing. The faults of brackets that it finds are nevertheless those of the scan, which knows
nothing of calls and mappings (`brackets_parse`): what the reader does to its stack of open
constructs is, for the groups among them, what the scan does to its stack.
-/

namespace Sigil

/-- The group that a construct is, with the line where it starts. -/
def Construct.opened? (c : Construct) : Option (Group × Nat) :=
  c.group?.map (·, c.line)

theorem Construct.opened?_add (c : Construct) (n : Node) : (c.add n).opened? = c.opened? := by
  cases c with
  | call | scope | collection => rfl
  | mapping line pairs slot => cases slot <;> rfl

theorem Construct.opened?_ofGroup (g : Group) (line : Nat) :
    (ofGroup g line).opened? = some (g, line) := by
  cases g <;> rfl

namespace Reader

/-- The groups among open constructs, innermost first. -/
def openGroups (cs : List Construct) : List (Group × Nat) :=
  cs.filterMap Construct.opened?

theorem openGroups_cons_of_none {c : Construct} (h : c.opened? = none) (cs : List Construct) :
    openGroups (c :: cs) = openGroups cs :=
  List.filterMap_cons_none h

theorem openGroups_cons_of_some {c : Construct} {p : Group × Nat} (h : c.opened? = some p)
    (cs : List Construct) : openGroups (c :: cs) = p :: openGroups cs :=
  List.filterMap_cons_some h

theorem openGroups_cons_congr {c d : Construct} (h : c.opened? = d.opened?)
    (cs : List Construct) : openGroups (c :: cs) = openGroups (d :: cs) := by
  unfold openGroups
  rw [List.filterMap_cons, List.filterMap_cons, h]

theorem any_openGroups (found : Group) (cs : List Construct) :
    cs.any (·.group? == some found) = (openGroups cs).any (·.1 = found) := by
  induction cs with
  | nil => rfl
  | cons c cs ih =>
    cases hg : c.group? with
    | none =>
      rw [openGroups_cons_of_none (by simp [Construct.opened?, hg]), List.any_cons, hg, ih]
      rfl
    | some g =>
      rw [openGroups_cons_of_some (p := (g, c.line)) (by simp [Construct.opened?, hg]),
        List.any_cons, List.any_cons, hg, ih]
      rfl

/-- The faults of brackets so far, newest first. -/
def brackets (r : Reader) : List ParseError :=
  r.errors.filter ParseError.isBracket

theorem filter_dropped (c : Construct) : c.dropped.filter ParseError.isBracket = [] := by
  unfold Construct.dropped; split <;> rfl

theorem filter_lacking (c : Construct) : c.lacking.filter ParseError.isBracket = [] := by
  unfold Construct.lacking; split <;> rfl

/-- What the scan sees of a reader. -/
def view (r : Reader) : List (Group × Nat) × List ParseError :=
  (openGroups r.stack, r.brackets)

theorem inGroup_iff {r : Reader} : r.inGroup = true ↔ r.view.1 ≠ [] := by
  simp [inGroup, view, openGroups, Construct.opened?, List.filterMap_eq_nil_iff,
    Option.isSome_iff_ne_none]

theorem view_deliver (r : Reader) (n : Node) : (r.deliver n).view = r.view := by
  unfold deliver
  split
  · rfl
  · next c rest hs =>
    unfold view brackets
    rw [hs, openGroups_cons_congr (c.opened?_add n)]
    simp [filter_dropped]

theorem view_refuseKey (r : Reader) (slot : Slot) : (r.refuseKey slot).view = r.view := by
  unfold refuseKey
  split
  · next hs => unfold view; rw [hs]; rfl
  · rfl

theorem view_breakLine (r : Reader) : r.breakLine.view = r.view := by
  unfold breakLine
  split
  · rfl
  · next hs => unfold view; rw [hs]; rfl
  · rfl

/-! ## Going outwards -/

theorem brackets_finish (inner : Construct) (faults errors : List ParseError) :
    (inner.lacking ++ (faults ++ (inner.dropped ++ errors))).filter ParseError.isBracket =
      faults.filter ParseError.isBracket ++ errors.filter ParseError.isBracket := by
  simp [filter_dropped, filter_lacking]

theorem view_leave_nil (exit : Construct → List Construct → List ParseError → Exit) (r : Reader)
    (node? : Option Node) : (r.leave exit [] node?).view = ([], r.brackets) := by
  cases node? with
  | none => rfl
  | some n => exact view_deliver _ n

/-- One step outwards, as far as brackets are concerned: what the construct holds does not matter,
and neither do the faults of its mapping. -/
theorem leave_cons (exit : Construct → List Construct → List ParseError → Exit) (r : Reader)
    (c : Construct) (rest : List Construct) (node? : Option Node) :
    ∃ (inner : Construct) (errors : List ParseError), inner.opened? = c.opened? ∧
      errors.filter ParseError.isBracket = r.brackets ∧
      r.leave exit (c :: rest) node? = match exit inner rest errors with
        | .stay => { r with stack := inner :: rest, errors }
        | .finish faults outwards =>
          let r := { r with errors := inner.lacking ++ (faults ++ (inner.dropped ++ errors)) }
          if outwards then r.leave exit rest (some inner.node)
          else { r with stack := rest }.deliver inner.node := by
  cases node? with
  | none => exact ⟨c, r.errors, rfl, rfl, rfl⟩
  | some n =>
    refine ⟨c.add n, c.dropped ++ r.errors, c.opened?_add n, ?_, rfl⟩
    rw [List.filter_append, filter_dropped]
    rfl

/-- `exit` decides `e` for a construct that is `c` up to what it holds, in a reader that has found
the faults of brackets that `r` has. -/
def Decides (exit : Construct → List Construct → List ParseError → Exit) (r : Reader)
    (c : Construct) (rest : List Construct) (e : Exit) : Prop :=
  ∀ (inner : Construct) (errors : List ParseError), inner.opened? = c.opened? →
    errors.filter ParseError.isBracket = r.brackets → exit inner rest errors = e

section

variable {exit : Construct → List Construct → List ParseError → Exit} {r : Reader} {c : Construct}
  {rest : List Construct}

theorem view_leave_stay (h : Decides exit r c rest .stay) (node? : Option Node) :
    (r.leave exit (c :: rest) node?).view = (openGroups (c :: rest), r.brackets) := by
  obtain ⟨inner, errors, hi, he, hl⟩ := leave_cons exit r c rest node?
  rw [h inner errors hi he] at hl
  rw [hl, ← openGroups_cons_congr hi, ← he]
  rfl

theorem view_leave_finish {faults : List ParseError}
    (h : Decides exit r c rest (.finish faults false)) (node? : Option Node) :
    (r.leave exit (c :: rest) node?).view =
      (openGroups rest, faults.filter ParseError.isBracket ++ r.brackets) := by
  obtain ⟨inner, errors, hi, he, hl⟩ := leave_cons exit r c rest node?
  rw [h inner errors hi he] at hl
  rw [hl, ← he, ← brackets_finish inner]
  exact view_deliver _ _

theorem leave_outwards {faults : List ParseError} (h : Decides exit r c rest (.finish faults true))
    (node? : Option Node) :
    ∃ (s : Reader) (n : Node), s.brackets = faults.filter ParseError.isBracket ++ r.brackets ∧
      r.leave exit (c :: rest) node? = s.leave exit rest (some n) := by
  obtain ⟨inner, errors, hi, he, hl⟩ := leave_cons exit r c rest node?
  rw [h inner errors hi he] at hl
  refine ⟨_, inner.node, ?_, hl⟩
  rw [← he, ← brackets_finish inner]
  rfl

end

theorem decides_callsExit (r : Reader) (c : Construct) (rest : List Construct) :
    Decides callsExit r c rest (if c.opened?.isNone then .finish [] true else .stay) := by
  intro inner errors hi _
  rw [← hi, callsExit, Construct.opened?, Option.isNone_map]

/-- Ending calls changes nothing that the scan sees. -/
theorem view_leave_callsExit (r : Reader) (cs : List Construct) (node? : Option Node) :
    (r.leave callsExit cs node?).view = (openGroups cs, r.brackets) := by
  induction cs generalizing r node? with
  | nil => exact view_leave_nil callsExit r node?
  | cons c rest ih =>
    have hd := decides_callsExit r c rest
    cases ho : c.opened? with
    | none =>
      rw [ho] at hd
      obtain ⟨s, n, hs, hl⟩ := leave_outwards hd node?
      rw [hl, ih, hs, openGroups_cons_of_none ho]
      rfl
    | some p =>
      rw [ho] at hd
      exact view_leave_stay hd node?

/-- What a closing bracket does to a construct depends on the group that it is. -/
theorem decides_bracketExit (found : Group) (line : Nat) (r : Reader) (c : Construct)
    (rest : List Construct) :
    Decides (bracketExit found line) r c rest (match c.opened? with
      | none => .finish [] true
      | some (g, start) =>
        if g = found then .finish [] false
        else if (openGroups rest).any (·.1 = found) then .finish [.missingClosing g start] true
        else .finish [.mismatchedClosing found g line] false) := by
  intro inner errors hi _
  rw [← hi, bracketExit, any_openGroups, Construct.opened?]
  cases inner.group? <;> rfl

/-- A closing bracket does to the open groups what it does in the scan. -/
theorem view_leave_bracketExit {found : Group} {line : Nat} (r : Reader) (cs : List Construct)
    (node? : Option Node) {left : List (Group × Nat)}
    (hc : (Brackets.close found line (openGroups cs)).2 = some left) :
    (r.leave (bracketExit found line) cs node?).view =
      (left, (Brackets.close found line (openGroups cs)).1.reverse ++ r.brackets) := by
  induction cs generalizing r node? with
  | nil => cases hc
  | cons c rest ih =>
    have hd := decides_bracketExit found line r c rest
    cases ho : c.opened? with
    | none =>
      rw [ho] at hd
      rw [openGroups_cons_of_none ho] at hc ⊢
      obtain ⟨s, n, hs, hl⟩ := leave_outwards hd node?
      rw [hl, ih s _ hc, hs]
      rfl
    | some p =>
      obtain ⟨g, start⟩ := p
      simp only [ho] at hd
      rw [openGroups_cons_of_some ho] at hc ⊢
      by_cases hg : g = found
      · rw [if_pos hg] at hd
        rw [Brackets.close, if_pos hg] at hc ⊢
        cases hc
        exact view_leave_finish hd node?
      rw [if_neg hg] at hd
      by_cases ha : (openGroups rest).any (·.1 = found) = true
      · rw [if_pos ha] at hd
        rw [Brackets.close, if_neg hg, if_pos ha] at hc ⊢
        obtain ⟨s, n, hs, hl⟩ := leave_outwards hd node?
        rw [hl, ih s _ hc, hs, List.reverse_cons, List.append_assoc]
        rfl
      · rw [if_neg ha] at hd
        rw [Brackets.close, if_neg hg, if_neg ha] at hc ⊢
        cases hc
        exact view_leave_finish hd node?

theorem any_isUnclosed (errors : List ParseError) :
    errors.any isUnclosed = (errors.filter ParseError.isBracket).any isUnclosed := by
  induction errors with
  | nil => rfl
  | cons e errors ih => cases e <;> simp [ParseError.isBracket, isUnclosed, ih]

/-- What the end of the text finds, if it is met in the given open groups and after the given faults
of brackets: the innermost group, unless a group is already at fault. -/
def unclosedAfter (faults : List ParseError) (groups : List (Group × Nat)) : List ParseError :=
  if faults.any isUnclosed then [] else Brackets.unclosed groups

theorem decides_textExit (r : Reader) (c : Construct) (rest : List Construct) :
    Decides textExit r c rest (.finish (unclosedAfter r.brackets c.opened?.toList) true) := by
  intro inner errors hi he
  rw [← hi, ← he, textExit, any_isUnclosed, unclosedAfter, Construct.opened?]
  cases inner.group? <;> simp [Brackets.unclosed]

/-- The end of the text finds the innermost group. -/
theorem brackets_leave_textExit (r : Reader) (cs : List Construct) (node? : Option Node) :
    (r.leave textExit cs node?).brackets =
      unclosedAfter r.brackets (openGroups cs) ++ r.brackets := by
  induction cs generalizing r node? with
  | nil =>
    have none : unclosedAfter r.brackets [] = [] := ite_self []
    rw [openGroups, List.filterMap_nil, none]
    exact congrArg Prod.snd (view_leave_nil textExit r node?)
  | cons c rest ih =>
    obtain ⟨s, n, hs, hl⟩ := leave_outwards (decides_textExit r c rest) node?
    rw [hl, ih, hs]
    cases ho : c.opened? with
    | none =>
      rw [openGroups_cons_of_none ho]
      simp [unclosedAfter, Brackets.unclosed]
    | some p =>
      obtain ⟨g, start⟩ := p
      rw [openGroups_cons_of_some ho]
      cases ha : r.brackets.any isUnclosed with
      | true => simp [unclosedAfter, ha]
      | false =>
        have found : [ParseError.unclosed g start].filter ParseError.isBracket =
          [.unclosed g start] := rfl
        simp [unclosedAfter, ha, Brackets.unclosed, found, isUnclosed]

/-! ## Reading -/

theorem view_endCalls (r : Reader) : r.endCalls.view = r.view :=
  view_leave_callsExit r r.stack none

theorem view_push_call (r : Reader) (name : String) (line : Nat) :
    (r.push (.call name line [])).view = r.view :=
  rfl

theorem view_word (r : Reader) (name : String) (line : Nat) : (r.word name line).view = r.view := by
  unfold word
  split
  · exact view_deliver r _
  split
  · exact view_push_call r name line
  · exact view_deliver r _

/-- A token that is no bracket changes nothing that the scan sees. -/
theorem view_step_of_not_isBracket {t : Token} (ht : Brackets.isBracket t.kind = false)
    (r : Reader) : (r.step t).view = r.view := by
  unfold step
  split
  · exact (view_breakLine _).trans (view_endCalls r)
  · next hk => rw [hk] at ht; cases ht
  · next hk => rw [hk] at ht; cases ht
  · exact view_deliver r _
  · split
    · exact view_refuseKey r _
    · exact view_deliver r _
  · split
    · exact view_deliver r _
    · exact view_push_call r _ _
  · split
    · exact view_deliver r _
    · exact view_word r _ _

theorem view_step_opener {t : Token} {g : Group} (ht : t.kind = .opener g) (r : Reader) :
    (r.step t).view = ((g, t.line) :: r.view.1, r.view.2) := by
  unfold step
  rw [ht, ← view_refuseKey r (.droppedKey t.text t.line)]
  unfold view push
  rw [openGroups_cons_of_some (Construct.opened?_ofGroup g t.line)]
  rfl

theorem view_step_closer {t : Token} {g : Group} (ht : t.kind = .closer g) {r : Reader}
    {left : List (Group × Nat)} (hc : (Brackets.close g t.line r.view.1).2 = some left) :
    (r.step t).view = (left, (Brackets.close g t.line r.view.1).1.reverse ++ r.view.2) := by
  unfold step
  rw [ht]
  exact view_leave_bracketExit r r.stack none hc

theorem read_closer {t : Token} {g : Group} (ht : t.kind = .closer g) (r : Reader)
    (ts : List Token) :
    r.read (t :: ts) = if r.inGroup then (r.step t).read ts
      else (r.endCalls.fault (.unexpectedClosing g t.line), t :: ts) := by
  rw [read, ht]

theorem read_other {t : Token} (ht : ∀ g, t.kind ≠ .closer g) (r : Reader) (ts : List Token) :
    r.read (t :: ts) = (r.step t).read ts := by
  rw [read]
  split
  · next g hk => exact absurd hk (ht g)
  · rfl

theorem not_isUnclosed {e : ParseError} (h : e.isFatal = false) : isUnclosed e = false := by
  cases e <;> first | rfl | cases h

/-- Until the text ends no group is reported as unclosed, and what the reader finds is what the scan
finds from the groups that are open. -/
theorem brackets_read (ts : List Token) (r : Reader) (hu : r.view.2.any isUnclosed = false) :
    (r.read ts).1.brackets = (Brackets.scan r.view.1 ts).reverse ++ r.view.2 := by
  -- by induction on the tokens; a step and the scan do the same to the view, and `hu` stays true
  -- because the faults of a closing bracket inside a group are not fatal
  induction ts generalizing r with
  | nil =>
    refine (brackets_leave_textExit r r.stack none).trans (congrArg (· ++ r.brackets) ?_)
    unfold view at hu
    rw [unclosedAfter, hu, Brackets.scan]
    exact Brackets.reverse_unclosed.symm
  | cons t ts ih =>
    cases hk : t.kind with
    | closer g =>
      rw [read_closer hk]
      split
      · next hg =>
        obtain ⟨⟨left, hl⟩, hf⟩ := Brackets.close_of_ne_nil g t.line (inGroup_iff.1 hg)
        have hv := view_step_closer hk hl
        rw [ih _ ?_, hv, Brackets.scan_closer hk hl, List.reverse_append, List.append_assoc]
        rw [hv, List.any_append, hu, Bool.or_false, List.any_eq_false]
        intro e he
        rw [not_isUnclosed (hf e (List.mem_reverse.1 he))]
        exact Bool.false_ne_true
      · next hg =>
        have none : r.view.1 = [] := Classical.not_not.1 (mt inGroup_iff.2 hg)
        rw [none, Brackets.scan_closer_nil hk, ← view_endCalls]
        rfl
    | opener g =>
      have hv := view_step_opener hk r
      rw [read_other (by simp [hk]), ih _ (by rw [hv]; exact hu), hv, Brackets.scan_opener hk]
    | newline | string | number | key | word =>
      have other : Brackets.isBracket t.kind = false := by rw [hk]; rfl
      have hv := view_step_of_not_isBracket other r
      rw [read_other (by simp [hk]), ih _ (by rw [hv]; exact hu), hv, Brackets.scan_other other]

end Reader

/-- The faults of brackets that the reader finds, in the order it finds them, are those of the
scan. -/
theorem brackets_parse (ts : List Token) :
    (parse ts).2.filter ParseError.isBracket = Brackets.scan [] ts := by
  have h := Reader.brackets_read ts {} rfl
  unfold parse Cursor.program
  rw [List.filter_reverse]
  refine (congrArg List.reverse h).trans ?_
  simp [Reader.view, Reader.openGroups, Reader.brackets]

/-- Fatal faults are faults of brackets, so the scan decides which texts are refused, and why. -/
theorem find?_isFatal_parse (ts : List Token) :
    (parse ts).2.find? ParseError.isFatal = (Brackets.scan [] ts).find? ParseError.isFatal := by
  rw [← brackets_parse, List.find?_filter]
  simp only [← Bool.and_eq_true, ParseError.isBracket_and_isFatal, Bool.decide_eq_true]

theorem filter_isFatal_parse (ts : List Token) :
    (parse ts).2.filter ParseError.isFatal = (Brackets.scan [] ts).filter ParseError.isFatal := by
  rw [← brackets_parse, List.filter_filter]
  simp only [Bool.and_comm, ParseError.isBracket_and_isFatal]

/-- **The reader agrees with the scan**: it finds the same faults of brackets in the same order. So
it finds none exactly if the brackets are balanced, and never more than one that is fatal; and a
text is evaluated exactly if the scan finds no fatal one. -/
theorem parse_agrees_with_scan (ts : List Token) :
    (parse ts).2.filter ParseError.isBracket = Brackets.scan [] ts ∧
      ((∀ e ∈ (parse ts).2, e.isBracket = false) ↔ Brackets.Balanced (Brackets.ofTokens ts)) ∧
      ((parse ts).2.filter ParseError.isFatal).length ≤ 1 ∧
      ∀ source, Token.lex source = .ok ts → ∀ [Generator] (fuel : Nat) (i : Interpreter),
        i.run fuel source = match (Brackets.scan [] ts).find? ParseError.isFatal with
          | some e => some (.refused (.parse e), i)
          | none => i.evaluateProgram fuel (parse ts).1 (parse ts).2 := by
  refine ⟨brackets_parse ts, ?_, ?_, ?_⟩
  · rw [← Brackets.scan_nil_eq_nil_iff, ← brackets_parse, List.filter_eq_nil_iff]
    simp only [Bool.not_eq_true]
  · rw [filter_isFatal_parse]
    exact Brackets.fatal_scan [] ts
  · intro source h _ fuel i
    rw [← find?_isFatal_parse]
    split
    · next e he => exact Interpreter.run_of_fatal h he
    · next he => exact Interpreter.run_of_not_fatal h he

/-- A scope that lacks its bracket inside a call, a collection that lacks its own in the place of a
key, a scope with the bracket of another group, and a mapping without end. -/
theorem parse_agrees_with_scan_recovery :
    ∃ ts, Token.lex "f [1 (g 2] \x7b[3\x7d (4]\n\x7bb" = .ok ts ∧
      (parse ts).2.filter ParseError.isBracket =
        [.missingClosing .scope 1, .missingClosing .collection 1,
          .mismatchedClosing .collection .scope 1, .unclosed .mapping 2] ∧
      ¬ Brackets.Balanced (Brackets.ofTokens ts) ∧
      ∀ [Generator] (fuel : Nat) (i : Interpreter),
        i.run fuel "f [1 (g 2] \x7b[3\x7d (4]\n\x7bb" =
          some (.refused (.parse (.unclosed .mapping 2)), i) := by
  have h : (Token.lex "f [1 (g 2] \x7b[3\x7d (4]\n\x7bb").toOption.map (Brackets.scan []) =
      some [.missingClosing .scope 1, .missingClosing .collection 1,
        .mismatchedClosing .collection .scope 1, .unclosed .mapping 2] := by decide +kernel
  cases hl : Token.lex "f [1 (g 2] \x7b[3\x7d (4]\n\x7bb" with
  | error e => rw [hl] at h; cases h
  | ok ts =>
    rw [hl] at h
    have hs := Option.some.inj h
    obtain ⟨he, hb, -, hr⟩ := parse_agrees_with_scan ts
    refine ⟨ts, rfl, he.trans hs, fun hbal => ?_, fun {_} fuel i => ?_⟩
    · have none : (parse ts).2.filter ParseError.isBracket = [] :=
        List.filter_eq_nil_iff.2 fun e hm => by simp [hb.2 hbal e hm]
      rw [he, hs] at none
      cases none
    · rw [hr _ hl, hs]
      rfl

end Sigil
