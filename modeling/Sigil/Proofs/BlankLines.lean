import Sigil.Proofs.Seam

/-!
# Blank lines

A newline ends the calls that are open and puts the reader back at the head of a line. A second one
right after it finds nothing left to end (`Reader.step_newline_newline`), wherever the reader is: at
the top level, in a group, or in the middle of a pair of a mapping that is going to be dropped. So
a run of newlines is read as one of them, in malformed tokens too (`parse_squeezed`).
-/

namespace Sigil

/-- Tokens with a single newline, the last, of every run of newlines. -/
def Token.squeezed : List Token → List Token
  | [] => []
  | [t] => [t]
  | t :: u :: ts =>
    if t.kind = .newline ∧ u.kind = .newline then squeezed (u :: ts) else t :: squeezed (u :: ts)

namespace Reader

/-- The innermost construct, if there is one, is a group. -/
def Settled (r : Reader) : Prop :=
  ∀ c, r.stack.head? = some c → c.group?.isSome

theorem settled_leave (r : Reader) (cs : List Construct) (node? : Option Node) :
    (r.leave callsExit cs node?).Settled := by
  induction r, cs, node? using leave_induction with
  | nil r node? => cases node? <;> exact fun c e => by cases e
  | add r c cs n ih => rwa [leave_some]
  | cons r c cs ih =>
    cases hg : c.group? with
    | none =>
      rw [leave_through (by rw [callsExit, hg]; rfl)]
      exact ih _ _
    | some g =>
      rw [leave_stay (by rw [callsExit, hg]; rfl)]
      intro d e
      cases e
      rw [hg]
      rfl

theorem Settled.endCalls {r : Reader} (h : r.Settled) : r.endCalls = r := by
  obtain ⟨stack, head, nodes, errors⟩ := r
  cases stack with
  | nil => rfl
  | cons c cs =>
    obtain ⟨g, hg⟩ := Option.isSome_iff_exists.1 (h c rfl)
    exact leave_stay (by rw [callsExit, hg]; rfl)

theorem Settled.breakLine {r : Reader} (h : r.Settled) : r.breakLine.Settled := by
  unfold Reader.breakLine
  split
  · exact h
  · intro c e
    cases e
    rfl
  · exact h

theorem breakLine_breakLine (r : Reader) : r.breakLine.breakLine = r.breakLine := by
  obtain ⟨stack, head, nodes, errors⟩ := r
  cases stack with
  | nil => rfl
  | cons c cs => cases c <;> rfl

/-- Where a line has just ended, the end of another changes nothing. -/
theorem step_newline_newline (r : Reader) (line line' : Nat) :
    (r.step ⟨.newline, line⟩).step ⟨.newline, line'⟩ = r.step ⟨.newline, line⟩ := by
  have settled : r.endCalls.breakLine.Settled := (settled_leave r r.stack none).breakLine
  rw [step_newline, step_newline, settled.endCalls, breakLine_breakLine]

theorem read_newline {t : Token} (ht : t.kind = .newline) (r : Reader) (ts : List Token) :
    r.read (t :: ts) = (r.step ⟨.newline, t.line⟩).read ts := by
  rw [read_other (by simp [ht]), ← ht]

theorem read_squeezed (r : Reader) (ts : List Token) :
    (r.read (Token.squeezed ts)).1 = (r.read ts).1 := by
  fun_induction Token.squeezed ts generalizing r with
  | case1 => rfl
  | case2 t => rfl
  | case3 t u ts h ih =>
    -- the first of two newlines is skipped, and reading it would have made no difference
    rw [ih r, read_newline h.1, read_newline h.2, read_newline h.2, step_newline_newline,
      step_newline, step_newline]
  | case4 t u ts h ih =>
    cases hk : t.kind with
    | closer g =>
      rw [read_closer hk, read_closer hk]
      split
      · exact ih (r.step t)
      · rfl
    | newline | opener | string | number | key | word =>
      rw [read_other (by simp [hk]), read_other (by simp [hk])]
      exact ih (r.step t)

end Reader

theorem parse_squeezed (ts : List Token) : parse (Token.squeezed ts) = parse ts := by
  rw [parse_eq, parse_eq, Reader.read_squeezed]

/-- **Blank lines do not matter**: tokens that are the same but for lines, once runs of newlines are
squeezed, are read as the same statements with the same faults, but for lines. -/
theorem parse_blank_lines {ts us : List Token}
    (h : Token.squeezed (erase ts) = Token.squeezed (erase us)) :
    erase (parse ts).1 = erase (parse us).1 ∧ erase (parse ts).2 = erase (parse us).2 := by
  have same : erase (parse ts) = erase (parse us) := calc
    erase (parse ts) = parse (erase ts) := (parse_renumber _ ts).symm
    _ = parse (Token.squeezed (erase ts)) := (parse_squeezed _).symm
    _ = parse (Token.squeezed (erase us)) := by rw [h]
    _ = parse (erase us) := parse_squeezed _
    _ = erase (parse us) := parse_renumber _ us
  exact Prod.mk.inj same

/-- A mapping that drops a pair whose collection lacks its bracket, and a scope with the bracket of
a collection; each line of it once with and once without blank lines after it. -/
theorem parse_blank_lines_recovery :
    ∃ ts us, Token.lex "\x7b1\n[2\n\x7d (f\nx]" = .ok ts ∧
      Token.lex "\x7b1\n\n\n[2\n\n\x7d (f\n\nx]" = .ok us ∧
      (parse ts).2 = [.missingClosing .collection 2, .invalidKey "1" 1,
        .mismatchedClosing .collection .scope 4] ∧
      (parse us).2 = [.missingClosing .collection 4, .invalidKey "1" 1,
        .mismatchedClosing .collection .scope 8] ∧
      Token.squeezed (erase ts) = Token.squeezed (erase us) ∧
      erase (parse ts).1 = erase (parse us).1 ∧ erase (parse ts).2 = erase (parse us).2 := by
  have computed : (Token.lex "\x7b1\n[2\n\x7d (f\nx]").toOption.bind (fun ts =>
      (Token.lex "\x7b1\n\n\n[2\n\n\x7d (f\n\nx]").toOption.map fun us => ((parse ts).2,
        (parse us).2, decide (Token.squeezed (erase ts) = Token.squeezed (erase us)))) =
      some ([.missingClosing .collection 2, .invalidKey "1" 1,
          .mismatchedClosing .collection .scope 4],
        [.missingClosing .collection 4, .invalidKey "1" 1,
          .mismatchedClosing .collection .scope 8], true) := by decide +kernel
  cases ha : Token.lex "\x7b1\n[2\n\x7d (f\nx]" with
  | error e => rw [ha] at computed; cases computed
  | ok ts =>
    cases hb : Token.lex "\x7b1\n\n\n[2\n\n\x7d (f\n\nx]" with
    | error e => rw [ha, hb] at computed; cases computed
    | ok us =>
      rw [ha, hb] at computed
      simp only [Except.toOption, Option.bind_some, Option.map_some, Option.some.injEq,
        Prod.mk.injEq, decide_eq_true_eq] at computed
      obtain ⟨first, second, same⟩ := computed
      exact ⟨ts, us, rfl, rfl, first, second, same, parse_blank_lines same⟩

end Sigil
