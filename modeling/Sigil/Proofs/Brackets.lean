import Sigil.Node.Error
import Sigil.Token

/-!
# Scanning brackets

`Brackets.scan` finds the faults of brackets in tokens by looking at nothing else: it keeps a stack
of the groups that are open, each with the line where it starts. `Brackets.Balanced` is the grammar
of brackets that match. The scan is silent exactly on tokens whose brackets are balanced
(`scan_eq_nil_iff`), and finds at most one fatal fault (`fatal_scan`).
-/

namespace Sigil

/-- A fault of brackets, rather than of a mapping. -/
def ParseError.isBracket : ParseError → Bool
  | missingClosing .. | unclosed .. | mismatchedClosing .. | unexpectedClosing .. => true
  | invalidKey .. | missingValue .. => false

theorem ParseError.isBracket_and_isFatal (e : ParseError) :
    (e.isBracket && e.isFatal) = e.isFatal := by
  cases e <;> rfl

namespace Brackets

/-- What a closing bracket finds, and the groups that are open after it. It closes the innermost
group if it is of its kind. Otherwise that group lacks its bracket if a group around it is of the
kind, and then the bracket is tried on the next group; and if none is, it is taken for the bracket
of the innermost group. Where no group is open, the scan ends. -/
def close (found : Group) (line : Nat) :
    List (Group × Nat) → List ParseError × Option (List (Group × Nat))
  | [] => ([.unexpectedClosing found line], none)
  | (g, start) :: rest =>
    if g = found then ([], some rest)
    else if rest.any (·.1 = found) then
      ((.missingClosing g start) :: (close found line rest).1, (close found line rest).2)
    else ([.mismatchedClosing found g line], some rest)

/-- At the end of the tokens only the innermost group is at fault. -/
def unclosed : List (Group × Nat) → List ParseError
  | [] => []
  | (g, start) :: _ => [.unclosed g start]

theorem reverse_unclosed {stack : List (Group × Nat)} :
    (unclosed stack).reverse = unclosed stack := by
  cases stack <;> rfl

/-- The faults of brackets in tokens, for the groups that are open before them, innermost first. -/
def scan : List (Group × Nat) → List Token → List ParseError
  | stack, [] => unclosed stack
  | stack, t :: ts =>
    match t.kind with
    | .opener g => scan ((g, t.line) :: stack) ts
    | .closer g =>
      match close g t.line stack with
      | (faults, some rest) => faults ++ scan rest ts
      | (faults, none) => faults
    | _ => scan stack ts

/-- A token that is a bracket. -/
def isBracket : Token.Kind → Bool
  | .opener _ | .closer _ => true
  | .newline | .string _ | .number _ | .key _ | .word _ => false

section

variable {stack : List (Group × Nat)} {t : Token} {g : Group}

theorem scan_opener (ht : t.kind = .opener g) (ts : List Token) :
    scan stack (t :: ts) = scan ((g, t.line) :: stack) ts := by
  simp only [scan, ht]

theorem scan_closer_nil (ht : t.kind = .closer g) (ts : List Token) :
    scan [] (t :: ts) = [.unexpectedClosing g t.line] := by
  simp only [scan, ht, close]

theorem scan_closer {rest : List (Group × Nat)} (ht : t.kind = .closer g)
    (hc : (close g t.line stack).2 = some rest) (ts : List Token) :
    scan stack (t :: ts) = (close g t.line stack).1 ++ scan rest ts := by
  simp only [scan, ht]
  split
  · next e => rw [e] at hc ⊢; cases hc; rfl
  · next e => rw [e] at hc; cases hc

theorem scan_other (ht : isBracket t.kind = false) (ts : List Token) :
    scan stack (t :: ts) = scan stack ts := by
  rw [scan]
  split
  · next hk => rw [hk] at ht; cases ht
  · next hk => rw [hk] at ht; cases ht
  · rfl

end

/-! ## Fatal faults -/

/-- Where a group is open a closing bracket never ends the scan. -/
theorem close_of_ne_nil (found : Group) (line : Nat) {stack : List (Group × Nat)}
    (h : stack ≠ []) :
    (∃ rest, (close found line stack).2 = some rest) ∧
      ∀ e ∈ (close found line stack).1, e.isFatal = false := by
  induction stack with
  | nil => exact absurd rfl h
  | cons p rest ih =>
    obtain ⟨g, start⟩ := p
    unfold close
    split
    · exact ⟨⟨rest, rfl⟩, List.forall_mem_nil _⟩
    split
    · next ha =>
      obtain ⟨hs, hf⟩ := ih (by rintro rfl; cases ha)
      exact ⟨hs, List.forall_mem_cons.2 ⟨rfl, hf⟩⟩
    · exact ⟨⟨rest, rfl⟩, fun e he => by rw [List.mem_singleton.1 he]; rfl⟩

/-- A scan finds at most one fatal fault. -/
theorem fatal_scan (stack : List (Group × Nat)) (ts : List Token) :
    ((scan stack ts).filter ParseError.isFatal).length ≤ 1 := by
  induction ts generalizing stack with
  | nil =>
    cases stack with
    | nil => exact Nat.zero_le 1
    | cons p rest => exact Nat.le_refl 1
  | cons t ts ih =>
    cases hk : t.kind with
    | opener g => rw [scan_opener hk]; exact ih _
    | closer g =>
      cases stack with
      | nil => rw [scan_closer_nil hk]; exact Nat.le_refl 1
      | cons p rest =>
        obtain ⟨⟨left, hl⟩, hf⟩ := close_of_ne_nil g t.line (List.cons_ne_nil p rest)
        have none : (close g t.line (p :: rest)).1.filter ParseError.isFatal = [] :=
          List.filter_eq_nil_iff.2 fun e he => by simp [hf e he]
        rw [scan_closer hk hl, List.filter_append, none]
        exact ih left
    | newline | string | number | key | word => rw [scan_other (by rw [hk]; rfl)]; exact ih stack

/-! ## Balanced brackets -/

/-- Brackets that match. -/
inductive Balanced : List Token.Kind → Prop where
  | nil : Balanced []
  | group {g : Group} {xs ys : List Token.Kind} : Balanced xs → Balanced ys →
      Balanced (.opener g :: (xs ++ .closer g :: ys))

theorem Balanced.append {xs ys : List Token.Kind} (hx : Balanced xs) (hy : Balanced ys) :
    Balanced (xs ++ ys) := by
  induction hx with
  | nil => exact hy
  | group hx _ _ ih =>
    rw [List.cons_append, List.append_assoc, List.cons_append]
    exact .group hx ih

/-- The brackets among tokens. -/
def ofTokens (ts : List Token) : List Token.Kind :=
  (ts.map (·.kind)).filter isBracket

/-- Brackets that close the given open groups, the first of them first, and match in between. -/
def Closes : List Group → List Token.Kind → Prop
  | [], bs => Balanced bs
  | g :: gs, bs => ∃ xs ys, bs = xs ++ .closer g :: ys ∧ Balanced xs ∧ Closes gs ys

theorem not_balanced_closer {g : Group} {bs : List Token.Kind} : ¬ Balanced (.closer g :: bs) :=
  fun h => by cases h

theorem closes_opener {g : Group} {gs : List Group} {bs : List Token.Kind} :
    Closes gs (.opener g :: bs) ↔ Closes (g :: gs) bs := by
  cases gs with
  | nil =>
    constructor
    · intro h
      cases h with
      | group hx hy => exact ⟨_, _, rfl, hx, hy⟩
    · rintro ⟨xs, ys, rfl, hx, hy⟩
      exact .group hx hy
  | cons k gs =>
    constructor
    · rintro ⟨xs, ys, e, hx, hy⟩
      cases hx with
      | nil => cases e
      | group hx₁ hx₂ =>
        cases e
        exact ⟨_, _, by simp, hx₁, _, _, rfl, hx₂, hy⟩
    · rintro ⟨xs, ys, rfl, hx, zs, ws, rfl, hz, hw⟩
      exact ⟨.opener g :: (xs ++ .closer g :: zs), ws, by simp, .group hx hz, hw⟩

theorem closes_closer {g k : Group} {gs : List Group} {bs : List Token.Kind} :
    Closes (k :: gs) (.closer g :: bs) ↔ k = g ∧ Closes gs bs := by
  constructor
  · rintro ⟨xs, ys, e, hx, hy⟩
    cases hx with
    | nil => cases e; exact ⟨rfl, hy⟩
    | group => cases e
  · rintro ⟨rfl, h⟩
    exact ⟨[], bs, rfl, .nil, h⟩

theorem ofTokens_cons (t : Token) (ts : List Token) :
    ofTokens (t :: ts) = if isBracket t.kind then t.kind :: ofTokens ts else ofTokens ts := by
  simp [ofTokens, List.filter_cons]

/-- A closing bracket is silent exactly if it is that of the innermost group. -/
theorem close_fst_eq_nil_iff {found k : Group} {line start : Nat} {rest : List (Group × Nat)} :
    (close found line ((k, start) :: rest)).1 = [] ↔ k = found := by
  unfold close
  split
  · next hk => exact ⟨fun _ => hk, fun _ => rfl⟩
  · next hk =>
    refine ⟨fun h => ?_, fun h => absurd h hk⟩
    split at h <;> cases h

/-- A scan is silent exactly if the brackets close what is open and match otherwise. -/
theorem scan_eq_nil_iff {stack : List (Group × Nat)} {ts : List Token} :
    scan stack ts = [] ↔ Closes (stack.map (·.1)) (ofTokens ts) := by
  induction ts generalizing stack with
  | nil =>
    cases stack with
    | nil => exact ⟨fun _ => .nil, fun _ => rfl⟩
    | cons p rest =>
      refine ⟨fun h => (by cases h), ?_⟩
      rintro ⟨xs, ys, e, -⟩
      cases xs <;> cases e
  | cons t ts ih =>
    rw [ofTokens_cons]
    cases hk : t.kind with
    | opener g => rw [scan_opener hk, ih]; exact closes_opener.symm
    | closer g =>
      cases stack with
      | nil =>
        rw [scan_closer_nil hk]
        exact ⟨fun h => (by cases h), fun h => (not_balanced_closer h).elim⟩
      | cons p rest =>
        obtain ⟨k, start⟩ := p
        obtain ⟨⟨left, hl⟩, -⟩ := close_of_ne_nil g t.line (List.cons_ne_nil (k, start) rest)
        rw [scan_closer hk hl, List.append_eq_nil_iff, close_fst_eq_nil_iff, ih]
        refine Iff.trans ⟨?_, ?_⟩ closes_closer.symm
        all_goals
          rintro ⟨rfl, h⟩
          simp only [close, ↓reduceIte, Option.some.injEq] at hl
          subst hl
          exact ⟨rfl, h⟩
    | newline | string | number | key | word => rw [scan_other (by rw [hk]; rfl)]; exact ih

theorem scan_nil_eq_nil_iff {ts : List Token} : scan [] ts = [] ↔ Balanced (ofTokens ts) :=
  scan_eq_nil_iff

end Brackets

end Sigil
