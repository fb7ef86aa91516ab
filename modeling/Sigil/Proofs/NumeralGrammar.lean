import Sigil.Proofs.ReadBack

/-!
# Which atoms are numerals

`Numeral.Specified` is the grammar of numerals: decimals `-?\d*\.?\d+`, and whole numbers
`0x[0-9A-Fa-f]+` and `0b[01]+` of any size. What is read differs from it for whole numbers with a
mark, in two ways and no other (`isSome_read?_iff`). One that does not fit in 64 bits with a sign is
no numeral (`Oversized`); and after the mark there may be a sign (`Signed`), which the grammar does
not have.
-/

namespace Sigil

namespace Numeral

/-! ## The grammar -/

/-- A digit of base 16. -/
def isHexDigit (c : Char) : Bool :=
  c.isDigit || ('a' ≤ c && c ≤ 'f') || ('A' ≤ c && c ≤ 'F')

/-- A digit of base 2. -/
def isBinaryDigit (c : Char) : Bool :=
  c == '0' || c == '1'

/-- What a numeral looks like. -/
inductive Specified : List Char → Prop where
  | decimal {sign whole point fraction : List Char} (hs : sign = [] ∨ sign = ['-'])
      (hw : ∀ c ∈ whole, c.isDigit = true) (hp : point = [] ∨ point = ['.'])
      (hf : ∀ c ∈ fraction, c.isDigit = true) (hne : fraction ≠ []) :
      Specified (sign ++ whole ++ point ++ fraction)
  | hexadecimal {digits : List Char} (hd : ∀ c ∈ digits, isHexDigit c = true)
      (hne : digits ≠ []) : Specified ('0' :: 'x' :: digits)
  | binary {digits : List Char} (hd : ∀ c ∈ digits, isBinaryDigit c = true)
      (hne : digits ≠ []) : Specified ('0' :: 'b' :: digits)

/-- The marks of whole numbers, and their bases. -/
def marks : List (Char × Nat) :=
  [('x', 16), ('b', 2)]

theorem mem_marks_iff {mark : Char} {base : Nat} :
    (mark, base) ∈ marks ↔ mark = 'x' ∧ base = 16 ∨ mark = 'b' ∧ base = 2 := by
  simp [marks]

/-- A whole number with a mark that is too large for 64 bits with a sign. -/
def Oversized (cs : List Char) : Prop :=
  ∃ mark base digits n, (mark, base) ∈ marks ∧ cs = '0' :: mark :: digits ∧
    natural? base digits = some n ∧ 2 ^ 63 ≤ n

/-- A whole number with a sign after its mark that fits in 64 bits. -/
def Signed (cs : List Char) : Prop :=
  ∃ mark base sign digits n, (mark, base) ∈ marks ∧ cs = '0' :: mark :: sign :: digits ∧
    natural? base digits = some n ∧ (sign = '+' ∧ n < 2 ^ 63 ∨ sign = '-' ∧ n ≤ 2 ^ 63)

/-! ## Digits -/

theorem char_le_iff {c d : Char} : c ≤ d ↔ c.toNat ≤ d.toNat := .rfl

theorem isSome_filter_some {n base : Nat} : ((some n).filter (· < base)).isSome ↔ n < base := by
  by_cases h : n < base <;> simp [Option.filter, h]

/-- The codes of the digits: those from `0` up, and from ten on those from `a` or `A` up. -/
theorem isSome_digit?_iff {base : Nat} {c : Char} :
    (digit? base c).isSome ↔
      (48 ≤ c.toNat ∧ c.toNat ≤ 57 ∧ c.toNat < base + 48) ∨
      (97 ≤ c.toNat ∧ c.toNat ≤ 102 ∧ c.toNat < base + 87) ∨
      (65 ≤ c.toNat ∧ c.toNat ≤ 70 ∧ c.toNat < base + 55) := by
  unfold digit?
  simp only [char_le_iff, Char.reduceToNat]
  split
  · rw [isSome_filter_some]
    omega
  split
  · rw [isSome_filter_some]
    omega
  split
  · rw [isSome_filter_some]
    omega
  · simp only [Option.filter_none, Option.isSome_none, Bool.false_eq_true, false_iff]
    omega

theorem isSome_digit?_ten {c : Char} : (digit? 10 c).isSome ↔ c.isDigit = true := by
  simp only [isSome_digit?_iff, Char.isDigit_iff_toNat, Char.reduceToNat]
  omega

theorem isSome_digit?_sixteen {c : Char} : (digit? 16 c).isSome ↔ isHexDigit c = true := by
  simp only [isHexDigit, Bool.or_eq_true, Bool.and_eq_true, decide_eq_true_eq, char_le_iff,
    Char.reduceToNat, Char.isDigit_iff_toNat, isSome_digit?_iff]
  omega

theorem isSome_digit?_two {c : Char} : (digit? 2 c).isSome ↔ isBinaryDigit c = true := by
  simp only [isBinaryDigit, Bool.or_eq_true, beq_iff_eq, isSome_digit?_iff, ← Char.toNat_inj,
    Char.reduceToNat]
  omega

theorem isSome_digitsFrom?_iff {base acc : Nat} {cs : List Char} :
    (digitsFrom? base acc cs).isSome ↔ ∀ c ∈ cs, (digit? base c).isSome := by
  induction cs generalizing acc with
  | nil => simp [digitsFrom?]
  | cons c cs ih =>
    rw [digitsFrom?, List.forall_mem_cons]
    cases h : digit? base c with
    | none => simp
    | some d => simp [ih]

theorem isSome_natural?_iff {base : Nat} {cs : List Char} :
    (natural? base cs).isSome ↔ (∀ c ∈ cs, (digit? base c).isSome) ∧ cs ≠ [] := by
  unfold natural?
  cases cs with
  | nil => simp
  | cons c cs => simp [isSome_digitsFrom?_iff]

/-! ## Decimals -/

/-- A decimal without its sign. -/
def Unsigned (cs : List Char) : Prop :=
  ∃ whole point fraction, cs = whole ++ point ++ fraction ∧ (∀ c ∈ whole, c.isDigit = true) ∧
    (point = [] ∨ point = ['.']) ∧ (∀ c ∈ fraction, c.isDigit = true) ∧ fraction ≠ []

theorem unsigned_of_isSome {cs : List Char} (h : (unsigned? cs).isSome) : Unsigned cs := by
  have split_at : cs.takeWhile (· ≠ '.') ++ cs.dropWhile (· ≠ '.') = cs :=
    List.takeWhile_append_dropWhile
  unfold unsigned? at h
  dsimp only at h
  split at h
  · next rest =>
    rw [rest, List.append_nil] at split_at
    rw [Option.isSome_map, isSome_natural?_iff, split_at] at h
    exact ⟨[], [], cs, rfl, List.forall_mem_nil _, .inl rfl,
      fun c hc => isSome_digit?_ten.1 (h.1 c hc), h.2⟩
  · next p fraction rest =>
    -- the first character that is not passed over is a point
    have point : p = '.' := by
      have first := List.head?_dropWhile_not (· ≠ '.') cs
      rw [rest] at first
      simpa using first
    split at h
    · cases h
    · next hne =>
      rw [Option.isSome_map, isSome_digitsFrom?_iff, List.forall_mem_append] at h
      rw [rest, point] at split_at
      refine ⟨_, ['.'], fraction, by simpa using split_at.symm,
        fun c hc => isSome_digit?_ten.1 (h.1 c hc), .inr rfl,
        fun c hc => isSome_digit?_ten.1 (h.2 c hc), by simpa using hne⟩

theorem isSome_unsigned?_iff {cs : List Char} : (unsigned? cs).isSome ↔ Unsigned cs := by
  refine ⟨unsigned_of_isSome, ?_⟩
  rintro ⟨whole, point, fraction, rfl, hw, rfl | rfl, hf, hne⟩
  · have digits : ∀ c ∈ whole ++ fraction, c.isDigit = true := List.forall_mem_append.2 ⟨hw, hf⟩
    rw [List.append_nil, unsigned?_whole (by simp [hne]) digits]
    rfl
  · rw [List.append_assoc, List.singleton_append, unsigned?_point hw hf hne]
    rfl

theorem Unsigned.digit_or_point {cs : List Char} (h : Unsigned cs) :
    ∀ c ∈ cs, c.isDigit = true ∨ c = '.' := by
  obtain ⟨whole, point, fraction, rfl, hw, hp, hf, -⟩ := h
  simp only [List.forall_mem_append]
  refine ⟨⟨fun c hc => .inl (hw c hc), fun c hc => .inr ?_⟩, fun c hc => .inl (hf c hc)⟩
  rcases hp with rfl | rfl
  · cases hc
  · exact List.mem_singleton.1 hc

/-- A decimal: a sign or none, and the rest. -/
def IsDecimal (cs : List Char) : Prop :=
  ∃ sign rest, cs = sign ++ rest ∧ (sign = [] ∨ sign = ['-']) ∧ Unsigned rest

theorem isSome_decimal?_iff {cs : List Char} : (decimal? cs).isSome ↔ IsDecimal cs := by
  unfold decimal?
  split
  · next rest =>
    rw [Option.isSome_map, isSome_unsigned?_iff]
    refine ⟨fun h => ⟨['-'], rest, rfl, .inr rfl, h⟩, ?_⟩
    rintro ⟨sign, other, e, rfl | rfl, h⟩
    · subst e
      exact absurd (h.digit_or_point '-' (by simp)) (by decide)
    · cases e
      exact h
  · next minus =>
    rw [isSome_unsigned?_iff]
    refine ⟨fun h => ⟨[], cs, rfl, .inl rfl, h⟩, ?_⟩
    rintro ⟨sign, rest, e, rfl | rfl, h⟩
    · cases e
      exact h
    · exact absurd e (minus rest)

theorem IsDecimal.specified {cs : List Char} (h : IsDecimal cs) : Specified cs := by
  obtain ⟨sign, rest, rfl, hs, whole, point, fraction, rfl, hw, hp, hf, hne⟩ := h
  rw [← List.append_assoc, ← List.append_assoc]
  exact .decimal hs hw hp hf hne

theorem IsDecimal.chars {cs : List Char} (h : IsDecimal cs) :
    ∀ c ∈ cs, c.isDigit = true ∨ c = '.' ∨ c = '-' := by
  obtain ⟨sign, rest, rfl, hs, hr⟩ := h
  rw [List.forall_mem_append]
  constructor
  · intro c hc
    rcases hs with rfl | rfl
    · cases hc
    · exact .inr (.inr (List.mem_singleton.1 hc))
  · intro c hc
    exact (hr.digit_or_point c hc).imp_right .inl

/-- A numeral is a decimal, or a whole number with a mark. -/
theorem Specified.cases_mark {cs : List Char} (h : Specified cs) :
    IsDecimal cs ∨ ∃ mark base digits, (mark, base) ∈ marks ∧ cs = '0' :: mark :: digits ∧
      (natural? base digits).isSome := by
  cases h with
  | @decimal sign whole point fraction hs hw hp hf hne =>
    refine .inl ⟨sign, whole ++ point ++ fraction, ?_, hs, whole, point, fraction, rfl, hw, hp, hf,
      hne⟩
    rw [List.append_assoc, List.append_assoc, List.append_assoc]
  | @hexadecimal digits hd hne =>
    refine .inr ⟨'x', 16, digits, by simp [marks], rfl, isSome_natural?_iff.2 ⟨?_, hne⟩⟩
    exact fun c hc => isSome_digit?_sixteen.2 (hd c hc)
  | @binary digits hd hne =>
    refine .inr ⟨'b', 2, digits, by simp [marks], rfl, isSome_natural?_iff.2 ⟨?_, hne⟩⟩
    exact fun c hc => isSome_digit?_two.2 (hd c hc)

/-! ## Whole numbers with a mark -/

section

variable {mark : Char} {base : Nat} {rest : List Char}

theorem base_unique {base' : Nat} (h : (mark, base) ∈ marks) (h' : (mark, base') ∈ marks) :
    base = base' := by
  rcases mem_marks_iff.1 h with ⟨rfl, rfl⟩ | ⟨rfl, rfl⟩
  · simpa [eq_comm] using mem_marks_iff.1 h'
  · simpa [eq_comm] using mem_marks_iff.1 h'

theorem read?_mark (h : (mark, base) ∈ marks) :
    read? ('0' :: mark :: rest) = (whole? base rest).map Float.ofInt := by
  rcases mem_marks_iff.1 h with ⟨rfl, rfl⟩ | ⟨rfl, rfl⟩ <;> rfl

theorem not_isDecimal_mark (h : (mark, base) ∈ marks) : ¬IsDecimal ('0' :: mark :: rest) := by
  intro decimal
  have char := decimal.chars mark (by simp)
  rcases mem_marks_iff.1 h with ⟨rfl, -⟩ | ⟨rfl, -⟩ <;> exact absurd char (by decide)

theorem specified_mark_iff (h : (mark, base) ∈ marks) :
    Specified ('0' :: mark :: rest) ↔ (natural? base rest).isSome := by
  constructor
  · intro specified
    rcases specified.cases_mark with decimal | ⟨mark', base', digits, h', e, digits_ok⟩
    · exact absurd decimal (not_isDecimal_mark h)
    · cases e
      rwa [base_unique h h']
  · intro some_digits
    obtain ⟨hd, hne⟩ := isSome_natural?_iff.1 some_digits
    rcases mem_marks_iff.1 h with ⟨rfl, rfl⟩ | ⟨rfl, rfl⟩
    · exact .hexadecimal (fun c hc => isSome_digit?_sixteen.1 (hd c hc)) hne
    · exact .binary (fun c hc => isSome_digit?_two.1 (hd c hc)) hne

theorem oversized_mark_iff (h : (mark, base) ∈ marks) :
    Oversized ('0' :: mark :: rest) ↔ ∃ n, natural? base rest = some n ∧ 2 ^ 63 ≤ n := by
  constructor
  · rintro ⟨mark', base', digits, n, h', e, hn⟩
    cases e
    rw [base_unique h h']
    exact ⟨n, hn⟩
  · rintro ⟨n, hn⟩
    exact ⟨mark, base, rest, n, h, rfl, hn⟩

theorem signed_mark_iff (h : (mark, base) ∈ marks) :
    Signed ('0' :: mark :: rest) ↔ ∃ sign digits n, rest = sign :: digits ∧
      natural? base digits = some n ∧ (sign = '+' ∧ n < 2 ^ 63 ∨ sign = '-' ∧ n ≤ 2 ^ 63) := by
  constructor
  · rintro ⟨mark', base', sign, digits, n, h', e, hn⟩
    cases e
    rw [base_unique h h']
    exact ⟨sign, digits, n, rfl, hn⟩
  · rintro ⟨sign, digits, n, rfl, hn⟩
    exact ⟨mark, base, sign, digits, n, h, rfl, hn⟩

/-- A sign is no digit. -/
theorem natural?_sign {sign : Char} (hs : sign = '+' ∨ sign = '-') (digits : List Char) :
    natural? base (sign :: digits) = none := by
  rw [← Option.not_isSome_iff_eq_none, isSome_natural?_iff]
  rintro ⟨hd, -⟩
  have code := isSome_digit?_iff.1 (hd sign List.mem_cons_self)
  rcases hs with rfl | rfl <;> simp only [Char.reduceToNat] at code <;> omega

/-- What fits in 64 bits with a sign. -/
theorem isSome_fitting {n? : Option Nat} {f : Int → Int} :
    (((do return (← n?)).map f).filter fun n =>
      Int64.minValue.toInt ≤ n && n ≤ Int64.maxValue.toInt).isSome ↔
      ∃ n : Nat, n? = some n ∧ -2 ^ 63 ≤ f n ∧ f n < 2 ^ 63 := by
  have least : Int64.minValue.toInt = -2 ^ 63 := rfl
  have greatest : Int64.maxValue.toInt = 2 ^ 63 - 1 := rfl
  cases n? with
  | none => simp
  | some n =>
    simp only [Option.bind_eq_bind, Option.bind_some, Option.pure_def, Option.map_some,
      Option.isSome_filter, Option.any_some, Bool.and_eq_true, decide_eq_true_eq, least, greatest,
      Option.some.injEq, exists_eq_left']
    omega

/-- What is read after a mark: digits, or a sign and digits, of a number that fits in 64 bits. -/
theorem isSome_whole?_iff :
    (whole? base rest).isSome ↔ (∃ n, natural? base rest = some n ∧ n < 2 ^ 63) ∨
      ∃ sign digits n, rest = sign :: digits ∧ natural? base digits = some n ∧
        (sign = '+' ∧ n < 2 ^ 63 ∨ sign = '-' ∧ n ≤ 2 ^ 63) := by
  unfold whole?
  dsimp only
  split
  · next digits =>
    rw [isSome_fitting, natural?_sign (.inr rfl)]
    constructor
    · rintro ⟨n, hn, low, -⟩
      exact .inr ⟨'-', digits, n, rfl, hn, .inr ⟨rfl, by omega⟩⟩
    · rintro (⟨n, hn, -⟩ | ⟨sign, ds, n, e, hn, ⟨rfl, -⟩ | ⟨rfl, fits⟩⟩)
      · cases hn
      · cases e
      · cases e
        exact ⟨n, hn, by omega, by omega⟩
  · next digits =>
    rw [isSome_fitting, natural?_sign (.inl rfl)]
    constructor
    · rintro ⟨n, hn, -, high⟩
      exact .inr ⟨'+', digits, n, rfl, hn, .inl ⟨rfl, by omega⟩⟩
    · rintro (⟨n, hn, -⟩ | ⟨sign, ds, n, e, hn, ⟨rfl, fits⟩ | ⟨rfl, -⟩⟩)
      · cases hn
      · cases e
        exact ⟨n, hn, by omega, by omega⟩
      · cases e
  · next minus plus =>
    rw [isSome_fitting]
    constructor
    · rintro ⟨n, hn, -, high⟩
      exact .inl ⟨n, hn, by omega⟩
    · rintro (⟨n, hn, fits⟩ | ⟨sign, digits, n, e, -, ⟨rfl, -⟩ | ⟨rfl, -⟩⟩)
      · exact ⟨n, hn, by omega, by omega⟩
      · exact absurd e (plus digits)
      · exact absurd e (minus digits)

end

/-! ## What is read -/

theorem isSome_read?_mark {mark : Char} {base : Nat} {rest : List Char}
    (h : (mark, base) ∈ marks) :
    (read? ('0' :: mark :: rest)).isSome ↔
      Specified ('0' :: mark :: rest) ∧ ¬Oversized ('0' :: mark :: rest) ∨
        Signed ('0' :: mark :: rest) := by
  rw [read?_mark h, Option.isSome_map, isSome_whole?_iff, specified_mark_iff h,
    oversized_mark_iff h, signed_mark_iff h]
  refine or_congr_left ?_
  cases natural? base rest with
  | none => simp
  | some n => simp

theorem isSome_read?_of_not_mark {cs : List Char}
    (h : ∀ mark base rest, (mark, base) ∈ marks → cs ≠ '0' :: mark :: rest) :
    (read? cs).isSome ↔ Specified cs ∧ ¬Oversized cs ∨ Signed cs := by
  have read : read? cs = decimal? cs := by
    unfold read?
    split
    · exact absurd rfl (h 'x' 16 _ (by simp [marks]))
    · exact absurd rfl (h 'b' 2 _ (by simp [marks]))
    · rfl
  rw [read, isSome_decimal?_iff]
  constructor
  · intro decimal
    refine .inl ⟨decimal.specified, ?_⟩
    rintro ⟨mark, base, digits, n, hm, e, -⟩
    exact h mark base digits hm e
  · rintro (⟨specified, -⟩ | ⟨mark, base, sign, digits, n, hm, e, -⟩)
    · rcases specified.cases_mark with decimal | ⟨mark, base, digits, hm, e, -⟩
      · exact decimal
      · exact absurd e (h mark base digits hm)
    · exact absurd e (h mark base (sign :: digits) hm)

/-- A text is read as a number if and only if it is a numeral of the grammar that fits, or a whole
number with a sign after its mark. -/
theorem isSome_read?_iff (cs : List Char) :
    (read? cs).isSome ↔ Specified cs ∧ ¬Oversized cs ∨ Signed cs := by
  by_cases h : ∃ mark base rest, (mark, base) ∈ marks ∧ cs = '0' :: mark :: rest
  · obtain ⟨mark, base, rest, hm, rfl⟩ := h
    exact isSome_read?_mark hm
  · exact isSome_read?_of_not_mark fun mark base rest hm e => h ⟨mark, base, rest, hm, e⟩

theorem isDelimiter_of_isSome_digit? {base : Nat} {c : Char} (h : (digit? base c).isSome) :
    Token.isDelimiter c = false := by
  have codes : ∀ n < 103, (48 ≤ n ∧ n ≤ 57 ∨ 65 ≤ n ∧ n ≤ 70 ∨ 97 ≤ n) →
      Token.isDelimiter (Char.ofNat n) = false := by decide
  rw [isSome_digit?_iff] at h
  rw [← Char.ofNat_toNat c]
  exact codes c.toNat (by omega) (by omega)

theorem isAtom_mark {mark : Char} {base : Nat} {rest : List Char} (h : (mark, base) ∈ marks)
    (hr : ∀ c ∈ rest, Token.isDelimiter c = false) : Token.IsAtom [] ('0' :: mark :: rest) [] := by
  have hm : Token.isDelimiter mark = false := by
    rcases mem_marks_iff.1 h with ⟨rfl, -⟩ | ⟨rfl, -⟩ <;> rfl
  refine .alone (List.cons_ne_nil _ _) (List.forall_mem_cons.2 ⟨rfl, ?_⟩) (by rintro c ⟨⟩; rfl)
  exact List.forall_mem_cons.2 ⟨hm, hr⟩

theorem IsDecimal.isAtom {cs : List Char} (h : IsDecimal cs) (hne : cs ≠ []) :
    Token.IsAtom [] cs [] := by
  have plain : ∀ c ∈ cs, Token.isDelimiter c = false ∧ Text.isControl c = false := by
    intro c hc
    refine Token.isDelimiter_of_isNumeralChar ?_
    simpa [Number.isNumeralChar, or_assoc] using h.chars c hc
  exact .alone hne (fun c hc => (plain c hc).1)
    fun c hc => (plain c (List.mem_of_mem_head? hc)).2

/-- What is read as a number is an atom. -/
theorem isAtom_of_isSome_read? {cs : List Char} (h : (read? cs).isSome) :
    Token.IsAtom [] cs [] := by
  rcases (isSome_read?_iff cs).1 h with
    ⟨specified, -⟩ | ⟨mark, base, sign, digits, n, hm, rfl, hn, hs⟩
  · rcases specified.cases_mark with decimal | ⟨mark, base, digits, hm, rfl, hd⟩
    · refine decimal.isAtom ?_
      rintro rfl
      cases h
    · exact isAtom_mark hm fun c hc =>
        isDelimiter_of_isSome_digit? ((isSome_natural?_iff.1 hd).1 c hc)
  · have digits_ok := isSome_natural?_iff.1 (Option.isSome_iff_exists.2 ⟨n, hn⟩)
    refine isAtom_mark hm (List.forall_mem_cons.2 ⟨?_, fun c hc => ?_⟩)
    · rcases hs with ⟨rfl, -⟩ | ⟨rfl, -⟩ <;> rfl
    · exact isDelimiter_of_isSome_digit? (digits_ok.1 c hc)

end Numeral

namespace Token

theorem Kind.ofAtom_eq_number_iff {cs : List Char} {x : Float} :
    ofAtom cs = .number x ↔ Numeral.read? cs = some x := by
  unfold ofAtom
  split
  · next h => rw [h, Option.some.injEq, number.injEq]
  · next h =>
    rw [h]
    split <;> simp

/-- An atom alone is one token. -/
theorem lex_atom {cs : List Char} (h : IsAtom [] cs []) :
    ∃ line, lex (String.ofList cs) = .ok [⟨.ofAtom cs, line⟩] := by
  have lexes : Lexes (String.ofList cs).toList [.ofAtom cs] := by
    rw [String.toList_ofList]
    exact h.lexes
  obtain ⟨ts, hl, hk⟩ := lexes.lex
  obtain ⟨t, rfl, kind⟩ := List.map_eq_singleton_iff.1 hk
  exact ⟨t.line, hl.trans (by rw [← kind])⟩

theorem lex_control {c : Char} (cs : List Char) (hc : Text.isControl c = true)
    (hd : isDelimiter c = false) :
    lex (String.ofList (c :: cs)) = .error (.invalidCharacter c 1) := by
  have refused : Lexer.step {} c = .error (.invalidCharacter c 1) :=
    Lexer.start_control hc (isDelimiter_eq_false hd).1 {}
  rw [lex, String.toList_ofList, Lexer.read_cons, refused]
  rfl

/-- **The numerals of the lexer**: an atom is read as a number if and only if it is a numeral of the
grammar, except that a whole number with a mark has to fit in 64 bits with a sign, and that it may
have a sign after its mark; and an atom alone is the token of a number if and only if it is read as
one. -/
theorem lex_number_iff {cs : List Char} (hne : cs ≠ []) (hd : ∀ c ∈ cs, isDelimiter c = false) :
    ((Numeral.read? cs).isSome ↔
      Numeral.Specified cs ∧ ¬Numeral.Oversized cs ∨ Numeral.Signed cs) ∧
    ((∃ x line, lex (String.ofList cs) = .ok [⟨.number x, line⟩]) ↔
      (Numeral.read? cs).isSome) := by
  refine ⟨Numeral.isSome_read?_iff cs, ?_⟩
  constructor
  · rintro ⟨x, line, h⟩
    have visible : ∀ c ∈ cs.head?, Text.isControl c = false := by
      intro c hc
      obtain ⟨rest, rfl⟩ := List.head?_eq_some_iff.1 hc
      rw [Bool.eq_false_iff]
      intro control
      rw [lex_control rest control (hd c List.mem_cons_self)] at h
      cases h
    obtain ⟨line', hl⟩ := lex_atom (.alone hne hd visible)
    rw [hl] at h
    have kind : Kind.ofAtom cs = .number x :=
      congrArg Token.kind (List.cons.inj (Except.ok.inj h)).1
    rw [Kind.ofAtom_eq_number_iff.1 kind]
    rfl
  · intro h
    obtain ⟨line, hl⟩ := lex_atom (Numeral.isAtom_of_isSome_read? h)
    obtain ⟨x, hx⟩ := Option.isSome_iff_exists.1 h
    rw [Kind.ofAtom_eq_number_iff.2 hx] at hl
    exact ⟨x, line, hl⟩

/-- The least number of 64 bits, and a decimal that is far below it. -/
theorem lex_number_iff_bounds :
    let least := ['0', 'x', '-'] ++ "8000000000000000".toList
    let decimal := "-99999999999999999999.5".toList
    ((∀ c ∈ least, isDelimiter c = false) ∧ ∀ c ∈ decimal, isDelimiter c = false) ∧
    ((Numeral.read? least).isSome ↔
      Numeral.Specified least ∧ ¬Numeral.Oversized least ∨ Numeral.Signed least) ∧
    (∃ x line, lex (String.ofList least) = .ok [⟨.number x, line⟩]) ∧
    ∃ x line, lex (String.ofList decimal) = .ok [⟨.number x, line⟩] := by
  intro least decimal
  have plain : (least ++ decimal).all (!isDelimiter ·) = true := by decide +kernel
  simp only [List.all_eq_true, Bool.not_eq_true', List.forall_mem_append] at plain
  have marked := lex_number_iff (List.cons_ne_nil _ _) plain.1
  have pointed := lex_number_iff (by decide +kernel) plain.2
  exact ⟨plain, marked.1, marked.2.2 (by decide +kernel), pointed.2.2 (by decide +kernel)⟩

/-- A sign after the mark is read, though the grammar does not have it; and ten to the power of
nineteen in base 16 is a numeral of the grammar, but a key. -/
theorem lex_deviates_from_numerals :
    let signed := ['0', 'x', '+', '1']
    let large := ['0', 'x'] ++ "8AC7230489E80000".toList
    (¬Numeral.Specified signed ∧ Numeral.read? signed = some 1 ∧
      lex (String.ofList signed) = .ok [⟨.number 1, 1⟩]) ∧
    Numeral.Specified large ∧ Numeral.read? large = none ∧
      lex (String.ofList large) = .ok [⟨.key (String.ofList large), 1⟩] := by
  intro signed large
  have digits : "8AC7230489E80000".toList.all Numeral.isHexDigit = true := by decide +kernel
  rw [List.all_eq_true] at digits
  have unsigned : ¬Numeral.Specified signed := by
    have mark : ('x', 16) ∈ Numeral.marks := by simp [Numeral.marks]
    rw [Numeral.specified_mark_iff mark]
    decide
  exact ⟨⟨unsigned, by decide +kernel, by decide +kernel⟩,
    .hexadecimal digits (by decide +kernel), by decide +kernel, by decide +kernel⟩

end Token

end Sigil
