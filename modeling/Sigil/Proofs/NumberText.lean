import Mathlib
import Sigil.Decimal.Numeral
import Sigil.Decimal.Text
import Sigil.Proofs.Rounding

/-!
# Texts of numbers read back

The plain text of a finite double is a numeral, and the numeral is read as the same double
(`read?_plain`). The shortest decimal lies in the window of the double, because some grid that the
search tries is finer than the window is wide (`covers_ofBinary`); the digits of the text spell that
decimal; and a decimal of the window is rounded to the double.
-/

namespace Sigil

namespace Decimal

open Double (Binary)

/-! ### The search ends in the window -/

theorem Window.covers_of_contains {w : Window} {c : Nat} (h : w.contains c = true) :
    w.Covers c := by
  unfold Window.contains at h
  split at h
  next hclosed =>
    obtain ⟨hlow, hhigh⟩ : w.low ≤ c * w.unit ∧ c * w.unit ≤ w.high := by simpa using h
    exact ⟨by exact_mod_cast hlow, by exact_mod_cast hhigh, fun hopen => by simp_all⟩
  next hopen =>
    obtain ⟨hlow, hhigh⟩ : w.low < c * w.unit ∧ c * w.unit < w.high := by simpa using h
    have hlow' : (w.low : ℚ) < c * w.unit := by exact_mod_cast hlow
    have hhigh' : (c * w.unit : ℚ) < w.high := by exact_mod_cast hhigh
    exact ⟨hlow'.le, hhigh'.le, fun _ => ⟨hlow', hhigh'⟩⟩

theorem ten_zpow_eq (k : Int) : (10 : ℚ) ^ k = 10 ^ k.toNat / 10 ^ (-k).toNat := by
  conv_lhs => rw [show k = k.toNat - (-k).toNat by omega]
  rw [zpow_sub₀ (by norm_num), zpow_natCast, zpow_natCast]

theorem Window.covers_of_rescale {w : Window} {k : Int} {c : ℚ} (h : (w.rescale k).Covers c) :
    w.Covers (c * 10 ^ k) := by
  have hpow : (0 : ℚ) < 10 ^ (-k).toNat := by positivity
  have hunit : c * 10 ^ k * w.unit * 10 ^ (-k).toNat = c * (w.unit * 10 ^ k.toNat) := by
    rw [ten_zpow_eq]
    field_simp
  obtain ⟨hlow, hhigh, hopen⟩ := h
  simp only [Window.rescale, Nat.pow_eq] at hlow hhigh hopen
  push_cast at hlow hhigh hopen
  rw [← hunit, mul_le_mul_iff_left₀ hpow] at hlow hhigh
  rw [← hunit, mul_lt_mul_iff_left₀ hpow, mul_lt_mul_iff_left₀ hpow] at hopen
  exact ⟨hlow, hhigh, hopen⟩

theorem Window.contains_of_nearest? {w : Window} {c : Nat} (h : w.nearest? = some c) :
    w.contains c = true := by
  unfold Window.nearest? at h
  dsimp only at h
  split at h <;> simp only [Option.some.injEq, reduceCtorEq] at h
  · split at h <;> subst h <;> assumption
  · subst h
    assumption
  · subst h
    assumption

/-- A window that reaches up by more than a whole number has one in it. -/
theorem Window.nearest?_isSome {w : Window} (hunit : 0 < w.unit) (hlow : w.low ≤ w.value)
    (hwide : w.value + w.unit < w.high) : w.nearest?.isSome := by
  have habove : w.value < (w.value / w.unit + 1) * w.unit := by
    rw [Nat.mul_comm]
    exact Nat.lt_mul_div_succ w.value hunit
  have hbelow : (w.value / w.unit + 1) * w.unit ≤ w.value + w.unit := by
    rw [Nat.succ_mul]
    exact Nat.add_le_add_right (Nat.div_mul_le_self ..) _
  have hc : w.contains (w.value / w.unit + 1) = true := by
    unfold Window.contains
    split <;> simp only [Bool.and_eq_true, decide_eq_true_eq] <;> omega
  unfold Window.nearest?
  dsimp only
  rw [hc]
  cases w.contains (w.value / w.unit) <;> rfl

/-- The search ends with a whole number of the window if one of the grids that it tries has one. -/
theorem Window.search_contains {w : Window} {tries : Nat} {k : Int} {j : Nat} (hj : j < tries)
    (h : (w.rescale (k - j)).nearest?.isSome) :
    (w.rescale (w.search tries k).exponent).contains (w.search tries k).digits = true := by
  induction tries generalizing k j with
  | zero => omega
  | succ tries ih =>
    unfold Window.search
    split
    next c hc => exact contains_of_nearest? hc
    next hc =>
      cases j with
      | zero => simp [hc] at h
      | succ j =>
        refine ih (j := j) (by omega) ?_
        rwa [show k - 1 - (j : Int) = k - (j + 1 : Nat) by omega]

/-- `3 / 10` and `10 / 33` enclose the logarithm of 2. -/
theorem ten_zpow_lt_two_zpow {k e : Int} (h : 0 ≤ k ∧ 10 * k < 3 * e ∨ k < 0 ∧ 33 * k < 10 * e) :
    (10 : ℚ) ^ k < 2 ^ e := by
  rcases h with ⟨hk, h⟩ | ⟨hk, h⟩
  · refine lt_of_pow_lt_pow_left₀ 3 (by positivity) ?_
    calc ((10 : ℚ) ^ k) ^ 3 = (10 ^ 3) ^ k := by rw [← zpow_natCast, ← zpow_natCast, zpow_comm]
      _ ≤ (2 ^ 10) ^ k := zpow_le_zpow_left₀ hk (by norm_num) (by norm_num)
      _ = 2 ^ (10 * k) := by rw [zpow_mul]; rfl
      _ < 2 ^ (3 * e) := zpow_lt_zpow_right₀ one_lt_two h
      _ = (2 ^ e) ^ 3 := by rw [mul_comm, zpow_mul]; rfl
  · refine lt_of_pow_lt_pow_left₀ 10 (by positivity) ?_
    calc ((10 : ℚ) ^ k) ^ 10 = (10 ^ 10) ^ k := by rw [← zpow_natCast, ← zpow_natCast, zpow_comm]
      _ = ((10 ^ 10) ^ (-k))⁻¹ := by rw [zpow_neg, inv_inv]
      _ ≤ ((2 ^ 33) ^ (-k))⁻¹ :=
        inv_anti₀ (by positivity) (zpow_le_zpow_left₀ (by omega) (by norm_num) (by norm_num))
      _ = (2 ^ 33) ^ k := by rw [zpow_neg, inv_inv]
      _ = 2 ^ (33 * k) := by rw [zpow_mul]; rfl
      _ < 2 ^ (10 * e) := zpow_lt_zpow_right₀ one_lt_two h
      _ = (2 ^ e) ^ 10 := by rw [mul_comm, zpow_mul]; rfl

/-- The window of a magnitude reaches up by half of its last place. -/
theorem Window.nearest?_around_isSome {b : Binary} {k : Int}
    (h : (10 : ℚ) ^ k < 2 ^ (b.exponent - 1)) :
    ((Window.around b).rescale k).nearest?.isSome := by
  have hwide : ((1 <<< (2 - b.exponent).toNat : Nat) : ℚ) * 10 ^ k.toNat <
      2 * (1 <<< (b.exponent - 2).toNat : Nat) * 10 ^ (-k).toNat := by
    have hunit : (0 : ℚ) < (1 <<< (2 - b.exponent).toNat : Nat) := by
      rw [Nat.one_shiftLeft]
      positivity
    rw [ten_zpow_eq, div_lt_iff₀ (by positivity), zpow_sub_one₀ two_ne_zero] at h
    rw [scale_eq]
    nlinarith
  have hwide' : (1 <<< (2 - b.exponent).toNat) * 10 ^ k.toNat <
      2 * (1 <<< (b.exponent - 2).toNat) * 10 ^ (-k).toNat := by exact_mod_cast hwide
  rw [around_eq]
  apply nearest?_isSome <;> simp only [rescale, Nat.pow_eq]
  · rw [Nat.one_shiftLeft]
    positivity
  · gcongr
    omega
  · nlinarith

theorem covers_ofBinary {b : Binary} (hb : b.Canonical) :
    (Window.around b).Covers ((ofBinary b).digits * 10 ^ (ofBinary b).exponent) := by
  have hlog : b.mantissa.log2 < 53 := (Nat.log2_lt hb.pos.ne').2 hb.lt
  have hleast := hb.least
  have hgreatest := hb.greatest
  have hfine : ((Window.around b).rescale (ceilingExponent b - (29 : Nat))).nearest?.isSome := by
    refine Window.nearest?_around_isSome (ten_zpow_lt_two_zpow ?_)
    unfold ceilingExponent
    dsimp only
    split <;> omega
  exact Window.covers_of_rescale
    (Window.covers_of_contains (Window.search_contains (j := 29) (by decide) hfine))

end Decimal

/-! ### Digits -/

namespace Numeral

theorem digit?_of_isDigit {c : Char} (h : c.isDigit = true) :
    digit? 10 c = some (c.toNat - '0'.toNat) := by
  have hc : '0' ≤ c ∧ c ≤ '9' := by simpa [Char.isDigit, Char.le_def] using h
  have hlt : c.toNat - 48 < 10 := by
    have : c.toNat ≤ 57 := (Char.isDigit_iff_toNat.1 h).2
    omega
  simp [digit?, hc, hlt]

theorem digitsFrom?_eq {cs : List Char} (h : ∀ c ∈ cs, c.isDigit = true) (acc : Nat) :
    digitsFrom? 10 acc cs = some (Nat.ofDigitChars 10 cs acc) := by
  induction cs generalizing acc with
  | nil => rfl
  | cons c cs ih =>
    rw [List.forall_mem_cons] at h
    rw [digitsFrom?, digit?_of_isDigit h.1, Option.bind_some, ih h.2, Nat.ofDigitChars_cons,
      Nat.mul_comm]

theorem ne_point {c : Char} (h : c.isDigit = true) : c ≠ '.' := by
  rintro rfl
  simp at h

theorem unsigned?_whole {ds : List Char} (hne : ds ≠ []) (h : ∀ c ∈ ds, c.isDigit = true) :
    unsigned? ds = some (Float.ofScientific (Nat.ofDigitChars 10 ds 0) false 0) := by
  have hp : ∀ c ∈ ds, decide (c ≠ '.') = true := fun c hc => by simpa using ne_point (h c hc)
  unfold unsigned?
  rw [List.dropWhile_eq_nil_iff.2 hp, List.takeWhile_eq_self_iff.2 hp]
  simp [natural?, hne, digitsFrom?_eq h]

theorem unsigned?_point {ds fs : List Char} (hd : ∀ c ∈ ds, c.isDigit = true)
    (hf : ∀ c ∈ fs, c.isDigit = true) (hne : fs ≠ []) :
    unsigned? (ds ++ '.' :: fs) =
      some (Float.ofScientific (Nat.ofDigitChars 10 (ds ++ fs) 0) true fs.length) := by
  have hp : ∀ c ∈ ds, decide (c ≠ '.') = true := fun c hc => by simpa using ne_point (hd c hc)
  unfold unsigned?
  rw [List.takeWhile_append_of_pos hp, List.dropWhile_append_of_pos hp]
  simp [hne, digitsFrom?_eq (List.forall_mem_append.2 ⟨hd, hf⟩)]

/-- That a decimal without a sign spells a number. -/
inductive Spells : List Char → ℚ → Prop where
  | whole {ds : List Char} (hne : ds ≠ []) (hd : ∀ c ∈ ds, c.isDigit = true) :
    Spells ds (Nat.ofDigitChars 10 ds 0)
  | point {ds fs : List Char} (hd : ∀ c ∈ ds, c.isDigit = true)
    (hf : ∀ c ∈ fs, c.isDigit = true) (hne : fs ≠ []) :
    Spells (ds ++ '.' :: fs) (Nat.ofDigitChars 10 (ds ++ fs) 0 / 10 ^ fs.length)

namespace Spells

variable {cs : List Char} {q : ℚ}

theorem isDigit_or_point (h : Spells cs q) : ∀ c ∈ cs, c.isDigit = true ∨ c = '.' := by
  cases h with
  | whole _ hd => exact fun c hc => .inl (hd c hc)
  | point hd hf _ =>
    intro c hc
    rcases List.mem_append.1 hc with hc | hc
    · exact .inl (hd c hc)
    · rcases List.mem_cons.1 hc with rfl | hc
      · exact .inr rfl
      · exact .inl (hf c hc)

/-- A spelled number is read as the double in whose window it lies. -/
theorem unsigned? (h : Spells cs q) {b : Double.Binary} (hb : b.Canonical)
    (hq : (Decimal.Window.around b).Covers q) :
    Numeral.unsigned? cs =
      some (.ofModel (.pack (.finite .positive b.mantissa b.exponent hb.pos))) := by
  cases h with
  | whole hne hd =>
    rw [unsigned?_whole hne hd, Double.ofScientific_of_covers_whole hb hq]
  | point hd hf hne =>
    rw [unsigned?_point hd hf hne, Double.ofScientific_of_covers hb hq]

end Spells

end Numeral

/-! ### The plain text -/

namespace Decimal

theorem isDigit_of_mem_zeros {n : Nat} : ∀ c ∈ zeros n, c.isDigit = true := by
  intro c hc
  rw [List.eq_of_mem_replicate hc]
  rfl

theorem isDigit_of_mem_toDigits {n : Nat} : ∀ c ∈ Nat.toDigits 10 n, c.isDigit = true :=
  fun _ hc => Nat.isDigit_of_mem_toDigits (by decide) (by decide) hc

theorem spells_zeros (n k : Nat) :
    Numeral.Spells (Nat.toDigits 10 n ++ zeros k) (n * 10 ^ k) := by
  have hvalue : Nat.ofDigitChars 10 (Nat.toDigits 10 n ++ zeros k) 0 = n * 10 ^ k := by
    rw [Nat.ofDigitChars_append, Nat.ofDigitChars_ten_toDigits, zeros,
      Nat.ofDigitChars_replicate_zero, Nat.mul_comm]
  have hspells : Numeral.Spells (Nat.toDigits 10 n ++ zeros k) _ :=
    .whole (by simp [Nat.toDigits_ne_nil])
      (List.forall_mem_append.2 ⟨isDigit_of_mem_toDigits, isDigit_of_mem_zeros⟩)
  rw [hvalue] at hspells
  exact_mod_cast hspells

theorem spells_inside {n i : Nat} (h : i < (Nat.toDigits 10 n).length) :
    Numeral.Spells ((Nat.toDigits 10 n).take i ++ '.' :: (Nat.toDigits 10 n).drop i)
      (n / 10 ^ ((Nat.toDigits 10 n).length - i)) := by
  have hspells :
      Numeral.Spells ((Nat.toDigits 10 n).take i ++ '.' :: (Nat.toDigits 10 n).drop i) _ :=
    .point (fun c hc => isDigit_of_mem_toDigits c (List.mem_of_mem_take hc))
      (fun c hc => isDigit_of_mem_toDigits c (List.mem_of_mem_drop hc))
      (List.ne_nil_of_length_pos (by rw [List.length_drop]; omega))
  rwa [List.take_append_drop, List.length_drop, Nat.ofDigitChars_ten_toDigits] at hspells

theorem spells_before (n k : Nat) :
    Numeral.Spells ('0' :: '.' :: (zeros k ++ Nat.toDigits 10 n))
      (n / 10 ^ (k + (Nat.toDigits 10 n).length)) := by
  have hvalue : Nat.ofDigitChars 10 (['0'] ++ (zeros k ++ Nat.toDigits 10 n)) 0 = n := by
    simp [Nat.ofDigitChars_append, Nat.ofDigitChars_cons, zeros]
  have hspells : Numeral.Spells (['0'] ++ '.' :: (zeros k ++ Nat.toDigits 10 n)) _ :=
    .point (by simp) (List.forall_mem_append.2 ⟨isDigit_of_mem_zeros, isDigit_of_mem_toDigits⟩)
      (by simp [Nat.toDigits_ne_nil])
  rwa [hvalue, List.length_append, zeros, List.length_replicate] at hspells

theorem spells_positional (d : Decimal) :
    Numeral.Spells d.positional.toList (d.digits * 10 ^ d.exponent) := by
  have hlen : 0 < (Nat.toDigits 10 d.digits).length := Nat.length_toDigits_pos
  have hvalue {n : Nat} (hn : d.exponent = -n) :
      (d.digits * 10 ^ d.exponent : ℚ) = d.digits / 10 ^ n := by
    rw [hn, zpow_neg, zpow_natCast, div_eq_mul_inv]
  unfold positional
  dsimp only
  -- the point comes after the digits, between them, or before them
  split
  next he =>
    have hexponent : d.exponent = d.exponent.toNat := by omega
    rw [String.toList_ofList]
    nth_rewrite 2 [hexponent]
    rw [zpow_natCast]
    exact spells_zeros ..
  next he =>
    split
    next hw =>
      rw [String.toList_ofList]
      refine hvalue ?_ ▸ spells_inside ?_ <;> omega
    next hw =>
      rw [String.toList_ofList]
      refine hvalue ?_ ▸ spells_before ..
      omega

end Decimal

namespace Numeral

/-- A text without a sign and without letters is read as a decimal. -/
theorem Spells.read? {cs : List Char} {q : ℚ} (h : Spells cs q) :
    Numeral.read? cs = Numeral.unsigned? cs := by
  have hc := h.isDigit_or_point
  unfold Numeral.read? decimal?
  split
  · exact absurd (hc 'x' (by simp)) (by decide)
  · exact absurd (hc 'b' (by simp)) (by decide)
  · split
    · exact absurd (hc '-' (by simp)) (by decide)
    · rfl

end Numeral

namespace Number

open Double Float.Model.UnpackedFloat

theorem neg_pack {b : Binary} (hb : b.Canonical) :
    -Float.ofModel (.pack (.finite .positive b.mantissa b.exponent hb.pos)) =
      .ofModel (.pack (.finite .negative b.mantissa b.exponent hb.pos)) := by
  change Float.ofModel (.pack (Float.Model.unpack _).neg) = _
  rw [unpack_pack .positive hb]
  rfl

/-- A zero is one of the two. -/
theorem eq_of_parts_zero {x : Float} {negative : Bool} {b : Binary}
    (h : parts x = .finite negative b) (hz : b.mantissa = 0) :
    x = .ofModel (.pack (.zero (signOf negative))) := by
  rw [← ofModel_pack_parts x, h, Parts.unpacked, dif_pos hz]

theorem eq_of_parts {x : Float} {negative : Bool} {b : Binary}
    (h : parts x = .finite negative b) (hz : b.mantissa ≠ 0) :
    x = .ofModel
      (.pack (.finite (signOf negative) b.mantissa b.exponent (Nat.pos_of_ne_zero hz))) := by
  rw [← ofModel_pack_parts x, h, Parts.unpacked, dif_neg hz]

/-- The shortest decimal of a number, with its sign, is read as the number. -/
theorem read?_positional {x : Float} {negative : Bool} {b : Binary}
    (h : parts x = .finite negative b) (hz : b.mantissa ≠ 0) :
    Numeral.read? (signText negative ++ (Decimal.ofBinary b).positional).toList = some x := by
  have hb := canonical_of_parts h hz
  have hspells := (Decimal.ofBinary b).spells_positional
  have hread := hspells.unsigned? hb (Decimal.covers_ofBinary hb)
  rw [eq_of_parts h hz, String.toList_append]
  cases negative with
  | false =>
    change Numeral.read? (Decimal.ofBinary b).positional.toList = _
    rw [hspells.read?, hread]
    rfl
  | true =>
    change (Numeral.unsigned? (Decimal.ofBinary b).positional.toList).map (- ·) = _
    rw [hread, Option.map_some, neg_pack hb]
    rfl

/-- The plain text of a finite number is a numeral for the number. -/
theorem read?_plain {x : Float} {negative : Bool} {b : Binary} (h : parts x = .finite negative b) :
    Numeral.read? (plain x).toList = some x := by
  unfold plain
  rw [h]
  dsimp only
  split
  next hz =>
    rw [eq_of_parts_zero h hz]
    cases negative <;> decide +kernel
  next hz => exact read?_positional h hz

/-! ### The text in the output of a program -/

/-- Whether a number is written without an exponent in the output of a program. -/
def readable (x : Float) : Bool :=
  x == 0 || (1e-6 ≤ x.abs && x.abs < 1e21)

/-- In the range that is written without an exponent there are only finite numbers. -/
theorem finite_of_range {x : Float} (hlow : 1e-6 ≤ x.abs) (hhigh : x.abs < 1e21) :
    ∃ negative b, parts x = .finite negative b ∧ b.mantissa ≠ 0 := by
  have hx := ofModel_pack_parts x
  cases hp : parts x with
  | nan =>
    rw [hp] at hx
    subst hx
    exact absurd hlow (by decide +kernel)
  | infinite negative =>
    rw [hp] at hx
    subst hx
    cases negative <;> exact absurd hhigh (by decide +kernel)
  | finite negative b =>
    refine ⟨negative, b, rfl, fun hz => ?_⟩
    rw [eq_of_parts_zero hp hz] at hlow
    cases negative <;> exact absurd hlow (by decide +kernel)

theorem format_eq_plain {x : Float} (hlow : 1e-6 ≤ x.abs) (hhigh : x.abs < 1e21) :
    format x = plain x := by
  obtain ⟨negative, b, hp, hz⟩ := finite_of_range hlow hhigh
  unfold format plain
  rw [hp]
  dsimp only
  rw [if_neg hz, if_neg hz, if_neg (not_le_of_lt hhigh), if_neg fun h => not_le_of_lt h hlow]

theorem format_zero {x : Float} (h : (x == 0) = true) : format x = "0" := by
  obtain ⟨negative, b, hp, hz⟩ := mantissa_of_beq_zero h
  unfold format
  rw [hp]
  exact if_pos hz

/-- What a program prints for a number without an exponent is a numeral for an equal number; only
the sign of zero is lost. -/
theorem read?_format {x : Float} (h : readable x = true) :
    ∃ y, Numeral.read? (format x).toList = some y ∧ (y == x) = true := by
  unfold readable at h
  rcases Bool.or_eq_true_iff.1 h with hz | hr
  · obtain ⟨negative, b, hp, hb⟩ := mantissa_of_beq_zero hz
    refine ⟨0, by rw [format_zero hz]; decide +kernel, ?_⟩
    rw [eq_of_parts_zero hp hb]
    cases negative <;> decide +kernel
  · obtain ⟨hlow, hhigh⟩ : 1e-6 ≤ x.abs ∧ x.abs < 1e21 := by simpa using hr
    obtain ⟨negative, b, hp, -⟩ := finite_of_range hlow hhigh
    refine ⟨x, ?_, beq_self hp⟩
    rw [format_eq_plain hlow hhigh, read?_plain hp]

/-- The characters of a numeral without an exponent. -/
def isNumeralChar (c : Char) : Bool :=
  c.isDigit || c == '.' || c == '-'

theorem isNumeralChar_of_mem_signText {negative : Bool} :
    ∀ c ∈ (signText negative).toList, isNumeralChar c = true := by
  cases negative <;> simp [signText, isNumeralChar]

theorem isNumeralChar_of_mem_format {x : Float} (h : readable x = true) :
    ∀ c ∈ (format x).toList, isNumeralChar c = true := by
  unfold readable at h
  rcases Bool.or_eq_true_iff.1 h with hz | hr
  · rw [format_zero hz]
    simp [isNumeralChar]
  · obtain ⟨hlow, hhigh⟩ : 1e-6 ≤ x.abs ∧ x.abs < 1e21 := by simpa using hr
    obtain ⟨negative, b, hp, hb⟩ := finite_of_range hlow hhigh
    have hformat : format x = signText negative ++ (Decimal.ofBinary b).positional := by
      rw [format_eq_plain hlow hhigh, plain, hp]
      dsimp only
      rw [if_neg hb]
    rw [hformat, String.toList_append, List.forall_mem_append]
    refine ⟨isNumeralChar_of_mem_signText, fun c hc => ?_⟩
    rcases (Decimal.ofBinary b).spells_positional.isDigit_or_point c hc with hd | rfl
    · simp [isNumeralChar, hd]
    · rfl

end Number

end Sigil
