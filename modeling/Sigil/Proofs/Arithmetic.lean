import Sigil.Operator.Folding
import Sigil.Proofs.NumberText

/-!
# What operators make of two numbers

Of the operators on numbers, three are functions of this project and not of doubles: the remainder,
the larger and the smaller of two numbers. Here is what they compute. The larger of two numbers is
one of the two and not below either, where what is not a number does not count (`IsLast`). The
remainder is exact (`IsRemainder`): on a grid that holds both magnitudes it is a remainder of whole
numbers, and it has few enough bits for a double (`parts_toFloat`).

`Fold.Makes` puts this together with the operations of doubles.
-/

namespace Sigil.Double

open Float.Model Float.Model.UnpackedFloat

/-! ### The larger and the smaller number -/

/-- That `z` is one of two numbers and the last of them in an order, where what is not a number does
not count. -/
def IsLast (le : Float → Float → Prop) (x y z : Float) : Prop :=
  (z = x ∨ z = y) ∧ (x.isNaN = false → le x z) ∧ (y.isNaN = false → le y z)

theorem compare_isSome {u v : UnpackedFloat} (hu : u.isNaN = false) (hv : v.isNaN = false) :
    (u.compare v).isSome = true := by
  rcases u with (_ | _) | _ | _ | ⟨_ | _, _, _, _⟩ <;>
    rcases v with (_ | _) | _ | _ | ⟨_ | _, _, _, _⟩ <;>
    first | rfl | exact Bool.noConfusion hu | exact Bool.noConfusion hv

theorem le_of_not_lt {x y : Float} (hx : x.isNaN = false) (hy : y.isNaN = false) (h : ¬ x < y) :
    y ≤ x := by
  obtain ⟨o, ho⟩ := Option.isSome_iff_exists.1
    (compare_isSome (u := x.toModel.unpack) (v := y.toModel.unpack) hx hy)
  rw [le_iff_compare, compare_swap, ho]
  cases o with
  | lt => exact absurd (lt_iff_compare.2 ho) h
  | eq | gt => rfl

theorem le_self {x : Float} (hx : x.isNaN = false) : x ≤ x :=
  le_of_not_lt hx hx fun h => not_le_of_lt h (Double.le_of_lt h)

theorem isLast_ite {le : Float → Float → Prop} {x y : Float} {after : Prop} [Decidable after]
    (self : ∀ {x : Float}, x.isNaN = false → le x x) (yes : after → le x y)
    (no : x.isNaN = false → y.isNaN = false → ¬after → le y x) :
    IsLast le x y (if x.isNaN || after then y else x) := by
  split
  next h =>
    refine ⟨.inr rfl, fun hx => yes ?_, self⟩
    rwa [hx, Bool.false_or, decide_eq_true_iff] at h
  next h =>
    obtain ⟨hx, hafter⟩ : x.isNaN = false ∧ ¬after := by simpa using h
    exact ⟨.inl rfl, self, fun hy => no hx hy hafter⟩

theorem isLast_larger (x y : Float) : IsLast (· ≤ ·) x y (larger x y) :=
  isLast_ite le_self Double.le_of_lt le_of_not_lt

theorem isLast_smaller (x y : Float) : IsLast (· ≥ ·) x y (smaller x y) :=
  isLast_ite le_self Double.le_of_lt fun hx hy => le_of_not_lt hy hx

/-! ### Exact doubles -/

/-- A magnitude as a number. -/
def Binary.value (b : Binary) : ℚ :=
  b.mantissa * 2 ^ b.exponent

/-- Whatever fits is as large as a magnitude that a double can have. -/
theorem Binary.Fits.canonical {b : Binary} (h : b.Fits) (hb : 0 < b.mantissa) :
    ∃ c : Binary, c.Canonical ∧ c.value = b.value ∧ b.exponent - 52 ≤ c.exponent := by
  obtain ⟨n, e⟩ := b
  obtain ⟨hlt, hleast, hgreatest⟩ := h
  dsimp only at *
  have hlog : n.log2 < 53 := (Nat.log2_lt hb.ne').2 hlt
  generalize hk : min (52 - n.log2) (e + 1074).toNat = k
  have hhigh : n * 2 ^ k < 2 ^ 53 :=
    calc n * 2 ^ k < 2 ^ (n.log2 + 1) * 2 ^ k :=
          Nat.mul_lt_mul_of_pos_right Nat.lt_log2_self (by positivity)
      _ = 2 ^ (n.log2 + 1 + k) := (pow_add ..).symm
      _ ≤ 2 ^ 53 := Nat.pow_le_pow_right (by decide) (by omega)
  refine ⟨⟨n * 2 ^ k, e - k⟩, ⟨by positivity, hhigh, ?_, ?_, ?_⟩, ?_, ?_⟩
  · dsimp only; omega
  · dsimp only; omega
  · by_cases hfull : k = 52 - n.log2
    · left
      calc 2 ^ 52 = 2 ^ n.log2 * 2 ^ k := by rw [← pow_add]; congr 1; omega
        _ ≤ n * 2 ^ k := Nat.mul_le_mul_right _ (Nat.log2_self_le hb.ne')
    · right
      dsimp only
      omega
  · simp only [Binary.value]
    rw [zpow_sub₀ two_ne_zero, zpow_natCast]
    push_cast
    field_simp
  · dsimp only; omega

theorem Binary.Canonical.covers_value {b : Binary} (h : b.Canonical) :
    (Decimal.Window.around b).Covers b.value := by
  have hm : (1 : ℚ) ≤ b.mantissa := by exact_mod_cast h.pos
  have hunit : (0 : ℚ) < (1 <<< (2 - b.exponent).toNat : Nat) := by
    rw [Nat.one_shiftLeft]; positivity
  have hpow : (0 : ℚ) < 2 ^ b.exponent := by positivity
  have hbelow : ((4 * b.mantissa - Decimal.Window.below b : Nat) : ℚ) < 4 * b.mantissa := by
    have : Decimal.Window.below b ≠ 0 := by unfold Decimal.Window.below; split <;> decide
    have := h.pos
    exact_mod_cast (by omega : 4 * b.mantissa - Decimal.Window.below b < 4 * b.mantissa)
  simp only [Decimal.Window.Covers, Decimal.Window.around_eq, Binary.value, Nat.cast_mul,
    Decimal.Window.scale_eq]
  push_cast
  generalize (2 : ℚ) ^ b.exponent = p at *
  generalize ((1 <<< (2 - b.exponent).toNat : Nat) : ℚ) = u at *
  have hpu : 0 < u * p / 4 := by positivity
  have hx : (b.mantissa : ℚ) * p * u = 4 * b.mantissa * (u * p / 4) := by ring
  rw [hx]
  have hlow := mul_lt_mul_of_pos_right hbelow hpu
  have hhigh : 4 * (b.mantissa : ℚ) * (u * p / 4) < (4 * b.mantissa + 2) * (u * p / 4) :=
    mul_lt_mul_of_pos_right (by linarith) hpu
  exact ⟨hlow.le, hhigh.le, fun _ => ⟨hlow, hhigh⟩⟩

theorem parts_pack (negative : Bool) {b : Binary} (hb : b.Canonical) :
    parts (.ofModel (.pack (.finite (signOf negative) b.mantissa b.exponent hb.pos))) =
      .finite negative b := by
  have h := unpack_eq (.ofModel (.pack (.finite (signOf negative) b.mantissa b.exponent hb.pos)))
  rw [unpack_pack _ hb] at h
  cases hp : parts (.ofModel (.pack (.finite (signOf negative) b.mantissa b.exponent hb.pos))) with
  | nan => rw [hp] at h; cases h
  | infinite => rw [hp] at h; cases h
  | finite negative' c =>
    rw [hp, Parts.unpacked] at h
    split at h
    · cases h
    · injection h with hs hm he
      obtain ⟨m, e⟩ := c
      cases hm
      cases he
      cases negative <;> cases negative' <;> first | rfl | cases hs

theorem unpack_ofBits {w : UInt64} {b : Binary} (hb : b.Canonical)
    (h : Parts.ofBits w.toNat = .finite false b) :
    (Float.ofBits w).toModel.unpack = .finite .positive b.mantissa b.exponent hb.pos := by
  change (Float.Model.pack (UnpackedFloat.unpack Format.binary64 w.toBitVec)).unpack = _
  rw [unpack_word]
  change (Float.Model.pack (Parts.ofBits w.toNat).unpacked).unpack = _
  rw [h, Parts.unpacked, dif_neg hb.pos.ne']
  exact unpack_pack .positive hb

theorem unpack_powerOfTwo {e : Int} (hl : -1074 ≤ e) (hg : e ≤ 971) :
    ∃ (m : Nat) (k : Int) (hm : 0 < m),
      (powerOfTwo e).toModel.unpack = .finite .positive m k hm ∧ (m * 2 ^ k : ℚ) = 2 ^ e := by
  unfold powerOfTwo
  split
  next h =>
    generalize hn : (e + 1023).toNat = n
    have hbits : (n * leadingBit).toUInt64.toNat = n * 2 ^ 52 := by
      rw [Nat.toUInt64, UInt64.toNat_ofNat', leadingBit_eq]
      omega
    have hb : Binary.Canonical ⟨2 ^ 52, e - 52⟩ := by
      refine ⟨?_, ?_, ?_, ?_, .inl (Nat.le_refl _)⟩ <;> dsimp only <;> omega
    refine ⟨_, _, hb.pos, unpack_ofBits hb ?_, ?_⟩
    · rw [hbits, Parts.ofBits, leadingBit_eq, leastExponent]
      have hdiv : n * 2 ^ 52 / 2 ^ 52 % 1 <<< 11 = n := by
        rw [Nat.mul_div_cancel n (by decide)]
        exact Nat.mod_eq_of_lt (show n < 2048 by omega)
      have hmod : n * 2 ^ 52 % 2 ^ 52 = 0 := by omega
      have hsign : decide (1 <<< 63 ≤ n * 2 ^ 52) = false := decide_eq_false (by omega)
      rw [hdiv, hmod, hsign, if_neg (by omega), if_neg (by omega)]
      congr 2
      omega
    · rw [Nat.cast_pow, Nat.cast_ofNat, ← zpow_natCast, ← zpow_add₀ two_ne_zero]
      congr 1
      dsimp only
      omega
  next h =>
    rw [leastExponent]
    generalize hn : (e - -1074).toNat = n
    have hlt : 2 ^ n < 2 ^ 52 := Nat.pow_lt_pow_right (by decide) (by omega)
    have hbits : (1 <<< n : Nat).toUInt64.toNat = 2 ^ n := by
      rw [Nat.toUInt64, UInt64.toNat_ofNat', Nat.one_shiftLeft]
      exact Nat.mod_eq_of_lt (hlt.trans (by decide))
    have hb : Binary.Canonical ⟨2 ^ n, -1074⟩ := by
      exact ⟨by positivity, hlt.trans (by decide), Int.le_refl _,
        show (-1074 : Int) ≤ 971 by decide, .inr rfl⟩
    refine ⟨_, _, hb.pos, unpack_ofBits hb ?_, ?_⟩
    · rw [hbits, Parts.ofBits, leadingBit_eq, leastExponent]
      have hdiv : 2 ^ n / 2 ^ 52 % 1 <<< 11 = 0 := by rw [Nat.div_eq_of_lt hlt]; rfl
      have hmod : 2 ^ n % 2 ^ 52 = 2 ^ n := Nat.mod_eq_of_lt hlt
      have hsign : decide (1 <<< 63 ≤ 2 ^ n) = false := decide_eq_false (by omega)
      rw [hdiv, hmod, hsign, if_neg (by decide), if_pos rfl]
    · rw [Nat.cast_pow, Nat.cast_ofNat, ← zpow_natCast, ← zpow_add₀ two_ne_zero]
      congr 1
      dsimp only
      omega

/-- A magnitude with few enough bits is a double. -/
theorem parts_toFloat {b : Binary} (h : b.Fits) :
    ∃ c, parts b.toFloat = .finite false c ∧ c.value = b.value := by
  obtain ⟨m₂, e₂, h₂, hu₂, hq₂⟩ := unpack_powerOfTwo h.least h.greatest
  unfold Binary.toFloat
  rcases Nat.eq_zero_or_pos b.mantissa with hz | hpos
  · refine ⟨⟨0, leastExponent⟩, ?_, by simp [Binary.value, hz]⟩
    have zero : (Float.ofNat 0 * powerOfTwo b.exponent) =
        .ofModel (.pack (UnpackedFloat.mul Format.binary64 (Float.ofNat 0).toModel.unpack
          (powerOfTwo b.exponent).toModel.unpack)) := rfl
    have none : (Float.ofNat 0).toModel.unpack = .zero .positive := by
      have zero : parts (Float.ofNat 0) = .finite false ⟨0, leastExponent⟩ := by decide +kernel
      rw [unpack_eq, zero]
      rfl
    rw [hz, zero, none, hu₂]
    show parts (.ofModel (.pack (.zero .positive))) = _
    decide +kernel
  · obtain ⟨c, hc, hvalue, -⟩ := h.canonical hpos
    -- the mantissa as a double, which has all its bits
    have whole : Binary.Fits ⟨b.mantissa, 0⟩ :=
      ⟨h.lt, show (-1074 : Int) ≤ 0 by decide, show (0 : Int) ≤ 971 by decide⟩
    obtain ⟨d, hd, hdvalue, hexponent⟩ := whole.canonical hpos
    have hcover := hd.covers_value
    rw [hdvalue] at hcover
    have hofNat : Float.ofNat b.mantissa =
        .ofModel (.pack (.finite .positive d.mantissa d.exponent hd.pos)) :=
      ofScientific_of_covers_whole hd (by simpa [Binary.value] using hcover)
    have hbits : 2 ^ 52 ≤ d.mantissa :=
      hd.normal.resolve_right fun hleast => by dsimp only at hexponent; omega
    have hq : (Decimal.Window.around c).Covers
        (d.mantissa * 2 ^ d.exponent * (m₂ * 2 ^ e₂)) := by
      have hfactors : (d.mantissa * 2 ^ d.exponent * (m₂ * 2 ^ e₂) : ℚ) = c.value := by
        rw [hq₂, hvalue]
        change d.value * _ = _
        rw [hdvalue]
        simp [Binary.value]
      rw [hfactors]
      exact hc.covers_value
    have hproduct := mul_of_covers hc hd.pos h₂ (by nlinarith) hq .positive .positive
    refine ⟨c, ?_, hvalue⟩
    rw [hofNat]
    change parts (.ofModel (.pack (UnpackedFloat.mul _ (Float.Model.pack _).unpack
      (powerOfTwo b.exponent).toModel.unpack))) = _
    rw [unpack_pack .positive hd, hu₂, hproduct]
    exact parts_pack false hc

theorem parts_withSign {x : Float} {b : Binary} (h : parts x = .finite false b) (negative : Bool) :
    ∃ c, parts (withSign negative x) = .finite negative c ∧ c.value = b.value := by
  cases negative with
  | false => exact ⟨b, h, rfl⟩
  | true =>
    show ∃ c, parts (-x) = _ ∧ _
    by_cases hz : b.mantissa = 0
    · refine ⟨⟨0, leastExponent⟩, ?_, by simp [Binary.value, hz]⟩
      rw [Number.eq_of_parts_zero h hz]
      decide +kernel
    · have hb := canonical_of_parts h hz
      refine ⟨b, ?_, rfl⟩
      rw [Number.eq_of_parts h hz]
      exact (congrArg parts (Number.neg_pack hb)).trans (parts_pack true hb)

/-! ### The remainder -/

/-- That `z` is what is left of `x` when `y` is taken away from it as often as its magnitude allows,
with the sign of `x`. -/
def IsRemainder (x y z : Float) : Prop :=
  match parts x, parts y with
  | .finite negative a, .finite _ b =>
    if b.mantissa = 0 then z.isNaN = true
    else ∃ c, parts z = .finite negative c ∧ c.value < b.value ∧
      ∃ k : Nat, a.value = k * b.value + c.value
  | .finite .., .infinite _ => z = x
  | _, _ => z.isNaN = true

namespace Binary

variable {a b : Binary}

/-- A magnitude on a grid that is fine enough for it. -/
theorem value_shiftLeft {e : Int} (h : e ≤ b.exponent) :
    ((b.mantissa <<< (b.exponent - e).toNat : Nat) : ℚ) * 2 ^ e = b.value := by
  have hsplit : b.exponent = (b.exponent - e).toNat + e := by omega
  rw [Nat.shiftLeft_eq, value]
  conv_rhs => rw [hsplit, zpow_add₀ two_ne_zero, zpow_natCast]
  push_cast
  ring

theorem value_remainder (hb : 0 < b.mantissa) :
    (a.remainder b).value < b.value ∧
      ∃ k : Nat, a.value = k * b.value + (a.remainder b).value := by
  rw [← value_shiftLeft (Int.min_le_left a.exponent b.exponent),
    ← value_shiftLeft (Int.min_le_right a.exponent b.exponent), remainder, value]
  dsimp only
  generalize min a.exponent b.exponent = e
  generalize a.mantissa <<< (a.exponent - e).toNat = m
  have hn : 0 < b.mantissa <<< (b.exponent - e).toNat := by
    rw [Nat.shiftLeft_eq]; positivity
  generalize b.mantissa <<< (b.exponent - e).toNat = n at *
  have hpow : (0 : ℚ) < 2 ^ e := by positivity
  refine ⟨mul_lt_mul_of_pos_right (by exact_mod_cast Nat.mod_lt m hn) hpow, m / n, ?_⟩
  have hdiv : (m : ℚ) = (m / n : Nat) * n + (m % n : Nat) := by
    exact_mod_cast (Nat.div_add_mod' m n).symm
  conv_lhs => rw [hdiv]
  ring

/-- On the coarser of the two grids a remainder is less than one of the two mantissas. -/
theorem fits_remainder (ha : a.Fits) (hb : b.Fits) (hpos : 0 < b.mantissa) :
    (a.remainder b).Fits := by
  have hn : 0 < b.mantissa <<< (b.exponent - min a.exponent b.exponent).toNat := by
    rw [Nat.shiftLeft_eq]; positivity
  unfold remainder
  refine ⟨?_, le_min ha.least hb.least, (min_le_left _ _).trans ha.greatest⟩
  dsimp only
  rcases min_choice a.exponent b.exponent with h | h
  · refine Nat.lt_of_le_of_lt (Nat.mod_le _ _) ?_
    rw [h, Int.sub_self]
    exact ha.lt
  · refine Nat.lt_of_lt_of_le (Nat.mod_lt _ hn) ?_
    rw [h, Int.sub_self]
    exact hb.lt.le

end Binary

theorem isRemainder_remainder (x y : Float) : IsRemainder x y (remainder x y) := by
  have nan : notANumber.isNaN = true := by decide +kernel
  unfold IsRemainder remainder
  cases hx : parts x with
  | nan | infinite => exact nan
  | finite negative a =>
    cases hy : parts y with
    | nan => exact nan
    | infinite => rfl
    | finite _ b =>
      dsimp only
      split
      next hz => exact nan
      next hz =>
        have hpos := Nat.pos_of_ne_zero hz
        have fits := Binary.fits_remainder (bounds_of_parts hx).1 (bounds_of_parts hy).1 hpos
        obtain ⟨c, hc, hvalue⟩ := parts_toFloat fits
        obtain ⟨d, hd, hsame⟩ := parts_withSign hc negative
        obtain ⟨below, k, hk⟩ := Binary.value_remainder (a := a) hpos
        rw [← hvalue, ← hsame] at below hk
        exact ⟨d, hd, below, k, hk⟩

example : remainder (-7.5) 2 = -1.5 := by decide +kernel

end Sigil.Double

namespace Sigil.Fold

/-- That `z` is what an operator makes of two numbers. -/
def Makes : Fold → Float → Float → Float → Prop
  | add, x, y, z => z = x + y
  | subtract, x, y, z => z = x - y
  | multiply, x, y, z => z = x * y
  | divide, x, y, z => z = x / y
  | remainder, x, y, z => Double.IsRemainder x y z
  | power, x, y, z => z = x.pow y
  | floorDivide, x, y, z => z = (x / y).floor
  | max, x, y, z => Double.IsLast (· ≤ ·) x y z
  | min, x, y, z => Double.IsLast (· ≥ ·) x y z

theorem makes_numbers (op : Fold) (x y : Float) : op.Makes x y (op.numbers x y) := by
  cases op with
  | add | subtract | multiply | divide | power | floorDivide => rfl
  | remainder => exact Double.isRemainder_remainder x y
  | max => exact Double.isLast_larger x y
  | min => exact Double.isLast_smaller x y

end Sigil.Fold
