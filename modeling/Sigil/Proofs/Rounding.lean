import Mathlib
import Sigil.Decimal.Shortest
import Sigil.Proofs.DoubleFormat

/-!
# Rounding

The window of a magnitude, `Decimal.Window.around`, is said to hold the reals that round to it. Here
that is proved of the rounding that the arithmetic of `Float` does: a quotient of two magnitudes, or
a product, that lies in the window is rounded to the magnitude (`div_of_covers`, `mul_of_covers`),
and so is a decimal (`ofScientific_of_covers`).

Rounding drops bits one by one and keeps two of them, whether half of the last place is reached and
whether anything lies beyond. `fraction a d` is what that leaves of `a / d`, and dropping one more
bit leaves `fraction a (d * 2)`.
-/

namespace Sigil.Double

open Float.Model Float.Model.UnpackedFloat

/-- The extended mantissa of the fraction `a / d`. -/
def fraction (a d : Nat) : ExtendedMantissa :=
  .ofMantissaAndAccuracy (a / d) (accuracyOfFraction (a % d) d)

theorem shiftRightOne_fraction (a : Nat) {d : Nat} (hd : 0 < d) :
    (fraction a d).shiftRightOne = fraction a (d * 2) := by
  have hr : a % d < d := Nat.mod_lt a hd
  have hdiv : a / (d * 2) = a / d / 2 := (Nat.div_div_eq_div_mul a d 2).symm
  have hmod : a % (d * 2) = a % d + d * (a / d % 2) := Nat.mod_mul
  unfold fraction accuracyOfFraction
  rw [hdiv, hmod]
  generalize a / d = m at *
  generalize a % d = r at *
  rcases Nat.mod_two_eq_zero_or_one m with hm | hm <;>
    rcases Nat.eq_zero_or_pos r with rfl | hpos
  · simp [ExtendedMantissa.shiftRightOne, ExtendedMantissa.ofMantissaAndAccuracy, hm]
  · have hlt : compare (2 * r) (d * 2) = .lt := by rw [Nat.compare_eq_lt]; omega
    have hne : r ≠ 0 := by omega
    cases h : compare (2 * r) d <;>
      simp [ExtendedMantissa.shiftRightOne, ExtendedMantissa.ofMantissaAndAccuracy, hm, hne, hlt]
  · have heq : compare (2 * d) (d * 2) = .eq := by rw [Nat.compare_eq_eq]; omega
    have hne : d ≠ 0 := by omega
    simp [ExtendedMantissa.shiftRightOne, ExtendedMantissa.ofMantissaAndAccuracy, hm, hne, heq]
  · have hgt : compare (2 * (r + d)) (d * 2) = .gt := by rw [Nat.compare_eq_gt]; omega
    have hne : r ≠ 0 := by omega
    cases h : compare (2 * r) d <;>
      simp [ExtendedMantissa.shiftRightOne, ExtendedMantissa.ofMantissaAndAccuracy, hm, hne, hgt]

theorem shiftRight_fraction (a : Nat) {d : Nat} (hd : 0 < d) (n : Nat) :
    fraction a d >>> n = fraction a (d * 2 ^ n) := by
  induction n with
  | zero => simp [HShiftRight.hShiftRight, Nat.repeat]
  | succ n ih =>
    change (fraction a d >>> n).shiftRightOne = _
    rw [ih, shiftRightOne_fraction a (by positivity), pow_succ, mul_assoc]

/-- That `m` is the whole number nearest to `q`, a tie going to the even one. -/
def Nearest (m : Nat) (q : ℚ) : Prop :=
  m - 1 / 2 ≤ q ∧ q ≤ m + 1 / 2 ∧ (m % 2 = 1 → m - 1 / 2 < q ∧ q < m + 1 / 2)

/-- Half an ulp above the quotient is where rounding up begins. -/
theorem roundedMantissa_fraction (a : Nat) {d : Nat} (hd : 0 < d) :
    (fraction a d).roundedMantissa =
      match compare (2 * (a % d)) d with
      | .lt => a / d
      | .eq => a / d + a / d % 2
      | .gt => a / d + 1 := by
  unfold fraction accuracyOfFraction
  split
  · have hlt : compare (2 * 0) d = .lt := Nat.compare_eq_lt.2 (by omega)
    simp only [*]
    rfl
  · cases compare (2 * (a % d)) d <;> rfl

theorem Nearest.rounded {a d m : Nat} (hd : 0 < d) (h : Nearest m (a / d)) :
    (fraction a d).roundedMantissa = m := by
  have hd' : (0 : ℚ) < d := by exact_mod_cast hd
  obtain ⟨hlow, hhigh, hodd⟩ := h
  rw [le_div_iff₀ hd'] at hlow
  rw [div_le_iff₀ hd'] at hhigh
  rw [lt_div_iff₀ hd', div_lt_iff₀ hd'] at hodd
  have ha : (a : ℚ) = d * (a / d : Nat) + (a % d : Nat) := by
    exact_mod_cast (Nat.div_add_mod a d).symm
  have hr : ((a % d : Nat) : ℚ) < d := by exact_mod_cast Nat.mod_lt a hd
  have hr₀ : (0 : ℚ) ≤ (a % d : Nat) := Nat.cast_nonneg _
  rw [roundedMantissa_fraction a hd]
  generalize a / d = k at *
  generalize a % d = r at *
  rw [ha] at hlow hhigh hodd
  have hle : k ≤ m := by
    by_contra hlt
    have : (m + 1 : ℚ) ≤ k := by exact_mod_cast Nat.lt_of_not_le hlt
    nlinarith
  have hge : m ≤ k + 1 := by
    by_contra hlt
    have : (k + 2 : ℚ) ≤ m := by exact_mod_cast Nat.lt_of_not_le hlt
    nlinarith
  -- rounded down, or up; at half a place the parity of the result decides
  obtain rfl | rfl : m = k ∨ m = k + 1 := by omega
  · have hrd : 2 * r ≤ d := by
      have : (2 * r : ℚ) ≤ d := by linarith
      exact_mod_cast this
    rcases Nat.lt_or_eq_of_le hrd with hlt | heq
    · rw [Nat.compare_eq_lt.2 hlt]
    · rw [Nat.compare_eq_eq.2 heq]
      have hq : (2 * r : ℚ) = d := by exact_mod_cast heq
      have : ¬ m % 2 = 1 := fun hm => by linarith [(hodd hm).2]
      show m + m % 2 = m
      omega
  · push_cast at hlow hodd
    have hrd : d ≤ 2 * r := by
      have : (d : ℚ) ≤ 2 * r := by linarith
      exact_mod_cast this
    rcases Nat.lt_or_eq_of_le hrd with hlt | heq
    · rw [Nat.compare_eq_gt.2 hlt]
    · rw [Nat.compare_eq_eq.2 heq.symm]
      have hq : (2 * r : ℚ) = d := by exact_mod_cast heq.symm
      have : ¬ (k + 1) % 2 = 1 := fun hm => by linarith [(hodd hm).1]
      show k + k % 2 = k + 1
      omega

theorem targetExponent_eq (t : Int) :
    Format.binary64.targetExponent t = max (t - 53) (-1074) := rfl

theorem shiftToTargetExponent_canonical {b : Binary} (h : b.Canonical) :
    shiftToTargetExponent Format.binary64 b.mantissa b.exponent .exact =
      (⟨b.mantissa, false, false⟩, b.exponent) := by
  have hlog : b.mantissa.log2 < 53 := (Nat.log2_lt h.pos.ne').2 h.lt
  have hle : Format.binary64.targetExponent (totalExponent b.mantissa b.exponent) ≤ b.exponent := by
    have := h.least
    rw [targetExponent_eq, totalExponent]
    omega
  have hn : (Format.binary64.targetExponent (totalExponent b.mantissa b.exponent) -
      b.exponent).toNat = 0 := by omega
  simp [shiftToTargetExponent, shiftToExponent, hn, HShiftRight.hShiftRight, Nat.repeat,
    ExtendedMantissa.ofMantissaAndAccuracy]

theorem shiftToTargetExponent_carry {e : Int} (h : -1074 ≤ e) :
    shiftToTargetExponent Format.binary64 (2 ^ 53) e .exact =
      (⟨2 ^ 52, false, false⟩, e + 1) := by
  have ht : Format.binary64.targetExponent (totalExponent (2 ^ 53) e) = e + 1 := by
    rw [targetExponent_eq, totalExponent, Nat.log2_two_pow]
    omega
  unfold shiftToTargetExponent
  rw [ht]
  simp [shiftToExponent, HShiftRight.hShiftRight, Nat.repeat, ExtendedMantissa.shiftRightOne,
    ExtendedMantissa.ofMantissaAndAccuracy]

/-- Rounding shifts, rounds, and shifts once more where a carry has made the mantissa too long. -/
theorem roundWithAccuracy_eq {m n k : Nat} {e t e' : Int} {acc : Accuracy} {em : ExtendedMantissa}
    (hshift : shiftToTargetExponent Format.binary64 m e acc = (em, t))
    (hround : em.roundedMantissa = n)
    (hcarry : shiftToTargetExponent Format.binary64 n t .exact = (⟨k, false, false⟩, e'))
    (hk : 0 < k) (s : Sign) :
    roundWithAccuracy Format.binary64 s m e acc = .finite s k e' hk := by
  unfold roundWithAccuracy
  rw [hshift]
  dsimp only
  rw [hround, hcarry]
  exact dif_neg hk.ne'

end Sigil.Double

/-! ### The numbers of a window -/

namespace Sigil.Decimal

open Double (Binary Nearest)

/-- That a number lies in the window. -/
def Window.Covers (w : Window) (q : ℚ) : Prop :=
  w.low ≤ q * w.unit ∧ q * w.unit ≤ w.high ∧
    (w.closed = false → w.low < q * w.unit ∧ q * w.unit < w.high)

/-- The quotient of the two factors by which a window is scaled. -/
theorem Window.scale_eq (e : Int) :
    ((1 <<< (e - 2).toNat : Nat) : ℚ) = (1 <<< (2 - e).toNat : Nat) * 2 ^ e / 4 := by
  have hsplit : e = (e - 2).toNat - (2 - e).toNat + 2 := by omega
  have hpow : (2 : ℚ) ^ e = 2 ^ (e - 2).toNat / 2 ^ (2 - e).toNat * 4 := by
    conv_lhs => rw [hsplit]
    rw [zpow_add₀ two_ne_zero, zpow_sub₀ two_ne_zero, zpow_natCast, zpow_natCast]
    norm_num
  rw [hpow, Nat.one_shiftLeft, Nat.one_shiftLeft]
  push_cast
  field_simp

/-- How far the window reaches below a magnitude, in quarters of its last place. -/
def Window.below (b : Binary) : Nat :=
  if b.mantissa = 2 ^ 52 ∧ -1074 < b.exponent then 1 else 2

theorem Window.around_eq (b : Binary) :
    Window.around b =
      { low := (4 * b.mantissa - below b) * (1 <<< (b.exponent - 2).toNat)
        value := 4 * b.mantissa * (1 <<< (b.exponent - 2).toNat)
        high := (4 * b.mantissa + 2) * (1 <<< (b.exponent - 2).toNat)
        unit := 1 <<< (2 - b.exponent).toNat
        closed := b.mantissa % 2 == 0 } := rfl

theorem Window.Covers.quarters {b : Binary} {q : ℚ} (h : (Window.around b).Covers q) :
    ((4 * b.mantissa - below b : Nat) : ℚ) ≤ 4 * (q / 2 ^ b.exponent) ∧
      4 * (q / 2 ^ b.exponent) ≤ 4 * b.mantissa + 2 ∧
      (b.mantissa % 2 = 1 →
        ((4 * b.mantissa - below b : Nat) : ℚ) < 4 * (q / 2 ^ b.exponent) ∧
          4 * (q / 2 ^ b.exponent) < 4 * b.mantissa + 2) := by
  have hpow : (0 : ℚ) < 2 ^ b.exponent := by positivity
  have hunit : (0 : ℚ) < (1 <<< (2 - b.exponent).toNat : Nat) := by
    rw [Nat.one_shiftLeft]; positivity
  obtain ⟨hlow, hhigh, hopen⟩ := h
  simp only [Window.around_eq, Nat.cast_mul, Window.scale_eq] at hlow hhigh hopen
  push_cast at hhigh hopen
  generalize (2 : ℚ) ^ b.exponent = p at *
  generalize ((1 <<< (2 - b.exponent).toNat : Nat) : ℚ) = u at *
  have hpu : 0 < u * p / 4 := by positivity
  have hx : q * u = 4 * (q / p) * (u * p / 4) := by field_simp
  rw [hx] at hlow hhigh hopen
  rw [mul_le_mul_iff_left₀ hpu] at hlow hhigh
  rw [mul_lt_mul_iff_left₀ hpu, mul_lt_mul_iff_left₀ hpu] at hopen
  refine ⟨hlow, hhigh, fun hm => hopen ?_⟩
  rw [hm]
  rfl

theorem Window.Covers.nearest {b : Binary} {q : ℚ} (h : (Window.around b).Covers q) :
    Nearest b.mantissa (q / 2 ^ b.exponent) := by
  obtain ⟨hlow, hhigh, hopen⟩ := h.quarters
  have hb : Window.below b ≤ 2 := by
    unfold Window.below
    split <;> omega
  have hle : (4 * b.mantissa - 2 : ℚ) ≤ (4 * b.mantissa - below b : Nat) := by
    have : ((4 * b.mantissa : Nat) : ℚ) ≤ (4 * b.mantissa - below b + 2 : Nat) := by
      exact_mod_cast (by omega)
    push_cast at this
    linarith
  refine ⟨by linarith, by linarith, fun hm => ?_⟩
  obtain ⟨h₁, h₂⟩ := hopen hm
  exact ⟨by linarith, by linarith⟩

/-- Below a power of two the window is only half as wide. -/
theorem Window.Covers.of_leadingBit {b : Binary} {q : ℚ} (h : (Window.around b).Covers q)
    (hm : b.mantissa = 2 ^ 52) (he : -1074 < b.exponent) :
    (2 ^ 52 - 1 / 4 : ℚ) ≤ q / 2 ^ b.exponent := by
  have hlow := h.quarters.1
  rw [Window.below, if_pos ⟨hm, he⟩, hm, Nat.cast_sub (by decide)] at hlow
  push_cast at hlow
  linarith

end Sigil.Decimal

/-! ### Rounding in a window -/

namespace Sigil.Double

open Float.Model Float.Model.UnpackedFloat
open Decimal (Window)

theorem lt_totalExponent (a : Nat) {d : Nat} (hd : 0 < d) (e : Int) :
    (a / d * 2 ^ e : ℚ) < 2 ^ totalExponent (a / d) e := by
  have hlt : a < d * 2 ^ ((a / d).log2 + 1) :=
    calc a < d * (a / d + 1) := Nat.lt_mul_div_succ a hd
      _ ≤ d * 2 ^ ((a / d).log2 + 1) := Nat.mul_le_mul_left d Nat.lt_log2_self
  have hq : (a / d : ℚ) < 2 ^ ((a / d).log2 + 1) := by
    rw [div_lt_iff₀' (by exact_mod_cast hd)]
    exact_mod_cast hlt
  have hsplit : totalExponent (a / d) e = ((a / d).log2 + 1 : Nat) + e := by
    simp [totalExponent]
  rw [hsplit, zpow_add₀ two_ne_zero, zpow_natCast]
  exact mul_lt_mul_of_pos_right hq (by positivity)

theorem totalExponent_le {a d : Nat} (hd : 0 < d) (h : a / d ≠ 0) (e : Int) :
    (2 ^ (totalExponent (a / d) e - 1) : ℚ) ≤ a / d * 2 ^ e := by
  have hle : 2 ^ (a / d).log2 * d ≤ a :=
    calc 2 ^ (a / d).log2 * d ≤ a / d * d := Nat.mul_le_mul_right d (Nat.log2_self_le h)
      _ ≤ a := Nat.div_mul_le_self a d
  have hq : (2 ^ (a / d).log2 : ℚ) ≤ a / d := by
    rw [le_div_iff₀ (by exact_mod_cast hd)]
    exact_mod_cast hle
  have hsplit : totalExponent (a / d) e - 1 = ((a / d).log2 : Nat) + e := by
    simp only [totalExponent]
    omega
  rw [hsplit, zpow_add₀ two_ne_zero, zpow_natCast]
  exact mul_le_mul_of_nonneg_right hq (by positivity)

/-- A number that is not below a power of two has a leading bit not below it. -/
theorem add_lt_totalExponent {a d : Nat} (hd : 0 < d) {e k : Int} {n : Nat}
    (h : (2 ^ n : ℚ) ≤ a / d * 2 ^ e / 2 ^ k) : k + n < totalExponent (a / d) e := by
  rw [le_div_iff₀ (by positivity)] at h
  have hlt : (2 : ℚ) ^ (k + n) < 2 ^ totalExponent (a / d) e :=
    calc (2 : ℚ) ^ (k + n) = 2 ^ n * 2 ^ k := by
          rw [zpow_add₀ two_ne_zero, zpow_natCast, mul_comm]
      _ ≤ a / d * 2 ^ e := h
      _ < 2 ^ totalExponent (a / d) e := lt_totalExponent a hd e
  exact (zpow_lt_zpow_iff_right₀ one_lt_two).1 hlt

theorem lt_of_covers {b : Binary} (hb : b.Canonical) {q : ℚ} (h : (Window.around b).Covers q) :
    q < 2 ^ (b.exponent + 53) := by
  have hm : (b.mantissa + 1 : ℚ) ≤ 2 ^ 53 := by exact_mod_cast hb.lt
  have hr : q / 2 ^ b.exponent < 2 ^ 53 := by linarith [h.nearest.2.1]
  rw [div_lt_iff₀' (by positivity)] at hr
  rw [zpow_add₀ two_ne_zero]
  exact_mod_cast hr

section

variable {b : Binary} (hb : b.Canonical) {a d : Nat} (hd : 0 < d) {e : Int}
  (hbits : e ≤ -1074 ∨ 2 ^ 52 ≤ a / d) (h : (Window.around b).Covers (a / d * 2 ^ e))

include hb hd hbits h

theorem targetExponent_le_of_covers :
    Format.binary64.targetExponent (totalExponent (a / d) e) ≤ b.exponent := by
  have hleast := hb.least
  have hupper : totalExponent (a / d) e ≤ b.exponent + 53 := by
    by_cases hz : a / d = 0
    · have hlog : Nat.log2 0 = 0 := by decide
      have he : e ≤ -1074 := hbits.resolve_right (by rw [hz]; decide)
      rw [hz, totalExponent, hlog]
      omega
    · have hlt : (2 : ℚ) ^ (totalExponent (a / d) e - 1) < 2 ^ (b.exponent + 53) :=
        (totalExponent_le hd hz e).trans_lt (lt_of_covers hb h)
      have := (zpow_lt_zpow_iff_right₀ one_lt_two).1 hlt
      omega
  rw [targetExponent_eq]
  omega

/-- The places that a number of the window is rounded to are those of the magnitude, or one more if
the number lies below a power of two. -/
theorem targetExponent_of_covers :
    Format.binary64.targetExponent (totalExponent (a / d) e) = b.exponent ∨
      Format.binary64.targetExponent (totalExponent (a / d) e) = b.exponent - 1 ∧
        b.mantissa = 2 ^ 52 ∧ -1074 < b.exponent ∧
        (a / d * 2 ^ e : ℚ) / 2 ^ b.exponent < 2 ^ 52 := by
  have hleast := hb.least
  have hle := targetExponent_le_of_covers hb hd hbits h
  have hlow := h.nearest.1
  rw [targetExponent_eq] at hle ⊢
  by_cases heq : b.exponent = -1074
  · left
    omega
  have hnormal := hb.normal.resolve_right heq
  by_cases hr : (2 : ℚ) ^ 52 ≤ a / d * 2 ^ e / 2 ^ b.exponent
  · left
    have := add_lt_totalExponent hd hr
    omega
  -- only the least mantissa has numbers below it that are shorter than itself
  have hmantissa : b.mantissa = 2 ^ 52 := by
    have hlt : (b.mantissa : ℚ) < 2 ^ 52 + 1 := by linarith
    have hlt' : b.mantissa < 2 ^ 52 + 1 := by exact_mod_cast hlt
    omega
  have hhalf : (2 : ℚ) ^ 51 ≤ a / d * 2 ^ e / 2 ^ b.exponent := by
    rw [hmantissa] at hlow
    norm_num at hlow ⊢
    linarith
  have := add_lt_totalExponent hd hhalf
  by_cases ht : totalExponent (a / d) e = b.exponent + 53
  · left
    omega
  · right
    exact ⟨by omega, hmantissa, by omega, not_le.1 hr⟩

/-- Every number of the window is rounded to the magnitude. -/
theorem roundWithAccuracy_of_covers (s : Sign) :
    roundWithAccuracy Format.binary64 s (a / d) e (accuracyOfFraction (a % d) d) =
      .finite s b.mantissa b.exponent hb.pos := by
  have htarget := targetExponent_of_covers hb hd hbits h
  have hge : e ≤ Format.binary64.targetExponent (totalExponent (a / d) e) := by
    rw [targetExponent_eq, totalExponent]
    rcases hbits with hbits | hbits
    · omega
    · have : 52 ≤ (a / d).log2 := (Nat.le_log2 (by omega)).2 hbits
      omega
  have hleading := h.of_leadingBit
  generalize ht : Format.binary64.targetExponent (totalExponent (a / d) e) = t at *
  -- the first shift
  have hn : e + (t - e).toNat = t := by omega
  have hshift : shiftToTargetExponent Format.binary64 (a / d) e (accuracyOfFraction (a % d) d) =
      (fraction a (d * 2 ^ (t - e).toNat), t) := by
    rw [← shiftRight_fraction a hd]
    simp only [shiftToTargetExponent, shiftToExponent, ht, hn]
    rfl
  have hvalue : (a / (d * 2 ^ (t - e).toNat : Nat) : ℚ) = a / d * 2 ^ e / 2 ^ t := by
    have hpow : (2 : ℚ) ^ t = 2 ^ e * 2 ^ (t - e).toNat := by
      rw [← zpow_natCast, ← zpow_add₀ two_ne_zero, hn]
    rw [hpow]
    push_cast
    field_simp
  rcases htarget with rfl | ⟨rfl, hm, he, hq⟩
  · have hround : (fraction a (d * 2 ^ (b.exponent - e).toNat)).roundedMantissa = b.mantissa :=
      Nearest.rounded (by positivity) (by rw [hvalue]; exact h.nearest)
    exact roundWithAccuracy_eq hshift hround (shiftToTargetExponent_canonical hb) hb.pos s
  · -- the number lies below a power of two and is rounded up to it
    have hround : (fraction a (d * 2 ^ (b.exponent - 1 - e).toNat)).roundedMantissa = 2 ^ 53 := by
      refine Nearest.rounded (by positivity) ?_
      have hlow := hleading hm he
      rw [hvalue, zpow_sub_one₀ two_ne_zero, ← div_div, div_inv_eq_mul]
      refine ⟨?_, ?_, by omega⟩ <;> push_cast <;> linarith
    have hcarry := shiftToTargetExponent_carry (e := b.exponent - 1) (by omega)
    rw [Int.sub_add_cancel] at hcarry
    simp only [hm]
    exact roundWithAccuracy_eq hshift hround hcarry (by decide) s

end

theorem div_of_covers {b : Binary} (hb : b.Canonical) {m₁ m₂ : Nat} {e₁ e₂ : Int} (h₁ : 0 < m₁)
    (h₂ : 0 < m₂) (h : (Window.around b).Covers (m₁ * 2 ^ e₁ / (m₂ * 2 ^ e₂))) (s₁ s₂ : Sign) :
    UnpackedFloat.div Format.binary64 (.finite s₁ m₁ e₁ h₁) (.finite s₂ m₂ e₂ h₂) =
      .finite (s₁ / s₂) b.mantissa b.exponent hb.pos := by
  simp only [UnpackedFloat.div, divCore]
  generalize ht : min (e₁ - e₂)
    (Format.binary64.targetExponent (totalExponent m₁ e₁ - totalExponent m₂ e₂)) = t
  have hn : e₁ - e₂ - t = (e₁ - e₂ - t).toNat := by omega
  generalize (e₁ - e₂ - t).toNat = n at hn
  rw [Nat.shiftLeft_eq]
  refine roundWithAccuracy_of_covers hb h₂ ?_ ?_ _
  · -- the quotient has all its bits unless it falls below the least exponent
    rw [targetExponent_eq] at ht
    by_cases hleast : t ≤ -1074
    · exact .inl hleast
    · right
      have hshift : 53 + m₂.log2 ≤ m₁.log2 + n := by
        simp only [totalExponent] at ht
        omega
      rw [Nat.le_div_iff_mul_le h₂]
      calc 2 ^ 52 * m₂ ≤ 2 ^ 52 * 2 ^ (m₂.log2 + 1) := Nat.mul_le_mul_left _ Nat.lt_log2_self.le
        _ = 2 ^ (53 + m₂.log2) := by rw [← pow_add]; congr 1; omega
        _ ≤ 2 ^ (m₁.log2 + n) := Nat.pow_le_pow_right (by decide) hshift
        _ = 2 ^ m₁.log2 * 2 ^ n := pow_add ..
        _ ≤ m₁ * 2 ^ n := Nat.mul_le_mul_right _ (Nat.log2_self_le h₁.ne')
  · have hpow : (2 : ℚ) ^ e₁ = 2 ^ n * 2 ^ t * 2 ^ e₂ := by
      rw [← zpow_natCast, ← zpow_add₀ two_ne_zero, ← zpow_add₀ two_ne_zero]
      congr 1
      omega
    convert h using 1
    rw [hpow]
    push_cast
    field_simp

theorem mul_of_covers {b : Binary} (hb : b.Canonical) {m₁ m₂ : Nat} {e₁ e₂ : Int} (h₁ : 0 < m₁)
    (h₂ : 0 < m₂) (hbits : 2 ^ 52 ≤ m₁ * m₂)
    (h : (Window.around b).Covers (m₁ * 2 ^ e₁ * (m₂ * 2 ^ e₂))) (s₁ s₂ : Sign) :
    UnpackedFloat.mul Format.binary64 (.finite s₁ m₁ e₁ h₁) (.finite s₂ m₂ e₂ h₂) =
      .finite (s₁ * s₂) b.mantissa b.exponent hb.pos := by
  have hround := roundWithAccuracy_of_covers hb (d := 1) (a := m₁ * m₂) (e := e₁ + e₂) one_pos
    (.inr (by rwa [Nat.div_one])) ?_ (s₁ * s₂)
  · rwa [Nat.div_one, Nat.mod_one] at hround
  · convert h using 1
    rw [zpow_add₀ two_ne_zero]
    push_cast
    ring

/-! ### Decimals -/

/-- The window of the least magnitude starts at half of it. -/
theorem le_of_covers {b : Binary} (hb : b.Canonical) {q : ℚ} (h : (Window.around b).Covers q) :
    2 ^ (-1075 : Int) ≤ q := by
  have hpow : (0 : ℚ) < 2 ^ b.exponent := by positivity
  have hm : (1 : ℚ) ≤ b.mantissa := by exact_mod_cast hb.pos
  have hlow : 1 / 2 ≤ q / 2 ^ b.exponent := by linarith [h.nearest.1]
  rw [le_div_iff₀ hpow] at hlow
  calc (2 : ℚ) ^ (-1075 : Int) = 1 / 2 * 2 ^ (-1074 : Int) := by
        rw [show (-1075 : Int) = -1 + -1074 by decide, zpow_add₀ two_ne_zero]
        norm_num
    _ ≤ 1 / 2 * 2 ^ b.exponent := by
        have := zpow_le_zpow_right₀ (one_le_two (α := ℚ)) hb.least
        linarith
    _ ≤ q := hlow

theorem roundWithAccuracy_canonical (s : Sign) {b : Binary} (hb : b.Canonical) :
    roundWithAccuracy Format.binary64 s b.mantissa b.exponent .exact =
      .finite s b.mantissa b.exponent hb.pos :=
  roundWithAccuracy_eq (shiftToTargetExponent_canonical hb) rfl
    (shiftToTargetExponent_canonical hb) hb.pos s

/-- A whole number below `2 ^ 53` is a double. -/
theorem unpack_toFloat {n : Nat} (hn : 0 < n) (hlt : n < 2 ^ 53) :
    ∃ (m : Nat) (e : Int) (hm : 0 < m),
      n.toUInt64.toFloat.toModel.unpack = .finite .positive m e hm ∧ 2 ^ 52 ≤ m ∧
        (m * 2 ^ e : ℚ) = n := by
  have hlog : n.log2 < 53 := (Nat.log2_lt hn.ne').2 hlt
  generalize hk : 52 - n.log2 = k
  have hlow : 2 ^ 52 ≤ n * 2 ^ k :=
    calc 2 ^ 52 = 2 ^ n.log2 * 2 ^ k := by rw [← pow_add]; congr 1; omega
      _ ≤ n * 2 ^ k := Nat.mul_le_mul_right _ (Nat.log2_self_le hn.ne')
  have hhigh : n * 2 ^ k < 2 ^ 53 :=
    calc n * 2 ^ k < 2 ^ (n.log2 + 1) * 2 ^ k :=
          Nat.mul_lt_mul_of_pos_right Nat.lt_log2_self (by positivity)
      _ = 2 ^ 53 := by rw [← pow_add]; congr 1; omega
  have hb : Binary.Canonical ⟨n * 2 ^ k, -k⟩ := by
    refine ⟨Nat.lt_of_lt_of_le (by decide) hlow, hhigh, ?_, ?_, .inl hlow⟩ <;> dsimp only <;> omega
  refine ⟨n * 2 ^ k, -k, hb.pos, ?_, hlow, ?_⟩
  · have hmod : n.toUInt64.toNat = n := by
      rw [Nat.toUInt64, UInt64.toNat_ofNat']
      omega
    have hcompare : compare (n : Int) 0 = .gt := Int.compare_eq_gt.2 (by omega)
    have htarget : Format.binary64.targetExponent (totalExponent n 0) = -k := by
      rw [targetExponent_eq, totalExponent]
      omega
    have hround : UnpackedFloat.ofUInt64 Format.binary64 n.toUInt64 =
        .finite .positive (n * 2 ^ k) (-k) hb.pos := by
      rw [← roundWithAccuracy_canonical .positive hb]
      simp only [UnpackedFloat.ofUInt64, UnpackedFloat.ofNat, UnpackedFloat.ofInt,
        UnpackedFloat.normalize, hmod, hcompare, UnpackedFloat.round, decreaseExponent,
        Int.toNat_natCast, htarget, Nat.shiftLeft_eq, Int.zero_sub, Int.neg_neg]
    change (Float.Model.pack (UnpackedFloat.ofUInt64 Format.binary64 n.toUInt64)).unpack = _
    rw [hround, unpack_pack .positive hb]
  · push_cast
    rw [zpow_neg, zpow_natCast]
    field_simp

/-- Whether a number that is not below `2 ^ -52` in its last place is `n`. -/
def isWhole (n : Nat) : UnpackedFloat → Bool
  | .finite .positive m e _ => decide (-52 ≤ e) && m * 2 ^ (e + 52).toNat == n * 2 ^ 52
  | _ => false

theorem eq_of_isWhole {n : Nat} {u : UnpackedFloat} (h : isWhole n u = true) :
    ∃ (m : Nat) (e : Int) (hm : 0 < m), u = .finite .positive m e hm ∧ (m * 2 ^ e : ℚ) = n := by
  unfold isWhole at h
  split at h
  next m e hm =>
    obtain ⟨he, hn⟩ : -52 ≤ e ∧ m * 2 ^ (e + 52).toNat = n * 2 ^ 52 := by simpa using h
    refine ⟨m, e, hm, rfl, ?_⟩
    have hq : (m * 2 ^ (e + 52).toNat : ℚ) = n * 2 ^ 52 := by exact_mod_cast hn
    have hsplit : e = ((e + 52).toNat : Int) - (52 : Nat) := by omega
    rw [hsplit, zpow_sub₀ two_ne_zero, zpow_natCast, zpow_natCast, ← mul_div_assoc, hq]
    field_simp
  next => cases h

/-- The powers of ten that are read from the table are exact. -/
theorem isWhole_powersOfTen : ∀ e : Fin Float.exactlyRepresentablePowersOfTen.size,
    isWhole (10 ^ e.val) Float.exactlyRepresentablePowersOfTen[e].toModel.unpack = true := by
  decide +kernel

section Decimal

variable {b : Binary} (hb : b.Canonical) {n s : Nat}

include hb

theorem pos_of_covers (h : (Window.around b).Covers (n / 10 ^ s)) : 0 < n := by
  have hpos : (0 : ℚ) < n / 10 ^ s := lt_of_lt_of_le (by positivity) (le_of_covers hb h)
  rw [div_pos_iff_of_pos_right (by positivity)] at hpos
  exact_mod_cast hpos

/-- A number that a double stands for is not too small to be computed. -/
theorem places_le_of_covers (h : (Window.around b).Covers (n / 10 ^ s)) :
    s ≤ 2 ^ 11 + n.log2 := by
  by_contra hlt
  have hn : (n : ℚ) < 2 ^ (n.log2 + 1) := by exact_mod_cast Nat.lt_log2_self
  have hten : (2 : ℚ) ^ s ≤ 10 ^ s := by gcongr; norm_num
  have hsmall : (n / 10 ^ s : ℚ) < 2 ^ (-1075 : Int) := by
    rw [div_lt_iff₀ (by positivity)]
    calc (n : ℚ) < 2 ^ (n.log2 + 1) := hn
      _ ≤ 2 ^ (-1075 : Int) * 2 ^ s := by
        rw [← zpow_natCast, ← zpow_natCast, ← zpow_add₀ two_ne_zero]
        exact zpow_le_zpow_right₀ one_le_two (by push_cast; omega)
      _ ≤ 2 ^ (-1075 : Int) * 10 ^ s := by gcongr
  exact absurd (le_of_covers hb h) (not_le.2 hsmall)

theorem unpacked_ofScientific_of_covers (h : (Window.around b).Covers (n / 10 ^ s)) :
    UnpackedFloat.ofScientific Format.binary64 n (-s) =
      .finite .positive b.mantissa b.exponent hb.pos := by
  have hn := pos_of_covers hb h
  have hs := places_le_of_covers hb h
  have hbits : (2 : Int) ^ Format.binary64.exponentBits = 2 ^ 11 := rfl
  unfold UnpackedFloat.ofScientific
  rw [dif_neg hn.ne', if_neg (by omega), if_neg (by omega)]
  split
  next hz =>
    obtain rfl : s = 0 := by omega
    refine mul_of_covers hb _ _ ?_ ?_ .positive .positive
    · rw [Nat.shiftLeft_eq]
      calc 2 ^ 52 ≤ 1 * 2 ^ 53 * 1 := by decide
        _ ≤ n * 2 ^ 53 * 10 ^ 0 := Nat.mul_le_mul_right _ (Nat.mul_le_mul_right _ hn)
    · convert h using 1
      rw [Nat.shiftLeft_eq, zpow_neg, zpow_natCast]
      push_cast
      field_simp
  next hz =>
    refine div_of_covers hb _ _ ?_ .positive .positive
    convert h using 1
    simp

/-- A decimal of the window is read as the magnitude. -/
theorem ofScientific_of_covers (h : (Window.around b).Covers (n / 10 ^ s)) :
    Float.ofScientific n true s =
      .ofModel (.pack (.finite .positive b.mantissa b.exponent hb.pos)) := by
  have hn := pos_of_covers hb h
  unfold Float.ofScientific
  split
  next hfast =>
    have hs : s < Float.exactlyRepresentablePowersOfTen.size := Nat.lt_succ_of_le hfast.2
    obtain ⟨m₁, e₁, h₁, hu₁, -, hq₁⟩ := unpack_toFloat hn hfast.1
    obtain ⟨m₂, e₂, h₂, hu₂, hq₂⟩ := eq_of_isWhole (isWhole_powersOfTen ⟨s, hs⟩)
    have hdiv := div_of_covers hb h₁ h₂ (by rw [hq₁, hq₂]; exact_mod_cast h) .positive .positive
    rw [← hu₁, ← hu₂] at hdiv
    exact congrArg (fun u => Float.ofModel (.pack u)) hdiv
  next hslow =>
    simp only [Float.Model.ofScientific, if_true, Int.negOfNat_eq, Int.ofNat_eq_natCast,
      unpacked_ofScientific_of_covers hb h]

/-- A whole number of the window is read as the magnitude. -/
theorem ofScientific_of_covers_whole (h : (Window.around b).Covers n) :
    Float.ofScientific n false 0 =
      .ofModel (.pack (.finite .positive b.mantissa b.exponent hb.pos)) := by
  have h' : (Window.around b).Covers (n / 10 ^ 0) := by simpa using h
  have hn := pos_of_covers hb h'
  unfold Float.ofScientific
  split
  next hfast =>
    obtain ⟨m₁, e₁, h₁, hu₁, hm₁, hq₁⟩ := unpack_toFloat hn hfast.1
    obtain ⟨m₂, e₂, h₂, hu₂, hq₂⟩ := eq_of_isWhole (isWhole_powersOfTen ⟨0, by decide⟩)
    have hmul := mul_of_covers hb h₁ h₂ (by nlinarith)
      (by rw [hq₁, hq₂]; simpa using h) .positive .positive
    rw [← hu₁, ← hu₂] at hmul
    exact congrArg (fun u => Float.ofModel (.pack u)) hmul
  next hslow =>
    exact congrArg (fun u => Float.ofModel (.pack u)) (unpacked_ofScientific_of_covers hb h')

end Decimal

end Sigil.Double
