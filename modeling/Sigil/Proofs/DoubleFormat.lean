import Mathlib
import Sigil.Double

/-!
# The encoding of doubles

The arithmetic of `Float` unpacks the 64 bits of a double into a sign, a mantissa and an exponent
and packs the rounded result again. Here the two directions are tied to `Double.parts`: the parts of
a double are what unpacking gives (`unpack_eq`), and packing them gives the double back
(`ofModel_pack_parts`).
-/

namespace Sigil.Double

open Float.Model Float.Model.UnpackedFloat

/-- A magnitude as the parts of a double give it, other than zero. -/
structure Binary.Canonical (b : Binary) : Prop where
  pos : 0 < b.mantissa
  lt : b.mantissa < 2 ^ 53
  least : -1074 ≤ b.exponent
  greatest : b.exponent ≤ 971
  normal : 2 ^ 52 ≤ b.mantissa ∨ b.exponent = -1074

theorem leadingBit_eq : leadingBit = 2 ^ 52 := rfl

/-! ### The fields of an encoding -/

section Fields

variable (w : BitVec Format.binary64.numBits)

theorem toNat_unpackMantissa : (unpackMantissa w).toNat = w.toNat % 2 ^ 52 := by
  simp [unpackMantissa]

theorem toNat_unpackExponent : (unpackExponent w).toNat = w.toNat / 2 ^ 52 % 2 ^ 11 := by
  simp [unpackExponent, Nat.shiftRight_eq_div_pow]

theorem toNat_unpackSign : (unpackSign w).toNat = w.toNat / 2 ^ 63 := by
  have hw : w.toNat < 2 ^ 64 := w.isLt
  simp only [unpackSign, BitVec.toNat_cast, BitVec.extractLsb_toNat, Nat.shiftRight_eq_div_pow]
  omega

theorem toNat_implicit (m : BitVec 52) : (1#1 ++ m).toNat = leadingBit + m.toNat := by
  rw [BitVec.toNat_append, ← Nat.shiftLeft_add_eq_or_of_lt m.isLt, Nat.shiftLeft_eq]
  rfl

end Fields

/-! ### Unpacking -/

/-- The sign of a double. -/
def signOf (negative : Bool) : Sign :=
  if negative then .negative else .positive

theorem sign_word (w : BitVec Format.binary64.numBits) :
    Sign.ofBitVec (unpackSign w) = signOf (decide (1 <<< 63 ≤ w.toNat)) := by
  have hw : w.toNat < 2 ^ 64 := w.isLt
  have hs := toNat_unpackSign w
  have hiff : unpackSign w = 0#1 ↔ ¬ 1 <<< 63 ≤ w.toNat := by
    rw [← BitVec.toNat_inj, hs, BitVec.toNat_ofNat]
    omega
  simp only [Sign.ofBitVec, signOf, hiff, decide_eq_true_eq, ite_not]

/-- What a double stands for, as the arithmetic on doubles sees it. -/
def Parts.unpacked : Parts → UnpackedFloat
  | .nan => .notANumber
  | .infinite negative => .infinity (signOf negative)
  | .finite negative b =>
    if h : b.mantissa = 0 then .zero (signOf negative)
    else .finite (signOf negative) b.mantissa b.exponent (Nat.pos_of_ne_zero h)

theorem exponentBias_eq : (Format.binary64.exponentBias : Int) = 1023 := by decide

/-- The parts of the double with the encoding `bits`. -/
def Parts.ofBits (bits : Nat) : Parts :=
  if bits / leadingBit % (1 <<< 11) = (1 <<< 11) - 1 then
    if bits % leadingBit = 0 then .infinite (decide (1 <<< 63 ≤ bits)) else .nan
  else if bits / leadingBit % (1 <<< 11) = 0 then
    .finite (decide (1 <<< 63 ≤ bits)) ⟨bits % leadingBit, leastExponent⟩
  else
    .finite (decide (1 <<< 63 ≤ bits))
      ⟨leadingBit + bits % leadingBit, leastExponent + (bits / leadingBit % (1 <<< 11) - 1 : Nat)⟩

theorem unpack_word (w : BitVec Format.binary64.numBits) :
    UnpackedFloat.unpack Format.binary64 w = (Parts.ofBits w.toNat).unpacked := by
  have hm : (unpackMantissa w).toNat = w.toNat % leadingBit := toNat_unpackMantissa w
  have he : (unpackExponent w).toNat = w.toNat / leadingBit % (1 <<< 11) := toNat_unpackExponent w
  have hall : unpackExponent w = -1#_ ↔ w.toNat / leadingBit % (1 <<< 11) = (1 <<< 11) - 1 := by
    rw [← BitVec.toNat_inj, he]; rfl
  have hzero : unpackExponent w = 0#_ ↔ w.toNat / leadingBit % (1 <<< 11) = 0 := by
    rw [← BitVec.toNat_inj, he]; rfl
  have hfraction : unpackMantissa w = 0#_ ↔ w.toNat % leadingBit = 0 := by
    rw [← BitVec.toNat_inj, hm]; rfl
  simp only [UnpackedFloat.unpack, sign_word, hall, hzero, hfraction, Parts.ofBits]
  split
  · split <;> rfl
  split
  · rename_i hz
    split
    · simp [Parts.unpacked, *]
    · rename_i hf
      simp only [Parts.unpacked, dif_neg hf, hm, he, hz, exponentBias_eq]
      rfl
  · -- the leading bit of a normal number is not in the encoding
    have hpos : leadingBit + w.toNat % leadingBit ≠ 0 := by
      rw [leadingBit]; omega
    simp only [Parts.unpacked, dif_neg hpos, toNat_implicit, hm, he, exponentBias_eq]
    congr 1
    simp only [leastExponent]
    omega

theorem unpack_eq (x : Float) : x.toModel.unpack = (parts x).unpacked :=
  unpack_word x.toBits.toBitVec

/-- What every magnitude of a double is within, zero included. -/
structure Binary.Fits (b : Binary) : Prop where
  lt : b.mantissa < 2 ^ 53
  least : -1074 ≤ b.exponent
  greatest : b.exponent ≤ 971

theorem bounds_of_parts {x : Float} {negative : Bool} {b : Binary}
    (h : parts x = .finite negative b) :
    b.Fits ∧ (2 ^ 52 ≤ b.mantissa ∨ b.exponent = -1074) := by
  have hx : Parts.ofBits x.toBits.toNat = .finite negative b := h
  unfold Parts.ofBits at hx
  generalize x.toBits.toNat = bits at hx
  split at hx
  · split at hx <;> cases hx
  have hbiased : bits / leadingBit % (1 <<< 11) < 2 ^ 11 := Nat.mod_lt _ (by decide)
  have hfraction : bits % leadingBit < 2 ^ 52 := Nat.mod_lt _ (by decide)
  generalize bits / leadingBit % (1 <<< 11) = biased at *
  generalize bits % leadingBit = fraction at *
  rw [leadingBit_eq, leastExponent] at hx
  split at hx <;> cases hx
  · refine ⟨⟨?_, ?_, ?_⟩, .inr rfl⟩ <;> dsimp only <;> omega
  · refine ⟨⟨?_, ?_, ?_⟩, .inl ?_⟩ <;> dsimp only <;> omega

theorem canonical_of_parts {x : Float} {negative : Bool} {b : Binary}
    (h : parts x = .finite negative b) (hb : b.mantissa ≠ 0) : b.Canonical := by
  obtain ⟨fits, normal⟩ := bounds_of_parts h
  exact ⟨Nat.pos_of_ne_zero hb, fits.lt, fits.least, fits.greatest, normal⟩

/-! ### Packing -/

theorem pack_normal (s : Sign) {b : Binary} (hb : b.Canonical) (hm : 2 ^ 52 ≤ b.mantissa) :
    UnpackedFloat.pack Format.binary64 (.finite s b.mantissa b.exponent hb.pos) =
      packComponents Format.binary64 s (BitVec.ofNat 11 (b.exponent + 1075).toNat)
        (BitVec.ofNat 52 b.mantissa) := by
  have hlog : b.mantissa.log2 + 1 = Format.binary64.mantissaBits := by
    rw [show b.mantissa.log2 = 52 from (Nat.log2_eq_iff (Nat.ne_of_gt hb.pos)).2 ⟨hm, hb.lt⟩]
    rfl
  have hbiased : b.exponent + Format.binary64.exponentBias +
      Format.binary64.mantissaBitsWithoutImplicit = b.exponent + 1075 := by
    rw [exponentBias_eq]
    exact Int.add_assoc ..
  have hgreatest := hb.greatest
  simp only [UnpackedFloat.pack, hbiased]
  rw [if_neg (by omega), if_pos hlog]

theorem pack_subnormal (s : Sign) {m : Nat} (hpos : 0 < m) (hm : m < 2 ^ 52) :
    UnpackedFloat.pack Format.binary64 (.finite s m (-1074) hpos) =
      packComponents Format.binary64 s 0#11 (BitVec.ofNat 52 m) := by
  have hlog : ¬ m.log2 + 1 = Format.binary64.mantissaBits := by
    have hlt : m.log2 < 52 := (Nat.log2_lt (Nat.ne_of_gt hpos)).2 hm
    change ¬ m.log2 + 1 = 53
    omega
  simp only [UnpackedFloat.pack]
  rw [if_neg (by decide), if_neg hlog]

theorem unpack_pack_normal (s : Sign) {b : Binary} (hb : b.Canonical) (hm : 2 ^ 52 ≤ b.mantissa) :
    (Float.Model.pack (.finite s b.mantissa b.exponent hb.pos)).unpack =
      .finite s b.mantissa b.exponent hb.pos := by
  change UnpackedFloat.unpack Format.binary64
    (UnpackedFloat.pack Format.binary64 (.finite s b.mantissa b.exponent hb.pos)) = _
  obtain ⟨-, hlt, hleast, hgreatest, -⟩ := id hb
  have hmantissa : (BitVec.ofNat 52 b.mantissa).toNat = b.mantissa - 2 ^ 52 := by
    rw [BitVec.toNat_ofNat]
    omega
  have hexponent :
      ((BitVec.ofNat 11 (b.exponent + 1075).toNat).toNat : Int) = b.exponent + 1075 := by
    rw [BitVec.toNat_ofNat]
    omega
  have hall : ¬ BitVec.ofNat 11 (b.exponent + 1075).toNat = -1#11 := by
    rw [← BitVec.toNat_inj]
    change ¬ _ = 2047
    omega
  have hzero : ¬ BitVec.ofNat 11 (b.exponent + 1075).toNat = 0#11 := by
    rw [← BitVec.toNat_inj]
    change ¬ _ = 0
    omega
  rw [pack_normal s hb hm]
  simp only [UnpackedFloat.unpack, unpackMantissa_packComponents, unpackExponent_packComponents,
    unpackSign_packComponents, Sign.ofBitVec_toBitVec]
  rw [if_neg hall, if_neg hzero, UnpackedFloat.finite.injEq]
  refine ⟨rfl, ?_, ?_⟩
  · rw [toNat_implicit, hmantissa, leadingBit_eq]
    omega
  · rw [hexponent, exponentBias_eq]
    omega

theorem unpack_pack_subnormal (s : Sign) {m : Nat} (hpos : 0 < m) (hm : m < 2 ^ 52) :
    (Float.Model.pack (.finite s m (-1074) hpos)).unpack = .finite s m (-1074) hpos := by
  change UnpackedFloat.unpack Format.binary64
    (UnpackedFloat.pack Format.binary64 (.finite s m (-1074) hpos)) = _
  have hmantissa : (BitVec.ofNat 52 m).toNat = m := by
    rw [BitVec.toNat_ofNat, Nat.mod_eq_of_lt hm]
  have hne : ¬ BitVec.ofNat 52 m = 0#52 := by
    rw [← BitVec.toNat_inj, hmantissa]
    change ¬ m = 0
    omega
  rw [pack_subnormal s hpos hm]
  simp only [UnpackedFloat.unpack, unpackMantissa_packComponents, unpackExponent_packComponents,
    unpackSign_packComponents, Sign.ofBitVec_toBitVec]
  rw [if_neg (by decide), if_pos trivial, dif_neg hne, UnpackedFloat.finite.injEq]
  exact ⟨rfl, hmantissa, by decide⟩

/-- Packing loses nothing of a canonical magnitude. -/
theorem unpack_pack (s : Sign) {b : Binary} (hb : b.Canonical) :
    (Float.Model.pack (.finite s b.mantissa b.exponent hb.pos)).unpack =
      .finite s b.mantissa b.exponent hb.pos := by
  by_cases hm : 2 ^ 52 ≤ b.mantissa
  · exact unpack_pack_normal s hb hm
  · have he := hb.normal.resolve_left hm
    obtain ⟨m, e⟩ := b
    subst he
    exact unpack_pack_subnormal s hb.pos (Nat.lt_of_not_le hm)

/-- A double is made up again from its parts. -/
theorem ofModel_pack_parts (x : Float) : Float.ofModel (.pack (parts x).unpacked) = x := by
  rw [← unpack_eq, ← Float.toBits_inj, ← UInt64.toBitVec_inj]
  exact pack_unpack_of_valid x.toModel.valid

/-! ### Comparisons -/

theorem compare_swap (u v : UnpackedFloat) : v.compare u = (u.compare v).map Ordering.swap := by
  have h (e₁ e₂ : Int) (m₁ m₂ : Nat) : ((compare e₁ e₂).then (compare m₁ m₂)).swap =
      (compare e₂ e₁).then (compare m₂ m₁) := by
    rw [Ordering.swap_then, Int.compare_swap, Nat.compare_swap]
  rcases u with (_ | _) | _ | (_ | _) | ⟨_ | _, _, _, _⟩ <;>
    rcases v with (_ | _) | _ | (_ | _) | ⟨_ | _, _, _, _⟩ <;>
    simp [UnpackedFloat.compare, h] <;> rfl

theorem lt_iff_compare {x y : Float} :
    x < y ↔ x.toModel.unpack.compare y.toModel.unpack = some .lt := by
  change decide _ = true ↔ _
  rw [decide_eq_true_iff]
  change UnpackedFloat.lt _ _ = true ↔ _
  rw [UnpackedFloat.lt, beq_iff_eq]

theorem le_iff_compare {x y : Float} :
    x ≤ y ↔ (x.toModel.unpack.compare y.toModel.unpack).any (·.isLE) = true := by
  change decide _ = true ↔ _
  rw [decide_eq_true_iff]
  rfl

theorem beq_iff_compare {x y : Float} :
    (x == y) = true ↔ x.toModel.unpack.compare y.toModel.unpack = some .eq := by
  change UnpackedFloat.beq _ _ = true ↔ _
  rw [UnpackedFloat.beq, beq_iff_eq]

theorem not_le_of_lt {x y : Float} (h : x < y) : ¬ y ≤ x := by
  rw [le_iff_compare, compare_swap, lt_iff_compare.1 h]
  exact Bool.false_ne_true

protected theorem le_of_lt {x y : Float} (h : x < y) : x ≤ y := by
  rw [le_iff_compare, lt_iff_compare.1 h]
  rfl

theorem beq_self {x : Float} {negative : Bool} {b : Binary} (h : parts x = .finite negative b) :
    (x == x) = true := by
  rw [Float.beq_self_iff]
  rintro rfl
  have hnan : parts Float.nan = .nan := by decide +kernel
  rw [hnan] at h
  cases h

theorem mantissa_of_beq_zero {x : Float} (h : (x == 0) = true) :
    ∃ negative b, parts x = .finite negative b ∧ b.mantissa = 0 := by
  have hpositive : parts 0 = .finite false ⟨0, leastExponent⟩ := by decide +kernel
  have hnegative : parts (-0) = .finite true ⟨0, leastExponent⟩ := by decide +kernel
  obtain ⟨-, -, rfl | ⟨rfl, -⟩ | ⟨rfl, -⟩⟩ := Float.beq_iff_ne_nan_and_eq.1 h
  · exact ⟨_, _, hpositive, rfl⟩
  · exact ⟨_, _, hpositive, rfl⟩
  · exact ⟨_, _, hnegative, rfl⟩

end Sigil.Double
