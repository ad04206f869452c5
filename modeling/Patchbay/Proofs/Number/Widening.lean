import Patchbay.Proofs.Number.Quotients
import Patchbay.Proofs.Number.Rationals

/-!
# Singles that are widened

A double keeps every single exactly: the sign and the kind stay, and so does the value of what is
finite. A quotient of two singles, taken in doubles, can neither overflow nor be lost, so it is
finite just if its dividend is and its divisor is neither zero nor something that is not a number.
-/
namespace Patchbay.Number

open Float.Model
open UnpackedFloat hiding pack unpack round

/-! ### The same number in another format -/

/-- Two numbers have one sign, one kind and, where they are finite, one value. -/
inductive Matches : UnpackedFloat → UnpackedFloat → Prop where
  | notANumber : Matches .notANumber .notANumber
  | infinity (sign : Sign) : Matches (.infinity sign) (.infinity sign)
  | zero (sign : Sign) : Matches (.zero sign) (.zero sign)
  | finite (sign : Sign) {mantissa mantissa' : Nat} {exponent exponent' : Int} {pos pos'}
    (value : (mantissa * 2 ^ exponent : ℚ) = mantissa' * 2 ^ exponent') :
    Matches (.finite sign mantissa exponent pos) (.finite sign mantissa' exponent' pos')

theorem Matches.exists_finite {sign : Sign} {mantissa : Nat} {exponent : Int} {pos}
    {b : UnpackedFloat} (matched : Matches (.finite sign mantissa exponent pos) b) :
    ∃ mantissa' exponent' pos', b = .finite sign mantissa' exponent' pos' ∧
      (mantissa * 2 ^ exponent : ℚ) = mantissa' * 2 ^ exponent' := by
  cases matched with
  | finite sign value => exact ⟨_, _, _, rfl, value⟩

theorem Matches.neg {a b : UnpackedFloat} (matched : Matches a b) : Matches a.neg b.neg := by
  cases matched with
  | notANumber => exact .notANumber
  | infinity sign => exact .infinity (-sign)
  | zero sign => exact .zero (-sign)
  | finite sign value => exact .finite (-sign) value

/-! ### The fields of a single -/

theorem unpack_single_fields (x : Float32) : x.toModel.unpack =
    UnpackedFloat.unpack .binary32 (packComponents .binary32
      (Sign.ofBitVec (BitVec.ofNat 1 (x.toBits >>> 31).toUInt64.toNat))
      (BitVec.ofNat 8 ((x.toBits >>> 23) &&& 0xff).toUInt64.toNat)
      (BitVec.ofNat 23 (x.toBits &&& 0x7fffff).toUInt64.toNat)) := by
  have bit : @unpackSign .binary32 x.toBits.toBitVec =
      BitVec.ofNat 1 (x.toBits >>> 31).toUInt64.toNat := by
    have places : (31 : UInt32).toNat % 32 = 31 := rfl
    rw [← BitVec.toNat_inj, UInt32.toNat_toUInt64, UInt32.toNat_shiftRight, places]
    simp [unpackSign]
  have exponent : @unpackExponent .binary32 x.toBits.toBitVec =
      BitVec.ofNat 8 ((x.toBits >>> 23) &&& 0xff).toUInt64.toNat := by
    rw [← BitVec.toNat_inj, toNat_exponent]
    simp [unpackExponent, Nat.shiftRight_eq_div_pow]
  have fraction : @unpackMantissa .binary32 x.toBits.toBitVec =
      BitVec.ofNat 23 (x.toBits &&& 0x7fffff).toUInt64.toNat := by
    rw [← BitVec.toNat_inj, toNat_fraction]
    simp [unpackMantissa]
  rw [← bit, ← exponent, ← fraction,
    packComponents_unpackSign_unpackExponent_unpackMantissa]
  rfl

theorem unpack_top {format : Format} (sign : Sign)
    (fraction : BitVec format.mantissaBitsWithoutImplicit) :
    UnpackedFloat.unpack format (packComponents format sign (-1#_) fraction) =
      if fraction = 0#_ then .infinity sign else .notANumber := by
  simp only [UnpackedFloat.unpack, unpackSign_packComponents, unpackExponent_packComponents,
    unpackMantissa_packComponents, Sign.ofBitVec_toBitVec, if_true]

theorem unpack_packedZero_sign {format : Format} (sign : Sign) :
    UnpackedFloat.unpack format (packComponents format sign 0#_ 0#_) = .zero sign := by
  have below : 0#(format.exponentBits) ≠ -1#_ := by
    rw [Ne, BitVec.zero_eq_neg_one_iff]
    exact format.he.ne'
  simp only [UnpackedFloat.unpack, unpackSign_packComponents, unpackExponent_packComponents,
    unpackMantissa_packComponents, Sign.ofBitVec_toBitVec, if_neg below, if_true, dif_pos]

section Fields

variable {bit exponent fraction : UInt64} (one : bit.toNat < 2) (short : fraction.toNat < 2 ^ 23)

include one short

/-- Infinities, and what is not a number. -/
theorem matches_top : Matches
    (UnpackedFloat.unpack .binary32 (packComponents .binary32
      (Sign.ofBitVec (BitVec.ofNat 1 bit.toNat)) (-1#8) (BitVec.ofNat 23 fraction.toNat)))
    (Float.ofBits ((bit <<< 63) ||| (0x7ff0000000000000 : UInt64) |||
      (fraction <<< 29))).toModel.unpack := by
  have moved := toNat_moved short
  have top : (0x7ff0000000000000 : UInt64) = (2047 : UInt64) <<< 52 := by decide
  have ones : BitVec.ofNat 11 (2047 : UInt64).toNat = -1#11 := by decide
  have single := @unpack_top .binary32 (Sign.ofBitVec (BitVec.ofNat 1 bit.toNat))
    (BitVec.ofNat 23 fraction.toNat)
  have double := @unpack_top .binary64 (Sign.ofBitVec (BitVec.ofNat 1 bit.toNat))
    (BitVec.ofNat 52 (fraction.toNat * 2 ^ 29))
  have nothing : BitVec.ofNat 23 fraction.toNat = 0#23 ↔
      BitVec.ofNat 52 (fraction.toNat * 2 ^ 29) = 0#52 := by
    rw [eq_zero_iff, eq_zero_iff, BitVec.toNat_ofNat, BitVec.toNat_ofNat,
      Nat.mod_eq_of_lt short, Nat.mod_eq_of_lt (by omega)]
    omega
  rw [unpack_ofBits, top, signed_word_eq_packComponents one (by decide) (by omega), moved, ones,
    single, double]
  by_cases zero : BitVec.ofNat 23 fraction.toNat = 0#23
  · rw [if_pos zero, if_pos (nothing.mp zero)]
    exact .infinity _
  · rw [if_neg zero, if_neg (mt nothing.mpr zero)]
    exact .notANumber

/-- Normal numbers: the implicit place stays in front of the fraction. -/
theorem matches_normal (above : 0 < exponent.toNat) (below : exponent.toNat < 255) : Matches
    (UnpackedFloat.unpack .binary32 (packComponents .binary32
      (Sign.ofBitVec (BitVec.ofNat 1 bit.toNat)) (BitVec.ofNat 8 exponent.toNat)
      (BitVec.ofNat 23 fraction.toNat)))
    (Float.ofBits ((bit <<< 63) ||| ((exponent + 896) <<< 52) |||
      (fraction <<< 29))).toModel.unpack := by
  have moved := toNat_moved short
  have biased := @toNat_biased exponent (by omega)
  have field : (BitVec.ofNat 8 exponent.toNat).toNat = exponent.toNat :=
    Nat.mod_eq_of_lt (by omega)
  have field' : (BitVec.ofNat 11 (exponent.toNat + 896)).toNat = exponent.toNat + 896 :=
    Nat.mod_eq_of_lt (by omega)
  have single := @unpack_normal .binary32 (Sign.ofBitVec (BitVec.ofNat 1 bit.toNat))
    (BitVec.ofNat 8 exponent.toNat) (BitVec.ofNat 23 fraction.toNat)
    (by rw [Ne, eq_zero_iff, field]; omega) (by rw [Ne, eq_ones_iff, field]; omega)
  have double := @unpack_normal .binary64 (Sign.ofBitVec (BitVec.ofNat 1 bit.toNat))
    (BitVec.ofNat 11 (exponent.toNat + 896)) (BitVec.ofNat 52 (fraction.toNat * 2 ^ 29))
    (by rw [Ne, eq_zero_iff, field']; omega) (by rw [Ne, eq_ones_iff, field']; omega)
  rw [unpack_ofBits, signed_word_eq_packComponents one (by omega) (by omega), moved, biased,
    single, double]
  refine .finite _ ?_
  have mantissa : (1#1 ++ BitVec.ofNat 23 fraction.toNat).toNat = 2 ^ 23 + fraction.toNat := by
    rw [toNat_implicit_append, BitVec.toNat_ofNat, Nat.mod_eq_of_lt short]
  have mantissa' : (1#1 ++ BitVec.ofNat 52 (fraction.toNat * 2 ^ 29)).toNat =
      (2 ^ 23 + fraction.toNat) * 2 ^ 29 := by
    rw [toNat_implicit_append, BitVec.toNat_ofNat, Nat.mod_eq_of_lt (by omega)]
    omega
  have scale : ((exponent.toNat : Int) - (Format.binary32.exponentBias +
      Format.binary32.mantissaBitsWithoutImplicit)) = 29 + (((exponent.toNat + 896 : Nat) : Int) -
        (Format.binary64.exponentBias + Format.binary64.mantissaBitsWithoutImplicit)) := by
    show (exponent.toNat : Int) - (127 + 23) =
      29 + (((exponent.toNat + 896 : Nat) : Int) - (1023 + 52))
    omega
  rw [mantissa, mantissa', field, field', scale, zpow_add₀ two_ne_zero]
  push_cast
  ring

omit one in
/-- Zeros and subnormal numbers: the fraction counts units of `2 ^ (-149)`. -/
theorem matches_bottom : Matches
    (UnpackedFloat.unpack .binary32 (packComponents .binary32 .positive 0#8
      (BitVec.ofNat 23 fraction.toNat)))
    (fraction.toFloat * Float.ofBits 0x36a0000000000000).toModel.unpack := by
  rw [unpack_mul_unit (by omega)]
  rcases Nat.eq_zero_or_pos fraction.toNat with zero | some_left
  · rw [zero, unpack_packedZero_sign, scaled_zero]
    exact .zero _
  · have within : fraction.toNat < 2 ^ Format.binary64.mantissaBits :=
      show fraction.toNat < 2 ^ 53 by omega
    have room : Roomy .binary64 (-149) := show (-1022 : Int) ≤ -149 by decide
    have field : (BitVec.ofNat 23 fraction.toNat).toNat = fraction.toNat :=
      Nat.mod_eq_of_lt (by omega)
    have single := @unpack_subnormal .binary32 .positive (BitVec.ofNat 23 fraction.toNat)
      (by rw [Ne, eq_zero_iff, field]; omega)
    rw [single, scaled_eq some_left within room]
    refine .finite _ ?_
    have scale : ((0#(Format.binary32.exponentBits)).toNat - (Format.binary32.exponentBias +
        Format.binary32.mantissaBitsWithoutImplicit) + 1 : Int) =
          spare .binary64 fraction.toNat + (-149 - spare .binary64 fraction.toNat) := by
      have least : ((0#(Format.binary32.exponentBits)).toNat - (Format.binary32.exponentBias +
        Format.binary32.mantissaBitsWithoutImplicit) + 1 : Int) = -149 := rfl
      omega
    rw [field, scale, zpow_add₀ two_ne_zero, zpow_natCast]
    push_cast
    ring

end Fields

theorem unpack_neg_double (x : Float) : (-x).toModel.unpack = x.toModel.unpack.neg := by
  have packed : (-x).toModel.unpack = UnpackedFloat.unpack .binary64
      (UnpackedFloat.pack .binary64 x.toModel.unpack.neg) := rfl
  rw [packed, unpack_pack_neg, unpack_pack_double]

/-- A double keeps a single exactly. -/
theorem widen_exact (x : Float32) : Matches x.toModel.unpack (widen x).toModel.unpack := by
  have one : (x.toBits >>> 31).toUInt64.toNat < 2 := by
    have places : (31 : UInt32).toNat % 32 = 31 := rfl
    have lt := x.toBits.toNat_lt
    rw [UInt32.toNat_toUInt64, UInt32.toNat_shiftRight, places, Nat.shiftRight_eq_div_pow]
    omega
  have few : ((x.toBits >>> 23) &&& 0xff).toUInt64.toNat < 2 ^ 8 := by
    rw [toNat_exponent]
    omega
  have short : (x.toBits &&& 0x7fffff).toUInt64.toNat < 2 ^ 23 := by
    rw [toNat_fraction]
    omega
  rw [unpack_single_fields]
  unfold widen
  dsimp only
  generalize (x.toBits >>> 31).toUInt64 = bit at *
  generalize ((x.toBits >>> 23) &&& 0xff).toUInt64 = exponent at *
  generalize (x.toBits &&& 0x7fffff).toUInt64 = fraction at *
  split
  · rename_i top
    subst top
    exact matches_top one short
  · rename_i not_top
    split
    · rename_i bottom
      subst bottom
      have sign : bit = 0 ∨ bit = 1 := by
        rw [← UInt64.toNat_inj, ← UInt64.toNat_inj]
        have zero : (0 : UInt64).toNat = 0 := rfl
        have one : (1 : UInt64).toNat = 1 := rfl
        omega
      rcases sign with rfl | rfl
      · exact matches_bottom short
      · have matched := (matches_bottom short).neg
        rw [← unpack_packComponents_neg, ← unpack_neg_double] at matched
        exact matched
    · rename_i not_bottom
      have above : exponent.toNat ≠ 0 := fun zero => not_bottom (UInt64.toNat_inj.mp zero)
      have below : exponent.toNat ≠ 255 := fun full => not_top (UInt64.toNat_inj.mp full)
      exact matches_normal one short (by omega) (by omega)

/-! ### Quotients of singles -/

theorem isFinite_neg (a : UnpackedFloat) : a.neg.isFinite = a.isFinite := by
  cases a <;> rfl

/-- What is unpacked has one of the exponents of the format. -/
theorem exponent_le_of_unpack {format : Format} (wide : 1 < format.exponentBits)
    {word : BitVec format.numBits} {sign : Sign} {mantissa : Nat} {exponent : Int} {pos}
    (unpacked : UnpackedFloat.unpack format word = .finite sign mantissa exponent pos) :
    exponent ≤ maxExponent format := by
  by_contra large
  have packed := @unpack_pack_unpack format wide word
  rw [unpacked, unpack_pack_of_lt (not_le.mp large)] at packed
  cases packed

/-- The values of singles lie between `2 ^ (-149)` and `2 ^ 128`. -/
theorem value_bounds_of_unpack {x : Float32} {sign : Sign} {mantissa : Nat} {exponent : Int} {pos}
    (unpacked : x.toModel.unpack = .finite sign mantissa exponent pos) :
    (2 : ℚ) ^ (-149 : Int) ≤ mantissa * 2 ^ exponent ∧
      (mantissa * 2 ^ exponent : ℚ) ≤ 2 ^ (128 : Int) := by
  have kept : Kept .binary32 mantissa exponent := kept_unpack unpacked
  have most : exponent ≤ maxExponent .binary32 := exponent_le_of_unpack (by decide) unpacked
  have top : maxExponent .binary32 = 104 := rfl
  rw [top] at most
  have least : -149 ≤ exponent := kept.least
  have one_le : (1 : ℚ) ≤ mantissa := by exact_mod_cast pos
  have fits : (mantissa : ℚ) ≤ 2 ^ (24 : Int) := by exact_mod_cast kept.fits.le
  have positive : (0 : ℚ) < 2 ^ exponent := zpow_pos two_pos exponent
  constructor
  · calc (2 : ℚ) ^ (-149 : Int) ≤ 2 ^ exponent := zpow_le_zpow_right₀ one_le_two least
      _ ≤ mantissa * 2 ^ exponent := le_mul_of_one_le_left positive.le one_le
  · calc (mantissa * 2 ^ exponent : ℚ) ≤ 2 ^ (24 : Int) * 2 ^ exponent := by gcongr
      _ ≤ 2 ^ (24 : Int) * 2 ^ (104 : Int) :=
        mul_le_mul_of_nonneg_left (zpow_le_zpow_right₀ one_le_two most) (by positivity)
      _ = 2 ^ (128 : Int) := by norm_num

/-- What is rounded from a number up to `2 ^ 277` is a finite double. -/
theorem isFinite_of_rounds {a : UnpackedFloat} {value : ℚ} (rounds : Rounds .binary64 value a)
    (le : value ≤ 2 ^ (277 : Int)) :
    (UnpackedFloat.unpack .binary64 (UnpackedFloat.pack .binary64 a)).isFinite = true := by
  have kept : Kept .binary64 (2 ^ 52) 225 :=
    ⟨by decide, by decide, by decide, .inl (by decide)⟩
  have bound : ((2 ^ 52 : Nat) * 2 ^ (225 : Int) : ℚ) = 2 ^ (277 : Int) := by
    rw [Nat.cast_pow, Nat.cast_ofNat, ← zpow_natCast, ← zpow_add₀ two_ne_zero]
    rfl
  have below := rounds.le (by decide) (Keeps.finite kept).rounds (le.trans bound.ge)
  obtain ⟨_, _, _, keeps⟩ := rounds
  have above : AtLeastZero (UnpackedFloat.unpack .binary64 (UnpackedFloat.pack .binary64 a)) :=
    keeps.atLeastZero.unpack_pack
  rw [unpack_pack (by decide) kept (by decide)] at below
  generalize UnpackedFloat.unpack .binary64 (UnpackedFloat.pack .binary64 a) = quotient at *
  cases above with
  | zero => rfl
  | infinity => cases below
  | finite => rfl

/-- A quotient of two finite singles is finite. -/
theorem isFinite_div_of_finite {x y : Float32} {sign sign' : Sign} {mantissa mantissa' : Nat}
    {exponent exponent' : Int} {pos pos'}
    (unpacked : x.toModel.unpack = .finite sign mantissa exponent pos)
    (unpacked' : y.toModel.unpack = .finite sign' mantissa' exponent' pos') :
    (widen x / widen y).isFinite = true := by
  have exact_x := widen_exact x
  have exact_y := widen_exact y
  rw [unpacked] at exact_x
  rw [unpacked'] at exact_y
  obtain ⟨m, e, above, wide, value⟩ := exact_x.exists_finite
  obtain ⟨m', e', above', wide', value'⟩ := exact_y.exists_finite
  have kept : Kept .binary64 m e := kept_unpack wide
  have most : (m * 2 ^ e : ℚ) / (m' * 2 ^ e') ≤ 2 ^ (277 : Int) := by
    have split : (2 : ℚ) ^ (277 : Int) = 2 ^ (128 : Int) / 2 ^ (-149 : Int) := by
      rw [← zpow_sub₀ two_ne_zero]
      rfl
    rw [split, ← value, ← value']
    exact div_le_div₀ (by positivity) (value_bounds_of_unpack unpacked).2 (by positivity)
      (value_bounds_of_unpack unpacked').1
  have finite := isFinite_of_rounds ((Keeps.finite kept).rounds_div above') most
  -- the signs of the two only decide the sign of the quotient
  have opposite (m : Nat) (e : Int) (pos : 0 < m) :
      UnpackedFloat.finite .negative m e pos = (UnpackedFloat.finite .positive m e pos).neg := rfl
  show (widen x / widen y).toModel.unpack.isFinite = true
  rw [unpack_div_double, wide, wide']
  show (UnpackedFloat.unpack .binary64 (UnpackedFloat.pack .binary64 _)).isFinite = true
  cases sign <;> cases sign' <;>
    simp only [opposite, div_neg, div_neg_right, unpack_pack_neg, isFinite_neg, finite]

/-- A quotient of two singles, taken in doubles, is finite just if the first one is and the second
one is a number other than zero. -/
theorem isFinite_ratio_iff (x y : Float32) : (widen x / widen y).isFinite = true ↔
    x.isFinite = true ∧ y.isNaN = false ∧ ¬ Null y := by
  have finite {sign sign' : Sign} {mantissa mantissa' : Nat} {exponent exponent' : Int} {pos pos'}
      (first : x.toModel.unpack = .finite sign mantissa exponent pos)
      (second : y.toModel.unpack = .finite sign' mantissa' exponent' pos') :
      (UnpackedFloat.unpack .binary64 (UnpackedFloat.pack .binary64 (UnpackedFloat.div .binary64
        (widen x).toModel.unpack (widen y).toModel.unpack))).isFinite = true :=
    isFinite_div_of_finite first second
  have nothing : UnpackedFloat.unpack .binary64 (UnpackedFloat.pack .binary64 .notANumber) =
      .notANumber := unpack_packedNaN
  have infinite (sign : Sign) : UnpackedFloat.unpack .binary64
      (UnpackedFloat.pack .binary64 (.infinity sign)) = .infinity sign := unpack_packedInfinity sign
  have zero (sign : Sign) : UnpackedFloat.unpack .binary64
      (UnpackedFloat.pack .binary64 (.zero sign)) = .zero sign := UnpackedFloat.unpack_packedZero
  have exact_x := widen_exact x
  have exact_y := widen_exact y
  show (UnpackedFloat.unpack .binary64 (UnpackedFloat.pack .binary64 (UnpackedFloat.div .binary64
      (widen x).toModel.unpack (widen y).toModel.unpack))).isFinite = true ↔
    x.toModel.unpack.isFinite = true ∧ y.toModel.unpack.isNaN = false ∧
      ¬ ∃ sign, y.toModel.unpack = .zero sign
  generalize x.toModel.unpack = a at *
  generalize y.toModel.unpack = b at *
  generalize (widen x).toModel.unpack = wide at *
  generalize (widen y).toModel.unpack = wide' at *
  cases exact_x <;> cases exact_y
  case finite.finite => exact iff_of_true (finite rfl rfl) ⟨rfl, rfl, nofun⟩
  all_goals
    simp [UnpackedFloat.div, nothing, infinite, zero, UnpackedFloat.isFinite, UnpackedFloat.isNaN]

end Patchbay.Number
