import Patchbay.Proofs.Number.Dyadic

/-!
# How long frames last

A single above zero is widened to a double above zero, be it normal, subnormal or infinite. So at a
positive sample rate every number of frames lasts for zero seconds or more, and never for something
that is not a number.
-/
namespace Patchbay.Number

open Float.Model

variable {format : Format}

/-! ### Fields of a number above zero -/

/-- What is above zero has no minus, is a number and is no zero. -/
theorem fields_of_pos {word : BitVec format.numBits}
    (pos : (UnpackedFloat.zero .positive).lt (UnpackedFloat.unpack format word) = true) :
    UnpackedFloat.Sign.ofBitVec (UnpackedFloat.unpackSign word) = .positive ∧
      (UnpackedFloat.unpackExponent word = -1#_ → UnpackedFloat.unpackMantissa word = 0#_) ∧
      (UnpackedFloat.unpackExponent word = 0#_ → UnpackedFloat.unpackMantissa word ≠ 0#_) := by
  unfold UnpackedFloat.unpack at pos
  dsimp only at pos
  generalize UnpackedFloat.Sign.ofBitVec (UnpackedFloat.unpackSign word) = sign at pos
  have plus : sign = .positive := by
    cases sign with
    | positive => rfl
    | negative =>
      split at pos
      · split at pos <;> cases pos
      · split at pos
        · split at pos <;> cases pos
        · cases pos
  subst plus
  refine ⟨rfl, fun ones => ?_, fun zeros nothing => ?_⟩
  · rw [if_pos ones] at pos
    split at pos
    · assumption
    · cases pos
  · have inner : UnpackedFloat.unpackExponent word ≠ -1#_ := by
      rw [zeros, Ne, BitVec.zero_eq_neg_one_iff]
      exact format.he.ne'
    rw [if_neg inner, if_pos zeros, dif_pos nothing] at pos
    cases pos

/-- The same of the word of a single. -/
theorem word_of_pos {x : Float32} (pos : 0.0 < x) :
    x.toBits.toNat < 2 ^ 31 ∧
      (x.toBits.toNat / 2 ^ 23 % 2 ^ 8 = 255 → x.toBits.toNat % 2 ^ 23 = 0) ∧
      (x.toBits.toNat / 2 ^ 23 % 2 ^ 8 = 0 → 0 < x.toBits.toNat % 2 ^ 23) := by
  have sign : (@UnpackedFloat.unpackSign .binary32 x.toBits.toBitVec).toNat =
      x.toBits.toNat / 2 ^ 31 % 2 := by
    simp [UnpackedFloat.unpackSign, Nat.shiftRight_eq_div_pow]
  have exponent : (@UnpackedFloat.unpackExponent .binary32 x.toBits.toBitVec).toNat =
      x.toBits.toNat / 2 ^ 23 % 2 ^ 8 := by
    simp [UnpackedFloat.unpackExponent, Nat.shiftRight_eq_div_pow]
  have fraction : (@UnpackedFloat.unpackMantissa .binary32 x.toBits.toBitVec).toNat =
      x.toBits.toNat % 2 ^ 23 := by
    simp [UnpackedFloat.unpackMantissa]
  obtain ⟨plus, ones, zeros⟩ := @fields_of_pos .binary32 x.toBits.toBitVec (of_decide_eq_true pos)
  rw [eq_ones_iff, eq_zero_iff, exponent, fraction] at ones
  rw [eq_zero_iff, Ne, eq_zero_iff, exponent, fraction] at zeros
  refine ⟨?_, fun top => ones (by rw [top]; rfl), fun bottom => Nat.pos_of_ne_zero (zeros bottom)⟩
  have bit : x.toBits.toNat / 2 ^ 31 % 2 = 0 := by
    rw [← sign, ← eq_zero_iff]
    by_contra minus
    rw [UnpackedFloat.Sign.ofBitVec, if_neg minus] at plus
    cases plus
  have lt := x.toBits.toNat_lt
  omega

theorem pos_of_unpack {x : Float}
    (above : (UnpackedFloat.zero .positive).lt x.toModel.unpack = true) : 0.0 < x :=
  decide_eq_true above

/-! ### Singles that are widened -/

theorem unpack_ofBits (word : UInt64) :
    (Float.ofBits word).toModel.unpack = UnpackedFloat.unpack .binary64 word.toBitVec :=
  unpack_pack_unpack (by decide)

theorem unpack_mul_double (x y : Float) : (x * y).toModel.unpack =
    (Float.Model.pack (UnpackedFloat.mul .binary64 x.toModel.unpack y.toModel.unpack)).unpack :=
  rfl

/-- A word that is put together from a sign, an exponent and a fraction. -/
theorem signed_word_eq_packComponents {bit exponent fraction : UInt64} (one : bit.toNat < 2)
    (fits : exponent.toNat < 2 ^ 11) (short : fraction.toNat < 2 ^ 52) :
    ((bit <<< 63) ||| (exponent <<< 52) ||| fraction).toBitVec =
      UnpackedFloat.packComponents .binary64
        (UnpackedFloat.Sign.ofBitVec (BitVec.ofNat 1 bit.toNat))
        (BitVec.ofNat 11 exponent.toNat) (BitVec.ofNat 52 fraction.toNat) := by
  have top : (63 : UInt64).toNat % 64 = 63 := rfl
  have places : (52 : UInt64).toNat % 64 = 52 := rfl
  have word : ((bit <<< 63) ||| (exponent <<< 52) ||| fraction).toNat =
      (bit.toNat <<< 11 ||| exponent.toNat) <<< 52 ||| fraction.toNat := by
    rw [UInt64.toNat_or, UInt64.toNat_or, UInt64.toNat_shiftLeft, UInt64.toNat_shiftLeft, top,
      places, Nat.mod_eq_of_lt (by rw [Nat.shiftLeft_eq]; omega),
      Nat.mod_eq_of_lt (by rw [Nat.shiftLeft_eq]; omega), Nat.shiftLeft_or_distrib,
      ← Nat.shiftLeft_add]
  rw [← BitVec.toNat_inj, UInt64.toNat_toBitVec, word, UnpackedFloat.packComponents,
    UnpackedFloat.Sign.toBitVec_ofBitVec, BitVec.toNat_append, BitVec.toNat_append,
    BitVec.toNat_ofNat, BitVec.toNat_ofNat, BitVec.toNat_ofNat, Nat.mod_eq_of_lt fits,
    Nat.mod_eq_of_lt short, Nat.mod_eq_of_lt one]

/-- A word that is put together from an exponent and a fraction. -/
theorem word_eq_packComponents {exponent fraction : UInt64} (fits : exponent.toNat < 2 ^ 11)
    (short : fraction.toNat < 2 ^ 52) : ((exponent <<< 52) ||| fraction).toBitVec =
      UnpackedFloat.packComponents .binary64 .positive (BitVec.ofNat 11 exponent.toNat)
        (BitVec.ofNat 52 fraction.toNat) := by
  have word := @signed_word_eq_packComponents 0 exponent fraction (by decide) fits short
  have none : (0 : UInt64) <<< 63 = 0 := rfl
  rw [none, UInt64.zero_or] at word
  exact word

/-- A normal double without a minus is above zero. -/
theorem ofBits_pos {exponent fraction : UInt64} (above : 0 < exponent.toNat)
    (below : exponent.toNat < 2047) (short : fraction.toNat < 2 ^ 52) :
    0.0 < Float.ofBits ((exponent <<< 52) ||| fraction) := by
  have field : (BitVec.ofNat 11 exponent.toNat).toNat = exponent.toNat :=
    Nat.mod_eq_of_lt (by omega)
  have unpacked := @unpack_normal .binary64 .positive (BitVec.ofNat 11 exponent.toNat)
    (BitVec.ofNat 52 fraction.toNat) (by rw [Ne, eq_zero_iff, field]; omega)
    (by rw [Ne, eq_ones_iff, field]; omega)
  rw [← word_eq_packComponents (by omega) short, ← unpack_ofBits] at unpacked
  refine pos_of_unpack ?_
  rw [unpacked]
  rfl

/-- To multiply a count by a power of two moves its scale. -/
theorem mul_scaled {count : Nat} {scale power : Int} (fits : count < 2 ^ format.mantissaBits)
    (roomy : Roomy format scale)
    (room : Roomy format (scale + power + format.mantissaBitsWithoutImplicit)) (pos) :
    UnpackedFloat.mul format (scaled format count scale)
        (.finite .positive (2 ^ format.mantissaBitsWithoutImplicit) power pos) =
      scaled format count (scale + power + format.mantissaBitsWithoutImplicit) := by
  rcases Nat.eq_zero_or_pos count with rfl | some_left
  · rfl
  · have rounded := (kept_filled some_left fits room).roundWithAccuracy
      format.mantissaBitsWithoutImplicit .positive
    have moved : scale + power + format.mantissaBitsWithoutImplicit - spare format count -
        format.mantissaBitsWithoutImplicit = scale - spare format count + power := by omega
    rw [moved] at rounded
    rw [scaled_eq some_left fits roomy, scaled_eq some_left fits room]
    exact rounded

/-- A double keeps the units of a subnormal single. -/
theorem unpack_mul_unit {fraction : UInt64} (fits : fraction.toNat < 2 ^ 53) :
    (fraction.toFloat * Float.ofBits 0x36a0000000000000).toModel.unpack =
      scaled .binary64 fraction.toNat (-149) := by
  have within : fraction.toNat < 2 ^ Format.binary64.mantissaBits := fits
  have roomy : Roomy .binary64 0 := show (-1022 : Int) ≤ 0 by decide
  have room : Roomy .binary64 (-149) := show (-1022 : Int) ≤ -149 by decide
  have unit : (Float.ofBits 0x36a0000000000000).toModel.unpack =
      .finite .positive (2 ^ 52) (-201) (by decide) := unpack_ofBits _
  have product : UnpackedFloat.mul .binary64 (scaled .binary64 fraction.toNat 0)
      (.finite .positive (2 ^ 52) (-201) (by decide)) = scaled .binary64 fraction.toNat (-149) :=
    mul_scaled within roomy room (by decide)
  rw [unpack_mul_double, unpack_toFloat fits, unit, product,
    unpack_pack_scaled fits (by decide) (by decide)]

/-- The units of a subnormal single make a double above zero. -/
theorem mul_ofBits_pos {fraction : UInt64} (above : 0 < fraction.toNat)
    (fits : fraction.toNat < 2 ^ 53) :
    0.0 < fraction.toFloat * Float.ofBits 0x36a0000000000000 := by
  have within : fraction.toNat < 2 ^ Format.binary64.mantissaBits := fits
  have room : Roomy .binary64 (-149) := show (-1022 : Int) ≤ -149 by decide
  refine pos_of_unpack ?_
  rw [unpack_mul_unit fits, scaled_eq above within room]
  rfl

theorem toNat_exponent (word : UInt32) :
    ((word >>> 23) &&& 0xff).toUInt64.toNat = word.toNat / 2 ^ 23 % 2 ^ 8 := by
  have places : (23 : UInt32).toNat % 32 = 23 := rfl
  rw [UInt32.toNat_toUInt64, UInt32.toNat_and, UInt32.toNat_shiftRight, places,
    Nat.shiftRight_eq_div_pow]
  exact Nat.and_two_pow_sub_one_eq_mod _ 8

theorem toNat_fraction (word : UInt32) :
    (word &&& 0x7fffff).toUInt64.toNat = word.toNat % 2 ^ 23 := by
  rw [UInt32.toNat_toUInt64, UInt32.toNat_and]
  exact Nat.and_two_pow_sub_one_eq_mod _ 23

theorem sign_eq_zero {word : UInt32} (plus : word.toNat < 2 ^ 31) :
    (word >>> 31).toUInt64 <<< 63 = 0 := by
  have places : (31 : UInt32).toNat % 32 = 31 := rfl
  have zero : (word >>> 31).toUInt64 = 0 := by
    rw [← UInt64.toNat_inj, UInt32.toNat_toUInt64, UInt32.toNat_shiftRight, places,
      Nat.shiftRight_eq_div_pow, Nat.div_eq_of_lt plus]
    rfl
  rw [zero]
  rfl

/-- The fraction of a single is moved to the front of the fraction of a double. -/
theorem toNat_moved {fraction : UInt64} (short : fraction.toNat < 2 ^ 23) :
    (fraction <<< 29).toNat = fraction.toNat * 2 ^ 29 := by
  have places : (29 : UInt64).toNat % 64 = 29 := rfl
  rw [UInt64.toNat_shiftLeft, places, Nat.shiftLeft_eq, Nat.mod_eq_of_lt (by omega)]

theorem toNat_biased {exponent : UInt64} (few : exponent.toNat < 2 ^ 8) :
    (exponent + 896).toNat = exponent.toNat + 896 := by
  rw [UInt64.toNat_add]
  show (exponent.toNat + 896) % 2 ^ 64 = _
  omega

/-- A single above zero is widened to a double above zero. -/
theorem widen_pos {x : Float32} (pos : 0.0 < x) : 0.0 < widen x := by
  obtain ⟨plus, top, bottom⟩ := word_of_pos pos
  have few := toNat_exponent x.toBits
  have short := toNat_fraction x.toBits
  rw [← few, ← short] at top bottom
  unfold widen
  simp only [sign_eq_zero plus, UInt64.zero_or, if_true]
  generalize ((x.toBits >>> 23) &&& 0xff).toUInt64 = exponent at *
  generalize (x.toBits &&& 0x7fffff).toUInt64 = fraction at *
  have few : exponent.toNat < 2 ^ 8 := by omega
  have short : fraction.toNat < 2 ^ 23 := by omega
  split
  · rename_i infinite
    subst infinite
    have nothing : fraction = 0 := UInt64.toNat_inj.mp (top rfl)
    subst nothing
    decide
  · rename_i finite
    split
    · rename_i subnormal
      subst subnormal
      exact mul_ofBits_pos (bottom rfl) (by omega)
    · rename_i normal
      have above : exponent.toNat ≠ 0 := fun zero => normal (UInt64.toNat_inj.mp zero)
      have below : exponent.toNat ≠ 255 := fun full => finite (UInt64.toNat_inj.mp full)
      have biased := toNat_biased few
      have moved := toNat_moved short
      exact ofBits_pos (by omega) (by omega) (by omega)

/-! ### Numbers that are at least zero -/

/-- A number is zero or above it, and not `-0`. -/
inductive AtLeastZero : UnpackedFloat → Prop where
  | zero : AtLeastZero (.zero .positive)
  | infinity : AtLeastZero (.infinity .positive)
  | finite (mantissa : Nat) (exponent : Int) (pos) :
    AtLeastZero (.finite .positive mantissa exponent pos)

theorem atLeastZero_iff {x : UnpackedFloat} : AtLeastZero x ↔ Unsigned x ∧ x ≠ .notANumber := by
  constructor
  · rintro (_ | _ | _) <;> exact ⟨rfl, UnpackedFloat.noConfusion⟩
  · rintro ⟨unsigned, number⟩
    cases x with
    | notANumber => exact absurd rfl number
    | zero sign => cases unsigned; exact .zero
    | infinity sign => cases unsigned; exact .infinity
    | finite sign mantissa exponent pos => cases unsigned; exact .finite mantissa exponent pos

theorem AtLeastZero.zero_le {x : UnpackedFloat} (h : AtLeastZero x) :
    (UnpackedFloat.zero .positive).le x = true := by
  cases h <;> rfl

theorem AtLeastZero.le_infinity {x : UnpackedFloat} (h : AtLeastZero x) :
    x.le (.infinity .positive) = true := by
  cases h <;> rfl

theorem le_of_unpack {x y : Float} (le : x.toModel.unpack.le y.toModel.unpack = true) : x ≤ y :=
  decide_eq_true le

theorem AtLeastZero.le {x : Float} (h : AtLeastZero x.toModel.unpack) : 0.0 ≤ x :=
  le_of_unpack h.zero_le

theorem unpack_packComponents_ne (sign : UnpackedFloat.Sign) {exponent : BitVec format.exponentBits}
    (fraction : BitVec format.mantissaBitsWithoutImplicit) (below : exponent ≠ -1#_) :
    UnpackedFloat.unpack format (UnpackedFloat.packComponents format sign exponent fraction) ≠
      .notANumber := by
  simp only [UnpackedFloat.unpack, UnpackedFloat.unpackExponent_packComponents, if_neg below]
  split
  · split <;> exact UnpackedFloat.noConfusion
  · exact UnpackedFloat.noConfusion

/-- A number that is packed stays a number. -/
theorem unpack_pack_ne {x : UnpackedFloat} (number : x ≠ .notANumber) :
    UnpackedFloat.unpack format (UnpackedFloat.pack format x) ≠ .notANumber := by
  cases x with
  | notANumber => exact absurd rfl number
  | infinity sign =>
    rw [UnpackedFloat.pack, unpack_packedInfinity]
    exact UnpackedFloat.noConfusion
  | zero sign =>
    rw [UnpackedFloat.pack, UnpackedFloat.unpack_packedZero]
    exact UnpackedFloat.noConfusion
  | finite sign mantissa exponent pos =>
    unfold UnpackedFloat.pack
    dsimp only
    split
    · rw [unpack_packedInfinity]
      exact UnpackedFloat.noConfusion
    · rename_i inside
      split
      · refine unpack_packComponents_ne sign _ ?_
        rw [Ne, eq_ones_iff, BitVec.toNat_ofNat, Nat.mod_eq_of_lt (by omega)]
        omega
      · refine unpack_packComponents_ne sign _ ?_
        rw [Ne, BitVec.zero_eq_neg_one_iff]
        exact format.he.ne'

theorem AtLeastZero.unpack_pack {x : UnpackedFloat} (h : AtLeastZero x) :
    AtLeastZero (UnpackedFloat.unpack format (UnpackedFloat.pack format x)) := by
  obtain ⟨unsigned, number⟩ := atLeastZero_iff.mp h
  exact atLeastZero_iff.mpr ⟨unsigned.unpack_pack, unpack_pack_ne number⟩

theorem atLeastZero_roundWithAccuracy (mantissa : Nat) (exponent : Int)
    (accuracy : UnpackedFloat.Accuracy) :
    AtLeastZero (UnpackedFloat.roundWithAccuracy format .positive mantissa exponent accuracy) := by
  unfold UnpackedFloat.roundWithAccuracy
  dsimp only
  split
  · exact .zero
  · exact .finite ..

theorem atLeastZero_scaled (count : Nat) (scale : Int) :
    AtLeastZero (scaled format count scale) := by
  rcases Nat.eq_zero_or_pos count with rfl | pos
  · exact .zero
  · rw [scaled_of_pos pos]
    exact atLeastZero_roundWithAccuracy ..

theorem AtLeastZero.add {x y : UnpackedFloat} (first : AtLeastZero x) (second : AtLeastZero y) :
    AtLeastZero (UnpackedFloat.add format x y) := by
  cases first with
  | zero => cases second <;> constructor
  | infinity => cases second <;> constructor
  | finite m e pos =>
    cases second with
    | zero => exact .finite m e pos
    | infinity => exact .infinity
    | finite m' e' pos' => exact atLeastZero_scaled ..

/-- A count of frames is a number and not infinite. -/
theorem exists_toFloat (count : UInt64) : count.toFloat.toModel.unpack = .zero .positive ∨
    ∃ mantissa exponent pos, count.toFloat.toModel.unpack =
      .finite .positive mantissa exponent pos := by
  rcases Nat.eq_zero_or_pos count.toNat with zero | pos
  · left
    rw [unpack_toFloat (by omega), zero, scaled_zero]
  right
  by_cases fits : count.toNat < 2 ^ 53
  · have within : count.toNat < 2 ^ Format.binary64.mantissaBits := fits
    have roomy : Roomy .binary64 0 := show (-1022 : Int) ≤ 0 by decide
    rw [unpack_toFloat fits, scaled_eq pos within roomy]
    exact ⟨_, _, _, rfl⟩
  · -- no more than eleven places are shifted out
    have log2 : count.toNat.log2 < 64 := (Nat.log2_lt pos.ne').mpr count.toNat_lt
    have long : 52 ≤ count.toNat.log2 := (Nat.le_log2 pos.ne').mpr (by omega)
    have least : Format.minExponent .binary64 ≤ 0 := by decide
    obtain ⟨rounded, power, kept, bound, same⟩ :=
      @kept_round_long .binary64 _ 0 pos least .positive long
    have small : power ≤ maxExponent .binary64 := by
      have bound : power + 52 ≤ 0 + count.toNat.log2 + 1 := bound
      show power ≤ 971
      omega
    have rounded_up : scaled .binary64 count.toNat 0 = .finite .positive rounded power kept.pos :=
      (scaled_of_pos pos 0).trans same
    refine ⟨rounded, power, kept.pos, ?_⟩
    show (Float.Model.pack (scaled .binary64 count.toNat 0)).unpack = _
    rw [rounded_up]
    exact unpack_pack (by decide) kept small .positive

/-! ### Times -/

variable {rate : Float32} (pos : 0.0 < rate)

include pos

theorem atLeastZero_ofFrames (frames : UInt64) :
    AtLeastZero (TimeAxis.ofFrames frames rate : Float).toModel.unpack := by
  show AtLeastZero (frames.toFloat / widen rate).toModel.unpack
  rw [unpack_div_double]
  refine AtLeastZero.unpack_pack ?_
  rcases exists_toFloat frames with zero | ⟨m, e, above, finite⟩ <;>
    rcases unpack_of_pos (widen_pos pos) with same | ⟨m', e', above', same⟩
  · rw [zero, same]
    exact .zero
  · rw [zero, same]
    exact .zero
  · rw [finite, same]
    exact .zero
  · rw [finite, same]
    exact atLeastZero_roundWithAccuracy ..

/-- At a positive rate no frame comes before time zero. -/
theorem zero_le_ofFrames_add (start ahead : UInt64) :
    (0 : Float) ≤ TimeAxis.ofFrames start rate + TimeAxis.ofFrames ahead rate := by
  refine AtLeastZero.le ?_
  rw [unpack_add_double]
  exact ((atLeastZero_ofFrames pos start).add (atLeastZero_ofFrames pos ahead)).unpack_pack

end Patchbay.Number
