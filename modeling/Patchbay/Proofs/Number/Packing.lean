import Mathlib
import Patchbay.Number.Width

/-!
# How numbers are packed

An operation on floating-point numbers unpacks them into a sign, a mantissa and an exponent,
computes with these and packs the result. A format keeps a finite number with a full mantissa, or
with its least exponent. What is kept survives packing, and what is rounded is kept.
-/
namespace Patchbay.Number

open Float.Model
open UnpackedFloat hiding pack unpack round

variable {format : Format}

/-! ### Fields of a word -/

theorem toNat_implicit_append {width : Nat} (fraction : BitVec width) :
    (1#1 ++ fraction).toNat = 2 ^ width + fraction.toNat := by
  rw [BitVec.toNat_append, ← Nat.shiftLeft_add_eq_or_of_lt fraction.isLt]
  simp [Nat.shiftLeft_eq]

theorem implicit_pos {width : Nat} (fraction : BitVec width) : 0 < (1#1 ++ fraction).toNat := by
  rw [toNat_implicit_append]
  exact Nat.add_pos_left (Nat.two_pow_pos _) _

theorem eq_ones_iff {width : Nat} (exponent : BitVec width) :
    exponent = -1#(width) ↔ exponent.toNat + 1 = 2 ^ width := by
  have lt := exponent.isLt
  rw [← BitVec.toNat_inj, BitVec.neg_one_eq_allOnes, BitVec.toNat_allOnes]
  omega

theorem eq_zero_iff {width : Nat} (exponent : BitVec width) :
    exponent = 0#(width) ↔ exponent.toNat = 0 := by
  rw [← BitVec.toNat_inj, BitVec.toNat_zero]

/-- What a word stands for survives packing. -/
theorem unpack_pack_unpack (wide : 1 < format.exponentBits) {word : BitVec format.numBits} :
    UnpackedFloat.unpack format (UnpackedFloat.pack format (UnpackedFloat.unpack format word)) =
      UnpackedFloat.unpack format word := by
  rw [UnpackedFloat.pack_unpack word wide]
  split
  · rename_i nan
    simp only [isNaNBits, decide_eq_true_eq] at nan
    rw [unpack_packedNaN, UnpackedFloat.unpack, if_pos nan.1, if_neg nan.2]
  · rfl

/-! ### Numbers that are kept -/

/-- A finite number in the form in which a format keeps it. -/
structure Kept (format : Format) (mantissa : Nat) (exponent : Int) : Prop where
  pos : 0 < mantissa
  fits : mantissa < 2 ^ format.mantissaBits
  least : format.minExponent ≤ exponent
  full : 2 ^ format.mantissaBitsWithoutImplicit ≤ mantissa ∨ exponent = format.minExponent

theorem minExponent_eq (format : Format) : format.minExponent =
    1 - ((format.exponentBias : Int) + format.mantissaBitsWithoutImplicit) := by
  have one_le := Nat.one_le_two_pow (n := format.exponentBits - 1)
  rw [Format.minExponent, Format.exponentBias, Format.mantissaBits, Nat.cast_sub one_le]
  push_cast
  ring

/-- What is unpacked is kept. -/
theorem kept_unpack {word : BitVec format.numBits} {sign : Sign} {mantissa : Nat} {exponent : Int}
    {pos : 0 < mantissa}
    (is_finite : UnpackedFloat.unpack format word = .finite sign mantissa exponent pos) :
    Kept format mantissa exponent := by
  have fraction_lt := (unpackMantissa word).isLt
  have double := Nat.pow_succ (n := 2) (m := format.mantissaBitsWithoutImplicit)
  have bits : format.mantissaBits = format.mantissaBitsWithoutImplicit + 1 := Nat.add_comm _ _
  have least := minExponent_eq format
  unfold UnpackedFloat.unpack at is_finite
  dsimp only at is_finite
  split at is_finite
  · split at is_finite <;> cases is_finite
  · split at is_finite
    · rename_i bottom
      split at is_finite
      · cases is_finite
      · rw [bottom, BitVec.toNat_zero] at is_finite
        cases is_finite
        exact ⟨pos, by rw [bits]; omega, by omega, .inr (by omega)⟩
    · rename_i above
      rw [eq_zero_iff] at above
      have size := toNat_implicit_append (unpackMantissa word)
      cases is_finite
      exact ⟨pos, by rw [bits]; omega, by omega, .inl (by omega)⟩

section Unpacking

variable (sign : Sign) {exponent : BitVec format.exponentBits}
  (fraction : BitVec format.mantissaBitsWithoutImplicit)

theorem unpack_normal (above : exponent ≠ 0#_) (below : exponent ≠ -1#_) :
    UnpackedFloat.unpack format (packComponents format sign exponent fraction) =
      .finite sign (1#1 ++ fraction).toNat (exponent.toNat -
        (format.exponentBias + format.mantissaBitsWithoutImplicit))
          (implicit_pos _) := by
  simp only [UnpackedFloat.unpack, unpackSign_packComponents, unpackExponent_packComponents,
    unpackMantissa_packComponents, Sign.ofBitVec_toBitVec, if_neg above, if_neg below]

theorem unpack_subnormal (some_left : fraction ≠ 0#_) :
    UnpackedFloat.unpack format (packComponents format sign 0#_ fraction) =
      .finite sign fraction.toNat ((0#(format.exponentBits)).toNat -
        (format.exponentBias + format.mantissaBitsWithoutImplicit) + 1)
          (Nat.pos_of_ne_zero fun zero => some_left ((eq_zero_iff fraction).mpr zero)) := by
  simp only [UnpackedFloat.unpack, unpackSign_packComponents, unpackExponent_packComponents,
    unpackMantissa_packComponents, Sign.ofBitVec_toBitVec, BitVec.zero_eq_neg_one_iff,
    format.he.ne', if_false, if_true, dif_neg some_left]

theorem unpack_packedInfinity :
    UnpackedFloat.unpack format (packedInfinity format sign) = .infinity sign := by
  simp only [packedInfinity, UnpackedFloat.unpack, unpackSign_packComponents,
    unpackExponent_packComponents, unpackMantissa_packComponents, Sign.ofBitVec_toBitVec, if_true]
  rfl

end Unpacking

/-- The largest exponent of a finite number. -/
def maxExponent (format : Format) : Int :=
  format.exponentBias - format.mantissaBitsWithoutImplicit

theorem two_pow_exponentBits (format : Format) :
    2 ^ format.exponentBits = 2 * format.exponentBias + 2 := by
  have one_le := Nat.one_le_two_pow (n := format.exponentBits - 1)
  obtain ⟨bits, more⟩ := Nat.exists_eq_add_of_lt format.he
  have double := Nat.pow_succ (n := 2) (m := format.exponentBits - 1)
  have same : (format.exponentBits - 1).succ = format.exponentBits := by omega
  rw [same] at double
  rw [Format.exponentBias]
  omega

/-- What is too large becomes infinite. -/
theorem unpack_pack_of_lt {mantissa : Nat} {exponent : Int} (large : maxExponent format < exponent)
    (sign : Sign) (pos) :
    UnpackedFloat.unpack format (UnpackedFloat.pack format (.finite sign mantissa exponent pos)) =
      .infinity sign := by
  have top := two_pow_exponentBits format
  have beyond : 2 ^ format.exponentBits ≤
      (exponent + format.exponentBias + format.mantissaBitsWithoutImplicit).toNat + 1 := by
    rw [maxExponent] at large
    omega
  unfold UnpackedFloat.pack
  dsimp only
  rw [if_pos beyond, unpack_packedInfinity]

/-- What is kept has a word. -/
theorem Kept.exists_unpack {mantissa : Nat} {exponent : Int} (kept : Kept format mantissa exponent)
    (small : exponent ≤ maxExponent format) (sign : Sign) :
    ∃ word, UnpackedFloat.unpack format word = .finite sign mantissa exponent kept.pos := by
  obtain ⟨pos, fits, least, full⟩ := kept
  have double := Nat.pow_succ (n := 2) (m := format.mantissaBitsWithoutImplicit)
  have bits : format.mantissaBits = format.mantissaBitsWithoutImplicit + 1 := Nat.add_comm _ _
  rw [bits] at fits
  rw [minExponent_eq] at least full
  rw [maxExponent] at small
  by_cases normal : 2 ^ format.mantissaBitsWithoutImplicit ≤ mantissa
  · obtain ⟨rest, rfl⟩ := Nat.exists_eq_add_of_le normal
    have top := two_pow_exponentBits format
    obtain ⟨biased, is_biased⟩ : ∃ biased : Nat, (biased : Int) =
        exponent + format.exponentBias + format.mantissaBitsWithoutImplicit :=
      Int.eq_ofNat_of_zero_le (by omega) |>.imp fun _ h => h.symm
    have fraction : (BitVec.ofNat format.mantissaBitsWithoutImplicit rest).toNat = rest :=
      Nat.mod_eq_of_lt (by omega)
    have field : (BitVec.ofNat format.exponentBits biased).toNat = biased :=
      Nat.mod_eq_of_lt (by omega)
    have above : BitVec.ofNat format.exponentBits biased ≠ 0#_ := by
      rw [Ne, eq_zero_iff, field]
      omega
    have below : BitVec.ofNat format.exponentBits biased ≠ -1#_ := by
      rw [Ne, eq_ones_iff, field]
      omega
    have unpacked := unpack_normal sign (BitVec.ofNat format.mantissaBitsWithoutImplicit rest)
      above below
    have same : (biased : Int) - (format.exponentBias + format.mantissaBitsWithoutImplicit) =
        exponent := by omega
    simp only [toNat_implicit_append, fraction, field, same] at unpacked
    exact ⟨_, unpacked⟩
  · have least := full.resolve_left normal
    have fraction : (BitVec.ofNat format.mantissaBitsWithoutImplicit mantissa).toNat = mantissa :=
      Nat.mod_eq_of_lt (by omega)
    have some_left : BitVec.ofNat format.mantissaBitsWithoutImplicit mantissa ≠ 0#_ := by
      rw [Ne, eq_zero_iff, fraction]
      omega
    have unpacked := unpack_subnormal sign _ some_left
    have same : ((0#(format.exponentBits)).toNat : Int) -
        (format.exponentBias + format.mantissaBitsWithoutImplicit) + 1 = exponent := by
      rw [BitVec.toNat_zero]
      omega
    simp only [fraction, same] at unpacked
    exact ⟨_, unpacked⟩

/-- What is kept is unpacked as it was packed. -/
theorem unpack_pack (wide : 1 < format.exponentBits) {mantissa : Nat} {exponent : Int}
    (kept : Kept format mantissa exponent) (small : exponent ≤ maxExponent format) (sign : Sign) :
    UnpackedFloat.unpack format
        (UnpackedFloat.pack format (.finite sign mantissa exponent kept.pos)) =
      .finite sign mantissa exponent kept.pos := by
  obtain ⟨word, unpacked⟩ := kept.exists_unpack small sign
  rw [← unpacked]
  exact unpack_pack_unpack wide

/-! ### Rounding -/

theorem shiftRight_succ (extended : ExtendedMantissa) (places : Nat) :
    extended >>> (places + 1) = (extended >>> places).shiftRightOne :=
  rfl

theorem mantissa_shiftRight (extended : ExtendedMantissa) (places : Nat) :
    (extended >>> places).mantissa = extended.mantissa / 2 ^ places := by
  induction places with
  | zero => exact (Nat.div_one _).symm
  | succ places ih =>
    rw [shiftRight_succ, Nat.pow_succ, ← Nat.div_div_eq_div_mul, ← ih]
    rfl

/-- To shift zeros out loses nothing. -/
theorem shiftRight_exact (mantissa places : Nat) :
    (ExtendedMantissa.ofMantissaAndAccuracy (mantissa * 2 ^ places) .exact) >>> places =
      .ofMantissaAndAccuracy mantissa .exact := by
  induction places generalizing mantissa with
  | zero => rw [Nat.pow_zero, Nat.mul_one]; rfl
  | succ places ih =>
    have even : mantissa * 2 ^ (places + 1) = mantissa * 2 * 2 ^ places := by
      rw [Nat.pow_succ, Nat.mul_assoc, Nat.mul_comm (2 ^ places)]
    rw [shiftRight_succ, even, ih]
    simp [ExtendedMantissa.ofMantissaAndAccuracy, ExtendedMantissa.shiftRightOne]

theorem roundedMantissa_bounds (extended : ExtendedMantissa) :
    extended.mantissa ≤ extended.roundedMantissa ∧
      extended.roundedMantissa ≤ extended.mantissa + 1 := by
  obtain ⟨mantissa, round, sticky⟩ := extended
  cases round <;> cases sticky <;>
    simp only [ExtendedMantissa.roundedMantissa, ExtendedMantissa.accuracy,
      Accuracy.roundToNearestEven] <;> omega

theorem Kept.target {mantissa : Nat} {exponent : Int} (kept : Kept format mantissa exponent) :
    format.targetExponent (totalExponent mantissa exponent) = exponent := by
  obtain ⟨pos, fits, least, full⟩ := kept
  have short : mantissa.log2 < format.mantissaBits := (Nat.log2_lt (by omega)).mpr fits
  rw [Format.targetExponent, totalExponent]
  rcases full with long | last
  · have long : format.mantissaBitsWithoutImplicit ≤ mantissa.log2 :=
      (Nat.le_log2 (by omega)).mpr long
    rw [Format.mantissaBits] at short ⊢
    omega
  · omega

theorem log2_mul_two_pow {mantissa : Nat} (pos : 0 < mantissa) (places : Nat) :
    (mantissa * 2 ^ places).log2 = mantissa.log2 + places := by
  have ⟨low, high⟩ := (Nat.log2_eq_iff (n := mantissa) (by omega)).mp rfl
  refine (Nat.log2_eq_iff (Nat.mul_pos pos (Nat.two_pow_pos _)).ne').mpr ⟨?_, ?_⟩
  · rw [Nat.pow_add]
    exact Nat.mul_le_mul_right _ low
  · rw [show mantissa.log2 + places + 1 = mantissa.log2 + 1 + places by omega, Nat.pow_add]
    exact Nat.mul_lt_mul_of_pos_right high (Nat.two_pow_pos _)

theorem Kept.total {mantissa : Nat} {exponent : Int} (kept : Kept format mantissa exponent)
    (places : Nat) : totalExponent (mantissa * 2 ^ places) (exponent - places) =
      totalExponent mantissa exponent := by
  rw [totalExponent, totalExponent, log2_mul_two_pow kept.pos]
  push_cast
  ring

/-- Of a number that is kept, the zeros that stand behind it are shifted out. -/
theorem Kept.shiftToTarget {mantissa : Nat} {exponent : Int} (kept : Kept format mantissa exponent)
    (places : Nat) :
    shiftToTargetExponent format (mantissa * 2 ^ places) (exponent - places) .exact =
      (.ofMantissaAndAccuracy mantissa .exact, exponent) := by
  have amount : (exponent - (exponent - places)).toNat = places := by omega
  rw [shiftToTargetExponent, shiftToExponent, kept.total, kept.target, amount, shiftRight_exact]
  congr 1
  omega

/-- What is left of a mantissa after the first shift decides the result. -/
theorem Kept.roundWithAccuracy_of_shifted {mantissa rounded : Nat} {exponent power : Int}
    {accuracy : Accuracy} {extended : ExtendedMantissa} (kept : Kept format rounded power)
    (places : Nat) (sign : Sign)
    (shifted : shiftToTargetExponent format mantissa exponent accuracy =
      (extended, power - places))
    (left : extended.roundedMantissa = rounded * 2 ^ places) :
    roundWithAccuracy format sign mantissa exponent accuracy =
      .finite sign rounded power kept.pos := by
  unfold UnpackedFloat.roundWithAccuracy
  rw [shifted]
  simp only [left, kept.shiftToTarget]
  rw [dif_neg]
  · rfl
  · exact kept.pos.ne'

/-- A number that is kept is rounded to itself. -/
theorem Kept.roundWithAccuracy {mantissa : Nat} {exponent : Int}
    (kept : Kept format mantissa exponent) (places : Nat) (sign : Sign) :
    roundWithAccuracy format sign (mantissa * 2 ^ places) (exponent - places) .exact =
      .finite sign mantissa exponent kept.pos := by
  have shifted : shiftToTargetExponent format (mantissa * 2 ^ places) (exponent - places) .exact =
      (.ofMantissaAndAccuracy mantissa .exact, exponent - ((0 : Nat) : Int)) := by
    rw [kept.shiftToTarget, Int.natCast_zero, Int.sub_zero]
  refine kept.roundWithAccuracy_of_shifted 0 sign shifted ?_
  rw [Nat.pow_zero, Nat.mul_one]
  rfl

theorem Kept.round_right {mantissa : Nat} {exponent : Int} (kept : Kept format mantissa exponent)
    (places : Nat) (sign : Sign) :
    UnpackedFloat.round format sign (mantissa * 2 ^ places) (exponent - places) =
      .finite sign mantissa exponent kept.pos := by
  have amount : (exponent - places - exponent).toNat = 0 := by omega
  rw [UnpackedFloat.round, kept.total, kept.target, decreaseExponent, amount]
  simp only [Nat.shiftLeft_zero, Int.natCast_zero, Int.sub_zero]
  exact kept.roundWithAccuracy places sign

theorem Kept.round_left {mantissa places : Nat} {exponent : Int}
    (kept : Kept format (mantissa * 2 ^ places) exponent) (sign : Sign) :
    UnpackedFloat.round format sign mantissa (exponent + places) =
      .finite sign (mantissa * 2 ^ places) exponent kept.pos := by
  have pos : 0 < mantissa := Nat.pos_of_mul_pos_right kept.pos
  have total : totalExponent mantissa (exponent + places) =
      totalExponent (mantissa * 2 ^ places) exponent := by
    rw [totalExponent, totalExponent, log2_mul_two_pow pos]
    push_cast
    ring
  have amount : (exponent + places - exponent).toNat = places := by omega
  rw [UnpackedFloat.round, total, kept.target, decreaseExponent, amount]
  have rounded := kept.roundWithAccuracy 0 sign
  simpa only [Nat.shiftLeft_eq, Nat.pow_zero, Nat.mul_one, Int.natCast_zero, Int.sub_zero,
    Int.add_sub_cancel] using rounded

section Round

variable {mantissa : Nat} {exponent : Int} (pos : 0 < mantissa)
  (least : format.minExponent ≤ exponent) (sign : Sign)

include pos least

/-- Zeros are put behind a short mantissa, as many as the least exponent leaves room for. -/
theorem kept_round_short (short : mantissa.log2 ≤ format.mantissaBitsWithoutImplicit) :
    ∃ rounded power, ∃ kept : Kept format rounded power,
      UnpackedFloat.round format sign mantissa exponent = .finite sign rounded power kept.pos := by
  have bits : format.mantissaBits = format.mantissaBitsWithoutImplicit + 1 := Nat.add_comm _ _
  obtain ⟨places, is_places⟩ : ∃ places, places =
      min (format.mantissaBitsWithoutImplicit - mantissa.log2)
        (exponent - format.minExponent).toNat := ⟨_, rfl⟩
  have log2 := log2_mul_two_pow pos places
  have scaled : 0 < mantissa * 2 ^ places := Nat.mul_pos pos (Nat.two_pow_pos _)
  have kept : Kept format (mantissa * 2 ^ places) (exponent - places) := by
    refine ⟨scaled, (Nat.log2_lt scaled.ne').mp (by omega), by omega, ?_⟩
    by_cases full : mantissa.log2 + places = format.mantissaBitsWithoutImplicit
    · exact .inl ((Nat.le_log2 scaled.ne').mp (by omega))
    · exact .inr (by omega)
  refine ⟨_, _, kept, ?_⟩
  have rounded := kept.round_left sign
  rwa [Int.sub_add_cancel] at rounded

/-- Places are shifted out of a long mantissa, and what is left may be rounded up to the next power
of two. The exponent grows by these places, and by one more then. -/
theorem kept_round_long (long : format.mantissaBitsWithoutImplicit ≤ mantissa.log2) :
    ∃ rounded power, ∃ kept : Kept format rounded power,
      power + format.mantissaBitsWithoutImplicit ≤ exponent + mantissa.log2 + 1 ∧
      UnpackedFloat.round format sign mantissa exponent = .finite sign rounded power kept.pos := by
  have bits : format.mantissaBits = format.mantissaBitsWithoutImplicit + 1 := Nat.add_comm _ _
  have ⟨low, high⟩ := (Nat.log2_eq_iff pos.ne').mp rfl
  obtain ⟨places, is_places⟩ := Nat.exists_eq_add_of_le long
  have target : format.targetExponent (totalExponent mantissa exponent) = exponent + places := by
    rw [Format.targetExponent, totalExponent]
    omega
  have no_room : (exponent - (exponent + places)).toNat = 0 := by omega
  have amount : (exponent + places - exponent).toNat = places := by omega
  obtain ⟨extended, is_extended⟩ : ∃ extended, extended =
      (ExtendedMantissa.ofMantissaAndAccuracy mantissa .exact) >>> places := ⟨_, rfl⟩
  have quotient : extended.mantissa = mantissa / 2 ^ places := by
    rw [is_extended, mantissa_shiftRight]
    rfl
  have long : 2 ^ format.mantissaBitsWithoutImplicit ≤ extended.mantissa := by
    rw [quotient, Nat.le_div_iff_mul_le (Nat.two_pow_pos _), ← Nat.pow_add, ← is_places]
    exact low
  have within : extended.mantissa < 2 ^ format.mantissaBits := by
    rw [quotient, Nat.div_lt_iff_lt_mul (Nat.two_pow_pos _), ← Nat.pow_add]
    refine Nat.lt_of_lt_of_eq high ?_
    congr 1
    omega
  have ⟨up, down⟩ := roundedMantissa_bounds extended
  have unfolded : UnpackedFloat.round format sign mantissa exponent =
      UnpackedFloat.roundWithAccuracy format sign mantissa exponent .exact := by
    rw [UnpackedFloat.round, target, decreaseExponent, no_room, Nat.shiftLeft_zero,
      Int.natCast_zero, Int.sub_zero]
  have shifted : shiftToTargetExponent format mantissa exponent .exact =
      (extended, exponent + places) := by
    rw [shiftToTargetExponent, shiftToExponent, target, amount, is_extended]
  have positive := Nat.two_pow_pos format.mantissaBitsWithoutImplicit
  rw [unfolded]
  rcases Nat.lt_or_eq_of_le (Nat.le_trans down within) with inside | carried
  · have kept : Kept format extended.roundedMantissa (exponent + places) :=
      ⟨by omega, inside, by omega, .inl (by omega)⟩
    rw [← Int.sub_zero (exponent + places)] at shifted
    refine ⟨_, _, kept, by omega, kept.roundWithAccuracy_of_shifted 0 sign shifted ?_⟩
    rw [Nat.pow_zero, Nat.mul_one]
  · have double := Nat.pow_succ (n := 2) (m := format.mantissaBitsWithoutImplicit)
    have kept : Kept format (2 ^ format.mantissaBitsWithoutImplicit) (exponent + places + 1) :=
      ⟨positive, by rw [bits]; omega, by omega, .inl (Nat.le_refl _)⟩
    rw [← Int.add_sub_cancel (exponent + places) 1] at shifted
    refine ⟨_, _, kept, by omega, kept.roundWithAccuracy_of_shifted 1 sign shifted ?_⟩
    rw [carried, bits, Nat.pow_succ, Nat.pow_one]

/-- What is rounded is kept. -/
theorem kept_round : ∃ rounded power, ∃ kept : Kept format rounded power,
    UnpackedFloat.round format sign mantissa exponent = .finite sign rounded power kept.pos := by
  rcases Nat.le_total mantissa.log2 format.mantissaBitsWithoutImplicit with short | long
  · exact kept_round_short pos least sign short
  · obtain ⟨rounded, power, kept, -, same⟩ := kept_round_long pos least sign long
    exact ⟨rounded, power, kept, same⟩

end Round

end Patchbay.Number
