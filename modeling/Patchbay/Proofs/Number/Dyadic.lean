import Patchbay.Proofs.Number.Packing
import Patchbay.Time

/-!
# Counts at a scale

A count that fits into a mantissa is kept exactly at every scale that leaves room for it. Nothing is
lost where such a number is divided by a power of two, or where two of them at one scale are added.
So frames last exactly as long as they should at a sample rate that is a power of two.
-/
namespace Patchbay.Number

open Float.Model

variable {format : Format}

/-! ### Scaled counts -/

/-- The number `count * 2 ^ scale`. -/
def scaled (format : Format) (count : Nat) (scale : Int) : UnpackedFloat :=
  .normalize format count scale .positive

/-- The zeros that fill up the mantissa of a count. -/
def spare (format : Format) (count : Nat) : Nat :=
  format.mantissaBitsWithoutImplicit - count.log2

theorem scaled_zero (format : Format) (scale : Int) :
    scaled format 0 scale = .zero .positive :=
  rfl

theorem scaled_of_pos {count : Nat} (pos : 0 < count) (scale : Int) :
    scaled format count scale = .round format .positive count scale := by
  have above : compare (count : Int) 0 = .gt := by
    rw [compare_gt_iff_gt]
    omega
  rw [scaled, UnpackedFloat.normalize, above, Int.toNat_natCast]

/-- A scale leaves room for all places of a mantissa. -/
def Roomy (format : Format) (scale : Int) : Prop :=
  format.minExponent + format.mantissaBitsWithoutImplicit ≤ scale

section Counts

variable {count : Nat} {scale : Int} (pos : 0 < count) (fits : count < 2 ^ format.mantissaBits)

include pos fits

theorem log2_le_of_fits : count.log2 ≤ format.mantissaBitsWithoutImplicit := by
  have short := (Nat.log2_lt pos.ne').mpr fits
  rw [Format.mantissaBits] at short
  omega

theorem log2_filled :
    (count * 2 ^ spare format count).log2 = format.mantissaBitsWithoutImplicit := by
  have short := log2_le_of_fits pos fits
  rw [log2_mul_two_pow pos, spare]
  omega

theorem kept_filled (roomy : Roomy format scale) :
    Kept format (count * 2 ^ spare format count) (scale - spare format count) := by
  have filled : 0 < count * 2 ^ spare format count := Nat.mul_pos pos (Nat.two_pow_pos _)
  have log2 := log2_filled pos fits
  rw [Roomy] at roomy
  refine ⟨filled, (Nat.log2_lt filled.ne').mp ?_, ?_, .inl ((Nat.le_log2 filled.ne').mp ?_)⟩
  · rw [log2, Format.mantissaBits]
    omega
  · rw [spare]
    omega
  · exact log2.ge

theorem scaled_eq (roomy : Roomy format scale) : scaled format count scale =
    .finite .positive (count * 2 ^ spare format count) (scale - spare format count)
      (kept_filled pos fits roomy).pos := by
  have rounded := (kept_filled pos fits roomy).round_left .positive
  rw [Int.sub_add_cancel] at rounded
  rw [scaled_of_pos pos, rounded]

/-- Zeros behind a count are made up for by its scale. -/
theorem scaled_mul_two_pow (roomy : Roomy format scale) {places : Nat}
    (enough : spare format count ≤ places) :
    scaled format (count * 2 ^ places) (scale - places) = scaled format count scale := by
  obtain ⟨more, rfl⟩ := Nat.exists_eq_add_of_le enough
  have rounded := (kept_filled pos fits roomy).round_right more .positive
  have split : count * 2 ^ spare format count * 2 ^ more =
      count * 2 ^ (spare format count + more) := by
    rw [Nat.pow_add, Nat.mul_assoc]
  have behind : scale - spare format count - more =
      scale - ((spare format count + more : Nat) : Int) := by
    push_cast
    omega
  rw [split, behind] at rounded
  rw [scaled_of_pos (Nat.mul_pos pos (Nat.two_pow_pos _)), rounded, scaled_eq pos fits roomy]

end Counts

theorem spare_le_spare {count more : Nat} (pos : 0 < count) (le : count ≤ more) :
    spare format more ≤ spare format count := by
  have log2 : count.log2 ≤ more.log2 :=
    (Nat.le_log2 (by omega)).mpr (Nat.le_trans (Nat.log2_self_le pos.ne') le)
  rw [spare, spare]
  omega

/-- Counts at one scale are added exactly. -/
theorem add_scaled {a b : Nat} {scale : Int} (fits : a + b < 2 ^ format.mantissaBits)
    (roomy : Roomy format scale) :
    UnpackedFloat.add format (scaled format a scale) (scaled format b scale) =
      scaled format (a + b) scale := by
  rcases Nat.eq_zero_or_pos a with rfl | some_a
  · rw [Nat.zero_add, scaled_zero]
    rcases Nat.eq_zero_or_pos b with rfl | some_b
    · rfl
    · rw [scaled_eq some_b (by omega) roomy]
      rfl
  · rcases Nat.eq_zero_or_pos b with rfl | some_b
    · rw [Nat.add_zero, scaled_zero, scaled_eq some_a (by omega) roomy]
      rfl
    · -- both are brought to the smaller exponent, where their mantissas are added
      obtain ⟨places, is_places⟩ : ∃ places, places = max (spare format a) (spare format b) :=
        ⟨_, rfl⟩
      have smaller : min (scale - spare format a) (scale - spare format b) = scale - places := by
        omega
      have shift {count : Nat} (le : spare format count ≤ places) :
          (count * 2 ^ spare format count) <<<
            (scale - spare format count - (scale - places)).toNat = count * 2 ^ places := by
        have amount : (scale - spare format count - (scale - places)).toNat =
            places - spare format count := by omega
        rw [amount, Nat.shiftLeft_eq, Nat.mul_assoc, ← Nat.pow_add, Nat.add_sub_cancel' le]
      have sum : ((a * 2 ^ places : Nat) : Int) + ((b * 2 ^ places : Nat) : Int) =
          (((a + b) * 2 ^ places : Nat) : Int) := by
        rw [Nat.add_mul, Nat.cast_add]
      have enough : spare format (a + b) ≤ places := by
        have le : spare format (a + b) ≤ spare format a :=
          spare_le_spare some_a (Nat.le_add_right a b)
        omega
      rw [scaled_eq some_a (by omega) roomy, scaled_eq some_b (by omega) roomy]
      simp only [UnpackedFloat.add, UnpackedFloat.decreaseExponent, smaller,
        shift (show spare format a ≤ places by omega),
        shift (show spare format b ≤ places by omega), UnpackedFloat.Sign.apply, sum]
      exact scaled_mul_two_pow (by omega) fits roomy enough

/-- A full mantissa is divided by a power of two without a remainder: one more place than it has is
shifted in, and all of these but one come out again. -/
theorem divCore_two_pow {mantissa : Nat} {exponent power : Int}
    (log2 : mantissa.log2 = format.mantissaBitsWithoutImplicit)
    (room : format.minExponent ≤ exponent - power - (format.mantissaBitsWithoutImplicit + 1)) :
    UnpackedFloat.divCore format mantissa exponent (2 ^ format.mantissaBitsWithoutImplicit) power =
      (mantissa * 2 ^ 1, exponent - power - (format.mantissaBitsWithoutImplicit + 1), .exact) := by
  have total : totalExponent mantissa exponent -
      totalExponent (2 ^ format.mantissaBitsWithoutImplicit) power = exponent - power := by
    rw [totalExponent, totalExponent, log2, Nat.log2_two_pow]
    omega
  have target : min (exponent - power) (format.targetExponent (exponent - power)) =
      exponent - power - (format.mantissaBitsWithoutImplicit + 1) := by
    rw [Format.targetExponent, Format.mantissaBits]
    omega
  have amount : (exponent - power -
      (exponent - power - (format.mantissaBitsWithoutImplicit + 1))).toNat =
        1 + format.mantissaBitsWithoutImplicit := by omega
  have shifted : mantissa <<< (1 + format.mantissaBitsWithoutImplicit) =
      mantissa * 2 ^ 1 * 2 ^ format.mantissaBitsWithoutImplicit := by
    rw [Nat.shiftLeft_eq, Nat.mul_assoc, ← Nat.pow_add]
  simp only [UnpackedFloat.divCore, total, target, amount, shifted,
    Nat.mul_div_cancel _ (Nat.two_pow_pos _), Nat.mul_mod_left, UnpackedFloat.accuracyOfFraction,
    if_true]

/-- To divide a count by a power of two moves its scale. -/
theorem div_scaled {count : Nat} {scale power : Int} (fits : count < 2 ^ format.mantissaBits)
    (roomy : Roomy format scale)
    (room : Roomy format (scale - power - (format.mantissaBitsWithoutImplicit + 1))) (pos) :
    UnpackedFloat.div format (scaled format count scale)
        (.finite .positive (2 ^ format.mantissaBitsWithoutImplicit) power pos) =
      scaled format count (scale - power - format.mantissaBitsWithoutImplicit) := by
  rcases Nat.eq_zero_or_pos count with rfl | some_left
  · rfl
  · have few : spare format count ≤ format.mantissaBitsWithoutImplicit := Nat.sub_le ..
    rw [Roomy] at room
    have below : Roomy format (scale - power - format.mantissaBitsWithoutImplicit) := by
      rw [Roomy]
      omega
    have quotient : UnpackedFloat.divCore format (count * 2 ^ spare format count)
        (scale - spare format count) (2 ^ format.mantissaBitsWithoutImplicit) power = _ :=
      divCore_two_pow (log2_filled some_left fits) (by omega)
    have rounded := (kept_filled some_left fits below).roundWithAccuracy 1 .positive
    have last :
        scale - power - format.mantissaBitsWithoutImplicit - spare format count - (1 : Nat) =
          scale - spare format count - power - (format.mantissaBitsWithoutImplicit + 1) := by omega
    rw [last] at rounded
    rw [scaled_eq some_left fits roomy, scaled_eq some_left fits below]
    simp only [UnpackedFloat.div, quotient]
    exact rounded

/-! ### Doubles -/

theorem pack_unpack_double (x : Float.Model) : Float.Model.pack x.unpack = x := by
  obtain ⟨bits, valid⟩ := x
  have same : UnpackedFloat.pack .binary64 (UnpackedFloat.unpack .binary64 bits.toBitVec) =
      bits.toBitVec := UnpackedFloat.pack_unpack_of_valid valid
  simp only [Float.Model.pack, Float.Model.unpack, same]

theorem unpack_pack_double (x : Float) : UnpackedFloat.unpack .binary64
    (UnpackedFloat.pack .binary64 x.toModel.unpack) = x.toModel.unpack :=
  unpack_pack_unpack (by decide)

theorem eq_of_unpack_double {x y : Float} (same : x.toModel.unpack = y.toModel.unpack) : x = y :=
  Float.toBits_inj.mp <| UInt64.toBitVec_inj.mp <|
    (UnpackedFloat.unpack_inj_of_valid x.toModel.valid y.toModel.valid).mp same

theorem unpack_add_double (x y : Float) : (x + y).toModel.unpack =
    (Float.Model.pack (UnpackedFloat.add .binary64 x.toModel.unpack y.toModel.unpack)).unpack :=
  rfl

theorem unpack_div_double (x y : Float) : (x / y).toModel.unpack =
    (Float.Model.pack (UnpackedFloat.div .binary64 x.toModel.unpack y.toModel.unpack)).unpack :=
  rfl

/-- A double keeps a count of fifty-three places. -/
theorem unpack_pack_scaled {count : Nat} {scale : Int} (fits : count < 2 ^ 53)
    (roomy : -1022 ≤ scale) (small : scale ≤ 971) :
    (Float.Model.pack (scaled .binary64 count scale)).unpack = scaled .binary64 count scale := by
  rcases Nat.eq_zero_or_pos count with rfl | some_left
  · exact UnpackedFloat.unpack_packedZero
  · have room : Roomy .binary64 scale := roomy
    have fits : count < 2 ^ Format.binary64.mantissaBits := fits
    rw [scaled_eq some_left fits room]
    have upper : scale - spare .binary64 count ≤ maxExponent .binary64 :=
      show scale - spare .binary64 count ≤ 971 by omega
    exact unpack_pack (by decide) (kept_filled some_left fits room) upper .positive

theorem unpack_toFloat {count : UInt64} (fits : count.toNat < 2 ^ 53) :
    count.toFloat.toModel.unpack = scaled .binary64 count.toNat 0 :=
  unpack_pack_scaled fits (by decide) (by decide)

/-! ### Powers of two -/

/-- The single `2 ^ (place - 126)`. -/
def powerOfTwo (place : Fin 254) : Float32 :=
  Float32.ofBits ((place.val + 1).toUInt32 <<< 23)

/-- It is widened to the double of the same value. -/
theorem bits_widen_powerOfTwo : ∀ place : Fin 254,
    (widen (powerOfTwo place)).toModel.toBits.toBitVec =
      UnpackedFloat.packComponents .binary64 .positive (BitVec.ofNat 11 (place.val + 897))
        0#52 := by
  decide +kernel

theorem unpack_widen_powerOfTwo (place : Fin 254) :
    (widen (powerOfTwo place)).toModel.unpack =
      .finite .positive (2 ^ 52) (place.val - 178) (by decide) := by
  have field : (BitVec.ofNat 11 (place.val + 897)).toNat = place.val + 897 :=
    Nat.mod_eq_of_lt (by omega)
  have above : BitVec.ofNat 11 (place.val + 897) ≠ 0#11 := by
    rw [Ne, eq_zero_iff, field]
    omega
  have below : BitVec.ofNat 11 (place.val + 897) ≠ -1#11 := by
    rw [Ne, eq_ones_iff, field]
    omega
  have bias : ((place.val + 897 : Nat) : Int) -
      (Format.binary64.exponentBias + Format.binary64.mantissaBitsWithoutImplicit) =
        place.val - 178 := by
    show ((place.val + 897 : Nat) : Int) - (1023 + 52) = place.val - 178
    omega
  have unpacked := @unpack_normal .binary64 .positive (BitVec.ofNat 11 (place.val + 897)) 0#52
    above below
  rw [Float.Model.unpack, bits_widen_powerOfTwo, unpacked, UnpackedFloat.finite.injEq, field]
  exact ⟨rfl, rfl, bias⟩

/-- At a sample rate that is a power of two, frames last exactly as long as they should. -/
theorem unpack_ofFrames (place : Fin 254) {frames : UInt64} (fits : frames.toNat < 2 ^ 53) :
    (TimeAxis.ofFrames frames (powerOfTwo place) : Float).toModel.unpack =
      scaled .binary64 frames.toNat (126 - place.val) := by
  have roomy : Roomy .binary64 0 := show (-1022 : Int) ≤ 0 by decide
  have room : Roomy .binary64 (0 - (place.val - 178) - 53) :=
    show -1022 ≤ 0 - ((place.val : Int) - 178) - 53 by omega
  have divided : UnpackedFloat.div .binary64 (scaled .binary64 frames.toNat 0)
      (.finite .positive (2 ^ 52) (place.val - 178) (by decide)) =
        scaled .binary64 frames.toNat (0 - (place.val - 178) - 52) :=
    div_scaled fits roomy room (by decide)
  have moved : 0 - ((place.val : Int) - 178) - 52 = 126 - place.val := by omega
  show (frames.toFloat / widen (powerOfTwo place)).toModel.unpack = _
  rw [unpack_div_double, unpack_toFloat fits, unpack_widen_powerOfTwo, divided]
  exact moved ▸ unpack_pack_scaled fits (by omega) (by omega)

theorem ofFrames_add (place : Fin 254) {a b : UInt64} (fits : a.toNat + b.toNat < 2 ^ 53) :
    (TimeAxis.ofFrames (a + b) (powerOfTwo place) : Float) =
      TimeAxis.ofFrames a (powerOfTwo place) + TimeAxis.ofFrames b (powerOfTwo place) := by
  have sum : (a + b).toNat = a.toNat + b.toNat := by
    rw [UInt64.toNat_add]
    omega
  have roomy : Roomy .binary64 (126 - place.val) := show -1022 ≤ 126 - (place.val : Int) by omega
  have added : UnpackedFloat.add .binary64 (scaled .binary64 a.toNat (126 - place.val))
      (scaled .binary64 b.toNat (126 - place.val)) = _ := add_scaled fits roomy
  refine eq_of_unpack_double ?_
  rw [unpack_add_double, unpack_ofFrames place (by omega), unpack_ofFrames place (by omega),
    unpack_ofFrames place (by omega), added, sum]
  exact (unpack_pack_scaled fits (by omega) (by omega)).symm

/-! ### Numbers without a minus -/

/-- A number does not carry a minus. -/
def Unsigned : UnpackedFloat → Prop
  | .zero sign | .infinity sign | .finite sign .. => sign = .positive
  | .notANumber => True

/-- A number that is packed stays without a minus. -/
theorem Unsigned.unpack_pack {x : UnpackedFloat} (unsigned : Unsigned x) :
    Unsigned (UnpackedFloat.unpack format (UnpackedFloat.pack format x)) := by
  have plus : UnpackedFloat.Sign.ofBitVec
      (UnpackedFloat.unpackSign (UnpackedFloat.pack format x)) = .positive := by
    cases x with
    | notANumber => simp [UnpackedFloat.pack, UnpackedFloat.packedNaN]
    | infinity sign =>
      cases unsigned
      simp [UnpackedFloat.pack, UnpackedFloat.packedInfinity]
    | zero sign =>
      cases unsigned
      simp [UnpackedFloat.pack, UnpackedFloat.packedZero]
    | finite sign mantissa exponent pos =>
      cases unsigned
      simp only [UnpackedFloat.pack]
      split
      · simp [UnpackedFloat.packedInfinity]
      · split <;> simp
  unfold UnpackedFloat.unpack
  dsimp only
  split
  · split
    · exact plus
    · trivial
  · split
    · split
      · exact plus
      · exact plus
    · exact plus

theorem unsigned_roundWithAccuracy (mantissa : Nat) (exponent : Int)
    (accuracy : UnpackedFloat.Accuracy) :
    Unsigned (UnpackedFloat.roundWithAccuracy format .positive mantissa exponent accuracy) := by
  unfold UnpackedFloat.roundWithAccuracy
  dsimp only
  split <;> rfl

theorem Unsigned.div {x y : UnpackedFloat} (unsigned : Unsigned x) (unsigned' : Unsigned y) :
    Unsigned (UnpackedFloat.div format x y) := by
  cases x <;> cases y <;> try trivial
  all_goals cases unsigned; cases unsigned'
  all_goals first | rfl | exact unsigned_roundWithAccuracy ..

theorem unsigned_toFloat (count : UInt64) : Unsigned count.toFloat.toModel.unpack := by
  have unsigned : Unsigned (scaled .binary64 count.toNat 0) := by
    rcases Nat.eq_zero_or_pos count.toNat with zero | some_left
    · rw [zero]
      rfl
    · rw [scaled_of_pos some_left]
      exact unsigned_roundWithAccuracy ..
  exact unsigned.unpack_pack

/-- To add a zero on either side leaves a double without a minus. -/
theorem add_zero_of_unsigned {x z : Float} (unsigned : Unsigned x.toModel.unpack)
    (zero : z.toModel.unpack = .zero .positive) : x + z = x ∧ z + x = x := by
  have sums : UnpackedFloat.add .binary64 x.toModel.unpack (.zero .positive) = x.toModel.unpack ∧
      UnpackedFloat.add .binary64 (.zero .positive) x.toModel.unpack = x.toModel.unpack := by
    cases unpacked : x.toModel.unpack with
    | zero sign =>
      rw [unpacked] at unsigned
      cases unsigned
      exact ⟨rfl, rfl⟩
    | _ => exact ⟨rfl, rfl⟩
  constructor <;> refine eq_of_unpack_double ?_ <;> rw [unpack_add_double, zero]
  · rw [sums.1, pack_unpack_double]
  · rw [sums.2, pack_unpack_double]

theorem unpack_of_pos {x : Float} (pos : 0.0 < x) : x.toModel.unpack = .infinity .positive ∨
    ∃ mantissa exponent above, x.toModel.unpack = .finite .positive mantissa exponent above := by
  have below : (UnpackedFloat.zero .positive).lt x.toModel.unpack = true := of_decide_eq_true pos
  cases unpacked : x.toModel.unpack with
  | notANumber => rw [unpacked] at below; cases below
  | zero sign => rw [unpacked] at below; cases below
  | infinity sign => rw [unpacked] at below; cases sign <;> first | exact .inl rfl | cases below
  | finite sign mantissa exponent above =>
    rw [unpacked] at below
    cases sign
    · cases below
    · exact .inr ⟨_, _, _, rfl⟩

section Rates

variable {rate : Float32} (pos : 0.0 < widen rate)

include pos

/-- Times that are divided by a positive rate are no `-0`. -/
theorem unsigned_ofFrames (frames : UInt64) :
    Unsigned (TimeAxis.ofFrames frames rate : Float).toModel.unpack := by
  have positive : Unsigned (widen rate).toModel.unpack := by
    rcases unpack_of_pos pos with same | ⟨_, _, _, same⟩ <;> rw [same] <;> rfl
  exact ((unsigned_toFloat frames).div positive).unpack_pack

theorem unpack_ofFrames_zero :
    (TimeAxis.ofFrames 0 rate : Float).toModel.unpack = .zero .positive := by
  show ((0 : UInt64).toFloat / widen rate).toModel.unpack = _
  have zero : (0 : UInt64).toFloat.toModel.unpack = .zero .positive := unpack_toFloat (by decide)
  rw [unpack_div_double, zero]
  rcases unpack_of_pos pos with same | ⟨_, _, _, same⟩ <;> rw [same] <;>
    exact UnpackedFloat.unpack_packedZero

/-- To add no frames leaves a time. -/
theorem ofFrames_add_zero (frames : UInt64) :
    (TimeAxis.ofFrames frames rate + TimeAxis.ofFrames 0 rate : Float) =
        TimeAxis.ofFrames frames rate ∧
      (TimeAxis.ofFrames 0 rate + TimeAxis.ofFrames frames rate : Float) =
        TimeAxis.ofFrames frames rate :=
  add_zero_of_unsigned (unsigned_ofFrames pos frames) (unpack_ofFrames_zero pos)

end Rates

end Patchbay.Number
