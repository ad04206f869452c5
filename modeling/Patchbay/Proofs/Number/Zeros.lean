import Patchbay.Proofs.Number.Packing

/-!
# Zeros of both signs

Two numbers that are equal have the same encoding, unless both of them are zeros. To add a zero
changes nothing but `-0`, a sum that is begun with `0` never becomes `-0`, and a zero multiplied by
anything finite is a zero.
-/
namespace Patchbay.Number

open Float.Model

variable {format : Format} {x : UnpackedFloat} {sign : UnpackedFloat.Sign}

/-! ### Unpacked numbers -/

theorem add_zero_of_ne (inner : ∀ sign, x ≠ .zero sign) :
    UnpackedFloat.add format x (.zero sign) = x := by
  cases x with
  | zero other => exact absurd rfl (inner other)
  | _ => rfl

/-- What is kept is no zero once it is packed. -/
theorem Kept.unpack_pack_ne_zero (wide : 1 < format.exponentBits) {mantissa : Nat} {exponent : Int}
    (kept : Kept format mantissa exponent) (sign other : UnpackedFloat.Sign) :
    UnpackedFloat.unpack format
        (UnpackedFloat.pack format (.finite sign mantissa exponent kept.pos)) ≠
      .zero other := by
  by_cases small : exponent ≤ maxExponent format
  · rw [unpack_pack wide kept small]
    exact UnpackedFloat.noConfusion
  · rw [unpack_pack_of_lt (by omega)]
    exact UnpackedFloat.noConfusion

/-- A sum of numbers that are no zeros is no `-0`. -/
theorem unpack_pack_normalize_ne (wide : 1 < format.exponentBits) (mantissa : Int) {exponent : Int}
    (least : format.minExponent ≤ exponent) :
    UnpackedFloat.unpack format (UnpackedFloat.pack format
      (UnpackedFloat.normalize format mantissa exponent .positive)) ≠ .zero .negative := by
  have rounded {size : Nat} (pos : 0 < size) (s : UnpackedFloat.Sign) :
      UnpackedFloat.unpack format (UnpackedFloat.pack format
        (UnpackedFloat.round format s size exponent)) ≠ .zero .negative := by
    obtain ⟨_, _, kept, same⟩ := kept_round pos least s
    exact same ▸ kept.unpack_pack_ne_zero wide s .negative
  unfold UnpackedFloat.normalize
  split
  · rename_i below
    rw [compare_lt_iff_lt] at below
    exact rounded (by omega) _
  · rw [UnpackedFloat.pack, UnpackedFloat.unpack_packedZero]
    simp
  · rename_i above
    rw [compare_gt_iff_gt] at above
    exact rounded (by omega) _

/-- A sum is `-0` only if both of its parts are. -/
theorem eq_negative_zero_of_add (wide : 1 < format.exponentBits) {a b : BitVec format.numBits}
    (zero : UnpackedFloat.unpack format (UnpackedFloat.pack format
      (UnpackedFloat.add format (UnpackedFloat.unpack format a) (UnpackedFloat.unpack format b))) =
        .zero .negative) :
    UnpackedFloat.unpack format a = .zero .negative := by
  have infinite (s : UnpackedFloat.Sign) :
      UnpackedFloat.unpack format (UnpackedFloat.pack format (.infinity s)) = .infinity s :=
    unpack_packedInfinity s
  have nothing (s : UnpackedFloat.Sign) :
      UnpackedFloat.unpack format (UnpackedFloat.pack format (.zero s)) = .zero s :=
    UnpackedFloat.unpack_packedZero
  have nan : UnpackedFloat.unpack format (UnpackedFloat.pack format .notANumber) = .notANumber :=
    UnpackedFloat.unpack_packedNaN
  cases first : UnpackedFloat.unpack format a with
  | notANumber => simp [first, UnpackedFloat.add, nan] at zero
  | infinity s =>
    cases second : UnpackedFloat.unpack format b with
    | infinity s' =>
      simp only [first, second, UnpackedFloat.add] at zero
      split at zero <;> simp [infinite, nan] at zero
    | _ => simp [first, second, UnpackedFloat.add, infinite, nan] at zero
  | zero s =>
    cases second : UnpackedFloat.unpack format b with
    | notANumber => simp [first, second, UnpackedFloat.add, nan] at zero
    | infinity s' => simp [first, second, UnpackedFloat.add, infinite] at zero
    | zero s' =>
      simp only [first, second, UnpackedFloat.add] at zero
      cases s <;> cases s' <;> simp [nothing] at zero ⊢
    | finite s' m e pos =>
      simp only [first, second, UnpackedFloat.add] at zero
      exact absurd zero ((kept_unpack second).unpack_pack_ne_zero wide s' .negative)
  | finite s m e pos =>
    have kept := kept_unpack first
    cases second : UnpackedFloat.unpack format b with
    | notANumber => simp [first, second, UnpackedFloat.add, nan] at zero
    | infinity s' => simp [first, second, UnpackedFloat.add, infinite] at zero
    | zero s' =>
      simp only [first, second, UnpackedFloat.add] at zero
      exact absurd zero (kept.unpack_pack_ne_zero wide s .negative)
    | finite s' m' e' pos' =>
      have least : format.minExponent ≤ min e e' := le_min kept.least (kept_unpack second).least
      simp only [first, second, UnpackedFloat.add] at zero
      exact absurd zero (unpack_pack_normalize_ne wide _ least)

/-! ### Singles -/

/-- A zero of either sign. -/
def Null (x : Float32) : Prop :=
  ∃ sign, x.toModel.unpack = .zero sign

theorem pack_unpack_single (x : Float32.Model) : Float32.Model.pack x.unpack = x := by
  obtain ⟨bits, valid⟩ := x
  have same : UnpackedFloat.pack .binary32 (UnpackedFloat.unpack .binary32 bits.toBitVec) =
      bits.toBitVec := UnpackedFloat.pack_unpack_of_valid valid
  simp only [Float32.Model.pack, Float32.Model.unpack, same]

theorem eq_of_unpack {x y : Float32} (same : x.toModel.unpack = y.toModel.unpack) : x = y :=
  Float32.toBits_inj.mp <| UInt32.toBitVec_inj.mp <|
    (UnpackedFloat.unpack_inj_of_valid x.toModel.valid y.toModel.valid).mp same

theorem null_iff {x : Float32} : Null x ↔ x = 0.0 ∨ x = -0.0 := by
  constructor
  · rintro ⟨sign, unpacked⟩
    cases sign
    · exact .inr (eq_of_unpack unpacked)
    · exact .inl (eq_of_unpack unpacked)
  · rintro (rfl | rfl)
    · exact ⟨.positive, rfl⟩
    · exact ⟨.negative, rfl⟩

/-- Numbers that are equal are the same, or zeros. -/
theorem eq_or_null_of_beq {x y : Float32} (same : (x == y) = true) : x = y ∨ Null x ∧ Null y := by
  have plus : Null (0 : Float32) := ⟨.positive, rfl⟩
  have minus : Null (-0 : Float32) := ⟨.negative, rfl⟩
  obtain ⟨-, -, same | ⟨rfl, rfl⟩ | ⟨rfl, rfl⟩⟩ := Float32.beq_iff_ne_nan_and_eq.mp same
  · exact .inl same
  · exact .inr ⟨plus, minus⟩
  · exact .inr ⟨minus, plus⟩

theorem Null.beq {x y : Float32} (null : Null x) (null' : Null y) : (x == y) = true := by
  rcases null_iff.mp null with rfl | rfl <;> rcases null_iff.mp null' with rfl | rfl <;> rfl

theorem beq_symm {x y : Float32} (same : (x == y) = true) : (y == x) = true := by
  rcases eq_or_null_of_beq same with rfl | ⟨null, null'⟩
  · exact same
  · exact null'.beq null

theorem beq_trans {x y z : Float32} (same : (x == y) = true) (same' : (y == z) = true) :
    (x == z) = true := by
  rcases eq_or_null_of_beq same with rfl | ⟨null, -⟩
  · exact same'
  · rcases eq_or_null_of_beq same' with rfl | ⟨-, null'⟩
    · exact same
    · exact null.beq null'

theorem unpack_single_zero (sign : UnpackedFloat.Sign) :
    (Float32.Model.pack (.zero sign)).unpack = .zero sign :=
  UnpackedFloat.unpack_packedZero

theorem unpack_add (x y : Float32) : (x + y).toModel.unpack =
    (Float32.Model.pack (UnpackedFloat.add .binary32 x.toModel.unpack y.toModel.unpack)).unpack :=
  rfl

theorem unpack_mul (x y : Float32) : (x * y).toModel.unpack =
    (Float32.Model.pack (UnpackedFloat.mul .binary32 x.toModel.unpack y.toModel.unpack)).unpack :=
  rfl

/-- To add a zero changes nothing but a zero. -/
theorem add_null_of_not_null {x z : Float32} (null : Null z) (inner : ¬ Null x) : x + z = x := by
  obtain ⟨sign, zero⟩ := null
  refine eq_of_unpack ?_
  rw [unpack_add, zero, add_zero_of_ne fun s same => inner ⟨s, same⟩, pack_unpack_single]

theorem Null.add {x y : Float32} (first : Null x) (second : Null y) : Null (x + y) := by
  obtain ⟨s, zero⟩ := first
  obtain ⟨s', zero'⟩ := second
  rw [Null, unpack_add, zero, zero', UnpackedFloat.add]
  split
  · exact ⟨s, unpack_single_zero s⟩
  · exact ⟨.positive, unpack_single_zero .positive⟩

/-- To add a zero changes nothing but `-0`. -/
theorem add_null {x z : Float32} (null : Null z) (inner : x ≠ -0.0) : x + z = x := by
  by_cases zero : Null x
  · rcases null_iff.mp zero with rfl | same
    · rcases null_iff.mp null with rfl | rfl <;> rfl
    · exact absurd same inner
  · exact add_null_of_not_null null zero

/-- What is not `-0` does not become `-0` by adding. -/
theorem add_ne_negative_zero {x : Float32} (inner : x ≠ -0.0) (y : Float32) : x + y ≠ -0.0 := by
  intro same
  have zero : (x + y).toModel.unpack = .zero .negative := by
    rw [same]
    rfl
  exact inner (eq_of_unpack (eq_negative_zero_of_add (by decide) zero))

/-- A zero times anything finite is a zero. -/
theorem Null.mul {x y : Float32} (null : Null x) (finite : y.isFinite = true) : Null (x * y) := by
  obtain ⟨s, zero⟩ := null
  have finite : y.toModel.unpack.isFinite = true := finite
  rw [Null, unpack_mul, zero]
  cases unpacked : y.toModel.unpack with
  | notANumber => simp [unpacked, UnpackedFloat.isFinite] at finite
  | infinity s' => simp [unpacked, UnpackedFloat.isFinite] at finite
  | zero s' => exact ⟨_, unpack_single_zero (s * s')⟩
  | finite s' m e pos => exact ⟨_, unpack_single_zero (s * s')⟩

/-- A finite number stays finite when a zero is added. -/
theorem isFinite_add_null {x z : Float32} (finite : x.isFinite = true) (null : Null z) :
    (x + z).isFinite = true := by
  by_cases zero : Null x
  · obtain ⟨s, sum⟩ := zero.add null
    show (x + z).toModel.unpack.isFinite = true
    rw [sum]
    rfl
  · rw [add_null_of_not_null null zero, finite]

/-! ### Equal but for the sign of zero -/

section SameValue

variable {x y z : Float32}

/-- Two singles are the same, or zeros of whatever signs. -/
def SameValue (x y : Float32) : Prop :=
  x = y ∨ Null x ∧ Null y

theorem null_zero : Null 0.0 :=
  null_iff.mpr (.inl rfl)

/-- A zero that is negated and halved is a zero. -/
theorem Null.half_neg (null : Null x) : Null (-x * 0.5) := by
  rcases null_iff.mp null with rfl | rfl
  · exact ⟨.negative, rfl⟩
  · exact ⟨.positive, rfl⟩

theorem Null.neg (null : Null x) : Null (-x) := by
  rcases null_iff.mp null with rfl | rfl
  · exact ⟨.negative, rfl⟩
  · exact ⟨.positive, rfl⟩

theorem Null.beq_zero (null : Null x) : (x == 0.0) = true := by
  rcases null_iff.mp null with rfl | rfl <;> rfl

theorem SameValue.refl (x : Float32) : SameValue x x :=
  .inl rfl

theorem SameValue.trans (first : SameValue x y) (second : SameValue y z) : SameValue x z := by
  rcases first with rfl | ⟨null, null'⟩
  · exact second
  · rcases second with rfl | ⟨-, null''⟩
    · exact .inr ⟨null, null'⟩
    · exact .inr ⟨null, null''⟩

theorem mul_comm_single (x y : Float32) : x * y = y * x := by
  have signs (s s' : UnpackedFloat.Sign) : s * s' = s' * s := by cases s <;> cases s' <;> rfl
  have unpacked (a b : UnpackedFloat) :
      UnpackedFloat.mul .binary32 a b = UnpackedFloat.mul .binary32 b a := by
    cases a <;> cases b <;>
      simp only [UnpackedFloat.mul, signs, Nat.mul_comm, Int.add_comm]
  refine eq_of_unpack ?_
  rw [unpack_mul, unpack_mul, unpacked]

theorem sameValue_add_null (x : Float32) {zero : Float32} (null : Null zero) :
    SameValue (x + zero) x := by
  by_cases inner : Null x
  · exact .inr ⟨inner.add null, inner⟩
  · exact .inl (add_null_of_not_null null inner)

theorem sameValue_zero_add (x : Float32) : SameValue (0.0 + x) x := by
  by_cases inner : Null x
  · exact .inr ⟨null_zero.add inner, inner⟩
  · left
    refine eq_of_unpack ?_
    have zero : (0.0 : Float32).toModel.unpack = .zero .positive := rfl
    rw [unpack_add, zero]
    cases unpacked : x.toModel.unpack with
    | zero sign => exact absurd ⟨sign, unpacked⟩ inner
    | _ =>
      simp only [UnpackedFloat.add]
      rw [← unpacked, pack_unpack_single]

theorem SameValue.add_left (x : Float32) (same : SameValue y z) : SameValue (x + y) (x + z) := by
  rcases same with rfl | ⟨null, null'⟩
  · exact .refl _
  · by_cases inner : Null x
    · exact .inr ⟨inner.add null, inner.add null'⟩
    · left
      rw [add_null_of_not_null null inner, add_null_of_not_null null' inner]

theorem SameValue.mul_left (x : Float32) (same : SameValue y z) : SameValue (x * y) (x * z) := by
  rcases same with rfl | ⟨⟨s, zero⟩, ⟨s', zero'⟩⟩
  · exact .refl _
  · cases unpacked : x.toModel.unpack with
    | notANumber | infinity =>
      left
      refine eq_of_unpack ?_
      rw [unpack_mul, unpack_mul, zero, zero', unpacked]
      rfl
    | zero | finite =>
      right
      constructor
      · rw [Null, unpack_mul, zero, unpacked]
        exact ⟨_, unpack_single_zero _⟩
      · rw [Null, unpack_mul, zero', unpacked]
        exact ⟨_, unpack_single_zero _⟩

theorem SameValue.mul {x' y' : Float32} (first : SameValue x x') (second : SameValue y y') :
    SameValue (x * y) (x' * y') := by
  refine (second.mul_left x).trans ?_
  rw [mul_comm_single x, mul_comm_single x']
  exact first.mul_left y'

end SameValue

end Patchbay.Number
