import Patchbay.Proofs.Number.Rounding
import Patchbay.Proofs.Number.Zeros

/-!
# Quotients

The sign of a quotient comes from the signs of its parts and its magnitude from their magnitudes.
A magnitude divided by one that is not smaller is at most one, since rounding keeps the order, and
divided by itself it is one.
-/
namespace Patchbay.Number

open Float.Model
open UnpackedFloat hiding pack unpack round

variable {format : Format} {a b c : UnpackedFloat}

/-! ### The other sign -/

theorem unpack_packComponents_neg (sign : Sign) (exponent : BitVec format.exponentBits)
    (fraction : BitVec format.mantissaBitsWithoutImplicit) :
    UnpackedFloat.unpack format (packComponents format (-sign) exponent fraction) =
      (UnpackedFloat.unpack format (packComponents format sign exponent fraction)).neg := by
  simp only [UnpackedFloat.unpack, unpackSign_packComponents, unpackExponent_packComponents,
    unpackMantissa_packComponents, Sign.ofBitVec_toBitVec]
  split
  · split <;> rfl
  · split
    · split <;> rfl
    · rfl

/-- What is packed with the other sign is unpacked with the other sign. -/
theorem unpack_pack_neg (a : UnpackedFloat) :
    UnpackedFloat.unpack format (UnpackedFloat.pack format a.neg) =
      (UnpackedFloat.unpack format (UnpackedFloat.pack format a)).neg := by
  cases a with
  | notANumber =>
    show UnpackedFloat.unpack format (packedNaN format) =
      (UnpackedFloat.unpack format (packedNaN format)).neg
    rw [unpack_packedNaN]
    rfl
  | infinity sign => exact unpack_packComponents_neg sign _ _
  | zero sign => exact unpack_packComponents_neg sign _ _
  | finite sign mantissa exponent pos =>
    simp only [UnpackedFloat.neg, UnpackedFloat.pack]
    split
    · exact unpack_packComponents_neg sign _ _
    · split <;> exact unpack_packComponents_neg sign _ _

theorem roundWithAccuracy_neg (sign : Sign) (mantissa : Nat) (exponent : Int)
    (accuracy : Accuracy) : roundWithAccuracy format (-sign) mantissa exponent accuracy =
      (roundWithAccuracy format sign mantissa exponent accuracy).neg := by
  simp only [roundWithAccuracy]
  split <;> rfl

theorem div_neg (a b : UnpackedFloat) :
    UnpackedFloat.div format a.neg b = (UnpackedFloat.div format a b).neg := by
  have quotient (s t : Sign) : -s / t = -(s / t) := by cases s <;> cases t <;> rfl
  cases a <;> cases b <;>
    simp only [UnpackedFloat.neg, UnpackedFloat.div, quotient, roundWithAccuracy_neg]

theorem div_neg_right (a b : UnpackedFloat) :
    UnpackedFloat.div format a b.neg = (UnpackedFloat.div format a b).neg := by
  have quotient (s t : Sign) : s / -t = -(s / t) := by cases s <;> cases t <;> rfl
  cases a <;> cases b <;>
    simp only [UnpackedFloat.neg, UnpackedFloat.div, quotient, roundWithAccuracy_neg]

/-! ### Magnitudes -/

theorem lt_finite_iff {mantissa mantissa' : Nat} {exponent exponent' : Int} {pos pos'} :
    (UnpackedFloat.finite .positive mantissa exponent pos).lt
        (.finite .positive mantissa' exponent' pos') = true ↔
      exponent < exponent' ∨ exponent = exponent' ∧ mantissa < mantissa' := by
  show (some ((compare exponent exponent').then (compare mantissa mantissa')) == some .lt) =
    true ↔ _
  rcases lt_trichotomy exponent exponent' with less | rfl | greater
  · simp [compare_lt_iff_lt.mpr less, less]
  · simp [compare_lt_iff_lt]
  · simp [compare_gt_iff_gt.mpr greater, greater.not_gt, greater.ne']

namespace AtLeastZero

theorem le_refl (first : AtLeastZero a) : a.le a = true := by
  cases first with
  | zero => rfl
  | infinity => rfl
  | finite => exact le_finite_iff.mpr (.inr ⟨rfl, Nat.le_refl _⟩)

theorem trans (first : AtLeastZero a) (second : AtLeastZero b) (third : AtLeastZero c)
    (le : a.le b = true) (le' : b.le c = true) : a.le c = true := by
  cases third with
  | infinity => exact first.le_infinity
  | zero =>
    cases second with
    | zero => exact le
    | _ => cases le'
  | finite =>
    cases second with
    | infinity => cases le'
    | zero => cases first <;> first | rfl | cases le
    | finite =>
      cases first with
      | zero => rfl
      | infinity => cases le
      | finite =>
        rw [le_finite_iff] at *
        omega

theorem le_of_not_lt (first : AtLeastZero a) (second : AtLeastZero b) (not_lt : a.lt b = false) :
    b.le a = true := by
  cases first with
  | infinity => exact second.le_infinity
  | zero => cases second <;> first | rfl | cases not_lt
  | finite =>
    cases second with
    | zero => rfl
    | infinity => cases not_lt
    | finite =>
      rw [← Bool.not_eq_true, lt_finite_iff] at not_lt
      rw [le_finite_iff]
      omega

theorem le_of_lt (first : AtLeastZero a) (second : AtLeastZero b) (lt : a.lt b = true) :
    a.le b = true := by
  cases second with
  | infinity => exact first.le_infinity
  | zero => cases first <;> cases lt
  | finite =>
    cases first with
    | zero => rfl
    | infinity => cases lt
    | finite =>
      rw [lt_finite_iff] at lt
      rw [le_finite_iff]
      omega

/-- What is not below a number above zero is above zero. -/
theorem pos_of_le (first : AtLeastZero a) (second : AtLeastZero b)
    (pos : (UnpackedFloat.zero .positive).lt a = true) (le : a.le b = true) :
    (UnpackedFloat.zero .positive).lt b = true := by
  cases second with
  | infinity => rfl
  | finite => rfl
  | zero =>
    cases first with
    | zero => cases pos
    | infinity => cases le
    | finite => cases le

theorem antisymm (first : AtLeastZero a) (second : AtLeastZero b) (below : a.le b = true)
    (above : b.le a = true) : a = b := by
  cases first with
  | zero => cases second <;> first | rfl | cases above
  | infinity => cases second <;> first | rfl | cases below
  | finite mantissa exponent pos =>
    cases second with
    | zero => cases below
    | infinity => cases above
    | finite mantissa' exponent' pos' =>
      rw [le_finite_iff] at below above
      obtain rfl : exponent = exponent' := by omega
      obtain rfl : mantissa = mantissa' := by omega
      rfl

end AtLeastZero

/-- Between two magnitudes the order is turned round by the other sign. -/
theorem AtLeastZero.neg_le_neg (first : AtLeastZero a) (second : AtLeastZero b)
    (below : a.le b = true) : b.neg.le a.neg = true := by
  cases second with
  | zero => cases first <;> first | rfl | cases below
  | infinity => cases first <;> rfl
  | finite mantissa' exponent' pos' =>
    cases first with
    | zero => rfl
    | infinity => cases below
    | finite mantissa exponent pos =>
      show ((compare exponent' exponent).then (compare mantissa' mantissa)).swap.isLE = true
      rw [Ordering.swap_then, Int.compare_swap, Nat.compare_swap]
      exact below

/-- A magnitude and a number below zero. -/
theorem AtLeastZero.neg_le (first : AtLeastZero a) (second : AtLeastZero b) :
    a.neg.le b = true := by
  cases first <;> cases second <;> rfl

/-! ### Quotients of magnitudes -/

/-- The order of numbers that are kept is the order of their values. -/
theorem Keeps.value_le {x y : ℚ} (keeps : Keeps format a x) (keeps' : Keeps format b y)
    (le : a.le b = true) : x ≤ y := by
  cases keeps with
  | zero => cases keeps' <;> positivity
  | @finite mantissa exponent kept =>
    cases keeps' with
    | zero => cases le
    | @finite mantissa' exponent' kept' =>
      rw [le_finite_iff] at le
      by_contra greater
      obtain less | ⟨rfl, less⟩ := kept'.order kept (not_le.mp greater).le
      · omega
      · obtain rfl : mantissa = mantissa' := by omega
        exact greater le_rfl

theorem Keeps.atLeastZero_div {x : ℚ} (keeps : Keeps format a x) {mantissa : Nat} {exponent : Int}
    (pos : 0 < mantissa) : AtLeastZero (UnpackedFloat.unpack format (UnpackedFloat.pack format
      (UnpackedFloat.div format a (.finite .positive mantissa exponent pos)))) := by
  have rounds : Rounds format (x / (mantissa * 2 ^ exponent)) _ := keeps.rounds_div pos
  obtain ⟨_, _, -, rounded⟩ := rounds
  exact rounded.atLeastZero.unpack_pack

/-! ### Singles -/

section Singles

variable {x y top : Float32}

theorem le_single_iff : x ≤ y ↔ x.toModel.unpack.le y.toModel.unpack = true :=
  ⟨of_decide_eq_true, decide_eq_true⟩

theorem lt_single_iff : x < y ↔ x.toModel.unpack.lt y.toModel.unpack = true :=
  ⟨of_decide_eq_true, decide_eq_true⟩

theorem isNaN_single_iff : x.isNaN = true ↔ x.toModel.unpack = .notANumber :=
  isNaN_iff

theorem unpack_div (x y : Float32) : (x / y).toModel.unpack =
    UnpackedFloat.unpack .binary32 (UnpackedFloat.pack .binary32
      (UnpackedFloat.div .binary32 x.toModel.unpack y.toModel.unpack)) :=
  rfl

theorem unpack_pack_single (x : Float32) : UnpackedFloat.unpack .binary32
    (UnpackedFloat.pack .binary32 x.toModel.unpack) = x.toModel.unpack :=
  unpack_pack_unpack (by decide)

theorem neg_neg_eq (a : UnpackedFloat) : a.neg.neg = a := by
  cases a with
  | notANumber => rfl
  | infinity sign => cases sign <;> rfl
  | zero sign => cases sign <;> rfl
  | finite sign => cases sign <;> rfl

theorem abs_neg (a : UnpackedFloat) : a.neg.abs = a.abs := by
  cases a <;> rfl

/-- A magnitude is the number, or the number with the other sign. -/
theorem abs_eq_self_or_neg (a : UnpackedFloat) : a.abs = a ∨ a.abs = a.neg := by
  cases a with
  | notANumber => exact .inl rfl
  | infinity sign => cases sign <;> first | exact .inl rfl | exact .inr rfl
  | zero sign => cases sign <;> first | exact .inl rfl | exact .inr rfl
  | finite sign => cases sign <;> first | exact .inl rfl | exact .inr rfl

theorem unpack_abs (x : Float32) : x.abs.toModel.unpack = x.toModel.unpack.abs := by
  have packed : x.abs.toModel.unpack = UnpackedFloat.unpack .binary32
      (UnpackedFloat.pack .binary32 x.toModel.unpack.abs) := rfl
  rw [packed]
  rcases abs_eq_self_or_neg x.toModel.unpack with same | other
  · rw [same, unpack_pack_single]
  · rw [other, unpack_pack_neg, unpack_pack_single]

theorem atLeastZero_abs (number : x.isNaN = false) : AtLeastZero x.abs.toModel.unpack := by
  rw [unpack_abs]
  cases unpacked : x.toModel.unpack with
  | notANumber =>
    rw [← Bool.not_eq_true, isNaN_single_iff] at number
    exact absurd unpacked number
  | infinity => exact .infinity
  | zero => exact .zero
  | finite _ mantissa exponent pos => exact .finite mantissa exponent pos

theorem isNaN_of_lt_abs (less : y < x.abs) : x.isNaN = false := by
  have nothing (a : UnpackedFloat) : a.lt .notANumber = false := by
    cases a <;> rfl
  rw [← Bool.not_eq_true, isNaN_single_iff]
  intro unpacked
  rw [lt_single_iff, unpack_abs, unpacked, UnpackedFloat.abs, nothing] at less
  cases less

theorem of_not_number (not_number : x.isNaN = true) : ¬ 0.0 < x.abs ∧ x.isInf = false := by
  constructor
  · intro positive
    exact Bool.false_ne_true ((isNaN_of_lt_abs positive).symm.trans not_number)
  · rw [isNaN_single_iff] at not_number
    show x.toModel.unpack.isInf = false
    rw [not_number]
    rfl

theorem isInf_iff : x.isInf = true ↔ x.abs.toModel.unpack = .infinity .positive := by
  show x.toModel.unpack.isInf = true ↔ _
  rw [unpack_abs]
  cases x.toModel.unpack <;> simp [UnpackedFloat.isInf, UnpackedFloat.abs]

theorem isFinite_iff_ne_infinity (above : AtLeastZero x.toModel.unpack) :
    x.isFinite = true ↔ x.toModel.unpack ≠ .infinity .positive := by
  show x.toModel.unpack.isFinite = true ↔ _
  generalize x.toModel.unpack = a at above ⊢
  cases above <;> simp [UnpackedFloat.isFinite]

theorem isFinite_iff : x.isFinite = true ↔ x.isNaN = false ∧ x.isInf = false := by
  show x.toModel.unpack.isFinite = true ↔
    x.toModel.unpack.isNaN = false ∧ x.toModel.unpack.isInf = false
  cases x.toModel.unpack <;> simp [UnpackedFloat.isFinite, UnpackedFloat.isNaN, UnpackedFloat.isInf]

theorem isFinite_of_bounds (low : -1.0 ≤ x) (high : x ≤ 1.0) : x.isFinite = true := by
  rw [le_single_iff] at low high
  show x.toModel.unpack.isFinite = true
  cases unpacked : x.toModel.unpack with
  | notANumber => rw [unpacked] at low; cases low
  | infinity sign =>
    rw [unpacked] at low high
    cases sign
    · cases low
    · cases high
  | zero => rfl
  | finite => rfl

theorem unpack_neg (x : Float32) : (-x).toModel.unpack = x.toModel.unpack.neg := by
  have packed : (-x).toModel.unpack = UnpackedFloat.unpack .binary32
      (UnpackedFloat.pack .binary32 x.toModel.unpack.neg) := rfl
  rw [packed, unpack_pack_neg, unpack_pack_single]

theorem abs_neg_single (x : Float32) : (-x).abs = x.abs := by
  refine eq_of_unpack ?_
  rw [unpack_abs, unpack_abs, unpack_neg, abs_neg]

theorem isNaN_neg (x : Float32) : (-x).isNaN = x.isNaN := by
  show (-x).toModel.unpack.isNaN = x.toModel.unpack.isNaN
  rw [unpack_neg]
  cases x.toModel.unpack <;> rfl

theorem isInf_neg (x : Float32) : (-x).isInf = x.isInf := by
  rw [Bool.eq_iff_iff, isInf_iff, isInf_iff, abs_neg_single]

/-- A single above zero that is not infinite. -/
theorem unpack_of_pos_of_finite (positive : 0.0 < x) (finite : x.isFinite = true) :
    ∃ mantissa exponent pos, x.toModel.unpack = .finite .positive mantissa exponent pos := by
  have above : (UnpackedFloat.zero .positive).lt x.toModel.unpack = true :=
    lt_single_iff.mp positive
  have inner : x.toModel.unpack.isFinite = true := finite
  cases unpacked : x.toModel.unpack with
  | notANumber => rw [unpacked] at inner; cases inner
  | infinity => rw [unpacked] at inner; cases inner
  | zero => rw [unpacked] at above; cases above
  | finite sign mantissa exponent pos =>
    rw [unpacked] at above
    cases sign
    · cases above
    · exact ⟨mantissa, exponent, pos, rfl⟩

theorem unpack_one : (1.0 : Float32).toModel.unpack =
    .finite .positive (2 ^ 23) (-23) (by decide) := by
  rfl

theorem keeps_one : Keeps .binary32 (1.0 : Float32).toModel.unpack 1 := by
  have value : ((2 ^ 23 : Nat) : ℚ) * 2 ^ (-23 : Int) = 1 := by norm_num
  have keeps : Keeps .binary32 (1.0 : Float32).toModel.unpack _ := keeps_unpack unpack_one
  rwa [value] at keeps

/-- The sign of a dividend is the sign of the quotient by a positive number. -/
theorem unpack_div_cases (x top : Float32) :
    (x / top).toModel.unpack = (x.abs / top).toModel.unpack ∨
      (x / top).toModel.unpack = (x.abs / top).toModel.unpack.neg := by
  rw [unpack_div, unpack_div, unpack_abs]
  rcases abs_eq_self_or_neg x.toModel.unpack with same | other
  · exact .inl (by rw [same])
  · refine .inr ?_
    rw [other, div_neg, unpack_pack_neg, neg_neg_eq]

section Division

variable (positive : 0.0 < top) (finite : top.isFinite = true)

include positive finite

/-- A number that is not larger than a finite one is finite. -/
theorem keeps_abs_of_le (le : x.abs ≤ top) :
    ∃ value, Keeps .binary32 x.abs.toModel.unpack value := by
  obtain ⟨_, _, _, unpacked⟩ := unpack_of_pos_of_finite positive finite
  have below := le_single_iff.mp le
  rw [unpacked, unpack_abs] at below
  cases magnitude : x.toModel.unpack with
  | notANumber => rw [magnitude] at below; cases below
  | infinity => rw [magnitude] at below; cases below
  | zero =>
    rw [unpack_abs, magnitude]
    exact ⟨0, .zero⟩
  | finite sign mantissa exponent pos =>
    have magnitude : x.abs.toModel.unpack = .finite .positive mantissa exponent pos := by
      rw [unpack_abs, magnitude]
      rfl
    exact ⟨_, keeps_unpack magnitude⟩

/-- A magnitude is divided by a larger one to a number from zero to one. -/
theorem div_le_one (le : x.abs ≤ top) : AtLeastZero (x.abs / top).toModel.unpack ∧
    (x.abs / top).toModel.unpack.le (1.0 : Float32).toModel.unpack = true := by
  obtain ⟨value, keeps⟩ := keeps_abs_of_le positive finite le
  obtain ⟨mantissa, exponent, pos, unpacked⟩ := unpack_of_pos_of_finite positive finite
  have kept : Kept .binary32 mantissa exponent := kept_unpack unpacked
  have below := le_single_iff.mp le
  rw [unpacked] at below
  have ordered : value / (mantissa * 2 ^ exponent) ≤ 1 :=
    div_le_one_of_le₀ (keeps.value_le (.finite kept) below) (by positivity)
  rw [unpack_div, unpacked, ← unpack_pack_single 1.0]
  exact ⟨keeps.atLeastZero_div pos, (keeps.rounds_div pos).le (by decide) keeps_one.rounds ordered⟩

/-- A number is divided by one of at least its magnitude to a number between minus one and one. -/
theorem div_bounds (le : x.abs ≤ top) : -1.0 ≤ x / top ∧ x / top ≤ 1.0 := by
  obtain ⟨above, below⟩ := div_le_one positive finite le
  have one : AtLeastZero (1.0 : Float32).toModel.unpack := keeps_one.atLeastZero
  have opposite : (-1.0 : Float32).toModel.unpack = (1.0 : Float32).toModel.unpack.neg := rfl
  rw [le_single_iff, le_single_iff, opposite]
  rcases unpack_div_cases x top with same | other
  · rw [same]
    exact ⟨one.neg_le above, below⟩
  · rw [other]
    exact ⟨above.neg_le_neg one below, above.neg_le one⟩

/-- A number is divided by its magnitude to one with its sign. -/
theorem abs_div_of_abs_eq (same : x.abs = top) : (x / top).abs = 1.0 := by
  obtain ⟨mantissa, exponent, pos, unpacked⟩ := unpack_of_pos_of_finite positive finite
  have le : x.abs ≤ top := by
    rw [same, le_single_iff, unpacked]
    exact (AtLeastZero.finite mantissa exponent pos).le_refl
  obtain ⟨above, below⟩ := div_le_one positive finite le
  have kept : Kept .binary32 mantissa exponent := kept_unpack unpacked
  have beyond : (1.0 : Float32).toModel.unpack.le (x.abs / top).toModel.unpack = true := by
    have value : (mantissa * 2 ^ exponent : ℚ) ≠ 0 :=
      mul_ne_zero (Nat.cast_ne_zero.mpr pos.ne') (zpow_ne_zero _ two_ne_zero)
    have rounds : Rounds .binary32 (mantissa * 2 ^ exponent / (mantissa * 2 ^ exponent)) _ :=
      (Keeps.finite kept).rounds_div pos
    rw [div_self value] at rounds
    rw [unpack_div, same, unpacked, ← unpack_pack_single 1.0]
    exact keeps_one.rounds.le (by decide) rounds le_rfl
  have one := above.antisymm keeps_one.atLeastZero below beyond
  refine eq_of_unpack ?_
  rw [unpack_abs]
  rcases unpack_div_cases x top with quotient | quotient <;> rw [quotient, one] <;> rfl

end Division

theorem isNaN_div (not_number : x.isNaN = true) : (x / top).isNaN = true := by
  rw [isNaN_single_iff] at not_number ⊢
  have quotient (b : UnpackedFloat) : UnpackedFloat.div .binary32 .notANumber b = .notANumber := by
    cases b <;> rfl
  rw [unpack_div, not_number, quotient]
  exact unpack_packedNaN

end Singles

end Patchbay.Number
