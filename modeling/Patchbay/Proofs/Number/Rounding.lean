import Patchbay.Proofs.Number.Durations

/-!
# Rounding keeps the order

A number is cut off after the places that a format has, and of the places behind them two bits are
kept, which tell how the rest compares with a half. These decide what the number is rounded to, so
that a larger number is never rounded to a smaller one. Times that are read off a clock keep the
order of its frames therefore.
-/
namespace Patchbay.Number

open Float.Model
open UnpackedFloat hiding pack unpack round

variable {format : Format}

/-! ### What two bits tell -/

/-- A mantissa with its two bits tells of a number: behind the mantissa there is nothing, less than
a half, a half, or more. -/
def Tells : ExtendedMantissa → ℚ → Prop
  | ⟨mantissa, false, false⟩, x => x = mantissa
  | ⟨mantissa, false, true⟩, x => mantissa < x ∧ x < mantissa + 1 / 2
  | ⟨mantissa, true, false⟩, x => x = mantissa + 1 / 2
  | ⟨mantissa, true, true⟩, x => mantissa + 1 / 2 < x ∧ x < mantissa + 1

namespace Tells

variable {extended other : ExtendedMantissa} {x y : ℚ}

theorem bounds (tells : Tells extended x) :
    (extended.mantissa : ℚ) ≤ x ∧ x < extended.mantissa + 1 := by
  obtain ⟨mantissa, roundBit, stickyBit⟩ := extended
  cases roundBit <;> cases stickyBit <;> simp only [Tells] at tells <;> constructor <;> linarith

theorem shiftRightOne (tells : Tells extended x) : Tells extended.shiftRightOne (x / 2) := by
  obtain ⟨mantissa, roundBit, stickyBit⟩ := extended
  have half : ((mantissa / 2 : Nat) : ℚ) * 2 + (mantissa % 2 : Nat) = mantissa := by
    exact_mod_cast Nat.div_add_mod' mantissa 2
  rw [ExtendedMantissa.shiftRightOne]
  dsimp only
  generalize mantissa / 2 = quotient at half ⊢
  -- the last place of the mantissa becomes the first bit behind it
  rcases Nat.mod_two_eq_zero_or_one mantissa with even | odd
  · have bit : ((0 : Nat) != 0) = false := rfl
    rw [even] at half ⊢
    rw [bit]
    cases roundBit <;> cases stickyBit <;>
      simp only [Tells, Bool.or_true, Bool.or_false, Nat.cast_zero] at tells half ⊢ <;>
      first | linarith | constructor <;> linarith
  · have bit : ((1 : Nat) != 0) = true := rfl
    rw [odd] at half ⊢
    rw [bit]
    cases roundBit <;> cases stickyBit <;>
      simp only [Tells, Bool.or_true, Bool.or_false, Nat.cast_one] at tells half ⊢ <;>
      first | linarith | constructor <;> linarith

theorem shiftRight (tells : Tells extended x) (places : Nat) :
    Tells (extended >>> places) (x / 2 ^ places) := by
  induction places with
  | zero =>
    rw [pow_zero, div_one]
    exact tells
  | succ places ih =>
    rw [shiftRight_succ, pow_succ, ← div_div]
    exact ih.shiftRightOne

/-- Of two numbers the larger one is not rounded to a smaller mantissa. -/
theorem rounded_le (tells : Tells extended x) (tells' : Tells other y) (le : x ≤ y) :
    extended.roundedMantissa ≤ other.roundedMantissa := by
  have low := tells.bounds
  have high := tells'.bounds
  have ⟨_, up⟩ := roundedMantissa_bounds extended
  have ⟨down, _⟩ := roundedMantissa_bounds other
  have ordered : extended.mantissa ≤ other.mantissa := by
    have : (extended.mantissa : ℚ) < other.mantissa + 1 := by linarith
    exact Nat.lt_succ_iff.mp (by exact_mod_cast this)
  rcases Nat.lt_or_eq_of_le ordered with less | same
  · omega
  · -- the same mantissa: what is behind it decides
    obtain ⟨mantissa, roundBit, stickyBit⟩ := extended
    obtain ⟨mantissa', roundBit', stickyBit'⟩ := other
    subst same
    cases roundBit <;> cases stickyBit <;> cases roundBit' <;> cases stickyBit' <;>
      simp only [Tells, ExtendedMantissa.roundedMantissa, ExtendedMantissa.accuracy,
        Accuracy.roundToNearestEven] at tells tells' ⊢ <;>
      first | omega | exfalso; linarith

theorem ofMantissa (mantissa : Nat) :
    Tells (.ofMantissaAndAccuracy mantissa .exact) mantissa :=
  rfl

end Tells

/-! ### Numbers that are cut off -/

/-- A number is cut off at a power of two: a full mantissa is left of it, or the power is the
least. -/
structure Cut (format : Format) (x : ℚ) (extended : ExtendedMantissa) (power : Int) : Prop where
  least : format.minExponent ≤ power
  fits : extended.mantissa < 2 ^ format.mantissaBits
  full : 2 ^ format.mantissaBitsWithoutImplicit ≤ extended.mantissa ∨ power = format.minExponent
  tells : Tells extended (x / 2 ^ power)

variable {x y : ℚ} {extended other : ExtendedMantissa} {power power' : Int}

/-- What a number becomes that is cut off there. -/
def rounded (extended : ExtendedMantissa) (power : Int) : ℚ :=
  extended.roundedMantissa * 2 ^ power

/-- The next power of two begins where the mantissas of a smaller one end. -/
theorem two_pow_step (less : power < power') :
    (2 : ℚ) ^ format.mantissaBits * 2 ^ power ≤
      2 ^ format.mantissaBitsWithoutImplicit * 2 ^ power' := by
  have double : (2 : ℚ) ^ format.mantissaBits = 2 ^ format.mantissaBitsWithoutImplicit * 2 := by
    rw [Format.mantissaBits, Nat.add_comm, pow_succ]
  rw [double, mul_assoc, mul_comm (2 : ℚ) (2 ^ power), ← zpow_add_one₀ two_ne_zero]
  exact mul_le_mul_of_nonneg_left (zpow_le_zpow_right₀ one_le_two less) (by positivity)

namespace Cut

theorem bounds (cut : Cut format x extended power) :
    extended.mantissa * 2 ^ power ≤ x ∧ x < (extended.mantissa + 1) * 2 ^ power := by
  have positive : (0 : ℚ) < 2 ^ power := zpow_pos two_pos power
  obtain ⟨low, high⟩ := cut.tells.bounds
  exact ⟨(le_div_iff₀ positive).mp low, (div_lt_iff₀ positive).mp high⟩

theorem lt (cut : Cut format x extended power) :
    x < 2 ^ format.mantissaBits * 2 ^ power := by
  refine cut.bounds.2.trans_le (mul_le_mul_of_nonneg_right ?_ (zpow_pos two_pos power).le)
  exact_mod_cast cut.fits

theorem rounded_le_two_pow (cut : Cut format x extended power) :
    rounded extended power ≤ 2 ^ format.mantissaBits * 2 ^ power := by
  refine mul_le_mul_of_nonneg_right ?_ (zpow_pos two_pos power).le
  exact_mod_cast (roundedMantissa_bounds extended).2.trans cut.fits

/-- Where the power is not the least, the mantissa is full. -/
theorem two_pow_le (cut : Cut format x extended power) (above : power ≠ format.minExponent) :
    2 ^ format.mantissaBitsWithoutImplicit * 2 ^ power ≤ x ∧
      2 ^ format.mantissaBitsWithoutImplicit * 2 ^ power ≤ rounded extended power := by
  have full := cut.full.resolve_right above
  have positive : (0 : ℚ) ≤ 2 ^ power := (zpow_pos two_pos power).le
  constructor
  · refine le_trans (mul_le_mul_of_nonneg_right ?_ positive) cut.bounds.1
    exact_mod_cast full
  · refine mul_le_mul_of_nonneg_right ?_ positive
    exact_mod_cast full.trans (roundedMantissa_bounds extended).1

/-- Rounding keeps the order. -/
theorem rounded_le (cut : Cut format x extended power) (cut' : Cut format y other power')
    (le : x ≤ y) : rounded extended power ≤ rounded other power' := by
  rcases lt_trichotomy power power' with less | rfl | greater
  · calc rounded extended power
        ≤ 2 ^ format.mantissaBits * 2 ^ power := cut.rounded_le_two_pow
      _ ≤ 2 ^ format.mantissaBitsWithoutImplicit * 2 ^ power' := two_pow_step less
      _ ≤ rounded other power' := (cut'.two_pow_le (cut.least.trans_lt less).ne').2
  · have positive : (0 : ℚ) < 2 ^ power := zpow_pos two_pos power
    refine mul_le_mul_of_nonneg_right ?_ positive.le
    exact_mod_cast cut.tells.rounded_le cut'.tells (div_le_div_of_nonneg_right le positive.le)
  · have beyond : y < x :=
      calc y < 2 ^ format.mantissaBits * 2 ^ power' := cut'.lt
        _ ≤ 2 ^ format.mantissaBitsWithoutImplicit * 2 ^ power := two_pow_step greater
        _ ≤ x := (cut.two_pow_le (cut'.least.trans_lt greater).ne').1
    exact absurd le beyond.not_ge

end Cut

/-! ### Numbers that are kept -/

/-- A format keeps a number that is zero or above it. -/
inductive Keeps (format : Format) : UnpackedFloat → ℚ → Prop where
  | zero : Keeps format (.zero .positive) 0
  | finite {mantissa : Nat} {exponent : Int} (kept : Kept format mantissa exponent) :
    Keeps format (.finite .positive mantissa exponent kept.pos) (mantissa * 2 ^ exponent)

/-- What is unpacked and above zero is kept. -/
theorem keeps_unpack {word : BitVec format.numBits} {mantissa : Nat} {exponent : Int} {pos}
    (unpacked : UnpackedFloat.unpack format word = .finite .positive mantissa exponent pos) :
    Keeps format (UnpackedFloat.unpack format word) (mantissa * 2 ^ exponent) := by
  rw [unpacked]
  exact .finite (kept_unpack unpacked)

/-- A number that is kept is cut off where it ends. -/
theorem Kept.cut {mantissa : Nat} {exponent : Int} (kept : Kept format mantissa exponent) :
    Cut format (mantissa * 2 ^ exponent) (.ofMantissaAndAccuracy mantissa .exact) exponent where
  least := kept.least
  fits := kept.fits
  full := kept.full
  tells := by
    rw [mul_div_cancel_right₀ _ (zpow_pos two_pos exponent).ne']
    exact .ofMantissa mantissa

theorem Keeps.atLeastZero {a : UnpackedFloat} (keeps : Keeps format a x) : AtLeastZero a := by
  cases keeps <;> constructor

/-- The order of a finite number and another one is told by their exponents first. -/
theorem le_finite_iff {mantissa mantissa' : Nat} {exponent exponent' : Int} {pos pos'} :
    (UnpackedFloat.finite .positive mantissa exponent pos).le
        (.finite .positive mantissa' exponent' pos') = true ↔
      exponent < exponent' ∨ exponent = exponent' ∧ mantissa ≤ mantissa' := by
  show ((compare exponent exponent').then (compare mantissa mantissa')).isLE = true ↔ _
  rcases lt_trichotomy exponent exponent' with less | rfl | greater
  · simp [compare_lt_iff_lt.mpr less, less]
  · simp [Nat.isLE_compare]
  · simp [compare_gt_iff_gt.mpr greater, greater.not_gt, greater.ne']

/-- Of numbers that are kept, the larger one has the larger exponent, or the larger mantissa at the
same exponent. -/
theorem Kept.order {mantissa mantissa' : Nat} {exponent exponent' : Int}
    (kept : Kept format mantissa exponent) (kept' : Kept format mantissa' exponent')
    (le : (mantissa * 2 ^ exponent : ℚ) ≤ mantissa' * 2 ^ exponent') :
    exponent < exponent' ∨ exponent = exponent' ∧ mantissa ≤ mantissa' := by
  rcases lt_trichotomy exponent exponent' with less | rfl | greater
  · exact .inl less
  · refine .inr ⟨rfl, ?_⟩
    exact_mod_cast le_of_mul_le_mul_right le (zpow_pos two_pos exponent)
  · have beyond : (mantissa' * 2 ^ exponent' : ℚ) < mantissa * 2 ^ exponent :=
      calc (mantissa' * 2 ^ exponent' : ℚ) < 2 ^ format.mantissaBits * 2 ^ exponent' := kept'.cut.lt
        _ ≤ 2 ^ format.mantissaBitsWithoutImplicit * 2 ^ exponent := two_pow_step greater
        _ ≤ mantissa * 2 ^ exponent := (kept.cut.two_pow_le (kept'.least.trans_lt greater).ne').1
    exact absurd le beyond.not_ge

namespace Keeps

variable {a b : UnpackedFloat}

/-- Packing keeps the order. -/
theorem le (wide : 1 < format.exponentBits) (keeps : Keeps format a x) (keeps' : Keeps format b y)
    (ordered : x ≤ y) :
    (UnpackedFloat.unpack format (UnpackedFloat.pack format a)).le
      (UnpackedFloat.unpack format (UnpackedFloat.pack format b)) = true := by
  cases keeps with
  | zero =>
    rw [UnpackedFloat.pack, UnpackedFloat.unpack_packedZero]
    exact keeps'.atLeastZero.unpack_pack.zero_le
  | @finite mantissa exponent kept =>
    cases keeps' with
    | zero =>
      have positive : (0 : ℚ) < mantissa * 2 ^ exponent :=
        mul_pos (Nat.cast_pos.mpr kept.pos) (zpow_pos two_pos exponent)
      exact absurd ordered positive.not_ge
    | @finite mantissa' exponent' kept' =>
      have order := kept.order kept' ordered
      by_cases large : maxExponent format < exponent'
      · rw [unpack_pack_of_lt large]
        exact (Keeps.finite kept).atLeastZero.unpack_pack.le_infinity
      · rw [unpack_pack wide kept (by omega), unpack_pack wide kept' (by omega)]
        exact le_finite_iff.mpr order

end Keeps

/-! ### Operations that round -/

/-- An operation gives what a number is rounded to. -/
def Rounds (format : Format) (x : ℚ) (a : UnpackedFloat) : Prop :=
  ∃ extended power, Cut format x extended power ∧ Keeps format a (rounded extended power)

variable {a b : UnpackedFloat}

theorem Rounds.le (wide : 1 < format.exponentBits) (rounds : Rounds format x a)
    (rounds' : Rounds format y b) (ordered : x ≤ y) :
    (UnpackedFloat.unpack format (UnpackedFloat.pack format a)).le
      (UnpackedFloat.unpack format (UnpackedFloat.pack format b)) = true := by
  obtain ⟨_, _, cut, keeps⟩ := rounds
  obtain ⟨_, _, cut', keeps'⟩ := rounds'
  exact keeps.le wide keeps' (cut.rounded_le cut' ordered)

/-- What is kept is rounded to itself. -/
theorem Keeps.rounds (keeps : Keeps format a x) : Rounds format x a := by
  cases keeps with
  | zero =>
    refine ⟨.ofMantissaAndAccuracy 0 .exact, format.minExponent,
      ⟨le_rfl, Nat.two_pow_pos _, .inr rfl, ?_⟩, ?_⟩
    · rw [zero_div]
      exact Nat.cast_zero.symm
    · have nothing : rounded (.ofMantissaAndAccuracy 0 .exact) format.minExponent = 0 := by
        rw [rounded]
        exact (congrArg (· * _) Nat.cast_zero).trans (zero_mul _)
      rw [nothing]
      exact .zero
  | finite kept => exact ⟨_, _, kept.cut, .finite kept⟩

theorem ofMantissaAndAccuracy_mantissa (mantissa : Nat) (accuracy : Accuracy) :
    (ExtendedMantissa.ofMantissaAndAccuracy mantissa accuracy).mantissa = mantissa := by
  rcases accuracy with _ | (_ | _ | _) <;> rfl

/-- A mantissa that is long enough, or has the least exponent, is cut off at its power. -/
theorem cut_shifted {mantissa : Nat} {exponent : Int} {accuracy : Accuracy}
    (tells : Tells (.ofMantissaAndAccuracy mantissa accuracy) x)
    (full : 2 ^ format.mantissaBitsWithoutImplicit ≤ mantissa ∨ exponent ≤ format.minExponent) :
    ∃ extended power, shiftToTargetExponent format mantissa exponent accuracy = (extended, power) ∧
      Cut format (x * 2 ^ exponent) extended power := by
  have bits : format.mantissaBits = format.mantissaBitsWithoutImplicit + 1 := Nat.add_comm _ _
  have target : format.targetExponent (totalExponent mantissa exponent) =
      max (mantissa.log2 + 1 + exponent - format.mantissaBits) format.minExponent := rfl
  have long (full : 2 ^ format.mantissaBitsWithoutImplicit ≤ mantissa) :
      format.mantissaBitsWithoutImplicit ≤ mantissa.log2 := by
    have positive := Nat.two_pow_pos format.mantissaBitsWithoutImplicit
    exact (Nat.le_log2 (by omega)).mpr full
  obtain ⟨places, is_places⟩ : ∃ places : Nat,
      format.targetExponent (totalExponent mantissa exponent) = exponent + places := by
    refine ⟨(format.targetExponent (totalExponent mantissa exponent) - exponent).toNat, ?_⟩
    rcases full with full | least
    · have := long full
      omega
    · omega
  have amount : (exponent + places - exponent).toNat = places := by omega
  obtain ⟨extended, is_extended⟩ : ∃ extended, extended =
      (ExtendedMantissa.ofMantissaAndAccuracy mantissa accuracy) >>> places := ⟨_, rfl⟩
  have quotient : extended.mantissa = mantissa / 2 ^ places := by
    rw [is_extended, mantissa_shiftRight, ofMantissaAndAccuracy_mantissa]
  refine ⟨extended, exponent + places, ?_, ?_⟩
  · rw [shiftToTargetExponent, shiftToExponent, is_places, amount, is_extended]
  constructor
  case least => omega
  case fits =>
    rw [quotient, Nat.div_lt_iff_lt_mul (Nat.two_pow_pos _), ← Nat.pow_add]
    exact Nat.lt_log2_self.trans_le (Nat.pow_le_pow_right two_pos (by omega))
  case full =>
    by_cases least : exponent + places = format.minExponent
    · exact .inr least
    · left
      have some_left : mantissa ≠ 0 := by
        rintro rfl
        rw [Nat.log2_zero] at target
        have := Nat.two_pow_pos format.mantissaBitsWithoutImplicit
        omega
      rw [quotient, Nat.le_div_iff_mul_le (Nat.two_pow_pos _), ← Nat.pow_add]
      exact (Nat.pow_le_pow_right two_pos (by omega)).trans (Nat.log2_self_le some_left)
  case tells =>
    have same : x * 2 ^ exponent / 2 ^ (exponent + places) = x / 2 ^ places := by
      rw [zpow_add₀ two_ne_zero, zpow_natCast, mul_comm x, mul_div_mul_left]
      exact (zpow_pos two_pos exponent).ne'
    rw [same, is_extended]
    exact tells.shiftRight places

/-- What is left of a mantissa is rounded as the number that it tells of. -/
theorem rounds_roundWithAccuracy {mantissa : Nat} {exponent : Int} {accuracy : Accuracy}
    (tells : Tells (.ofMantissaAndAccuracy mantissa accuracy) x)
    (full : 2 ^ format.mantissaBitsWithoutImplicit ≤ mantissa ∨ exponent ≤ format.minExponent) :
    Rounds format (x * 2 ^ exponent)
      (roundWithAccuracy format .positive mantissa exponent accuracy) := by
  obtain ⟨extended, power, shifted, cut⟩ := cut_shifted tells full
  refine ⟨extended, power, cut, ?_⟩
  have bits : format.mantissaBits = format.mantissaBitsWithoutImplicit + 1 := Nat.add_comm _ _
  have positive := Nat.two_pow_pos format.mantissaBitsWithoutImplicit
  have ⟨up, down⟩ := roundedMantissa_bounds extended
  have fits := cut.fits
  rcases Nat.eq_zero_or_pos extended.roundedMantissa with none_left | some_left
  · -- all places are cut off
    have nothing : rounded extended power = 0 := by rw [rounded, none_left, Nat.cast_zero, zero_mul]
    have zero : roundWithAccuracy format .positive mantissa exponent accuracy =
        .zero .positive := by
      unfold roundWithAccuracy
      rw [shifted]
      simp only [none_left]
      rw [dif_pos]
      rw [shiftToTargetExponent, shiftToExponent, mantissa_shiftRight,
        ofMantissaAndAccuracy_mantissa, Nat.zero_div]
    rw [nothing, zero]
    exact .zero
  · rcases Nat.lt_or_eq_of_le (Nat.le_trans down fits) with inside | carried
    · have kept : Kept format extended.roundedMantissa power :=
        ⟨some_left, inside, cut.least, cut.full.imp_left up.trans'⟩
      rw [kept.roundWithAccuracy_of_shifted 0 .positive (by simpa using shifted) (by simp)]
      exact .finite kept
    · have double := Nat.pow_succ (n := 2) (m := format.mantissaBitsWithoutImplicit)
      have kept : Kept format (2 ^ format.mantissaBitsWithoutImplicit) (power + 1) :=
        ⟨positive, by rw [bits]; omega, by have := cut.least; omega, .inl le_rfl⟩
      have value : rounded extended power =
          (2 ^ format.mantissaBitsWithoutImplicit : Nat) * 2 ^ (power + 1) := by
        rw [rounded, carried, bits, zpow_add_one₀ two_ne_zero]
        push_cast
        ring
      rw [value, kept.roundWithAccuracy_of_shifted 1 .positive (by simpa using shifted)
        (by rw [carried, bits, Nat.pow_succ, Nat.pow_one])]
      exact .finite kept

/-- Where a mantissa is short, room is made for a full one first. The number is rounded the same. -/
theorem rounds_round {mantissa : Nat} (pos : 0 < mantissa) (exponent : Int) :
    Rounds format (mantissa * 2 ^ exponent)
      (UnpackedFloat.round format .positive mantissa exponent) := by
  have bits : format.mantissaBits = format.mantissaBitsWithoutImplicit + 1 := Nat.add_comm _ _
  have target : format.targetExponent (totalExponent mantissa exponent) =
      max (mantissa.log2 + 1 + exponent - format.mantissaBits) format.minExponent := rfl
  -- zeros are put behind a short mantissa
  obtain ⟨places, is_places⟩ : ∃ places : Nat, places =
      (exponent - format.targetExponent (totalExponent mantissa exponent)).toNat := ⟨_, rfl⟩
  have scaled : 0 < mantissa * 2 ^ places := Nat.mul_pos pos (Nat.two_pow_pos _)
  have log2 := log2_mul_two_pow pos places
  have full : 2 ^ format.mantissaBitsWithoutImplicit ≤ mantissa * 2 ^ places ∨
      exponent - places ≤ format.minExponent := by
    by_cases least : exponent - places ≤ format.minExponent
    · exact .inr least
    · exact .inl ((Nat.le_log2 scaled.ne').mp (by omega))
  have value : ((mantissa * 2 ^ places : Nat) : ℚ) * 2 ^ (exponent - places) =
      mantissa * 2 ^ exponent := by
    rw [zpow_sub₀ two_ne_zero, zpow_natCast]
    push_cast
    field_simp
  have rounds := rounds_roundWithAccuracy (.ofMantissa (mantissa * 2 ^ places)) full
  rw [value] at rounds
  rw [UnpackedFloat.round, decreaseExponent, ← is_places, Nat.shiftLeft_eq]
  exact rounds

/-! ### Quotients -/

/-- The accuracy of a quotient tells how its rest compares with half of the divisor. -/
theorem tells_fraction (dividend : Nat) {divisor : Nat} (pos : 0 < divisor) :
    Tells (.ofMantissaAndAccuracy (dividend / divisor)
      (accuracyOfFraction (dividend % divisor) divisor)) (dividend / divisor) := by
  have positive : (0 : ℚ) < divisor := Nat.cast_pos.mpr pos
  have split : ((dividend / divisor : Nat) : ℚ) * divisor + (dividend % divisor : Nat) =
      dividend := by exact_mod_cast Nat.div_add_mod' dividend divisor
  have below : ((dividend % divisor : Nat) : ℚ) < divisor := by
    exact_mod_cast Nat.mod_lt dividend pos
  generalize dividend / divisor = quotient at split ⊢
  generalize dividend % divisor = rest at split below ⊢
  rw [accuracyOfFraction]
  split
  · rename_i none_left
    rw [none_left, Nat.cast_zero, add_zero] at split
    show (dividend / divisor : ℚ) = quotient
    rw [← split, mul_div_cancel_right₀ _ positive.ne']
  · rename_i some_left
    have above : (0 : ℚ) < rest := Nat.cast_pos.mpr (Nat.pos_of_ne_zero some_left)
    have value : (dividend / divisor : ℚ) = quotient + rest / divisor := by
      rw [← split, add_div, mul_div_cancel_right₀ _ positive.ne']
    rw [value]
    rcases lt_trichotomy (2 * rest) divisor with less | same | greater
    · have under : (2 * rest : ℚ) < divisor := by exact_mod_cast less
      rw [compare_lt_iff_lt.mpr less]
      have half : (rest / divisor : ℚ) < 1 / 2 := by rw [div_lt_div_iff₀ positive two_pos]; linarith
      have some_part : (0 : ℚ) < rest / divisor := div_pos above positive
      exact ⟨by linarith, by linarith⟩
    · have equal : (2 * rest : ℚ) = divisor := by exact_mod_cast same
      rw [compare_eq_iff_eq.mpr same]
      show (quotient + rest / divisor : ℚ) = quotient + 1 / 2
      rw [← equal, div_mul_cancel_right₀ above.ne', one_div]
    · have beyond : (divisor : ℚ) < 2 * rest := by exact_mod_cast greater
      rw [compare_gt_iff_gt.mpr greater]
      have half : (1 / 2 : ℚ) < rest / divisor := by rw [div_lt_div_iff₀ two_pos positive]; linarith
      have part : (rest / divisor : ℚ) < 1 := (div_lt_one positive).mpr below
      exact ⟨by linarith, by linarith⟩

/-- A quotient is what the exact quotient is rounded to. -/
theorem Keeps.rounds_div {x : ℚ} {mantissa : Nat} {exponent : Int} (keeps : Keeps format a x)
    (pos : 0 < mantissa) :
    Rounds format (x / (mantissa * 2 ^ exponent))
      (UnpackedFloat.div format a (.finite .positive mantissa exponent pos)) := by
  cases keeps with
  | zero =>
    rw [zero_div]
    exact Keeps.zero.rounds
  | @finite dividend power kept =>
    have bits : format.mantissaBits = format.mantissaBitsWithoutImplicit + 1 := Nat.add_comm _ _
    obtain ⟨target, is_target⟩ : ∃ target, target = min (power - exponent)
        (format.targetExponent (totalExponent dividend power - totalExponent mantissa exponent)) :=
      ⟨_, rfl⟩
    have bound : format.targetExponent (totalExponent dividend power -
        totalExponent mantissa exponent) = max (((dividend.log2 + 1 + power : Int) -
          (mantissa.log2 + 1 + exponent)) - format.mantissaBits) format.minExponent := rfl
    obtain ⟨places, is_places⟩ : ∃ places : Nat, places = (power - exponent - target).toNat :=
      ⟨_, rfl⟩
    have full : 2 ^ format.mantissaBitsWithoutImplicit ≤ dividend * 2 ^ places / mantissa ∨
        target ≤ format.minExponent := by
      by_cases least : target ≤ format.minExponent
      · exact .inr least
      · left
        have enough : format.mantissaBits + mantissa.log2 ≤ dividend.log2 + places := by omega
        rw [Nat.le_div_iff_mul_le pos]
        calc 2 ^ format.mantissaBitsWithoutImplicit * mantissa
            ≤ 2 ^ format.mantissaBitsWithoutImplicit * 2 ^ (mantissa.log2 + 1) :=
              Nat.mul_le_mul_left _ Nat.lt_log2_self.le
          _ = 2 ^ (format.mantissaBits + mantissa.log2) := by
              rw [← Nat.pow_add]
              congr 1
              omega
          _ ≤ 2 ^ (dividend.log2 + places) := Nat.pow_le_pow_right two_pos enough
          _ ≤ dividend * 2 ^ places := by
              rw [Nat.pow_add]
              exact Nat.mul_le_mul_right _ (Nat.log2_self_le kept.pos.ne')
    have rounds := rounds_roundWithAccuracy (tells_fraction (dividend * 2 ^ places) pos) full
    have value : ((dividend * 2 ^ places : Nat) / mantissa : ℚ) * 2 ^ target =
        dividend * 2 ^ power / (mantissa * 2 ^ exponent) := by
      have exponents : power = exponent + (places + target) := by omega
      have positive : (0 : ℚ) < mantissa := Nat.cast_pos.mpr pos
      rw [exponents, zpow_add₀ two_ne_zero, zpow_add₀ two_ne_zero, zpow_natCast]
      push_cast
      field_simp
    rw [value] at rounds
    simp only [UnpackedFloat.div, divCore, ← is_target, ← is_places, Nat.shiftLeft_eq]
    exact rounds

/-! ### Sums -/

/-- A sum of finite numbers is what the exact sum is rounded to. -/
theorem Kept.rounds_add {mantissa mantissa' : Nat} {exponent exponent' : Int}
    (kept : Kept format mantissa exponent) (pos : 0 < mantissa') :
    Rounds format (mantissa * 2 ^ exponent + mantissa' * 2 ^ exponent')
      (UnpackedFloat.add format (.finite .positive mantissa exponent kept.pos)
        (.finite .positive mantissa' exponent' pos)) := by
  obtain ⟨least, is_least⟩ : ∃ least, least = min exponent exponent' := ⟨_, rfl⟩
  obtain ⟨places, is_places⟩ : ∃ places : Nat, exponent = least + places :=
    ⟨(exponent - least).toNat, by omega⟩
  obtain ⟨places', is_places'⟩ : ∃ places : Nat, exponent' = least + places :=
    ⟨(exponent' - least).toNat, by omega⟩
  have some_left : 0 < mantissa * 2 ^ places + mantissa' * 2 ^ places' :=
    Nat.add_pos_left (Nat.mul_pos kept.pos (Nat.two_pow_pos _)) _
  have value : ((mantissa * 2 ^ places + mantissa' * 2 ^ places' : Nat) : ℚ) * 2 ^ least =
      mantissa * 2 ^ exponent + mantissa' * 2 ^ exponent' := by
    rw [is_places, is_places', zpow_add₀ two_ne_zero, zpow_add₀ two_ne_zero, zpow_natCast,
      zpow_natCast]
    push_cast
    ring
  have rounds : Rounds format _ (.round format .positive _ least) := rounds_round some_left least
  rw [value, ← scaled_of_pos some_left] at rounds
  have amount : (exponent - least).toNat = places := by omega
  have amount' : (exponent' - least).toNat = places' := by omega
  have sum : UnpackedFloat.add format (.finite .positive mantissa exponent kept.pos)
      (.finite .positive mantissa' exponent' pos) =
        scaled format (mantissa * 2 ^ places + mantissa' * 2 ^ places') least := by
    simp only [UnpackedFloat.add, decreaseExponent, ← is_least, amount, amount', Nat.shiftLeft_eq,
      UnpackedFloat.Sign.apply]
    rw [scaled, Nat.cast_add]
  rw [sum]
  exact rounds

/-- To add something to a number that is kept does not make it smaller. -/
theorem Keeps.le_add (wide : 1 < format.exponentBits) {x : ℚ} (keeps : Keeps format a x)
    (more : AtLeastZero b) :
    (UnpackedFloat.unpack format (UnpackedFloat.pack format a)).le (UnpackedFloat.unpack format
      (UnpackedFloat.pack format (UnpackedFloat.add format a b))) = true := by
  cases more with
  | zero =>
    have same : UnpackedFloat.add format a (.zero .positive) = a := by cases keeps <;> rfl
    rw [same]
    exact keeps.le wide keeps le_rfl
  | infinity =>
    have infinite : UnpackedFloat.add format a (.infinity .positive) = .infinity .positive := by
      cases keeps <;> rfl
    rw [infinite, UnpackedFloat.pack, unpack_packedInfinity]
    exact keeps.atLeastZero.unpack_pack.le_infinity
  | finite mantissa exponent pos =>
    cases keeps with
    | zero =>
      rw [UnpackedFloat.pack, UnpackedFloat.unpack_packedZero]
      exact (AtLeastZero.finite mantissa exponent pos).unpack_pack.zero_le
    | finite kept =>
      exact (Keeps.finite kept).rounds.le wide (kept.rounds_add pos)
        (le_add_of_nonneg_right (by positivity))

/-! ### Doubles -/

/-- The order goes on to what is not below zero. -/
theorem le_trans_double {x y z : Float} (first : x ≤ y) (second : y ≤ z)
    (above : AtLeastZero y.toModel.unpack) (last : AtLeastZero z.toModel.unpack) : x ≤ z := by
  have first : x.toModel.unpack.le y.toModel.unpack = true := of_decide_eq_true first
  have second : y.toModel.unpack.le z.toModel.unpack = true := of_decide_eq_true second
  refine le_of_unpack ?_
  generalize x.toModel.unpack = a at *
  generalize y.toModel.unpack = b at *
  generalize z.toModel.unpack = c at *
  cases a with
  | notANumber => cases first
  | zero sign => cases last <;> cases sign <;> rfl
  | infinity sign =>
    cases sign with
    | negative => cases last <;> rfl
    | positive =>
      cases above with
      | infinity => cases last <;> first | rfl | cases second
      | zero => cases first
      | finite => cases first
  | finite sign mantissa exponent pos =>
    cases sign with
    | negative => cases last <;> rfl
    | positive =>
      cases above with
      | zero => cases first
      | infinity => cases last <;> first | rfl | cases second
      | finite mantissa' exponent' pos' =>
        cases last with
        | zero => cases second
        | infinity => rfl
        | finite mantissa'' exponent'' pos'' =>
          rw [le_finite_iff] at *
          omega

/-- To add what is not below zero does not make a double smaller. -/
theorem le_add {x y : Float} (first : AtLeastZero x.toModel.unpack)
    (second : AtLeastZero y.toModel.unpack) : x ≤ x + y := by
  have smaller {value : ℚ} (keeps : Keeps .binary64 x.toModel.unpack value) : x ≤ x + y := by
    have le := keeps.le_add (by decide) second
    rw [unpack_pack_double] at le
    exact le_of_unpack le
  cases unpacked : x.toModel.unpack with
  | notANumber => rw [unpacked] at first; cases first
  | zero sign =>
    rw [unpacked] at first
    cases first
    have keeps : Keeps .binary64 x.toModel.unpack 0 := by
      rw [unpacked]
      exact .zero
    exact smaller keeps
  | infinity sign =>
    rw [unpacked] at first
    cases first
    refine le_of_unpack ?_
    have infinite : UnpackedFloat.add .binary64 (.infinity .positive) y.toModel.unpack =
        .infinity .positive := by
      generalize y.toModel.unpack = more at second
      cases second <;> rfl
    rw [unpack_add_double, unpacked, infinite]
    rfl
  | finite sign mantissa exponent pos =>
    rw [unpacked] at first
    cases first
    exact smaller (keeps_unpack unpacked)

theorem AtLeastZero.add_double {x y : Float} (first : AtLeastZero x.toModel.unpack)
    (second : AtLeastZero y.toModel.unpack) : AtLeastZero (x + y).toModel.unpack := by
  rw [unpack_add_double]
  exact (first.add second).unpack_pack

/-- A count of frames is rounded to a double. -/
theorem rounds_toFloat (count : UInt64) :
    Rounds .binary64 count.toNat count.toFloat.toModel.unpack := by
  rcases Nat.eq_zero_or_pos count.toNat with zero | pos
  · have nothing : count.toFloat.toModel.unpack = .zero .positive := by
      rw [unpack_toFloat (by omega), zero, scaled_zero]
    rw [nothing, zero, Nat.cast_zero]
    exact Keeps.zero.rounds
  · have rounds : Rounds .binary64 _ (.round .binary64 .positive _ 0) := rounds_round pos 0
    rw [zpow_zero, mul_one, ← scaled_of_pos pos] at rounds
    have unpacked : count.toFloat.toModel.unpack = UnpackedFloat.unpack .binary64
        (UnpackedFloat.pack .binary64 (scaled .binary64 count.toNat 0)) := rfl
    obtain ⟨extended, power, cut, keeps⟩ := rounds
    refine ⟨extended, power, cut, ?_⟩
    generalize rounded extended power = value at keeps
    generalize scaled .binary64 count.toNat 0 = result at keeps unpacked
    cases keeps with
    | zero =>
      rw [unpacked, UnpackedFloat.pack, UnpackedFloat.unpack_packedZero]
      exact .zero
    | @finite mantissa exponent kept =>
      by_cases small : exponent ≤ maxExponent .binary64
      · rw [unpacked, unpack_pack (by decide) kept small]
        exact .finite kept
      · -- a count is not infinite
        rw [unpack_pack_of_lt (by omega)] at unpacked
        rcases exists_toFloat count with zero | ⟨_, _, _, finite⟩
        · cases unpacked.symm.trans zero
        · cases unpacked.symm.trans finite

section Times

variable {rate : Float32} (pos : 0.0 < rate)

include pos

/-- At a positive rate, more frames do not last for less time. -/
theorem ofFrames_le {frames more : UInt64} (le : frames.toNat ≤ more.toNat) :
    (TimeAxis.ofFrames frames rate : Float) ≤ TimeAxis.ofFrames more rate := by
  obtain ⟨_, _, cut, keeps⟩ := rounds_toFloat frames
  obtain ⟨_, _, cut', keeps'⟩ := rounds_toFloat more
  have ordered := cut.rounded_le cut' (by exact_mod_cast le)
  refine le_of_unpack ?_
  show (frames.toFloat / widen rate).toModel.unpack.le (more.toFloat / widen rate).toModel.unpack
  rw [unpack_div_double, unpack_div_double]
  rcases unpack_of_pos (widen_pos pos) with infinite | ⟨mantissa, exponent, above, finite⟩
  · -- at an infinite rate all times are zero
    have zero {a : UnpackedFloat} {x : ℚ} (keeps : Keeps .binary64 a x) :
        UnpackedFloat.div .binary64 a (.infinity .positive) = .zero .positive := by
      cases keeps <;> rfl
    rw [infinite, zero keeps, zero keeps']
    exact Keeps.zero.le (by decide) .zero le_rfl
  · have positive : (0 : ℚ) < mantissa * 2 ^ exponent :=
      mul_pos (Nat.cast_pos.mpr above) (zpow_pos two_pos exponent)
    rw [finite]
    exact (keeps.rounds_div above).le (by decide) (keeps'.rounds_div above)
      (div_le_div_of_nonneg_right ordered positive.le)

end Times

end Patchbay.Number
