import Mathlib.Algebra.Order.Field.Power
import Mathlib.Algebra.Order.Ring.Unbundled.Rat
import Mathlib.Tactic.Linarith
import Mathlib.Tactic.Positivity
import Patchbay.Time

/-!
# Exact times

Every single that is finite stands for a rational number. Times can be measured with these numbers
too: then nothing is rounded, and sums and differences of times obey the usual laws.
-/
namespace Patchbay

namespace Number

open Float.Model

/-- The exact value of a single. Infinities count as zero, as does what is not a number. -/
def exact (x : Float32) : ℚ :=
  match x.toModel.unpack with
  | .finite .positive mantissa exponent _ => mantissa * 2 ^ exponent
  | .finite .negative mantissa exponent _ => -(mantissa * 2 ^ exponent)
  | _ => 0

theorem exact_nonneg {x : Float32} (positive : 0.0 < x) : 0 ≤ exact x := by
  have above : (UnpackedFloat.zero .positive).lt x.toModel.unpack = true :=
    of_decide_eq_true positive
  unfold exact
  split
  · positivity
  · rename_i negative
    rw [negative] at above
    cases above
  · exact le_refl 0

end Number

/-- Times as exact numbers of seconds. At an infinite sample rate no frame lasts. -/
instance TimeAxis.rational : TimeAxis ℚ where
  ofFrames frames rate := frames.toNat / Number.exact rate
  decLE := inferInstance
  decLT := inferInstance

namespace TimeAxis

theorem ofFrames_mono {rate : Float32} (positive : 0.0 < rate) {frames later : UInt64}
    (le : frames.toNat ≤ later.toNat) : (ofFrames frames rate : ℚ) ≤ ofFrames later rate := by
  have value := Number.exact_nonneg positive
  show (frames.toNat : ℚ) / Number.exact rate ≤ later.toNat / Number.exact rate
  gcongr

theorem ofFrames_nonneg {rate : Float32} (positive : 0.0 < rate) (frames : UInt64) :
    (0 : ℚ) ≤ ofFrames frames rate := by
  have value := Number.exact_nonneg positive
  show (0 : ℚ) ≤ frames.toNat / Number.exact rate
  positivity

/-- From now on, a time that is due at a position of the project has come just when the position is
reached. What was due before has come. -/
theorem add_atLeastZero_le_iff {now location t : ℚ} (reached : now ≤ t) (edge : ℚ) :
    now + atLeastZero (edge - (now - location)) ≤ t ↔ edge ≤ t - location := by
  unfold atLeastZero
  split
  · constructor <;> intro le <;> linarith
  · rename_i passed
    have passed : edge - (now - location) ≤ 0 := not_lt.mp passed
    refine ⟨fun _ => by linarith, fun _ => ?_⟩
    show now + 0 ≤ t
    linarith

end TimeAxis

end Patchbay
