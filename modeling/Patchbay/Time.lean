import Patchbay.Number.Width

/-!
# Time

The arithmetic of times in seconds, so that the same rules can be run with doubles and
reasoned about over exact numbers.
-/
namespace Patchbay

/-- Numbers that can measure time in seconds. -/
class TimeAxis (τ : Type) extends Zero τ, Add τ, Sub τ, LE τ, LT τ where
  /-- How long a number of frames lasts at a sample rate. -/
  ofFrames : UInt64 → Float32 → τ
  decLE : DecidableLE τ
  decLT : DecidableLT τ

instance TimeAxis.decidableLE {τ : Type} [TimeAxis τ] : DecidableLE τ := TimeAxis.decLE

instance TimeAxis.decidableLT {τ : Type} [TimeAxis τ] : DecidableLT τ := TimeAxis.decLT

instance TimeAxis.double : TimeAxis Float where
  zero := 0.0
  ofFrames frames rate := frames.toFloat / Number.widen rate
  decLE := inferInstance
  decLT := inferInstance

namespace TimeAxis

/-- The time itself if it is positive, else zero. -/
def atLeastZero {τ : Type} [TimeAxis τ] (time : τ) : τ :=
  if 0 < time then time else 0

end TimeAxis

end Patchbay
