/-!
# Samples

The arithmetic that waves are made with, so that one definition of a wave can be run with
singles and reasoned about over exact numbers.
-/
namespace Patchbay

/-- Numbers that can be the samples of a wave. -/
class Sample (α : Type) extends Zero α, Add α, Sub α, Mul α, Div α, Neg α, LT α, BEq α where
  half : α
  abs : α → α
  isFinite : α → Bool
  decLT : DecidableLT α

instance Sample.decidableLT {α : Type} [Sample α] : DecidableLT α := Sample.decLT

instance Sample.single : Sample Float32 where
  zero := 0.0
  half := 0.5
  abs := Float32.abs
  isFinite := Float32.isFinite
  decLT := inferInstance

end Patchbay
