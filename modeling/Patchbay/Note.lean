import Patchbay.Time

/-!
# Notes

A note has a frequency and lasts from one position of the project to another.
-/
namespace Patchbay

/-- A note, at positions in seconds. -/
structure Note (τ : Type) where
  frequency : Float32
  begins : τ
  ends : τ
  deriving Repr, BEq

/-- How long a note lasts. -/
def Note.duration {τ : Type} [TimeAxis τ] (note : Note τ) : τ :=
  note.ends - note.begins

/-- How long to wait, from a position on, for a note to start and to stop. -/
structure Delays (τ : Type) where
  start : τ
  stop : τ
  deriving Repr

/-- The delays of a note at a position. What has passed already is due at once. -/
def Note.delays {τ : Type} [TimeAxis τ] (note : Note τ) (position : τ) : Delays τ where
  start := TimeAxis.atLeastZero (note.begins - position)
  stop := TimeAxis.atLeastZero (note.ends - position)

end Patchbay
