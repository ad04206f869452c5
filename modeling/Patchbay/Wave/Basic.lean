import Patchbay.Wave.Sample

/-!
# Waves

A wave is one period of a sound as a table of samples.
-/
namespace Patchbay

/-- One period of a sound. -/
structure Wave (α : Type) where
  table : Array α
  deriving Repr

namespace Wave

variable {α : Type} [Sample α]

/-- The wave of a single zero, used where there is no spectrum at all. -/
def silent : Wave α :=
  ⟨#[0]⟩

/-- The number of samples in one period. -/
def size (wave : Wave α) : Nat :=
  wave.table.size

/-- Is the table without samples? -/
def isEmpty (wave : Wave α) : Bool :=
  wave.table.isEmpty

/-- Is every sample zero? -/
def isSilent (wave : Wave α) : Bool :=
  wave.table.all (· == 0)

@[simp] theorem size_silent : (silent : Wave α).size = 1 := rfl

end Wave

end Patchbay
