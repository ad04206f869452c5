import Patchbay.Node.Basic

/-!
# Buffers

Each node puts its signal into a buffer of its own, and two more hold what goes into a node
while it is rendered. Buffers are as long as the longest chunk. A shorter chunk leaves what
stands behind it from the chunks before.
-/
namespace Patchbay

/-- The most frames of one chunk. -/
def maxBlockSize : Nat := 2048

/-- Room for the samples of a chunk. -/
structure Buffer where
  samples : List Float32
  length_samples : samples.length = maxBlockSize

namespace Buffer

/-- A buffer of zeros. -/
def blank : Buffer :=
  ⟨List.replicate maxBlockSize 0.0, List.length_replicate⟩

instance : Inhabited Buffer := ⟨blank⟩

/-- The first frames. -/
def first (buffer : Buffer) (n : Nat) : Except Fault (List Float32) :=
  if n ≤ maxBlockSize then .ok (buffer.samples.take n)
  else .error (.bufferTooShort n maxBlockSize)

/-- Lay samples over the beginning. -/
def lay (buffer : Buffer) (samples : List Float32) : Buffer :=
  ⟨Node.overlay samples buffer.samples, by simp [buffer.length_samples]⟩

/-- Silence the first frames. -/
def clear (buffer : Buffer) (n : Nat) : Except Fault Buffer :=
  if n ≤ maxBlockSize then .ok (buffer.lay (List.replicate n 0.0))
  else .error (.bufferTooShort n maxBlockSize)

/-- Add a signal, frame by frame. -/
def mix (buffer : Buffer) (signal : List Float32) : Buffer :=
  buffer.lay (List.zipWith (· + ·) buffer.samples signal)

end Buffer

/-- Where the signals into one node are added up, those to its input and those to its
knob. -/
structure Sums where
  input : Buffer
  modulation : Buffer

namespace Sums

/-- Two buffers of zeros. -/
def blank : Sums :=
  ⟨.blank, .blank⟩

/-- Silence the first frames of both. -/
def clear (sums : Sums) (n : Nat) : Except Fault Sums := do
  let input ← sums.input.clear n
  let modulation ← sums.modulation.clear n
  .ok ⟨input, modulation⟩

/-- Add the signal of a link to an inlet. -/
def mix (sums : Sums) (inlet : Inlet) (signal : List Float32) : Sums :=
  match inlet with
  | .audio => { sums with input := sums.input.mix signal }
  | .knob _ => { sums with modulation := sums.modulation.mix signal }

end Sums

end Patchbay
