import Patchbay.Fault
import Patchbay.Number.Floor
import Patchbay.Number.Width
import Patchbay.Partials

/-!
# Spectra

A spectrum has half as many bins as the sample rate has frames per second. Partial `k`
goes to the bin nearest to `k * bins / rate`, a half upward. Of two partials in one bin the
later one stays, and a partial outside the spectrum is dropped, since moving it to the last
bin would change its pitch.
-/
namespace Patchbay

/-- The number of bins at a sample rate. Negative rates and NaN have none. -/
def binCount (rate : Float32) : Nat :=
  Number.wholePartSingle (rate / 2.0)

/-- The bin of a partial, unless it lies outside the spectrum. Both ends are compared as doubles,
before the position is cut to a whole number. -/
def bin? (index rate : Float32) : Option Nat :=
  let bins := (binCount rate).toUInt64.toFloat
  let position := Number.widen index * bins / Number.widen rate
  if position.isFinite then
    let bin := Number.floor (position + 0.5)
    if bin < 0.0 ∨ bins ≤ bin then none else some (Number.wholePart bin)
  else none

/-- A spectrum together with the partials that found no bin. -/
structure Placement where
  bins : Array Float32
  dropped : List Partial

namespace Partials

/-- Write the placed partials over an array of bins, from first to last. -/
def write (rate : Float32) (bins : Array Float32) (entries : List Partial) : Array Float32 :=
  entries.foldl (fun bins entry =>
    match bin? entry.index rate with
    | some bin => bins.setIfInBounds bin entry.amplitude
    | none => bins) bins

@[simp] theorem size_write (rate : Float32) (bins : Array Float32) (entries : List Partial) :
    (write rate bins entries).size = bins.size := by
  induction entries generalizing bins with
  | nil => rfl
  | cons entry rest ih =>
    simp only [write, List.foldl_cons] at ih ⊢
    rw [ih]
    split <;> simp

/-- The most bytes that one buffer may take up, one less than half of all addresses. -/
def maxBytes : Nat := 0x7fffffffffffffff

/-- The most bins, of four bytes each, that one buffer may hold. -/
def maxBins : Nat :=
  maxBytes / 4

/-- Place partials into the spectrum of a sample rate. -/
def place (partials : Partials) (rate : Float32) : Except Fault Placement :=
  if maxBins < binCount rate then .error (.bufferTooLarge (binCount rate))
  else .ok {
    bins := write rate (Array.replicate (binCount rate) 0.0) partials.entries
    dropped := partials.entries.filter fun entry => (bin? entry.index rate).isNone }

end Partials

end Patchbay
