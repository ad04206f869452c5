import Patchbay.Wave.Basic

/-!
# Waves from harmonics

Bin `n` of two coefficient arrays holds the cosine and the sine part of harmonic `n`, and
the wave is the sum of `real[n] * cos (2πnφ) + imag[n] * sin (2πnφ)` over one turn of `φ`.
The sum is an inverse transform of a spectrum that is its own conjugate read backwards, so
that its values are real. Bin zero, a constant offset, is left out. At last the table is
divided by its peak.
-/
namespace Patchbay

/-- A point of the complex plane. -/
structure Phasor (α : Type) where
  re : α
  im : α
  deriving Repr

/-- A transform takes a spectrum to as many values as the spectrum has entries. -/
abbrev Transform (α : Type) : Type :=
  Array (Phasor α) → Array (Phasor α)

/-- The inverse transform that waves are made with. -/
class Fourier where
  inverse : Transform Float32

namespace Wave

variable {α : Type} [Sample α]

/-- The spectrum entry of harmonic `n`. A coefficient that is missing counts as zero. -/
def harmonic (real imag : Array α) (n : Nat) : Phasor α :=
  ⟨(real[n]?.getD 0) * Sample.half, (-(imag[n]?.getD 0)) * Sample.half⟩

/-- The spectrum of `2 * bins` entries: harmonics going up, their conjugates coming down,
and zero at both ends of the way. -/
def spectrum (bins : Nat) (real imag : Array α) : Array (Phasor α) :=
  Array.ofFn fun k : Fin (2 * bins) =>
    if k.val = 0 ∨ k.val = bins then ⟨0, 0⟩
    else if k.val < bins then harmonic real imag k.val
    else
      let opposite := harmonic real imag (2 * bins - k.val)
      ⟨opposite.re, -opposite.im⟩

/-- The greatest magnitude in a table. A NaN is never greater. -/
def peak (table : Array α) : α :=
  table.foldl (fun greatest sample =>
    if greatest < Sample.abs sample then Sample.abs sample else greatest) 0

/-- What holds of no samples, and goes on to one more sample, holds of a table and its peak. -/
theorem peak_induction {motive : List α → α → Prop} (start : motive [] 0)
    (append : ∀ samples top sample, motive samples top →
      motive (samples ++ [sample]) (if top < Sample.abs sample then Sample.abs sample else top))
    (table : Array α) : motive table.toList (peak table) := by
  have run (rest done : List α) (top : α) (holds : motive done top) :
      motive (done ++ rest) (rest.foldl (fun greatest sample =>
        if greatest < Sample.abs sample then Sample.abs sample else greatest) top) := by
    induction rest generalizing done top with
    | nil => rwa [List.append_nil]
    | cons sample rest ih =>
      rw [List.append_cons]
      exact ih _ _ (append done top sample holds)
  rw [peak, ← Array.foldl_toList]
  exact run table.toList [] 0 start

/-- Divide a table by its peak. Without a peak that is positive and finite it becomes
silence. -/
def normalize (table : Array α) : Array α :=
  let top := peak table
  if 0 < top ∧ Sample.isFinite top then table.map (· / top) else table.map fun _ => 0

/-- One period of the sound whose harmonics have these coefficients. -/
def ofHarmonics (inverse : Transform α) (real imag : Array α) : Wave α :=
  let bins := max real.size imag.size
  if bins = 0 then silent
  else ⟨normalize ((inverse (spectrum bins real imag)).map (·.re))⟩

@[simp] theorem size_spectrum (bins : Nat) (real imag : Array α) :
    (spectrum bins real imag).size = 2 * bins := by
  simp [spectrum]

@[simp] theorem size_normalize (table : Array α) : (normalize table).size = table.size := by
  simp only [normalize]
  split <;> simp

end Wave

end Patchbay
