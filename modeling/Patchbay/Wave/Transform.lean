import Patchbay.Number.Width
import Patchbay.Wave.Synthesis

/-!
# The inverse transform

Value `j` of the inverse transform of a spectrum of `size` entries is the sum over all `k`
of entry `k` turned by `j * k / size` of a full turn. The spectra of timbres have few
entries that are not zero, so the sum runs over those alone. It is taken in doubles and
rounded once. A turn by quarters only exchanges and negates the two parts.
-/
namespace Patchbay.Transform

/-- A spectrum entry that is not zero, in doubles. -/
structure Term where
  index : Nat
  re : Float
  im : Float

/-- The entries of a spectrum that are not zero. -/
def terms (spectrum : Array (Phasor Float32)) : List Term :=
  (spectrum.toList.zipIdx.filter fun entry => ¬ (entry.1.re == 0.0 ∧ entry.1.im == 0.0)).map
    fun entry => ⟨entry.2, Number.widen entry.1.re, Number.widen entry.1.im⟩

/-- The cosines and sines of all multiples of one part of a full turn. -/
structure Roots where
  cos : FloatArray
  sin : FloatArray

/-- The directions of a turn cut into `size` parts. -/
def roots (size : Nat) : Roots :=
  let angle (k : Nat) : Float := 6.283185307179586 * k.toFloat / size.toFloat
  let angles := (Array.range size).map angle
  ⟨⟨angles.map Float.cos⟩, ⟨angles.map Float.sin⟩⟩

/-- Add up the terms, each turned to its direction in value `j`. -/
def sum (roots : Roots) (size j : Nat) : List Term → Float → Float → Phasor Float32
  | [], re, im => ⟨Number.narrow re, Number.narrow im⟩
  | term :: rest, re, im =>
    let step := j * term.index % size
    if 4 * step % size = 0 then
      match 4 * step / size with
      | 0 => sum roots size j rest (re + term.re) (im + term.im)
      | 1 => sum roots size j rest (re - term.im) (im + term.re)
      | 2 => sum roots size j rest (re - term.re) (im - term.im)
      | _ => sum roots size j rest (re + term.im) (im - term.re)
    else
      let c := if h : step < roots.cos.size then roots.cos[step] else 0.0
      let s := if h : step < roots.sin.size then roots.sin[step] else 0.0
      sum roots size j rest (re + (term.re * c - term.im * s)) (im + (term.re * s + term.im * c))

/-- The inverse transform, without a factor in front of the sum. -/
def inverse (spectrum : Array (Phasor Float32)) : Array (Phasor Float32) :=
  let size := spectrum.size
  let roots := roots size
  let terms := terms spectrum
  Array.ofFn fun j : Fin size => sum roots size j.val terms 0.0 0.0

/-- Waves are made with this transform unless another one is given. -/
instance : Fourier :=
  ⟨inverse⟩

@[simp] theorem size_inverse (spectrum : Array (Phasor Float32)) :
    (inverse spectrum).size = spectrum.size := by
  simp [inverse]

end Patchbay.Transform
