import Patchbay.Voice.Oscillator

/-!
# Waves that are asked for

A wave is made anew where none is kept for the sample rate and the timbre. What has been asked for
once is given again, and serial numbers make no difference.
-/
namespace Patchbay

/-- The wave of a timbre at a sample rate. -/
def Partials.waveAt [Fourier] (partials : Partials) (rate : Float32) :
    Except Fault (Wave Float32) := do
  let real ← Partials.empty.place rate
  let imag ← partials.place rate
  .ok (Wave.ofHarmonics Fourier.inverse real.bins imag.bins)

theorem Partials.place_eq_ok {rate : Float32} (fits : binCount rate ≤ Partials.maxBins)
    (partials : Partials) : ∃ placement, partials.place rate = .ok placement :=
  ⟨_, if_neg (Nat.not_lt.mpr fits)⟩

theorem Partials.place_eq_error {rate : Float32} (large : Partials.maxBins < binCount rate)
    (partials : Partials) : partials.place rate = .error (.bufferTooLarge (binCount rate)) :=
  if_pos large

variable [Fourier]

/-- A memo keeps the wave of its partials at this rate. -/
def WaveMemo.Made (rate : Float32) (memo : WaveMemo) : Prop :=
  memo.rate = rate ∧ memo.partials.waveAt rate = .ok memo.shared.wave

/-- A memo but for the serial number of its wave. -/
def WaveMemo.unnumbered (memo : WaveMemo) : WaveMemo :=
  { memo with shared := ⟨0, memo.shared.wave⟩ }

/-- A node but for the serial number of the wave that it plays. -/
def Node.unnumbered {τ : Type} : Node τ → Node τ :=
  Node.mapGenerator fun generator => { generator with serial := 0 }

/-- What is kept of a timbre once its wave has been asked for, but for the serial number. -/
def WaveMemo.asked (memo : Option WaveMemo) (rate : Float32) (partials : Partials) : WaveMemo :=
  match memo.filter fun kept => kept.rate == rate && kept.partials == partials with
  | some kept => kept.unnumbered
  | none => ⟨partials, rate, ⟨0, (partials.waveAt rate).toOption.getD Wave.silent⟩⟩

/-- One timbre stands for another: they are the same or count as equal. -/
def Partials.StandsFor (made asked : Partials) : Prop :=
  made = asked ∨ (made == asked) = true

namespace WaveMemo

theorem asked_unnumbered (memo : Option WaveMemo) (rate : Float32) (partials : Partials) :
    asked (memo.map unnumbered) rate partials = asked memo rate partials := by
  cases memo with
  | none => rfl
  | some kept =>
    simp only [asked, Option.map_some, Option.filter_some]
    by_cases fits : (kept.rate == rate && kept.partials == partials) = true
    · have fits' : (kept.unnumbered.rate == rate && kept.unnumbered.partials == partials) = true :=
        fits
      rw [if_pos fits, if_pos fits']
      rfl
    · have fits' : ¬ (kept.unnumbered.rate == rate && kept.unnumbered.partials == partials) = true :=
        fits
      rw [if_neg fits, if_neg fits']

/-- To ask again is to be given the same. -/
theorem asked_asked (memo : Option WaveMemo) (rate : Float32) (partials : Partials) :
    asked (some (asked memo rate partials)) rate partials = asked memo rate partials := by
  cases kept : memo.filter fun kept => kept.rate == rate && kept.partials == partials with
  | some found =>
    have fits : (found.unnumbered.rate == rate && found.unnumbered.partials == partials) = true :=
      (Option.filter_eq_some_iff.mp kept).2
    have given : asked memo rate partials = found.unnumbered := by simp only [asked, kept]
    rw [given]
    simp only [asked, Option.filter_some, if_pos fits]
    rfl
  | none =>
    have given : asked memo rate partials =
        ⟨partials, rate, ⟨0, (partials.waveAt rate).toOption.getD Wave.silent⟩⟩ := by
      simp only [asked, kept]
    rw [given]
    simp only [asked, Option.filter_some]
    -- a wave that counts as another one is made anew, and comes out the same
    by_cases fits : (rate == rate && partials == partials) = true
    · rw [if_pos fits]
      rfl
    · rw [if_neg fits]

end WaveMemo

end Patchbay
