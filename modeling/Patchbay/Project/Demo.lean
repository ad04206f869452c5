import Patchbay.Project.Basic

/-!
# The demo

Five instruments play one note each, one after another.
-/
namespace Patchbay.Project

/-- The timbre of harmonics with these amplitudes, the first one being the fundamental.
Partial `2 * n` is harmonic `n` of the frequency that is played. -/
def harmonics (amplitudes : List Float32) : Partials :=
  Partials.ofList (amplitudes.zipIdx.map fun (amplitude, n) =>
    (2.0 * (n + 1).toUInt64.toFloat32, amplitude))

/-- The cables of an instrument with one sounding oscillator that follows the notes and goes
through a gain. -/
def singleVoice (oscillator : String) : List Cable :=
  [⟨"e0", "in", oscillator, .usual⟩, ⟨"e1", oscillator, "amp", .usual⟩,
    ⟨"e2", "amp", "out", .usual⟩]

/-- An instrument of one oscillator. -/
def plain (partials : Partials) : Instrument × List Cable :=
  ({ Instrument.bare "in" "out" with
      oscillators := .ofList [("osc", partials)]
      gains := .ofList [("amp", 0.3)] }, singleVoice "osc")

/-- An instrument whose carrier is modulated by a partner. -/
def modulated : Instrument × List Cable :=
  ({ Instrument.bare "in" "out" with
      oscillators := .ofList [("carrier", harmonics [1.0, 0.5]),
        ("partner", harmonics [0.0, 0.0, 1.0])]
      gains := .ofList [("amp", 0.3)]
      mixes := .ofList [("carrier", [0.0, 0.8])] }, singleVoice "carrier")

/-- The instruments of the demo with the frequencies of their notes. -/
def demoVoices : List ((Instrument × List Cable) × Float32) :=
  [(plain (harmonics [1.0]), 261.6),
    (plain (harmonics [1.0, 0.5, 0.33, 0.25, 0.2]), 440.0),
    (plain (harmonics [1.0, 0.0, 0.33, 0.0, 0.2]), 440.0),
    (modulated, 440.0),
    (plain (harmonics [1.0, 0.0, 0.11, 0.0, 0.04]), 440.0)]

/-- The demo project. Each note lasts ten seconds. -/
def demo : Project Float :=
  demoVoices.zipIdx.foldl (fun project (((instrument, cables), frequency), n) =>
    let name := "inst" ++ toString n
    let begins := 10.0 * n.toUInt64.toFloat
    (project.addInstrument name instrument cables).addTrack name
      [⟨frequency, begins, begins + 10.0⟩]) { (empty : Project Float) with playing := true }

end Patchbay.Project
