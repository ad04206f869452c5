import Patchbay.Time
import Patchbay.Wave.Player
import Patchbay.Wave.Shared

/-!
# Generators

A generator plays a wave between an armed start and an armed stop. Outside of this window
it is silent and its phase stands still.
-/
namespace Patchbay

/-- What nodes are told about the block being rendered. -/
structure Block (τ : Type) where
  rate : Float32
  /-- The clock time of the first frame. -/
  time : τ

/-- The time of a frame of the block. -/
def Block.timeAt {τ : Type} [TimeAxis τ] (block : Block τ) (frame : Nat) : τ :=
  block.time + TimeAxis.ofFrames frame.toUInt64 block.rate

/-- A source that plays a wave inside a window of time. -/
structure Generator (τ : Type) where
  /-- The serial number of the wave being played. -/
  serial : Nat
  player : Player Float Float32
  frequency : Float32
  starts : Option τ
  stops : Option τ
  deriving Repr

namespace Generator

/-- A generator at the beginning of a wave, with frequency zero and not armed. -/
def playing {τ : Type} (wave : SharedWave) : Generator τ :=
  ⟨wave.serial, Player.start wave.wave, 0.0, none, none⟩

variable {τ : Type} [TimeAxis τ]

/-- Has the stop time come? From then on the generator is silent for good. -/
def hasFinished (generator : Generator τ) (time : τ) : Bool :=
  match generator.stops with
  | some stop => stop ≤ time
  | none => false

/-- Is the time inside the window? Its start belongs to it and its stop does not. -/
def isSounding (generator : Generator τ) (time : τ) : Bool :=
  match generator.starts with
  | some start => start ≤ time && !generator.hasFinished time
  | none => false

/-- Render one frame with a modulation of the frequency. -/
def frame (generator : Generator τ) (rate : Float32) (time : τ) (modulation : Float32) :
    Float32 × Generator τ :=
  if generator.isSounding time then
    let (sample, player) := generator.player.next (generator.frequency + modulation) rate
    (sample, { generator with player })
  else (0.0, generator)

/-- Render one frame for each modulation, from the frame with the given index on. -/
def run (block : Block τ) (generator : Generator τ) (index : Nat) :
    List Float32 → List Float32 × Generator τ
  | [] => ([], generator)
  | modulation :: rest =>
    let (sample, moved) := generator.frame block.rate (block.timeAt index) modulation
    let (samples, last) := run block moved (index + 1) rest
    (sample :: samples, last)

@[simp] theorem length_run (block : Block τ) (generator : Generator τ) (index : Nat)
    (modulations : List Float32) :
    (generator.run block index modulations).1.length = modulations.length := by
  induction modulations generalizing generator index with
  | nil => rfl
  | cons modulation rest ih => simp [run, ih]

/-- A frame moves the phase and nothing else. -/
theorem frame_rewound (generator : Generator τ) (rate : Float32) (time : τ)
    (modulation : Float32) :
    let moved := (generator.frame rate time modulation).2
    { moved with player := moved.player.rewind } =
      { generator with player := generator.player.rewind } := by
  simp only [frame]
  split
  · simp [Player.rewind]
  · rfl

theorem run_rewound (block : Block τ) (generator : Generator τ) (index : Nat)
    (modulations : List Float32) :
    let moved := (generator.run block index modulations).2
    { moved with player := moved.player.rewind } =
      { generator with player := generator.player.rewind } := by
  induction modulations generalizing generator index with
  | nil => rfl
  | cons modulation rest ih =>
    exact (ih _ (index + 1)).trans
      (generator.frame_rewound block.rate (block.timeAt index) modulation)

end Generator

end Patchbay
