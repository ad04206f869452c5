import Patchbay.Partials
import Patchbay.Roster

/-!
# Instruments

An instrument is described by its parts, each known by an id: oscillators, gains and
numbers, a source where notes come in, and a sink where sound goes out. A mix gives an
oscillator the weights at which the oscillators of the instrument, in the order of their
ids, modulate it.
-/
namespace Patchbay

/-- The parts of an instrument. -/
structure Instrument where
  oscillators : Roster Partials
  gains : Roster Float32
  numbers : Roster Float32
  mixes : Roster (List Float32)
  source : String
  sink : String
  deriving Repr, BEq

namespace Instrument

/-- An instrument of a source and a sink alone. -/
def bare (source sink : String) : Instrument where
  oscillators := .empty
  gains := .empty
  numbers := .empty
  mixes := .empty
  source := source
  sink := sink

/-- Set one partial of an oscillator, if the instrument has it. -/
def setPartial? (instrument : Instrument) (id : String) (index amplitude : Float32) :
    Option Instrument :=
  (instrument.oscillators.find? id).map fun partials =>
    { instrument with
      oscillators := instrument.oscillators.insert id (partials.set index amplitude) }

/-- The ids of all parts, with those that name several parts listed as often. -/
def ids (instrument : Instrument) : List String :=
  instrument.oscillators.names ++ instrument.gains.names ++ instrument.numbers.names ++
    [instrument.source, instrument.sink]

/-- The ids that name more than one part, in order. -/
def sharedIds (instrument : Instrument) : List String :=
  let counts := instrument.ids.foldl
    (fun (counts : Roster Nat) id => counts.insert id ((counts.find? id).getD 0 + 1)) .empty
  (counts.entries.filter fun entry => 1 < entry.2).map (·.1)

/-- The timbres of all oscillators, in the order of their ids. -/
def signals (instrument : Instrument) : List Partials :=
  instrument.oscillators.values

/-- The weights at which the signals modulate an oscillator, one for each signal. Weights
that a mix lacks are zero. -/
def weights (instrument : Instrument) (id : String) : List Float32 :=
  let count := instrument.oscillators.entries.length
  (((instrument.mixes.find? id).getD []).take count).rightpad count 0.0

@[simp] theorem length_weights (instrument : Instrument) (id : String) :
    (instrument.weights id).length = instrument.signals.length := by
  simp only [weights, signals, Roster.values, List.length_rightpad, List.length_take,
    List.length_map]
  omega

end Instrument

end Patchbay
