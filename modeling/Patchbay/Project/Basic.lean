import Patchbay.Instrument.Basic
import Patchbay.Instrument.Cable
import Patchbay.Note

/-!
# Projects

A project is all that the transport needs to know: instruments, their cables and their
tracks of notes, each under the name of the instrument, and whether it is to be played.
-/
namespace Patchbay

/-- Instruments with cables and notes. -/
structure Project (τ : Type) where
  playing : Bool
  instruments : Roster Instrument
  cables : Roster (List Cable)
  tracks : Roster (List (Note τ))
  deriving Repr, BEq

namespace Project

variable {τ : Type}

/-- The project without instruments, not to be played. -/
def empty : Project τ :=
  ⟨false, .empty, .empty, .empty⟩

/-- Enter an instrument with its cables. -/
def addInstrument (project : Project τ) (name : String) (instrument : Instrument)
    (cables : List Cable) : Project τ :=
  { project with
    instruments := project.instruments.insert name instrument
    cables := project.cables.insert name cables }

/-- Enter a track. -/
def addTrack (project : Project τ) (name : String) (notes : List (Note τ)) : Project τ :=
  { project with tracks := project.tracks.insert name notes }

/-- The cables of an instrument. -/
def cablesOf (project : Project τ) (name : String) : List Cable :=
  (project.cables.find? name).getD []

/-- The notes of an instrument. -/
def notesOf (project : Project τ) (name : String) : List (Note τ) :=
  (project.tracks.find? name).getD []

/-- Set one partial of an oscillator of an instrument, if they are there. -/
def setPartial? (project : Project τ) (name id : String) (index amplitude : Float32) :
    Option (Project τ) := do
  let instrument ← project.instruments.find? name
  let edited ← instrument.setPartial? id index amplitude
  some { project with instruments := project.instruments.insert name edited }

end Project

end Patchbay
