import Patchbay.Graph.Render
import Patchbay.Instrument.Rack
import Patchbay.Project.Basic
import Patchbay.Settings
import Patchbay.Wave.Transform

/-!
# The transport

The transport plays a project through one graph. Positions are measured from a location,
the clock time at which the project begins; as the clock stands still while the transport
is stopped, the position stays through a pause. Bringing the graph in line with a project
furnishes and patches a rack for each instrument and schedules anew all notes that have not
ended.
-/
namespace Patchbay

/-- Does the transport play? -/
inductive PlayState where
  | stopped
  | playing
  deriving Repr, DecidableEq

/-- The name of a state. -/
def PlayState.label : PlayState → String
  | stopped => "Stopped"
  | playing => "Playing"

/-- A project's way through the graph. -/
structure Transport (τ : Type) where
  graph : Graph τ
  state : PlayState
  /-- The clock time of position zero. -/
  location : τ
  racks : Roster Rack
  settings : Settings

namespace Transport

variable {τ : Type} [TimeAxis τ] [Fourier]

/-- A stopped transport at position zero. -/
def create (settings : Settings) : Transport τ where
  graph := Graph.atRate settings.sampleRate
  state := .stopped
  location := 0
  racks := .empty
  settings := settings

/-- Does the transport play? -/
def isPlaying (transport : Transport τ) : Bool :=
  transport.state == .playing

/-- The clock time. -/
def now (transport : Transport τ) : τ :=
  transport.graph.now

/-- The position in the project. -/
def position (transport : Transport τ) : τ :=
  transport.now - transport.location

/-- Start the clock. A transport that plays goes on as it is. -/
def play (transport : Transport τ) : Transport τ :=
  match transport.state with
  | .playing => transport
  | .stopped =>
    let graph := transport.graph.resume
    { transport with graph := graph.log (.transportPlaying graph.now), state := .playing }

/-- Stop the clock. A stopped transport stays as it is. -/
def pause (transport : Transport τ) : Transport τ :=
  match transport.state with
  | .stopped => transport
  | .playing =>
    let graph := transport.graph.suspend
    { transport with graph := graph.log (.transportPaused graph.now), state := .stopped }

/-- Silence everything and make the current time position zero. -/
def reset (transport : Transport τ) : Transport τ :=
  let graph := transport.racks.values.foldl (fun graph rack => rack.halt graph) transport.graph
  { transport with graph := graph.log (.transportReset graph.now), location := graph.now }

/-- Move to a position. Notes are scheduled again when the next project comes. -/
def seek (transport : Transport τ) (position : τ) : Transport τ :=
  { transport with location := transport.now - position }

/-- Furnish and patch the rack of one instrument. -/
def equip (transport : Transport τ) (name : String) (instrument : Instrument)
    (cables : List Cable) : Transport τ :=
  let rack := (transport.racks.find? name).getD .empty
  let (rack, graph) := rack.furnish transport.graph instrument
  let (rack, graph) := rack.patch graph cables
  { transport with graph, racks := transport.racks.insert name rack }

/-- Remove the voices of some of the racks. -/
def freeWhere (transport : Transport τ) (which : String → Bool) : Transport τ :=
  let (racks, graph) := transport.racks.mapState (fun name rack graph =>
    if which name then rack.free graph else (rack, graph)) transport.graph
  { transport with graph, racks }

/-- Schedule the notes of one instrument that have not ended at a position, in place of the
voices it has. -/
def scheduleNotes (position : τ) (transport : Transport τ) (name : String)
    (notes : List (Note τ)) : Attempt (Transport τ) :=
  match transport.racks.find? name with
  | none => .done transport
  | some rack =>
    (Attempt.visit (fun (rack, graph) note => rack.schedule graph note position)
      (rack.free transport.graph) (notes.filter fun note => position < note.ends)).map
      fun (rack, graph) => { transport with graph, racks := transport.racks.insert name rack }

/-- Schedule the notes of all instruments from the current position on. -/
def scheduleProject (transport : Transport τ) (project : Project τ) :
    Attempt (Transport τ) :=
  let position := transport.position
  (Attempt.visit (fun transport name =>
      scheduleNotes position transport name (project.notesOf name))
    transport project.instruments.names).andThen fun transport =>
      .done { transport with
        graph := transport.graph.log (.notesScheduled position transport.graph.nodeCount) }

/-- Take over the play state of a project. When playing ends, all voices go. -/
def followState (transport : Transport τ) (playing : Bool) : Transport τ :=
  match playing, transport.state with
  | true, .stopped => transport.play
  | false, .playing => transport.pause.freeWhere fun _ => true
  | _, _ => transport

/-- Bring the graph in line with a project: equip its instruments, silence those that it no
longer has, schedule its notes if it is to be played, and take over its play state. -/
def reconcile (transport : Transport τ) (project : Project τ) : Attempt (Transport τ) :=
  let equipped := project.instruments.entries.foldl (fun transport (name, instrument) =>
    transport.equip name instrument (project.cablesOf name)) transport
  let cleared := equipped.freeWhere fun name => !project.instruments.contains name
  (if project.playing then cleared.scheduleProject project else .done cleared).andThen
    fun transport => .done (transport.followState project.playing)

/-- Render a number of frames. -/
def render (transport : Transport τ) (n : Nat) :
    Except Fault (List Float32 × Transport τ) := do
  let (samples, graph) ← transport.graph.render n
  .ok (samples, { transport with graph })

end Transport

end Patchbay
