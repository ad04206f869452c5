import Patchbay.Graph.Lemmas
import Patchbay.Project.Demo
import Patchbay.Transport
import Patchbay.Proofs.Number.Packing
import Patchbay.Proofs.Number.Dyadic
import Patchbay.Proofs.Number.Durations
import Patchbay.Proofs.Number.Rounding
import Patchbay.Proofs.Number.Zeros
import Patchbay.Proofs.Number.Quotients
import Patchbay.Proofs.Number.Rationals
import Patchbay.Proofs.Number.Widening
import Patchbay.Proofs.Wave.Memos
import Patchbay.Proofs.Wave.Timbre
import Patchbay.Proofs.Wave.Agreement
import Patchbay.Proofs.Wave.Harmonics
import Patchbay.Proofs.Wave.Insertion
import Patchbay.Proofs.Wave.Interpolation
import Patchbay.Proofs.Wave.Loudness
import Patchbay.Proofs.Wave.Placement
import Patchbay.Proofs.Graph.Elapsing
import Patchbay.Proofs.Graph.Operation
import Patchbay.Proofs.Graph.Search
import Patchbay.Proofs.Graph.Planning
import Patchbay.Proofs.Graph.Evaluation
import Patchbay.Proofs.Graph.Rendering
import Patchbay.Proofs.Graph.Chunks
import Patchbay.Proofs.Graph.Division
import Patchbay.Proofs.Graph.Growth
import Patchbay.Proofs.Graph.Replanning
import Patchbay.Proofs.Graph.Permanence
import Patchbay.Proofs.Graph.Playback
import Patchbay.Proofs.Graph.Completion
import Patchbay.Proofs.Graph.Labels
import Patchbay.Proofs.Graph.Punctuality
import Patchbay.Proofs.Graph.Traversal
import Patchbay.Proofs.Voice.Sheet
import Patchbay.Proofs.Voice.Arming
import Patchbay.Proofs.Voice.Recall
import Patchbay.Proofs.Voice.Coherence
import Patchbay.Proofs.Voice.Restoration
import Patchbay.Proofs.Voice.Sharing
import Patchbay.Proofs.Voice.Voicing
import Patchbay.Proofs.Voice.Standing
import Patchbay.Proofs.Voice.Modulation
import Patchbay.Proofs.Rack.Ownership
import Patchbay.Proofs.Rack.Furnishing
import Patchbay.Proofs.Rack.Rosters
import Patchbay.Proofs.Rack.Patching
import Patchbay.Proofs.Rack.Turnover
import Patchbay.Proofs.Rack.Board
import Patchbay.Proofs.Rack.Realization
import Patchbay.Proofs.Rack.Equipment
import Patchbay.Proofs.Rack.Frames
import Patchbay.Proofs.Rack.Seating
import Patchbay.Proofs.Rack.Lookup
import Patchbay.Proofs.Rack.Rewiring
import Patchbay.Proofs.Rack.Shadowing
import Patchbay.Proofs.Transport.Score
import Patchbay.Proofs.Transport.Turn
import Patchbay.Proofs.Transport.Upkeep
import Patchbay.Proofs.Transport.Pass
import Patchbay.Proofs.Transport.History
import Patchbay.Proofs.Transport.Inventory
import Patchbay.Proofs.Transport.Performance
import Patchbay.Proofs.Transport.Freshness
import Patchbay.Proofs.Transport.Timekeeping
import Patchbay.Proofs.Transport.Hush
import Patchbay.Proofs.Transport.Knobs
import Patchbay.Proofs.Transport.Places
import Patchbay.Proofs.Transport.Positions
import Patchbay.Proofs.Transport.Roles
import Patchbay.Proofs.Reconciliation.Compilation
import Patchbay.Proofs.Reconciliation.Layout
import Patchbay.Proofs.Reconciliation.Renaming
import Patchbay.Proofs.Reconciliation.Mirroring
import Patchbay.Proofs.Reconciliation.Replugging
import Patchbay.Proofs.Reconciliation.Pitch
import Patchbay.Proofs.Reconciliation.Recompilation
import Patchbay.Proofs.Reconciliation.Revoicing
import Patchbay.Proofs.Band.Bands
import Patchbay.Proofs.Band.Lockstep
import Patchbay.Proofs.Band.Unison
import Patchbay.Proofs.Band.Ensemble
import Patchbay.Proofs.Band.Hearing
import Patchbay.Proofs.Band.Isolation
import Patchbay.Proofs.Band.Redundancy
import Patchbay.Proofs.Band.Refusal
import Patchbay.Proofs.Band.Silence
