import Patchbay.Fault
import Patchbay.Node.Generator
import Patchbay.Wiring

/-!
# Nodes

Four kinds of node make and shape signals. A signal is a list of samples, one for each
frame of a block.
-/
namespace Patchbay

/-- A node of the graph. -/
inductive Node (τ : Type) where
  /-- Plays a wave. -/
  | generator (generator : Generator τ)
  /-- Multiplies its input by its factor and the modulation of it. -/
  | gain (factor : Float32)
  /-- Gives out its level and the modulation of it. -/
  | constant (level : Float32)
  /-- Gives out its input, which is the output of the graph. -/
  | destination
  deriving Repr

namespace Node

variable {τ : Type}

/-- Can connections end on this inlet of the node? -/
def accepts : Node τ → Inlet → Bool
  | generator _, .knob .frequency => true
  | gain _, .audio => true
  | gain _, .knob .gain => true
  | constant _, .knob .offset => true
  | destination, .audio => true
  | _, _ => false

/-- Can connections start from the node? -/
def hasOutput : Node τ → Bool
  | destination => false
  | _ => true

/-- Is the node a generator? -/
def generator? : Node τ → Option (Generator τ)
  | generator g => some g
  | _ => none

/-- Change a generator. Other nodes stay as they are. -/
def mapGenerator (f : Generator τ → Generator τ) : Node τ → Node τ
  | generator g => generator (f g)
  | node => node

/-- The value of a knob, if the node has it. -/
def value? : Node τ → Knob → Option Float32
  | generator g, .frequency => some g.frequency
  | gain factor, .gain => some factor
  | constant level, .offset => some level
  | _, _ => none

/-- Turn a knob, if the node has it. -/
def setValue? : Node τ → Knob → Float32 → Option (Node τ)
  | generator g, .frequency, value => some (generator { g with frequency := value })
  | gain _, .gain, value => some (gain value)
  | constant _, .offset, value => some (constant value)
  | _, _, _ => none

@[simp] theorem isSome_setValue? (node : Node τ) (knob : Knob) (value : Float32) :
    (node.setValue? knob value).isSome = (node.value? knob).isSome := by
  cases node <;> cases knob <;> rfl

theorem value?_of_setValue? {node turned : Node τ} {knob : Knob} {value : Float32}
    (h : node.setValue? knob value = some turned) : turned.value? knob = some value := by
  cases node <;> cases knob <;> simp [setValue?] at h <;> subst h <;> rfl

/-- Lay new samples over the beginning of a signal. -/
def overlay (samples signal : List Float32) : List Float32 :=
  samples.take signal.length ++ signal.drop samples.length

@[simp] theorem length_overlay (samples signal : List Float32) :
    (overlay samples signal).length = signal.length := by
  simp only [overlay, List.length_append, List.length_take, List.length_drop]
  omega

theorem overlay_eq {samples signal : List Float32} (h : samples.length = signal.length) :
    overlay samples signal = samples := by
  simp [overlay, ← h]

/-- Render a block over `out`. Here `input` is the sum of all that is connected to the
input, and `modulation` the sum of all that is connected to the knob. Only as many frames
are written as every signal that is looked at has; the destination needs an input exactly
as long as `out`. -/
def process [TimeAxis τ] (block : Block τ) (input modulation out : List Float32) :
    Node τ → Except Fault (Node τ × List Float32)
  | generator g =>
    let (samples, moved) := g.run block 0 (modulation.take out.length)
    .ok (generator moved, overlay samples out)
  | gain factor =>
    .ok (gain factor,
      overlay (List.zipWith (fun sample m => sample * (factor + m)) input modulation) out)
  | constant level => .ok (constant level, overlay (modulation.map (level + ·)) out)
  | destination =>
    if input.length = out.length then .ok (destination, input)
    else .error (.unequalBlocks input.length out.length)

end Node

end Patchbay
