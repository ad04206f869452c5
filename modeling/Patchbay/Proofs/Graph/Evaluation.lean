import Patchbay.Proofs.Graph.Planning

/-!
# One frame after another

What a graph sounds like, without chunks and buffers. The sample of a node in one frame comes
from the samples of the nodes that feed it in the same frame, by recursion against the kept
connections. The nodes go on from frame to frame.
-/
namespace Patchbay

variable {τ : Type} [TimeAxis τ]

/-- Add up the signals of links from left to right, beginning with zero. -/
def total (signal : NodeKey → Float32) (links : List Link) : Float32 :=
  links.foldl (fun sum link => sum + signal link.source) 0.0

/-- The links to the input of a node. -/
def Step.audio (step : Step) : List Link :=
  step.inputs.filter fun link => link.inlet == .audio

/-- The links to the knob of a node. -/
def Step.modulation (step : Step) : List Link :=
  step.inputs.filter fun link => link.inlet != .audio

/-- From the start of a generator on, until its stop comes. Without a start there is no such
time. -/
def Generator.Within (g : Generator τ) (time : τ) : Prop :=
  (∃ start ∈ g.starts, start ≤ time) ∧ ∀ stop ∈ g.stops, ¬ stop ≤ time

instance (g : Generator τ) (time : τ) : Decidable (g.Within time) :=
  inferInstanceAs (Decidable (_ ∧ _))

/-- One frame of a node: its sample, and the node as it goes on. Within its window a generator reads
the next sample of its wave. Before and after it is silent, and its player stays where it is. -/
def Node.frame (rate : Float32) (time : τ) (input modulation : Float32) :
    Node τ → Float32 × Node τ
  | generator g =>
    if g.Within time then
      let (sample, player) := g.player.next (g.frequency + modulation) rate
      (sample, generator { g with player })
    else (0.0, generator g)
  | gain factor => (input * (factor + modulation), gain factor)
  | constant level => (level + modulation, constant level)
  | destination => (input, destination)

/-- One frame of the node under a key, if it has a step. The steps stand latest first, and
the recursion goes from a step to the steps of the nodes that feed it. -/
def frameOf (rate : Float32) (time : τ) (nodes : NodeKey → Option (Node τ)) :
    List Step → NodeKey → Option (Float32 × Node τ)
  | [], _ => none
  | step :: earlier, key =>
    if step.key = key then
      let signal source := ((frameOf rate time nodes earlier source).map (·.1)).getD 0.0
      (nodes key).map (·.frame rate time (total signal step.audio) (total signal step.modulation))
    else frameOf rate time nodes earlier key

namespace Plan

variable (plan : Plan) (block : Block τ) (nodes : NodeKey → Option (Node τ))

/-- The sample of a node in one frame. -/
def sample (rate : Float32) (time : τ) (key : NodeKey) : Float32 :=
  ((frameOf rate time nodes plan.steps.reverse key).map (·.1)).getD 0.0

/-- The nodes after one frame. A node without a step stays as it is. -/
def advance (rate : Float32) (time : τ) (key : NodeKey) : Option (Node τ) :=
  ((frameOf rate time nodes plan.steps.reverse key).map (·.2)).or (nodes key)

/-- The nodes after the first frames of a block. -/
def nodesAt : Nat → NodeKey → Option (Node τ)
  | 0 => nodes
  | i + 1 => plan.advance (nodesAt i) block.rate (block.timeAt i)

/-- The sample of a node in a frame of a block. -/
def sampleAt (i : Nat) (key : NodeKey) : Float32 :=
  plan.sample (plan.nodesAt block nodes i) block.rate (block.timeAt i) key

end Plan

theorem Generator.isSounding_iff_within {g : Generator τ} {time : τ} :
    g.isSounding time = true ↔ g.Within time := by
  unfold isSounding hasFinished Within
  cases g.starts <;> cases g.stops <;> simp

theorem Generator.frame_of_within {g : Generator τ} {time : τ} (within : g.Within time)
    (rate modulation : Float32) : g.frame rate time modulation =
      ((g.player.next (g.frequency + modulation) rate).1,
        { g with player := (g.player.next (g.frequency + modulation) rate).2 }) := by
  rw [frame, if_pos (isSounding_iff_within.mpr within)]

theorem Generator.frame_of_not_within {g : Generator τ} {time : τ} (outside : ¬ g.Within time)
    (rate modulation : Float32) : g.frame rate time modulation = (0.0, g) := by
  rw [frame, if_neg (mt isSounding_iff_within.mp outside)]

/-- The frame of a generator as a node is the one that it renders. -/
theorem Node.frame_generator (rate : Float32) (time : τ) (input modulation : Float32)
    (g : Generator τ) : (generator g).frame rate time input modulation =
      ((g.frame rate time modulation).1, generator (g.frame rate time modulation).2) := by
  by_cases within : g.Within time
  · rw [Generator.frame_of_within within, Node.frame, if_pos within]
  · rw [Generator.frame_of_not_within within, Node.frame, if_neg within]

section Recursion

variable {rate : Float32} {time : τ} {nodes : NodeKey → Option (Node τ)}

theorem total_congr {signal other : NodeKey → Float32} {links : List Link}
    (same : ∀ link ∈ links, signal link.source = other link.source) :
    total signal links = total other links := by
  unfold total
  generalize (0.0 : Float32) = sum
  induction links generalizing sum with
  | nil => rfl
  | cons link rest ih =>
    simp only [List.foldl_cons]
    rw [same link List.mem_cons_self]
    exact ih (fun other mem => same other (List.mem_cons_of_mem _ mem)) _

theorem frameOf_eq_none {steps : List Step} {key : NodeKey} (h : key ∉ steps.map (·.key)) :
    frameOf rate time nodes steps key = none := by
  induction steps with
  | nil => rfl
  | cons step rest ih =>
    simp only [List.map_cons, List.mem_cons, not_or] at h
    rw [frameOf, if_neg (Ne.symm h.1)]
    exact ih h.2

theorem frameOf_append {later earlier : List Step} {key : NodeKey}
    (h : key ∉ later.map (·.key)) :
    frameOf rate time nodes (later ++ earlier) key = frameOf rate time nodes earlier key := by
  induction later with
  | nil => rfl
  | cons step rest ih =>
    simp only [List.map_cons, List.mem_cons, not_or] at h
    rw [List.cons_append, frameOf, if_neg (Ne.symm h.1)]
    exact ih h.2

variable {plan : Plan}

/-- The frame of a planned node hangs on the samples of what feeds it, wherever that stands
in the plan. -/
theorem frameOf_step (once : plan.keys.Nodup)
    (earlier : ∀ before step after, plan.steps = before ++ step :: after →
      ∀ link ∈ step.inputs, link.source ∈ before.map (·.key))
    {step : Step} (mem : step ∈ plan.steps) :
    frameOf rate time nodes plan.steps.reverse step.key =
      (nodes step.key).map (·.frame rate time (total (plan.sample nodes rate time) step.audio)
        (total (plan.sample nodes rate time) step.modulation)) := by
  obtain ⟨before, after, split⟩ := List.append_of_mem mem
  have reversed : plan.steps.reverse = after.reverse ++ step :: before.reverse := by simp [split]
  have keys : plan.keys = before.map (·.key) ++ step.key :: after.map (·.key) := by
    simp [Plan.keys, split]
  rw [keys] at once
  obtain ⟨-, once_after, apart⟩ := List.nodup_append.mp once
  have not_after : step.key ∉ after.reverse.map (·.key) := by
    simpa using (List.nodup_cons.mp once_after).1
  have sources (link : Link) (listed : link ∈ step.inputs) :
      frameOf rate time nodes before.reverse link.source =
        frameOf rate time nodes plan.steps.reverse link.source := by
    have source := earlier before step after split link listed
    have differs : step.key ≠ link.source := (apart _ source _ List.mem_cons_self).symm
    have not_later : link.source ∉ after.reverse.map (·.key) := by
      intro later
      have later : link.source ∈ after.map (·.key) := by simpa using later
      exact apart _ source _ (List.mem_cons_of_mem _ later) rfl
    rw [reversed, frameOf_append not_later, frameOf, if_neg differs]
  rw [reversed, frameOf_append not_after, frameOf, if_pos rfl]
  dsimp only
  congr 1
  funext node
  congr 1
  · refine total_congr fun link listed => ?_
    rw [sources link (List.mem_of_mem_filter listed)]
    rfl
  · refine total_congr fun link listed => ?_
    rw [sources link (List.mem_of_mem_filter listed)]
    rfl

end Recursion

/-! ### Nodes over the frames of a block -/

/-- A node after the first frames of a block. -/
def Node.after (block : Block τ) (input modulation : Nat → Float32) (node : Node τ) :
    Nat → Node τ
  | 0 => node
  | i + 1 => ((node.after block input modulation i).frame block.rate (block.timeAt i) (input i)
      (modulation i)).2

/-- The sample of a node in a frame of a block. -/
def Node.sampleAt (block : Block τ) (input modulation : Nat → Float32) (node : Node τ)
    (i : Nat) : Float32 :=
  ((node.after block input modulation i).frame block.rate (block.timeAt i) (input i)
    (modulation i)).1

variable {plan : Plan} {block : Block τ} {nodes : NodeKey → Option (Node τ)}

theorem nodesAt_of_not_mem (block : Block τ) (nodes : NodeKey → Option (Node τ))
    {key : NodeKey} (h : key ∉ plan.keys) (i : Nat) :
    plan.nodesAt block nodes i key = nodes key := by
  induction i with
  | zero => rfl
  | succ i ih =>
    rw [Plan.nodesAt, Plan.advance, frameOf_eq_none (by simpa [Plan.keys] using h)]
    exact ih

section Planned

variable (once : plan.keys.Nodup)
  (earlier : ∀ before step after, plan.steps = before ++ step :: after →
    ∀ link ∈ step.inputs, link.source ∈ before.map (·.key))

include once earlier

/-- A planned node goes on as its own frames lead it, fed with the totals of its sources. -/
theorem nodesAt_step {step : Step} (mem : step ∈ plan.steps) {node : Node τ}
    (lives : nodes step.key = some node) (i : Nat) :
    plan.nodesAt block nodes i step.key =
      some (node.after block (fun i => total (plan.sampleAt block nodes i) step.audio)
        (fun i => total (plan.sampleAt block nodes i) step.modulation) i) := by
  induction i with
  | zero => exact lives
  | succ i ih =>
    rw [Plan.nodesAt, Plan.advance, frameOf_step once earlier mem, ih]
    rfl

theorem sampleAt_step {step : Step} (mem : step ∈ plan.steps) {node : Node τ}
    (lives : nodes step.key = some node) (i : Nat) :
    plan.sampleAt block nodes i step.key =
      node.sampleAt block (fun i => total (plan.sampleAt block nodes i) step.audio)
        (fun i => total (plan.sampleAt block nodes i) step.modulation) i := by
  conv_lhs => unfold Plan.sampleAt Plan.sample
  rw [frameOf_step once earlier mem, nodesAt_step once earlier mem lives]
  rfl

end Planned

end Patchbay
