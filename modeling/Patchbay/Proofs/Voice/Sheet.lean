import Mathlib.Data.List.Forall2
import Mathlib.Tactic.Tauto
import Patchbay.Proofs.Graph.Operation
import Patchbay.Proofs.Wave.Memos
import Patchbay.Voice.RingOscillator

/-!
# What a voice consists of

A voice of a ring is a carrier and, for each branch, a weight, a modulator and a stage. Its keys and
its wiring depend only on where the voice begins, where it ends and how many branches it has.
-/
namespace Patchbay

/-- A generator is at the beginning of a wave of a timbre. -/
def Generator.Plays [Fourier] {τ : Type} (rate : Float32) (timbre : Partials)
    (generator : Generator τ) : Prop :=
  ∃ (made : Partials) (wave : Wave Float32), made.StandsFor timbre ∧
    made.waveAt rate = .ok wave ∧ generator.player = Player.start wave

/-- What a node of a voice is. -/
inductive Component (τ : Type) where
  | generator (timbre : Partials) (frequency : Float32) (starts stops : Option τ)
  | gain (factor : Float32)

namespace Component

variable {τ : Type} [Fourier]

def kind : Component τ → Kind
  | generator .. => .generator
  | gain _ => .gain

/-- A node is what the component says, at a sample rate. -/
def Shown (rate : Float32) : Component τ → Node τ → Prop
  | generator timbre frequency starts stops, node =>
    ∃ g, node = .generator g ∧ g.Plays rate timbre ∧ g.frequency = frequency ∧
      g.starts = starts ∧ g.stops = stops
  | gain factor, node => node = .gain factor

theorem Shown.kind_eq {rate : Float32} {component : Component τ} {node : Node τ}
    (h : component.Shown rate node) : node.kind = component.kind := by
  cases component with
  | generator =>
    obtain ⟨g, rfl, -⟩ := h
    rfl
  | gain factor =>
    cases h
    rfl

end Component

/-- What a voice is to be: its timbre, its branches, and the pitch and the window that all its
generators share. -/
structure Sheet (τ : Type) where
  timbre : Partials
  branches : List Branch
  frequency : Float32
  starts : Option τ
  stops : Option τ

namespace Sheet

variable {τ : Type}

def generator (sheet : Sheet τ) (timbre : Partials) : Component τ :=
  .generator timbre sheet.frequency sheet.starts sheet.stops

/-- The nodes of one branch. -/
def branch (sheet : Sheet τ) (branch : Branch) : List (Component τ) :=
  [.gain branch.weight, sheet.generator branch.signal, .gain 1.0]

/-- The nodes of the voice, in the order in which they are added. -/
def components (sheet : Sheet τ) : List (Component τ) :=
  sheet.generator sheet.timbre :: sheet.branches.flatMap sheet.branch

end Sheet

theorem Sheet.length_components {τ : Type} (sheet : Sheet τ) :
    sheet.components.length = 1 + 3 * sheet.branches.length := by
  have flat (branches : List Branch) :
      (branches.flatMap sheet.branch).length = 3 * branches.length := by
    induction branches with
    | nil => rfl
    | cons first rest ih =>
      rw [List.flatMap_cons, List.length_append, ih, List.length_cons]
      simp only [Sheet.branch, List.length_cons, List.length_nil]
      omega
  simp only [Sheet.components, List.length_cons, flat]
  omega

/-! ### Keys and connections of a voice -/

/-- The connections of a number of stages after the node `chain`. -/
def stageWires (control chain : Nat) : Nat → List Connection
  | 0 => []
  | count + 1 =>
    [⟨control, chain + 2, .knob .frequency⟩, ⟨chain + 2, chain + 1, .audio⟩,
      ⟨chain + 1, chain + 3, .knob .gain⟩, ⟨chain, chain + 3, .audio⟩] ++
        stageWires control (chain + 3) count

/-- The nodes of a number of stages, in the order in which an oscillator counts them. -/
def stageNodes (chain : Nat) : Nat → List NodeKey
  | 0 => []
  | count + 1 => [chain + 2, chain + 1, chain + 3] ++ stageNodes (chain + 3) count

def stageGenerators (chain : Nat) : Nat → List NodeKey
  | 0 => []
  | count + 1 => (chain + 2) :: stageGenerators (chain + 3) count

/-- The connections of a voice that begins at a key. -/
def voiceWires (output control base count : Nat) : List Connection :=
  ⟨control, base, .knob .frequency⟩ :: stageWires control base count ++
    [⟨base + 3 * count, output, .audio⟩]

def voiceNodes (base count : Nat) : List NodeKey :=
  base :: stageNodes base count

def voiceGenerators (base count : Nat) : List NodeKey :=
  base :: stageGenerators base count

theorem mem_stageNodes {chain count key : Nat} :
    key ∈ stageNodes chain count ↔ chain < key ∧ key ≤ chain + 3 * count := by
  induction count generalizing chain with
  | zero =>
    simp only [stageNodes, List.not_mem_nil, false_iff]
    omega
  | succ count ih =>
    simp only [stageNodes, List.cons_append, List.nil_append, List.mem_cons, ih]
    omega

theorem mem_voiceNodes {base count key : Nat} :
    key ∈ voiceNodes base count ↔ base ≤ key ∧ key ≤ base + 3 * count := by
  simp only [voiceNodes, List.mem_cons, mem_stageNodes]
  omega

theorem lt_of_mem_stageGenerators {chain count key : Nat} (mem : key ∈ stageGenerators chain count) :
    chain + 2 ≤ key := by
  induction count generalizing chain with
  | zero => simp [stageGenerators] at mem
  | succ count ih =>
    rcases List.mem_cons.mp mem with rfl | later
    · exact Nat.le_refl _
    · have := ih later
      omega

theorem stageGenerators_sublist (chain count : Nat) :
    (stageGenerators chain count).Sublist (stageNodes chain count) := by
  induction count generalizing chain with
  | zero => exact List.Sublist.refl _
  | succ count ih => exact ((ih (chain + 3)).cons _ |>.cons _).cons_cons _

theorem voiceGenerators_sublist (base count : Nat) :
    (voiceGenerators base count).Sublist (voiceNodes base count) :=
  (stageGenerators_sublist base count).cons_cons _

theorem stageNodes_nodup (chain count : Nat) : (stageNodes chain count).Nodup := by
  induction count generalizing chain with
  | zero => exact List.nodup_nil
  | succ count ih =>
    refine List.nodup_append.mpr ⟨by simp, ih _, ?_⟩
    intro key first other later same
    have := (mem_stageNodes.mp later).1
    simp only [List.mem_cons, List.not_mem_nil, or_false] at first
    simp only [NodeKey] at *
    omega

theorem voiceNodes_nodup (base count : Nat) : (voiceNodes base count).Nodup := by
  refine List.nodup_cons.mpr ⟨fun mem => ?_, stageNodes_nodup base count⟩
  exact Nat.lt_irrefl _ (mem_stageNodes.mp mem).1

/-- Stages are driven by the control and by each other. -/
theorem ends_of_mem_stageWires {control chain count : Nat} {c : Connection}
    (mem : c ∈ stageWires control chain count) :
    (c.source = control ∨ c.source ∈ chain :: stageNodes chain count) ∧
      c.target ∈ stageNodes chain count := by
  induction count generalizing chain with
  | zero => simp [stageWires] at mem
  | succ count ih =>
    simp only [stageWires, List.mem_append, List.mem_cons, List.not_mem_nil, or_false] at mem
    rcases mem with (rfl | rfl | rfl | rfl) | mem
    · simp [stageNodes]
    · simp [stageNodes]
    · simp [stageNodes]
    · simp [stageNodes]
    · obtain ⟨source, target⟩ := ih mem
      refine ⟨source.imp_right fun within => ?_, ?_⟩
      · simp only [stageNodes, List.mem_append, List.mem_cons] at within ⊢
        tauto
      · exact List.mem_append_right _ target

/-- A voice is driven by its control and ends in its output stage. -/
theorem ends_of_mem_voiceWires {output control base count : Nat} {c : Connection}
    (mem : c ∈ voiceWires output control base count) :
    (c.source = control ∨ c.source ∈ voiceNodes base count) ∧
      (c.target ∈ voiceNodes base count ∨
        c.target = output ∧ c.source ∈ voiceNodes base count) := by
  simp only [voiceWires, List.cons_append, List.mem_cons, List.mem_append, List.not_mem_nil,
    or_false] at mem
  rcases mem with rfl | mem | rfl
  · exact ⟨.inl rfl, .inl List.mem_cons_self⟩
  · obtain ⟨source, target⟩ := ends_of_mem_stageWires mem
    exact ⟨source, .inl (List.mem_cons_of_mem _ target)⟩
  · have last : base + 3 * count ∈ voiceNodes base count := by
      rw [mem_voiceNodes]
      omega
    exact ⟨.inr last, .inr ⟨rfl, last⟩⟩

variable {τ : Type}

theorem mem_stageGenerators_iff (sheet : Sheet τ) {branches : List Branch} (chain : Nat) {i : Nat}
    {component : Component τ} (here : (branches.flatMap sheet.branch)[i]? = some component) :
    chain + 1 + i ∈ stageGenerators chain branches.length ↔ component.kind = .generator := by
  induction branches generalizing chain i with
  | nil => simp at here
  | cons branch rest ih =>
    have later (key : Nat) (mem : key ∈ stageGenerators (chain + 3) rest.length) :
        chain + 5 ≤ key := lt_of_mem_stageGenerators mem
    simp only [List.flatMap_cons, Sheet.branch, List.cons_append, List.nil_append] at here
    simp only [List.length_cons, stageGenerators, List.mem_cons]
    match i, here with
    | 0, here =>
      cases here
      refine ⟨fun mem => ?_, fun kind => by cases kind⟩
      rcases mem with same | mem
      · omega
      · have := later _ mem
        omega
    | 1, here =>
      cases here
      exact ⟨fun _ => rfl, fun _ => .inl rfl⟩
    | 2, here =>
      cases here
      refine ⟨fun mem => ?_, fun kind => by cases kind⟩
      rcases mem with same | mem
      · omega
      · have := later _ mem
        omega
    | i + 3, here =>
      have shifted : chain + 1 + (i + 3) = chain + 3 + 1 + i := by omega
      rw [shifted, ← ih (chain + 3) here]
      refine ⟨fun mem => mem.resolve_left (by omega), .inr⟩

/-- The generators of a voice are its nodes of this kind. -/
theorem mem_voiceGenerators_iff (sheet : Sheet τ) {base i : Nat} {component : Component τ}
    (here : sheet.components[i]? = some component) :
    base + i ∈ voiceGenerators base sheet.branches.length ↔ component.kind = .generator := by
  cases i with
  | zero =>
    cases here
    exact ⟨fun _ => rfl, fun _ => List.mem_cons_self⟩
  | succ i =>
    have shifted : base + (i + 1) = base + 1 + i := by omega
    rw [shifted, ← mem_stageGenerators_iff sheet base here, voiceGenerators,
      List.mem_cons]
    refine ⟨fun mem => mem.resolve_left ?_, .inr⟩
    omega

variable [Fourier]

/-- Nodes shown by the components of a voice are generators where the voice counts them so. -/
theorem Sheet.kind_of_shown {sheet : Sheet τ} {rate : Float32} {nodes : List (Node τ)}
    (shown : List.Forall₂ (Component.Shown rate) sheet.components nodes) {base i : Nat}
    {node : Node τ} (here : nodes[i]? = some node) :
    base + i ∈ voiceGenerators base sheet.branches.length ↔ node.kind = .generator := by
  obtain ⟨within, same⟩ := List.getElem?_eq_some_iff.mp here
  have listed : i < sheet.components.length := shown.length_eq ▸ within
  have fits := (List.forall₂_iff_get.mp shown).2 i listed within
  simp only [List.get_eq_getElem, same] at fits
  rw [mem_voiceGenerators_iff sheet (List.getElem?_eq_getElem listed), fits.kind_eq]

/-- The nodes of a voice are generators and gains. -/
theorem Sheet.kind_of_mem {sheet : Sheet τ} {rate : Float32} {nodes : List (Node τ)}
    (shown : List.Forall₂ (Component.Shown rate) sheet.components nodes) {node : Node τ}
    (mem : node ∈ nodes) : node.kind = .generator ∨ node.kind = .gain := by
  generalize sheet.components = components at shown
  induction shown with
  | nil => cases mem
  | @cons component _ _ _ first _ ih =>
    rcases List.mem_cons.mp mem with rfl | later
    · rw [first.kind_eq]
      cases component with
      | generator => exact .inl rfl
      | gain => exact .inr rfl
    · exact ih later

end Patchbay
