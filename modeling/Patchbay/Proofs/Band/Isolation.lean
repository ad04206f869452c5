import Patchbay.Project.Demo
import Patchbay.Proofs.Band.Hearing

/-!
# Instruments do not hear each other

What an instrument feeds into the destination hangs on the history of this instrument alone. Two
transports that were told the same about it feed the same, whatever else they were told.
-/
namespace Patchbay

variable {τ : Type}

/-- The nodes of a rack. -/
def Rack.keys (rack : Rack) : List NodeKey :=
  rack.oscillators.values.flatMap (·.keys) ++ rack.gains.values.map (·.key)

theorem Racks.owns_iff {racks : Racks} {name : String} {key : NodeKey} :
    racks.Owns name key ↔ ∃ rack, racks name = some rack ∧ key ∈ rack.keys := by
  simp only [Rack.keys, List.mem_append, List.mem_flatMap, List.mem_map, Roster.mem_values]
  constructor
  · intro owned
    rcases owned.ring_or_stage with ⟨id, ring, found, mem⟩ | ⟨id, stage, found, rfl⟩
    · obtain ⟨rack, found_rack, found⟩ := ring?_eq_some_iff.mp found
      exact ⟨rack, found_rack, .inl ⟨ring, ⟨id, found⟩, mem⟩⟩
    · obtain ⟨rack, found_rack, found⟩ := stage?_eq_some_iff.mp found
      exact ⟨rack, found_rack, .inr ⟨stage, ⟨id, found⟩, rfl⟩⟩
  · rintro ⟨rack, found_rack, ⟨ring, ⟨id, found⟩, mem⟩ | ⟨stage, ⟨id, found⟩, rfl⟩⟩
    · exact owns_ring (ring?_eq_some_iff.mpr ⟨rack, found_rack, found⟩) mem
    · exact owns_stage (stage?_eq_some_iff.mpr ⟨rack, found_rack, found⟩)

/-! ### Other instruments -/

namespace Project

variable {band : String → Prop} {project middle other : Project τ} {name : String}

theorem AgreesOn.trans (first : project.AgreesOn band middle) (second : middle.AgreesOn band other) :
    project.AgreesOn band other where
  playing := second.playing.trans first.playing
  instruments := fun name member =>
    (second.instruments name member).trans (first.instruments name member)
  cables := fun name member => (second.cables name member).trans (first.cables name member)
  notes := fun name member => (second.notes name member).trans (first.notes name member)

/-- To enter an instrument outside of the band is no matter of the band. -/
theorem agreesOn_addInstrument (outside : ¬ band name) (project : Project τ)
    (instrument : Instrument) (cables : List Cable) :
    project.AgreesOn band (project.addInstrument name instrument cables) where
  playing := rfl
  instruments := fun place member =>
    Roster.find?_insert_of_ne (fun same : place = name => outside (same ▸ member)) ..
  cables := fun place member => congrArg (Option.getD · [])
    (Roster.find?_insert_of_ne (fun same : place = name => outside (same ▸ member)) ..)
  notes := fun _ _ => rfl

theorem agreesOn_addTrack (outside : ¬ band name) (project : Project τ) (notes : List (Note τ)) :
    project.AgreesOn band (project.addTrack name notes) where
  playing := rfl
  instruments := fun _ _ => rfl
  cables := fun _ _ => rfl
  notes := fun place member => congrArg (Option.getD · [])
    (Roster.find?_insert_of_ne (fun same : place = name => outside (same ▸ member)) ..)

end Project

/-! ### Signals -/

namespace Transport

/-- The nodes of an instrument that feed the destination, one for each connection, in the order of
the connections. -/
def sources (transport : Transport τ) (name : String) : List NodeKey :=
  (transport.graph.connections.filter fun c => c.target == Graph.destination &&
    (transport.racks.find? name).any fun rack => c.source ∈ rack.keys).map (·.source)

/-- The signals that the nodes of an instrument feed into the destination while frames are rendered.
A suspended transport renders no chunk. -/
def fed [TimeAxis τ] (transport : Transport τ) (name : String) (n : Nat) :
    Except Fault Graph.Signals :=
  if transport.graph.clock.running then
    transport.graph.signals (transport.sources name) (Graph.chunks n)
  else .ok []

end Transport

/-! ### The same signals -/

namespace Racks

variable [TimeAxis τ] [Fourier] {band : String → Prop} {f : NodeKey → NodeKey}
  {racks racks' : Racks}
  {graph graph' : Graph τ}

omit [TimeAxis τ] in
/-- Nodes of the band that feed the destination do so in both graphs. -/
theorem Alike.feeds (alike : Alike band f racks graph racks' graph') {key : NodeKey}
    (held : racks.Holds band key) (feeds : Feeds graph.connections key Graph.destination) :
    Feeds graph'.connections (f key) Graph.destination := by
  obtain ⟨inlet, made⟩ := feeds
  have mem : (⟨key, Graph.destination, inlet⟩ : Connection) ∈ racks.wiring band graph :=
    mem_wiring.mpr ⟨made, held⟩
  have image := List.mem_map_of_mem (f := Connection.map f) mem
  rw [← alike.wiring] at image
  have made' := (mem_wiring.mp image).1
  rw [Connection.map, alike.destination] at made'
  exact ⟨inlet, made'⟩

/-- What feeds the destination gives the same signals in both graphs. -/
theorem Alike.signals (alike : Alike band f racks graph racks' graph') {sizes : List Nat}
    (fits : ∀ n ∈ sizes, n ≤ maxBlockSize) {keys : List NodeKey}
    (held : ∀ key ∈ keys, racks.Holds band key)
    (feed : ∀ key ∈ keys, Feeds graph.connections key Graph.destination) :
    ∃ signals, graph.signals keys sizes = .ok signals ∧
      graph'.signals (keys.map f) sizes = .ok signals := by
  induction sizes generalizing graph graph' with
  | nil => exact ⟨[], rfl, rfl⟩
  | cons n rest ih =>
    have small := fits n List.mem_cons_self
    obtain ⟨after, after', run, run', chunked, chunked', onward⟩ := alike.chunk small
    have feed_after (key : NodeKey) (mem : key ∈ keys) :
        Feeds after.connections key Graph.destination := by
      rw [(Graph.elapsed_renderChunk run).connections]
      exact feed key mem
    obtain ⟨more, others, others'⟩ := ih onward
      (fun size mem => fits size (List.mem_cons_of_mem n mem)) feed_after
    have planned {racks : Racks} {graph : Graph τ} (sound : racks.Sound graph) {key : NodeKey}
        (feeds : Feeds graph.connections key Graph.destination) : key ∈ graph.prepare.1.keys :=
      (sound.wellFormed.orders.reached key).mpr (.single feeds)
    have chunk (key : NodeKey) (mem : key ∈ keys) : after.given n key =
          .ok ((List.range n).map fun i => graph.sampleAt i key) ∧
        after'.given n (f key) = .ok ((List.range n).map fun i => graph.sampleAt i key) := by
      have here := held key mem
      have ⟨_, _, owned⟩ := here
      have ⟨_, _, owned'⟩ := alike.holds here
      constructor
      · exact chunked.given_eq small (onward.sound.contains_of_owns owned)
          (planned alike.sound (feed key mem))
      · rw [chunked'.given_eq small (onward.sound'.contains_of_owns owned')
          (planned alike.sound' (alike.feeds here (feed key mem)))]
        simp only [alike.sampleAt _ (.inl here)]
    refine ⟨keys.map (fun key => (List.range n).map fun i => graph.sampleAt i key) :: more, ?_, ?_⟩
    · refine Fault.bind_ok_iff.mpr ⟨_, run, Fault.bind_ok_iff.mpr ⟨_, ?_,
        Fault.bind_ok_iff.mpr ⟨more, others, rfl⟩⟩⟩
      exact Fault.mapM_eq_ok fun key mem => (chunk key mem).1
    · refine Fault.bind_ok_iff.mpr ⟨_, run', Fault.bind_ok_iff.mpr ⟨_, ?_,
        Fault.bind_ok_iff.mpr ⟨more, others', rfl⟩⟩⟩
      rw [List.mapM_map]
      exact Fault.mapM_eq_ok fun key mem => (chunk key mem).2

end Racks

namespace Transport

variable {transport other : Transport τ} {name : String}

theorem mem_sources {key : NodeKey} : key ∈ transport.sources name ↔
    Feeds transport.graph.connections key Graph.destination ∧
      Racks.Owns transport.racks.find? name key := by
  simp only [sources, List.mem_map, List.mem_filter, Bool.and_eq_true, beq_iff_eq,
    Option.any_eq_true, decide_eq_true_eq, ← Racks.owns_iff]
  constructor
  · rintro ⟨⟨source, target, inlet⟩, ⟨made, rfl, owned⟩, rfl⟩
    exact ⟨⟨inlet, made⟩, owned⟩
  · rintro ⟨⟨inlet, made⟩, owned⟩
    exact ⟨_, ⟨made, rfl, owned⟩, rfl⟩

-- the demo's instrument is heard through its one gain
example : ((create {} : Transport Float).perform (.reconcile Project.demo)).sources
    "inst0" = [3] := by
  decide +kernel

section Isolating

variable [Fourier]

/-- The sources of an instrument stand in the same order under other keys. -/
theorem sources_alike {f : NodeKey → NodeKey} (alike : Racks.Alike (· = name) f
      transport.racks.find? transport.graph other.racks.find? other.graph) :
    other.sources name = (transport.sources name).map f := by
  classical
  -- the sources begin the connections of the instrument that end in the destination
  have begin_wiring (transport : Transport τ) : transport.sources name =
      ((Racks.wiring transport.racks.find? (· = name) transport.graph).filter
        (·.target == Graph.destination)).map (·.source) := by
    simp only [sources, Racks.wiring, Racks.fromBand, List.filter_filter]
    refine congrArg _ (List.filter_congr fun c _ => congrArg _ ?_)
    rw [Bool.eq_iff_iff]
    simp only [Option.any_eq_true, decide_eq_true_eq, ← Racks.owns_iff, Racks.Holds,
      exists_eq_left]
  rw [begin_wiring, begin_wiring, alike.wiring, List.filter_map, List.map_map, List.map_map]
  refine congrArg _ (List.filter_congr fun c mem => ?_)
  rw [Bool.eq_iff_iff]
  simp only [Function.comp_apply, Connection.map, beq_iff_eq]
  refine ⟨fun same => ?_, fun destined => by rw [destined, alike.destination]⟩
  rcases alike.sound.target_of_mem_wiring mem with destined | held
  · exact destined
  · exact absurd same (alike.renames.inner _ held)

variable [TimeAxis τ]

theorem Unison.fed (unison : Unison (· = name) transport other) (n : Nat) :
    ∃ signals, transport.fed name n = .ok signals ∧ other.fed name n = .ok signals := by
  obtain ⟨f, alike⟩ := unison.alike
  unfold Transport.fed
  rw [unison.clock, sources_alike alike]
  split
  · exact alike.signals (fun size mem => Graph.le_of_mem_chunks mem)
      (fun key mem => ⟨name, rfl, (mem_sources.mp mem).2⟩) fun key mem => (mem_sources.mp mem).1
  · exact ⟨[], rfl, rfl⟩

/-- New transports at one rate are in unison. -/
theorem unison_create {settings settings' : Settings}
    (rate : settings'.sampleRate = settings.sampleRate) (band : String → Prop) :
    Unison band (create settings : Transport τ) (create settings') where
  alike := by
    have sound' : (create settings' : Transport τ).Sound := sound_create settings'
    refine ⟨id, sound_create settings, sound', ?_, rfl, fun _ _ _ => .none, fun _ _ _ => rfl,
      fun _ _ => rfl, ?_, rfl⟩
    · simp only [create, Graph.atRate, rate]
    · rintro key ⟨name, -, holder, rfl, mem⟩
      cases holder <;> cases mem
  state := rfl
  location := rfl

/-- Whatever two transports at one rate are told, as long as they are told the same about an
instrument and about whether to play: its nodes feed the same signals into the destination. -/
theorem instrument_isolated {settings settings' : Settings}
    (rate : settings'.sampleRate = settings.sampleRate)
    (fits : binCount settings.sampleRate ≤ Partials.maxBins) (name : String)
    {operations operations' : List (Operation τ)}
    (agree : List.Forall₂ (Operation.AgreesOn (· = name)) operations operations') :
    ∃ signals : List Graph.Signals,
      (create settings).observed (·.fed name) operations = signals.map .ok ∧
      (create settings').observed (·.fed name) operations' = signals.map .ok :=
  (unison_create rate _).observed_eq (fun _ _ n unison => unison.fed n) fits agree

end Isolating

theorem instrument_isolated_demo :
    let edited := (Project.demo.addInstrument "inst1" Project.modulated.1 []).addTrack "inst1" []
    let operations : List (Operation Float) :=
      [.reconcile Project.demo, .render 300, .reconcile Project.demo, .seek 5.0, .render 2500]
    let operations' : List (Operation Float) :=
      [.reconcile Project.demo, .render 300, .reconcile edited, .seek 5.0, .render 2500]
    binCount ({} : Settings).sampleRate ≤ Partials.maxBins ∧
      List.Forall₂ (Operation.AgreesOn (· = "inst0")) operations operations' ∧
      ∃ signals : List Graph.Signals,
        (create {}).observed (·.fed "inst0") operations = signals.map .ok ∧
        (create {}).observed (·.fed "inst0") operations' = signals.map .ok := by
  intro edited operations operations'
  have agrees : Project.demo.AgreesOn (· = "inst0") edited :=
    (Project.agreesOn_addInstrument (by decide) _ _ _).trans
      (Project.agreesOn_addTrack (by decide) _ _)
  have agree : List.Forall₂ (Operation.AgreesOn (· = "inst0")) operations operations' :=
    .cons (.refl _ _) (.cons rfl (.cons agrees (.cons rfl (.cons rfl .nil))))
  exact ⟨by decide, agree, instrument_isolated rfl (by decide) "inst0" agree⟩

end Transport

end Patchbay
