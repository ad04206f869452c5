import Patchbay.Proofs.Rack.Seating

/-!
# What ids stand for

A rack that is described again and again keeps every part that it ever had. So what an id stands for
hangs on all descriptions so far, and on nothing else that is done to the rack or its graph. An
oscillator or a gain keeps its nodes, which are its own and live until somebody takes them out.
-/
namespace Patchbay

variable {τ : Type}

/-- What an id stands for by descriptions, the latest one last. -/
def Instrument.resolve (described : List Instrument) (id : String) : Option (Endpoint Site) :=
  if described.any (·.oscillators.contains id) then some (.oscillator (.output id) (.control id))
  else if described.any (·.gains.contains id) then some (.gain (.stage id))
  else
    match (described.filterMap (·.numbers.find? id)).getLast? with
    | some value => some (.number value)
    | none =>
      if described.any (·.source == id) then some .source
      else if described.any (·.sink == id) then some (.sink .destination)
      else none

/-- The nodes that make a part of their own, each with its kind. -/
def Endpoint.nodes {κ : Type} : Endpoint κ → List (κ × Kind)
  | .oscillator output control => [(output, .gain), (control, .constant)]
  | .gain key => [(key, .gain)]
  | .number _ | .source | .sink _ => []

/-- An operation leaves all kinds of nodes but that of a node that it removes. -/
theorem Graph.WellFormed.kind?_perform [Fourier] [TimeAxis τ] {graph : Graph τ}
    (well : graph.WellFormed) {key : NodeKey} (issued : key < graph.nodes.size)
    (operation : Graph.Operation τ) :
    (graph.perform operation).kind? key = graph.kind? key ∨ operation = .remove key := by
  simp only [Graph.kind?]
  rcases well.node?_perform issued operation with ⟨-, same⟩ | ⟨removes, -⟩ |
    ⟨knob, value, -, turned⟩ | ⟨time, -, armed⟩ | ⟨time, -, armed⟩ | ⟨frames, samples, -, rendered⟩
  · rw [same]
    exact .inl rfl
  · exact .inr removes
  · rw [turned, Option.map_map]
    exact .inl (Option.map_congr fun node _ => node.kind_setValue? knob value)
  · rw [armed, Option.map_map]
    exact .inl (Option.map_congr fun node _ => node.kind_mapGenerator _)
  · rw [armed, Option.map_map]
    exact .inl (Option.map_congr fun node _ => node.kind_mapGenerator _)
  · exact .inl ((elapsed_render rendered).phases.kind? key)

/-- A fold that enters something under the name of each entry comes to hold these names besides
those it held before. -/
theorem contains_foldl {σ α : Type} (holds : σ → String → Bool) {step : σ → String × α → σ}
    (each : ∀ state entry id, holds (step state entry) id = (holds state id || id == entry.1))
    (entries : List (String × α)) (state : σ) (id : String) :
    holds (entries.foldl step state) id = (holds state id || (entries.map (·.1)).contains id) := by
  induction entries generalizing state with
  | nil => simp
  | cons entry rest ih => simp [ih, each, Bool.or_assoc]

namespace Rack

/-! ### Descriptions that a rack remembers -/

/-- A rack holds just the parts of the descriptions, with the latest number under each id. -/
structure Remembers (rack : Rack) (instruments : List Instrument) : Prop where
  oscillators : ∀ id, rack.oscillators.contains id = instruments.any (·.oscillators.contains id)
  gains : ∀ id, rack.gains.contains id = instruments.any (·.gains.contains id)
  numbers : ∀ id, rack.numbers.find? id = (instruments.filterMap (·.numbers.find? id)).getLast?
  sources : ∀ id, rack.sources.contains id = instruments.any (·.source == id)
  sinks : ∀ id, rack.sinks.contains id = instruments.any (·.sink == id)

variable {rack rack' : Rack} {instruments : List Instrument}

theorem remembers_empty : Rack.empty.Remembers [] :=
  ⟨fun _ => rfl, fun _ => rfl, fun _ => rfl, fun _ => rfl, fun _ => rfl⟩

theorem Remembers.site?_eq (remembers : rack.Remembers instruments) (id : String) :
    rack.site? id = Instrument.resolve instruments id := by
  cases found : rack.numbers.find? id <;>
    simp [site?, Instrument.resolve, ← remembers.oscillators, ← remembers.gains,
      ← remembers.numbers, ← remembers.sources, ← remembers.sinks, found]

theorem Remembers.sameFrame (remembers : rack.Remembers instruments) (same : rack.SameFrame rack') :
    rack'.Remembers instruments where
  oscillators := fun id => (same.contains id).trans (remembers.oscillators id)
  gains := same.gains ▸ remembers.gains
  numbers := by
    have numbers : rack'.numbers = rack.numbers := congrArg (·.numbers) same.fittings
    exact numbers ▸ remembers.numbers
  sources := by
    have sources : rack'.sources = rack.sources := congrArg (·.sources) same.fittings
    exact sources ▸ remembers.sources
  sinks := by
    have sinks : rack'.sinks = rack.sinks := congrArg (·.sinks) same.fittings
    exact sinks ▸ remembers.sinks

/-- To set oscillators adds them to the rack and leaves all that is not an oscillator. -/
theorem setOscillators_spec (instrument : Instrument) (entries : List (String × Partials))
    (state : Rack × Graph τ) :
    let last := entries.foldl
      (fun (rack, graph) (id, partials) => rack.setOscillator instrument graph id partials) state
    last.1.fittings = state.1.fittings ∧ ∀ id, last.1.oscillators.contains id =
      (state.1.oscillators.contains id || (entries.map (·.1)).contains id) := by
  refine ⟨?_, fun id => ?_⟩
  · refine List.foldlRecOn (motive := fun last : Rack × Graph τ =>
      last.1.fittings = state.1.fittings) entries _ rfl ?_
    exact fun last same entry _ => same
  · exact contains_foldl (fun state : Rack × Graph τ => state.1.oscillators.contains)
      (fun state entry id => Roster.contains_insert ..) entries state id

/-- To set gains adds them to the rack and leaves all that is not a gain. -/
theorem setGains_spec (entries : List (String × Float32)) (state : Rack × Graph τ) :
    let last := entries.foldl
      (fun (rack, graph) (id, factor) => rack.setGain graph id factor) state
    { last.1 with gains := .empty } = { state.1 with gains := .empty } ∧ ∀ id,
      last.1.gains.contains id =
        (state.1.gains.contains id || (entries.map (·.1)).contains id) := by
  refine ⟨?_, fun id => ?_⟩
  · refine List.foldlRecOn (motive := fun last : Rack × Graph τ =>
      { last.1 with gains := .empty } = { state.1 with gains := .empty }) entries _ rfl ?_
    exact fun last same entry _ => same
  · exact contains_foldl (fun state : Rack × Graph τ => state.1.gains.contains)
      (fun state entry id => Roster.contains_insert ..) entries state id

/-- The parts of a rack after an instrument was set up in it. -/
theorem furnish_spec (rack : Rack) (graph : Graph τ) (instrument : Instrument) :
    let after := (rack.furnish graph instrument).1
    (∀ id, after.oscillators.contains id =
      (rack.oscillators.contains id || instrument.oscillators.contains id)) ∧
    (∀ id, after.gains.contains id = (rack.gains.contains id || instrument.gains.contains id)) ∧
    (∀ id, after.numbers.find? id = (instrument.numbers.find? id).or (rack.numbers.find? id)) ∧
    after.sources = rack.sources.insert instrument.source () ∧
    after.sinks = rack.sinks.insert instrument.sink Graph.destination := by
  obtain ⟨fittings, voiced⟩ := setOscillators_spec instrument instrument.oscillators.entries
    (rack, graph.logAll (instrument.sharedIds.map .idShared))
  obtain ⟨rest, staged⟩ := setGains_spec instrument.gains.entries
    (instrument.oscillators.entries.foldl
      (fun (rack, graph) (id, partials) => rack.setOscillator instrument graph id partials)
      (rack, graph.logAll (instrument.sharedIds.map .idShared)))
  have oscillators := congrArg (·.oscillators) rest
  have gains := congrArg (·.gains) fittings
  have numbers := (congrArg (·.numbers) rest).trans (congrArg (·.numbers) fittings)
  have sources := (congrArg (·.sources) rest).trans (congrArg (·.sources) fittings)
  have sinks := (congrArg (·.sinks) rest).trans (congrArg (·.sinks) fittings)
  dsimp only [Rack.fittings] at oscillators gains numbers sources sinks
  refine ⟨fun id => ?_, fun id => ?_, fun id => ?_, ?_, ?_⟩
  · rw [instrument.oscillators.contains_eq_names, ← voiced, ← oscillators]
    rfl
  · rw [instrument.gains.contains_eq_names, ← gains, ← staged]
    rfl
  · rw [← numbers]
    exact Roster.find?_foldl_insert _ instrument.numbers.names_nodup _ id
  · rw [← sources]
    rfl
  · rw [← sinks]
    rfl

theorem Remembers.furnish (remembers : rack.Remembers instruments) (graph : Graph τ)
    (instrument : Instrument) :
    (rack.furnish graph instrument).1.Remembers (instruments ++ [instrument]) := by
  obtain ⟨oscillators, gains, numbers, sources, sinks⟩ := rack.furnish_spec graph instrument
  constructor
  case oscillators =>
    intro id
    rw [oscillators, remembers.oscillators]
    simp
  case gains =>
    intro id
    rw [gains, remembers.gains]
    simp
  case numbers =>
    intro id
    rw [numbers, remembers.numbers, List.filterMap_append, List.getLast?_append]
    cases found : instrument.numbers.find? id <;> simp [found]
  case sources =>
    intro id
    rw [sources, Roster.contains_insert, remembers.sources]
    simp [Bool.beq_comm]
  case sinks =>
    intro id
    rw [sinks, Roster.contains_insert, remembers.sinks]
    simp [Bool.beq_comm]

/-! ### What changes no part -/

/-- A ring in the place of one with the same stage and control. -/
theorem sameFrame_putOscillator {id : String} {old : RingOscillator} (ring : RingOscillator)
    (found : rack.oscillators.find? id = some old)
    (output : ring.oscillator.output = old.oscillator.output)
    (control : ring.oscillator.control = old.oscillator.control) :
    rack.SameFrame (rack.putOscillator id ring) where
  ports := by
    intro other
    rw [putOscillator, Roster.find?_insert]
    split
    · rename_i here
      rw [here, found, Option.map_some, Option.map_some, output, control]
    · rfl
  fittings := rfl

theorem sameParts_patch (rack : Rack) (graph : Graph τ) (cables : List Cable) :
    rack.SameParts (rack.patch graph cables).1 :=
  List.foldlRecOn (motive := fun state : Rack × Graph τ => rack.SameParts state.1) cables _
    (rack.sameParts_unplug graph)
    fun state same cable _ => same.trans (state.1.sameParts_plug state.2 cable)

theorem sameFrame_free (rack : Rack) (graph : Graph τ) : rack.SameFrame (rack.free graph).1 where
  ports := fun id => by
    rw [find?_free, Option.map_map]
    rfl
  fittings := rfl

theorem retains_patch (rack : Rack) (graph : Graph τ) (cables : List Cable) :
    graph.Retains (rack.patch graph cables).2 :=
  List.foldlRecOn (motive := fun state : Rack × Graph τ => graph.Retains state.2) cables _
    (rack.retains_unplug graph)
    fun state retains cable _ => retains.trans (state.1.retains_plug state.2 cable)

theorem retains_halt [TimeAxis τ] (rack : Rack) (graph : Graph τ) :
    graph.Retains (rack.halt graph) :=
  .foldl graph (fun graph _ => .foldl graph (fun graph key =>
    ⟨by simp, fun other _ => Graph.kind?_modifyGenerator .., fun well =>
      well.modifyGenerator key _⟩) _) _

/-! ### Nodes that a rack holds -/

/-- The nodes at the sites of a rack live, but for those that are gone. No voice counts one of
them. -/
structure Housed (gone : NodeKey → Prop) (rack : Rack) (graph : Graph τ) : Prop where
  seated : rack.Seated graph
  alive : ∀ site key, rack.seat? site = some key → graph.kind? key = some site.kind ∨ gone key
  voices : ∀ key ∈ rack.tracked, key < graph.nodes.size ∧ ∀ site, rack.seat? site ≠ some key

variable {gone : NodeKey → Prop} {graph after : Graph τ}

/-- A site may take a new node of its kind, and voices may come to count new nodes. -/
theorem Housed.change (housed : rack.Housed gone graph) (seated : rack'.Seated after)
    (retains : graph.Retains after)
    (seats : ∀ site key, rack'.seat? site = some key → rack.seat? site = some key ∨
      graph.nodes.size ≤ key ∧ after.kind? key = some site.kind)
    (voices : ∀ key ∈ rack'.tracked, key ∈ rack.tracked ∨
      key < after.nodes.size ∧ ∀ site, rack'.seat? site ≠ some key) :
    rack'.Housed gone after where
  seated := seated
  alive := by
    intro site key sits
    rcases seats site key sits with old | ⟨-, kind⟩
    · rw [retains.kinds key (housed.seated.issued site key old)]
      exact housed.alive site key old
    · exact .inl kind
  voices := by
    intro key mem
    rcases voices key mem with old | new
    · obtain ⟨issued, apart⟩ := housed.voices key old
      refine ⟨issued.trans_le retains.size, fun site sits => ?_⟩
      rcases seats site key sits with sat | ⟨new, -⟩
      · exact apart site sat
      · exact absurd issued (Nat.not_lt.mpr new)
    · exact new

/-- Where all sites and voices keep their nodes, so does the rack. -/
theorem Housed.keep (housed : rack.Housed gone graph) (same : rack.SameFrame rack')
    (tracked : ∀ key ∈ rack'.tracked, key ∈ rack.tracked) (retains : graph.Retains after) :
    rack'.Housed gone after := by
  have sinks : rack'.sinks = rack.sinks := congrArg (·.sinks) same.fittings
  refine housed.change ?_ retains (fun site key sits => .inl ?_)
    fun key mem => .inl (tracked key mem)
  · exact (housed.seated.onward retains.onward).congr (seat?_sameFrame same)
      (sinks ▸ housed.seated.sinks)
  · rwa [seat?_sameFrame same] at sits

theorem mem_tracked_putOscillator {id : String} {ring : RingOscillator} {key : NodeKey}
    (mem : key ∈ (rack.putOscillator id ring).tracked) :
    key ∈ ring.oscillator.nodes ∨ key ∈ rack.tracked := by
  obtain ⟨other, found_ring, found, counted⟩ := mem_tracked.mp mem
  rw [putOscillator, Roster.find?_insert] at found
  split at found
  · cases found
    exact .inl counted
  · exact .inr (mem_tracked.mpr ⟨other, found_ring, found, counted⟩)

/-- All sites that have nodes keep them. -/
def KeepsSeats (rack rack' : Rack) : Prop :=
  ∀ site key, rack.seat? site = some key → rack'.seat? site = some key

theorem Housed.setOscillator (housed : rack.Housed gone graph) (instrument : Instrument)
    (id : String) (partials : Partials) :
    (rack.setOscillator instrument graph id partials).1.Housed gone
        (rack.setOscillator instrument graph id partials).2 ∧
      rack.KeepsSeats (rack.setOscillator instrument graph id partials).1 := by
  have seated := housed.seated.setOscillator instrument id partials
  cases found : rack.oscillators.find? id with
  | some ring =>
    rw [Racks.setOscillator_of_some instrument graph found] at seated ⊢
    have same := sameFrame_putOscillator
      ⟨{ ring.oscillator with partials }, instrument.signals, instrument.weights id, ring.memos⟩
      found rfl rfl
    refine ⟨housed.keep same (fun key mem => ?_) (.refl graph), fun site key sits => ?_⟩
    · rcases mem_tracked_putOscillator mem with counted | old
      · exact mem_tracked.mpr ⟨id, ring, found, counted⟩
      · exact old
    · rwa [seat?_sameFrame same]
  | none =>
    obtain ⟨after, set, grown⟩ :=
      Racks.setOscillator_of_none instrument graph housed.seated.wellFormed found partials
    rw [set] at seated ⊢
    have kind {i : Nat} {node : Node τ}
        (new : [Node.gain 1.0, .constant Oscillator.defaultFrequency][i]? = some node) :
        after.kind? (graph.nodes.size + i) = some node.kind := by
      rw [Graph.kind?, grown.node?_new, new, Option.map_some]
    refine ⟨housed.change seated (.of_grown graph grown) (fun site key sits => ?_)
      fun key mem => ?_, fun site key sits => ?_⟩
    · rw [seat?_putOscillator] at sits
      split at sits
      · rename_i here
        cases sits
        exact .inr ⟨Nat.le_refl _, here ▸ kind (i := 0) rfl⟩
      · split at sits
        · rename_i here
          cases sits
          exact .inr ⟨Nat.le_succ _, here ▸ kind (i := 1) rfl⟩
        · exact .inl sits
    · rcases mem_tracked_putOscillator mem with counted | old
      · cases counted
      · exact .inl old
    · rw [seat?_putOscillator]
      split
      · rename_i here
        rw [here, seat?, found] at sits
        cases sits
      · split
        · rename_i here
          rw [here, seat?, found] at sits
          cases sits
        · exact sits

theorem Housed.setGain (housed : rack.Housed gone graph) (id : String) (factor : Float32) :
    (rack.setGain graph id factor).1.Housed gone (rack.setGain graph id factor).2 ∧
      rack.KeepsSeats (rack.setGain graph id factor).1 := by
  have seated := housed.seated.setGain id factor
  have tracked (stage : GainStage) : (rack.putGain id stage).tracked = rack.tracked := rfl
  cases found : rack.gains.find? id with
  | some stage =>
    rw [Racks.setGain_of_some graph found] at seated ⊢
    have same (site : Site) :
        (rack.putGain id ⟨stage.key, factor⟩).seat? site = rack.seat? site := by
      rw [seat?_putGain]
      split
      · rename_i here
        rw [here, seat?, found, Option.map_some]
      · rfl
    refine ⟨housed.change seated (.setValue graph ..) (fun site key sits => .inl (same site ▸ sits))
      fun key mem => .inl mem, fun site key sits => (same site).trans sits⟩
  | none =>
    rw [Racks.setGain_of_none graph found] at seated ⊢
    have grown := graph.grown_add housed.seated.wellFormed (.gain factor) (by simp [Node.kind])
    refine ⟨housed.change seated (.of_grown graph grown) (fun site key sits => ?_)
      fun key mem => .inl mem, fun site key sits => ?_⟩
    · rw [seat?_putGain] at sits
      split at sits
      · rename_i here
        cases sits
        refine .inr ⟨Nat.le_refl _, ?_⟩
        rw [here, Graph.kind?, Graph.node?_add, if_pos rfl]
        rfl
      · exact .inl sits
    · rw [seat?_putGain]
      split
      · rename_i here
        rw [here, seat?, found] at sits
        cases sits
      · exact sits

theorem Housed.furnish (housed : rack.Housed gone graph) (instrument : Instrument) :
    (rack.furnish graph instrument).1.Housed gone (rack.furnish graph instrument).2 ∧
      rack.KeepsSeats (rack.furnish graph instrument).1 := by
  let Holds (state : Rack × Graph τ) : Prop :=
    state.1.Housed gone state.2 ∧ rack.KeepsSeats state.1
  have told : Holds (rack, graph.logAll (instrument.sharedIds.map .idShared)) :=
    ⟨housed.keep (.refl rack) (fun _ mem => mem) (.of_reported graph (graph.reported_logAll _)),
      fun _ _ sits => sits⟩
  have oscillators := List.foldlRecOn (motive := Holds) instrument.oscillators.entries _ told
    fun state holds entry _ => by
      obtain ⟨housed, keeps⟩ := holds.1.setOscillator instrument entry.1 entry.2
      exact ⟨housed, fun site key sits => keeps site key (holds.2 site key sits)⟩
  have gains := List.foldlRecOn (motive := Holds) instrument.gains.entries _ oscillators
    fun state holds entry _ => by
      obtain ⟨housed, keeps⟩ := holds.1.setGain entry.1 entry.2
      exact ⟨housed, fun site key sits => keeps site key (holds.2 site key sits)⟩
  -- numbers, sources and sinks have no nodes
  refine ⟨gains.1.change (housed.seated.furnish instrument) (.refl _) (fun site key sits => .inl ?_)
    fun key mem => .inl mem, fun site key sits => ?_⟩
  · cases site <;> exact sits
  · have sits := gains.2 site key sits
    cases site <;> exact sits

theorem Housed.patch (housed : rack.Housed gone graph) (cables : List Cable) :
    (rack.patch graph cables).1.Housed gone (rack.patch graph cables).2 := by
  have same := rack.sameParts_patch graph cables
  refine housed.keep same.sameFrame (fun key mem => ?_) (rack.retains_patch graph cables)
  obtain ⟨id, ring, found, counted⟩ := mem_tracked.mp mem
  obtain ⟨old, found, alike⟩ := same.ring found
  have nodes : old.oscillator.nodes = ring.oscillator.nodes := congrArg (·.oscillator.nodes) alike
  exact mem_tracked.mpr ⟨id, old, found, nodes ▸ counted⟩

/-- A voice that is built is counted by its ring. It takes no node of a site. -/
theorem Housed.sing [Fourier] [TimeAxis τ] (housed : rack.Housed gone graph) {id : String}
    {ring next : RingOscillator} (found : rack.oscillators.find? id = some ring) {note : Note τ}
    {position : τ} {delays : Delays τ}
    (scheduled : ring.schedule graph note position = .ok (delays, next, after)) :
    (rack.putOscillator id next).Housed gone after ∧
      rack.SameFrame (rack.putOscillator id next) := by
  obtain ⟨changed, output, control⟩ := RingOscillator.changedFrom_schedule scheduled
  have same := sameFrame_putOscillator next found output control
  have gains : (Engine.modulated ring).Gains (.modulated next) graph after := by
    have voiced : (Engine.modulated ring).schedule graph note position =
        .ok (delays, .modulated next, after) := by
      rw [Engine.schedule, scheduled]
      rfl
    exact Engine.gains_schedule voiced
  have retains := Graph.Retains.of_changedFrom graph changed
  refine ⟨housed.change ?_ retains (fun site key sits => .inl ?_) fun key mem => ?_, same⟩
  · exact (housed.seated.onward retains.onward).congr (seat?_sameFrame same) housed.seated.sinks
  · rwa [seat?_sameFrame same] at sits
  · rcases mem_tracked_putOscillator mem with counted | old
    · rcases List.mem_append.mp (gains.nodes.mem_iff.mp counted) with old | new
      · exact .inl (mem_tracked.mpr ⟨id, ring, found, old⟩)
      · obtain ⟨beyond, issued⟩ := (Graph.mem_keysSince changed.size).mp new
        refine .inr ⟨issued, fun site sits => Nat.not_lt.mpr beyond ?_⟩
        rw [seat?_sameFrame same] at sits
        exact housed.seated.issued site key sits
    · exact .inl old

theorem Housed.schedule [Fourier] [TimeAxis τ] (housed : rack.Housed gone graph) (note : Note τ)
    (position : τ) :
    (rack.schedule graph note position).state.1.Housed gone
        (rack.schedule graph note position).state.2 ∧
      rack.SameFrame (rack.schedule graph note position).state.1 := by
  refine Attempt.visit_keeps
    (P := fun state : Rack × Graph τ => state.1.Housed gone state.2 ∧ rack.SameFrame state.1)
    (fun state id ⟨housed, same⟩ => ?_) rack.active ⟨housed, .refl rack⟩
  dsimp only
  split
  · exact ⟨housed, same⟩
  · rename_i found
    split
    · rename_i scheduled
      obtain ⟨housed', same'⟩ := housed.sing found scheduled
      exact ⟨housed', same.trans same'⟩
    · exact ⟨housed, same⟩

theorem Housed.free (housed : rack.Housed gone graph) :
    (rack.free graph).1.Housed gone (rack.free graph).2 := by
  have sits : rack.seat? .destination = some Graph.destination := rfl
  have inner : Graph.destination ∉ rack.tracked := fun mem =>
    (housed.voices _ mem).2 .destination sits
  obtain ⟨after, run, -, -, -, -, nodes⟩ :=
    graph.foldl_remove housed.seated.wellFormed rack.tracked inner
  refine ⟨housed.seated.free, fun site key sits => ?_, fun key mem => ?_⟩
  · rw [seat?_sameFrame (rack.sameFrame_free graph)] at sits
    have spared : key ∉ rack.tracked := fun mem => (housed.voices key mem).2 site sits
    rw [snd_free, run, Graph.kind?, nodes, if_neg spared]
    exact housed.alive site key sits
  · obtain ⟨id, ring, found, counted⟩ := mem_tracked.mp mem
    rw [find?_free] at found
    obtain ⟨old, -, rfl⟩ := Option.map_eq_some_iff.mp found
    cases counted

/-! ### Parts and their nodes -/

/-- The node at a site that a rack has. -/
def keyAt (rack : Rack) (site : Site) : NodeKey :=
  (rack.seat? site).getD Graph.destination

theorem part?_eq_map_keyAt
    (sinks : ∀ id key, rack.sinks.find? id = some key → key = Graph.destination) (id : String) :
    rack.part? id = (rack.site? id).map (Endpoint.map rack.keyAt) := by
  refine part?_eq_map_site? (fun ring found => ?_) (fun stage found => ?_) fun key found => ?_
  · rw [keyAt, keyAt, seat?_output found, seat?_control found]
    exact ⟨rfl, rfl⟩
  · rw [keyAt, seat?_stage found]
    rfl
  · exact (sinks id key found).symm

/-- The nodes of a part are at sites under its id. -/
theorem sits_of_part? {id : String} {part : Part} (held : rack.part? id = some part)
    {node : NodeKey × Kind} (mem : node ∈ part.nodes) :
    ∃ site ∈ [Site.output id, .control id, .stage id],
      rack.seat? site = some node.1 ∧ site.kind = node.2 := by
  rcases part?_cases held with ⟨ring, found, rfl⟩ | ⟨stage, found, rfl⟩ | ⟨value, rfl⟩ | rfl |
    ⟨key, found, rfl⟩
  · rcases List.mem_pair.mp mem with rfl | rfl
    · exact ⟨.output id, by simp, seat?_output found, rfl⟩
    · exact ⟨.control id, by simp, seat?_control found, rfl⟩
  · cases List.mem_singleton.mp mem
    exact ⟨.stage id, by simp, seat?_stage found, rfl⟩
  all_goals cases mem

/-- What an id stands for keeps its nodes. Only an oscillator of the same id comes before a gain. -/
theorem KeepsSeats.part? (keeps : rack.KeepsSeats rack') {id : String} {part : Part}
    (held : rack.part? id = some part) (nodes : part.nodes ≠ []) :
    rack'.part? id = some part ∨ ∃ key, part = .gain key ∧ rack'.oscillators.contains id := by
  rcases part?_cases held with ⟨ring, found, rfl⟩ | ⟨stage, found, rfl⟩ | ⟨value, rfl⟩ | rfl |
    ⟨key, found, rfl⟩
  · have output := keeps _ _ (seat?_output found)
    have control := keeps _ _ (seat?_control found)
    obtain ⟨ring', found', same_output⟩ := Option.map_eq_some_iff.mp output
    obtain ⟨_, again, same_control⟩ := Option.map_eq_some_iff.mp control
    cases found'.symm.trans again
    left
    rw [Rack.part?, found', ← same_output, ← same_control]
  · obtain ⟨stage', found', same⟩ := Option.map_eq_some_iff.mp (keeps _ _ (seat?_stage found))
    cases voiced : rack'.oscillators.find? id with
    | some ring => exact .inr ⟨stage.key, rfl, by rw [Roster.contains, voiced, Option.isSome_some]⟩
    | none =>
      left
      simp only [Rack.part?, voiced, found', same]
  all_goals exact absurd rfl nodes

/-- Where an id stands for a gain there is no oscillator under it. -/
theorem contains_of_gain {id : String} {key : NodeKey} (held : rack.part? id = some (.gain key)) :
    rack.oscillators.contains id = false := by
  rw [Roster.contains]
  cases voiced : rack.oscillators.find? id with
  | none => rfl
  | some ring =>
    rw [part?, voiced] at held
    cases held

/-- Parts of different ids share no node. -/
theorem Seated.nodes_apart (seated : rack'.Seated graph) (keeps : rack.KeepsSeats rack')
    {id other : String} (different : other ≠ id) {part part' : Part}
    (held : rack.part? id = some part) (held' : rack'.part? other = some part')
    {node node' : NodeKey × Kind} (mem : node ∈ part.nodes) (mem' : node' ∈ part'.nodes) :
    node'.1 ≠ node.1 := by
  intro same
  obtain ⟨site, of_id, sits, -⟩ := sits_of_part? held mem
  obtain ⟨site', of_other, sits', -⟩ := sits_of_part? held' mem'
  cases seated.apart site site' node.1 (keeps _ _ sits) (same ▸ sits')
  have : id = other := by
    simp only [List.mem_cons, List.not_mem_nil, or_false] at of_id of_other
    rcases of_id with rfl | rfl | rfl <;> simpa using of_other
  exact different this.symm

/-! ### What is done to a rack -/

/-- What can be done with a rack, and with its graph besides. -/
inductive Act (τ : Type) where
  | furnish (instrument : Instrument)
  | patch (cables : List Cable)
  | schedule (note : Note τ) (position : τ)
  | free
  | halt
  | elsewhere (operation : Graph.Operation τ)

/-- The descriptions among what was done. -/
def described (acts : List (Act τ)) : List Instrument :=
  acts.filterMap fun
    | .furnish instrument => some instrument
    | _ => none

variable [TimeAxis τ] [Fourier]

/-- A rack and its graph after something was done. A note that cannot be built is built in part. -/
def act (state : Rack × Graph τ) : Act τ → Rack × Graph τ
  | .furnish instrument => state.1.furnish state.2 instrument
  | .patch cables => state.1.patch state.2 cables
  | .schedule note position => (state.1.schedule state.2 note position).state
  | .free => state.1.free state.2
  | .halt => (state.1, state.1.halt state.2)
  | .elsewhere operation => (state.1, state.2.perform operation)

/-- A rack and its graph after all that was done since they were made. -/
def enact (rate : Float32) (acts : List (Act τ)) : Rack × Graph τ :=
  acts.foldl act (.empty, .atRate rate)

/-- Somebody took a node that lived out of the graph. -/
def Removed (rate : Float32) (acts : List (Act τ)) (key : NodeKey) : Prop :=
  ∃ before later, acts = before ++ .elsewhere (.remove key) :: later ∧
    (enact rate before).2.contains key

theorem Housed.perform (housed : rack.Housed gone graph) (operation : Graph.Operation τ) :
    rack.Housed (fun key => gone key ∨ operation = .remove key ∧ graph.contains key)
      (graph.perform operation) := by
  have well := housed.seated.wellFormed
  refine ⟨housed.seated.onward (.perform graph operation), fun site key sits => ?_,
    fun key mem => ?_⟩
  · have alive := housed.alive site key sits
    rcases well.kind?_perform (housed.seated.issued site key sits) operation with same | removes
    · exact same ▸ alive.imp_right .inl
    · right
      rcases alive with kind | gone
      · exact .inr ⟨removes, by rw [Graph.contains_eq_isSome_kind?, kind, Option.isSome_some]⟩
      · exact .inl gone
  · obtain ⟨issued, apart⟩ := housed.voices key mem
    exact ⟨issued.trans_le (Graph.Succeeds.perform _ operation).size, apart⟩

omit [TimeAxis τ] [Fourier] in
theorem Housed.mono {gone' : NodeKey → Prop} (housed : rack.Housed gone graph)
    (more : ∀ key, gone key → gone' key) : rack.Housed gone' graph :=
  ⟨housed.seated, fun site key sits => (housed.alive site key sits).imp_right (more key),
    housed.voices⟩

/-- Nothing that is done takes nodes from the sites of a rack, but to remove them from the graph. -/
theorem Housed.act {state : Rack × Graph τ} (housed : state.1.Housed gone state.2) (next : Act τ) :
    (Rack.act state next).1.Housed
        (fun key => gone key ∨ next = .elsewhere (.remove key) ∧ state.2.contains key)
        (Rack.act state next).2 ∧
      state.1.KeepsSeats (Rack.act state next).1 := by
  have still {rack' : Rack} (same : state.1.SameFrame rack') : state.1.KeepsSeats rack' :=
    fun site _ sits => (seat?_sameFrame same site).trans sits
  cases next with
  | furnish instrument =>
    obtain ⟨housed', keeps⟩ := housed.furnish instrument
    exact ⟨housed'.mono fun _ => .inl, keeps⟩
  | patch cables =>
    exact ⟨(housed.patch cables).mono fun _ => .inl,
      still (state.1.sameParts_patch state.2 cables).sameFrame⟩
  | schedule note position =>
    obtain ⟨housed', same⟩ := housed.schedule note position
    exact ⟨housed'.mono fun _ => .inl, still same⟩
  | free => exact ⟨housed.free.mono fun _ => .inl, still (state.1.sameFrame_free state.2)⟩
  | halt =>
    exact ⟨(housed.keep (.refl _) (fun _ mem => mem) (state.1.retains_halt state.2)).mono
      fun _ => .inl, still (.refl _)⟩
  | elsewhere operation =>
    refine ⟨(housed.perform operation).mono fun key => .imp_right ?_, still (.refl _)⟩
    exact fun ⟨removes, lived⟩ => ⟨removes ▸ rfl, lived⟩

theorem enact_concat (rate : Float32) (acts : List (Act τ)) (next : Act τ) :
    enact rate (acts ++ [next]) = Rack.act (enact rate acts) next := by
  rw [enact, List.foldl_append]
  rfl

theorem housed_enact (rate : Float32) (acts : List (Act τ)) :
    (enact rate acts).1.Housed (Removed rate acts) (enact rate acts).2 := by
  induction acts using List.reverseRecOn with
  | nil =>
    have seated := (Built.empty (Graph.Reachable.create (τ := τ) rate)).seated
    refine ⟨seated, fun site key sits => .inl ?_, fun key mem => nomatch mem⟩
    cases site <;> cases sits
    exact (seated.wellFormed.destined _).mpr rfl
  | append_singleton acts next ih =>
    rw [enact_concat]
    refine (ih.act next).1.mono fun key => ?_
    rintro (⟨before, later, rfl, lived⟩ | ⟨rfl, lived⟩)
    · exact ⟨before, later ++ [next], by simp, lived⟩
    · exact ⟨acts, [], rfl, lived⟩

theorem keepsSeats_enact (rate : Float32) (before later : List (Act τ)) :
    (enact rate before).1.KeepsSeats (enact rate (before ++ later)).1 := by
  induction later using List.reverseRecOn with
  | nil =>
    rw [List.append_nil]
    exact fun _ _ sits => sits
  | append_singleton later next ih =>
    rw [← List.append_assoc, enact_concat]
    exact fun site key sits => ((housed_enact rate _).act next).2 site key (ih site key sits)

theorem remembers_enact (rate : Float32) (acts : List (Act τ)) :
    (enact rate acts).1.Remembers (described acts) := by
  induction acts using List.reverseRecOn with
  | nil => exact remembers_empty
  | append_singleton acts next ih =>
    have housed := housed_enact rate acts
    have undescribed {rack' : Rack} (same : (enact rate acts).1.SameFrame rack') :
        rack'.Remembers (described acts ++ []) :=
      (List.append_nil (described acts)).symm ▸ ih.sameFrame same
    rw [enact_concat, described, List.filterMap_append]
    cases next with
    | furnish instrument => exact ih.furnish _ instrument
    | patch cables => exact undescribed (sameParts_patch _ _ cables).sameFrame
    | schedule note position => exact undescribed (housed.schedule note position).2
    | free => exact undescribed (sameFrame_free _ _)
    | halt | elsewhere => exact undescribed (.refl _)

/-- After whatever was done to a rack and its graph, an id stands for the part of highest rank that
any description so far gave it, and a number for the latest value. An oscillator or a gain that an
id stood for once keeps its nodes: they live, of their kind, unless somebody removed them, and no
other id ever stands for one of them. The id stands for the same part later, but that an oscillator
described later comes before a gain. -/
theorem stands_for_described (rate : Float32) (before later : List (Act τ)) :
    let was := enact rate before
    let now := enact rate (before ++ later)
    (∀ id, now.1.part? id =
      (Instrument.resolve (described (before ++ later)) id).map (Endpoint.map now.1.keyAt)) ∧
    ∀ id part, was.1.part? id = some part → part.nodes ≠ [] →
      (now.1.part? id = some part ∨
        ∃ key, part = .gain key ∧ (described later).any (·.oscillators.contains id)) ∧
      ∀ node ∈ part.nodes,
        (now.2.kind? node.1 = some node.2 ∨ Removed rate (before ++ later) node.1) ∧
        ∀ other part', other ≠ id → now.1.part? other = some part' →
          ∀ node' ∈ part'.nodes, node'.1 ≠ node.1 := by
  intro was now
  have housed : now.1.Housed _ now.2 := housed_enact rate (before ++ later)
  have keeps : was.1.KeepsSeats now.1 := keepsSeats_enact rate before later
  have remembers : now.1.Remembers _ := remembers_enact rate (before ++ later)
  refine ⟨fun id => ?_, fun id part held nodes => ⟨?_, fun node mem => ⟨?_, ?_⟩⟩⟩
  · rw [part?_eq_map_keyAt housed.seated.sinks, remembers.site?_eq]
  · refine (keeps.part? held nodes).imp_right fun ⟨key, gain, voiced⟩ => ⟨key, gain, ?_⟩
    have unvoiced : (described before).any (·.oscillators.contains id) = false := by
      rw [← (remembers_enact rate before).oscillators]
      exact contains_of_gain (gain ▸ held)
    rw [remembers.oscillators, described, List.filterMap_append, List.any_append] at voiced
    exact (Bool.or_eq_true _ _ ▸ voiced).resolve_left (by rw [← described, unvoiced]; simp)
  · obtain ⟨site, -, sits, kind⟩ := sits_of_part? held mem
    exact kind ▸ housed.alive site node.1 (keeps _ _ sits)
  · exact fun other part' different held' node' mem' =>
      housed.seated.nodes_apart keeps different held held' mem mem'

end Rack

end Patchbay
