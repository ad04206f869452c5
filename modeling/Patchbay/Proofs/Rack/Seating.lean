import Patchbay.Proofs.Graph.Permanence
import Patchbay.Proofs.Rack.Frames
import Patchbay.Proofs.Voice.Restoration

/-!
# Racks in any graph

A rack is furnished, patched and played while its graph is changed by others as well. Nodes may be
connected in any way, turned to any value and removed. Still each part of the rack has nodes of its
own, and as long as these live they are what the rack takes them for.
-/
namespace Patchbay

variable {τ : Type}

/-! ### Graphs as they go on -/

namespace Graph

/-- Nodes may be added, and those that were there keep their kinds. -/
structure Retains (before after : Graph τ) : Prop where
  size : before.nodes.size ≤ after.nodes.size
  kinds : ∀ key < before.nodes.size, after.kind? key = before.kind? key
  wellFormed : before.WellFormed → after.WellFormed

namespace Retains

variable {before middle after : Graph τ}

theorem refl (graph : Graph τ) : graph.Retains graph :=
  ⟨Nat.le_refl _, fun _ _ => rfl, id⟩

theorem trans (first : before.Retains middle) (second : middle.Retains after) :
    before.Retains after where
  size := first.size.trans second.size
  kinds := fun key lt => (second.kinds key (lt.trans_le first.size)).trans (first.kinds key lt)
  wellFormed := fun well => second.wellFormed (first.wellFormed well)

variable (graph : Graph τ)

theorem of_changedFrom (changed : graph.ChangedFrom graph.nodes.size after) :
    graph.Retains after :=
  ⟨changed.size, fun key lt => by rw [kind?, changed.old key lt, kind?], changed.wellFormed⟩

theorem of_reported (reported : graph.Reported after) : graph.Retains after :=
  of_changedFrom graph (reported.changedFrom _)

theorem of_grown {nodes : List (Node τ)} {wires : List Connection}
    (grown : graph.Grown after nodes wires) : graph.Retains after :=
  ⟨grown.size.symm ▸ Nat.le_add_right _ _, fun key lt => by rw [kind?, grown.node?_of_lt lt, kind?],
    fun _ => grown.wellFormed⟩

theorem setValue (key : NodeKey) (knob : Knob) (value : Float32) :
    graph.Retains (graph.setValue key knob value).1 :=
  ⟨by simp, fun _ _ => kind?_setValue .., fun well => well.setValue key knob value⟩

theorem connect (source target : NodeKey) (inlet : Inlet) :
    graph.Retains (graph.connect source target inlet).1 :=
  ⟨by simp, fun _ _ => by simp [kind?], fun well => well.connect source target inlet⟩

theorem keepConnections (keep : Connection → Bool) :
    graph.Retains (graph.keepConnections keep).1 :=
  ⟨Nat.le_refl _, fun _ _ => rfl, fun well => well.keepConnections keep⟩

theorem foldl {α : Type} {step : Graph τ → α → Graph τ}
    (each : ∀ (graph : Graph τ) (a : α), graph.Retains (step graph a)) (as : List α) :
    graph.Retains (as.foldl step graph) :=
  List.foldlRecOn (motive := graph.Retains) as step (.refl graph)
    fun next retains a _ => retains.trans (each next a)

end Retains

/-- A graph goes on well formed and as a successor of what it was. -/
def Onward (before after : Graph τ) : Prop :=
  before.WellFormed → before.Succeeds after ∧ after.WellFormed

variable {before middle after : Graph τ}

theorem Retains.onward (retains : before.Retains after) : before.Onward after :=
  fun well => ⟨⟨retains.size, fun key lt => .inl (retains.kinds key lt)⟩, retains.wellFormed well⟩

namespace Onward

theorem trans (first : before.Onward middle) (second : middle.Onward after) :
    before.Onward after := by
  intro well
  obtain ⟨succeeds, well'⟩ := first well
  obtain ⟨succeeds', well''⟩ := second well'
  exact ⟨succeeds.trans succeeds', well''⟩

variable (graph : Graph τ)

theorem remove (key : NodeKey) : graph.Onward (graph.remove key).1 :=
  fun well => ⟨.remove graph key, well.remove key⟩

theorem perform [Fourier] [TimeAxis τ] (operation : Operation τ) :
    graph.Onward (graph.perform operation) :=
  fun well => ⟨.perform _ operation, well.perform operation⟩

theorem foldl {α : Type} {step : Graph τ → α → Graph τ}
    (each : ∀ (graph : Graph τ) (a : α), graph.Onward (step graph a)) (as : List α) :
    graph.Onward (as.foldl step graph) :=
  List.foldlRecOn (motive := graph.Onward) as step (Retains.refl graph).onward
    fun next onward a _ => onward.trans (each next a)

end Onward

end Graph

/-! ### Racks that are built -/

namespace Rack

/-- The node that a rack has at a site. -/
def seat? (rack : Rack) : Site → Option NodeKey
  | .output id => (rack.oscillators.find? id).map (·.oscillator.output)
  | .control id => (rack.oscillators.find? id).map (·.oscillator.control)
  | .stage id => (rack.gains.find? id).map (·.key)
  | .destination => some Graph.destination

/-- The racks that instruments, cables and notes lead to, in a graph to which anything may be done
in between. -/
inductive Built [Fourier] [TimeAxis τ] : Rack → Graph τ → Prop
  | empty {graph : Graph τ} (reachable : graph.Reachable) : Built .empty graph
  | furnish {rack : Rack} {graph : Graph τ} (built : Built rack graph) (instrument : Instrument) :
    Built (rack.furnish graph instrument).1 (rack.furnish graph instrument).2
  | patch {rack : Rack} {graph : Graph τ} (built : Built rack graph) (cables : List Cable) :
    Built (rack.patch graph cables).1 (rack.patch graph cables).2
  | schedule {rack : Rack} {graph : Graph τ} (built : Built rack graph) (note : Note τ)
      (position : τ) :
    Built (rack.schedule graph note position).state.1 (rack.schedule graph note position).state.2
  | free {rack : Rack} {graph : Graph τ} (built : Built rack graph) :
    Built (rack.free graph).1 (rack.free graph).2
  | perform {rack : Rack} {graph : Graph τ} (built : Built rack graph)
      (operation : Graph.Operation τ) :
    Built rack (graph.perform operation)

theorem Built.run [Fourier] [TimeAxis τ] {rack : Rack} {graph : Graph τ} (built : Built rack graph)
    (operations : List (Graph.Operation τ)) :
    Built rack (operations.foldl Graph.perform graph) :=
  List.foldlRecOn (motive := Built rack) operations _ built
    fun _ built operation _ => built.perform operation

/-- Each site has a node of its own, which is of the right kind while it lives. -/
structure Seated (rack : Rack) (graph : Graph τ) : Prop where
  wellFormed : graph.WellFormed
  issued : ∀ site key, rack.seat? site = some key → key < graph.nodes.size
  apart : ∀ site other key, rack.seat? site = some key → rack.seat? other = some key → site = other
  kinds : ∀ site key kind, rack.seat? site = some key → graph.kind? key = some kind →
    kind = site.kind
  sinks : ∀ id key, rack.sinks.find? id = some key → key = Graph.destination

variable {rack rack' : Rack} {graph after : Graph τ}

/-- Whatever is done to the graph, the sites keep their nodes. -/
theorem Seated.onward (seated : rack.Seated graph) (onward : graph.Onward after) :
    rack.Seated after := by
  obtain ⟨succeeds, well⟩ := onward seated.wellFormed
  refine ⟨well, fun site key sits => ?_, seated.apart, fun site key kind sits is_now => ?_,
    seated.sinks⟩
  · exact (seated.issued site key sits).trans_le succeeds.size
  · rcases succeeds.kind key (seated.issued site key sits) with same | gone
    · exact seated.kinds site key kind sits (same ▸ is_now)
    · rw [gone] at is_now
      cases is_now

/-- New sites take new nodes of their kind. -/
theorem Seated.grow {nodes : List (Node τ)} {wires : List Connection} (seated : rack.Seated graph)
    (grown : graph.Grown after nodes wires) (sinks : rack'.sinks = rack.sinks) (sites : List Site)
    (kinds : nodes.map Node.kind = sites.map Site.kind)
    (seats : ∀ site key, rack'.seat? site = some key → rack.seat? site = some key ∨
      ∃ i, key = graph.nodes.size + i ∧ sites[i]? = some site) : rack'.Seated after := by
  have seated' := seated.onward (Graph.Retains.of_grown graph grown).onward
  have length : nodes.length = sites.length := by simpa using congrArg List.length kinds
  have kind_of_new {i : Nat} {site : Site} (new : sites[i]? = some site) :
      after.kind? (graph.nodes.size + i) = some site.kind := by
    rw [Graph.kind?, grown.node?_new, ← List.getElem?_map, kinds, List.getElem?_map, new]
    rfl
  have beyond {site : Site} {i : Nat} (old : rack.seat? site = some (graph.nodes.size + i)) :
      False := Nat.not_lt.mpr (Nat.le_add_right _ i) (seated.issued _ _ old)
  refine ⟨seated'.wellFormed, fun site key sits => ?_, fun site other key sits sits' => ?_,
    fun site key kind sits is_now => ?_, sinks ▸ seated.sinks⟩
  · rcases seats site key sits with old | ⟨i, rfl, new⟩
    · exact seated'.issued site key old
    · obtain ⟨lt, -⟩ := List.getElem?_eq_some_iff.mp new
      rw [grown.size, length]
      exact Nat.add_lt_add_left lt _
  · rcases seats site key sits with old | ⟨i, rfl, new⟩
    · rcases seats other key sits' with old' | ⟨i, rfl, -⟩
      · exact seated.apart site other key old old'
      · exact (beyond old).elim
    · rcases seats other _ sits' with old' | ⟨j, same, new'⟩
      · exact (beyond old').elim
      · rw [Nat.add_left_cancel same, new'] at new
        exact (Option.some.inj new).symm
  · rcases seats site key sits with old | ⟨i, rfl, new⟩
    · exact seated'.kinds site key kind old is_now
    · rw [kind_of_new new] at is_now
      exact (Option.some.inj is_now).symm

/-- A rack with the same nodes at its sites is as well seated. -/
theorem Seated.congr (seated : rack.Seated graph)
    (seats : ∀ site, rack'.seat? site = rack.seat? site)
    (sinks : ∀ id key, rack'.sinks.find? id = some key → key = Graph.destination) :
    rack'.Seated graph where
  wellFormed := seated.wellFormed
  issued := by simpa only [seats] using seated.issued
  apart := by simpa only [seats] using seated.apart
  kinds := by simpa only [seats] using seated.kinds
  sinks := sinks

theorem seat?_putOscillator (rack : Rack) (id : String) (ring : RingOscillator) (site : Site) :
    (rack.putOscillator id ring).seat? site =
      if site = .output id then some ring.oscillator.output
      else if site = .control id then some ring.oscillator.control else rack.seat? site := by
  cases site with
  | output other | control other =>
    by_cases here : other = id
    · simp [seat?, putOscillator, here]
    · simp [seat?, putOscillator, Roster.find?_insert, here]
  | stage | destination => simp [seat?, putOscillator]

/-- A ring in the place of one with the same stage and control changes no site. -/
theorem seat?_putOscillator_of_some {rack : Rack} {id : String} {old ring : RingOscillator}
    (found : rack.oscillators.find? id = some old)
    (output : ring.oscillator.output = old.oscillator.output)
    (control : ring.oscillator.control = old.oscillator.control) (site : Site) :
    (rack.putOscillator id ring).seat? site = rack.seat? site := by
  rw [seat?_putOscillator, output, control]
  split
  · rename_i here
    rw [here, seat?, found, Option.map_some]
  · split
    · rename_i here
      rw [here, seat?, found, Option.map_some]
    · rfl

theorem seat?_putGain (rack : Rack) (id : String) (stage : GainStage) (site : Site) :
    (rack.putGain id stage).seat? site =
      if site = .stage id then some stage.key else rack.seat? site := by
  cases site with
  | stage other =>
    by_cases here : other = id
    · simp [seat?, putGain, here]
    · simp [seat?, putGain, Roster.find?_insert, here]
  | output | control | destination => simp [seat?, putGain]

theorem Seated.setOscillator (seated : rack.Seated graph) (instrument : Instrument) (id : String)
    (partials : Partials) :
    (rack.setOscillator instrument graph id partials).1.Seated
      (rack.setOscillator instrument graph id partials).2 := by
  cases found : rack.oscillators.find? id with
  | some ring =>
    rw [Racks.setOscillator_of_some instrument graph found]
    exact seated.congr (seat?_putOscillator_of_some found rfl rfl) seated.sinks
  | none =>
    obtain ⟨after, set, grown⟩ :=
      Racks.setOscillator_of_none instrument graph seated.wellFormed found partials
    rw [set]
    refine seated.grow grown rfl [.output id, .control id] rfl fun site key sits => ?_
    rw [seat?_putOscillator] at sits
    split at sits
    · rename_i here
      cases sits
      exact .inr ⟨0, rfl, here ▸ rfl⟩
    · split at sits
      · rename_i here
        cases sits
        exact .inr ⟨1, rfl, here ▸ rfl⟩
      · exact .inl sits

theorem Seated.setGain (seated : rack.Seated graph) (id : String) (factor : Float32) :
    (rack.setGain graph id factor).1.Seated (rack.setGain graph id factor).2 := by
  cases found : rack.gains.find? id with
  | some stage =>
    rw [Racks.setGain_of_some graph found]
    refine (seated.onward (Graph.Retains.setValue graph _ _ _).onward).congr (fun site => ?_)
      seated.sinks
    rw [seat?_putGain]
    split
    · rename_i here
      simp [here, seat?, found]
    · rfl
  | none =>
    rw [Racks.setGain_of_none graph found]
    have grown := graph.grown_add seated.wellFormed (.gain factor) (by simp [Node.kind])
    refine seated.grow grown rfl [.stage id] rfl fun site key sits => ?_
    rw [seat?_putGain] at sits
    split at sits
    · rename_i here
      cases sits
      exact .inr ⟨0, rfl, here ▸ rfl⟩
    · exact .inl sits

theorem Seated.furnish (seated : rack.Seated graph) (instrument : Instrument) :
    (rack.furnish graph instrument).1.Seated (rack.furnish graph instrument).2 := by
  let Sits (state : Rack × Graph τ) : Prop := state.1.Seated state.2
  have told : Sits (rack, graph.logAll (instrument.sharedIds.map .idShared)) :=
    seated.onward (Graph.Retains.of_reported graph (graph.reported_logAll _)).onward
  have oscillators := List.foldlRecOn (motive := Sits) instrument.oscillators.entries _ told
    fun state seated entry _ => Seated.setOscillator seated instrument entry.1 entry.2
  have gains := List.foldlRecOn (motive := Sits) instrument.gains.entries _ oscillators
    fun state seated entry _ => Seated.setGain seated entry.1 entry.2
  refine Seated.congr gains (fun site => by cases site <;> rfl) fun id key => ?_
  simp only [Rack.furnish, Roster.find?_insert]
  split
  · exact fun same => (Option.some.inj same).symm
  · exact Seated.sinks gains id key

/-! ### Voices that come and go -/

theorem Seated.schedule [Fourier] [TimeAxis τ] (seated : rack.Seated graph) (note : Note τ)
    (position : τ) :
    (rack.schedule graph note position).state.1.Seated
      (rack.schedule graph note position).state.2 := by
  refine Attempt.visit_keeps (P := fun state : Rack × Graph τ => state.1.Seated state.2)
    (fun state id seated => ?_) rack.active seated
  dsimp only
  split
  · exact seated
  · rename_i found
    split
    · rename_i scheduled
      obtain ⟨changed, output, control⟩ := RingOscillator.changedFrom_schedule scheduled
      exact (seated.onward (Graph.Retains.of_changedFrom _ changed).onward).congr
        (seat?_putOscillator_of_some found output control) seated.sinks
    · exact seated

theorem Seated.free (seated : rack.Seated graph) :
    (rack.free graph).1.Seated (rack.free graph).2 := by
  have onward : graph.Onward (rack.free graph).2 := by
    rw [snd_free]
    exact .foldl graph (fun graph key => .remove graph key) _
  refine (seated.onward onward).congr (fun site => ?_) seated.sinks
  cases site with
  | output id | control id =>
    simp only [seat?, find?_free, Option.map_map]
    rfl
  | stage | destination => rfl

/-! ### Cables that are pulled out and plugged in -/

/-- The parts at the ends of a cable, if the rack holds both. -/
def ends? (rack : Rack) (cable : Cable) : Option (Part × Part) :=
  match rack.part? cable.source, rack.part? cable.target with
  | some feeding, some fed => some (feeding, fed)
  | _, _ => none

theorem ends?_eq_some {rack : Rack} {cable : Cable} {feeding fed : Part} :
    rack.ends? cable = some (feeding, fed) ↔
      rack.part? cable.source = some feeding ∧ rack.part? cable.target = some fed := by
  unfold ends?
  cases rack.part? cable.source <;> cases rack.part? cable.target <;> simp

/-- What a cable does to a rack that holds both its ends. -/
def effect? (rack : Rack) (cable : Cable) : Option (Effect NodeKey) :=
  (rack.ends? cable).map fun ends => cable.plug.effect ends.1 ends.2

/-- Turn the control of an oscillator and say whether it follows notes. -/
def retune (rack : Rack) (graph : Graph τ) (id : String) (setting : Bool × Float32) :
    Rack × Graph τ :=
  rack.modifyOscillator graph id fun oscillator graph =>
    ({ oscillator with followsNote := setting.1 },
      (graph.setValue oscillator.control .offset setting.2).1)

/-- A cable is plugged in by its effect. -/
theorem plug_eq (rack : Rack) (graph : Graph τ) (cable : Cable) : rack.plug graph cable =
    match rack.effect? cable with
    | some (.connect source target inlet) => (rack, (graph.connect source target inlet).1)
    | some (.tune frequency) => rack.retune graph cable.target (false, frequency)
    | some .follow => rack.retune graph cable.target (true, 0.0)
    | some (.turn stage factor) => (rack, (graph.setValue stage .gain factor).1)
    | some .nothing => (rack, graph.log (.cableUnsupported cable.id))
    | none => (rack, graph.log (.cableLoose cable.id cable.source cable.target)) := by
  unfold plug effect? ends?
  cases rack.part? cable.source with
  | none => rfl
  | some feeding =>
    cases rack.part? cable.target with
    | none => rfl
    | some fed =>
      dsimp only [Option.map_some]
      cases cable.plug.effect feeding fed <;> rfl

theorem sameParts_retune (rack : Rack) (graph : Graph τ) (id : String) (setting : Bool × Float32) :
    rack.SameParts (rack.retune graph id setting).1 := by
  unfold retune modifyOscillator
  split
  · rename_i found
    exact Racks.sameParts_putOscillator found rfl
  · exact .refl rack

theorem retains_retune (rack : Rack) (graph : Graph τ) (id : String) (setting : Bool × Float32) :
    graph.Retains (rack.retune graph id setting).2 := by
  unfold retune modifyOscillator
  split
  · exact .setValue graph _ _ _
  · exact .refl graph

theorem sameParts_plug (rack : Rack) (graph : Graph τ) (cable : Cable) :
    rack.SameParts (rack.plug graph cable).1 := by
  rw [plug_eq]
  split
  case h_2 | h_3 => exact sameParts_retune ..
  all_goals exact .refl rack

theorem retains_plug (rack : Rack) (graph : Graph τ) (cable : Cable) :
    graph.Retains (rack.plug graph cable).2 := by
  rw [plug_eq]
  split
  case h_1 => exact .connect graph _ _ _
  case h_2 | h_3 => exact retains_retune _ _ _ _
  case h_4 => exact .setValue graph _ _ _
  all_goals exact .of_reported graph (graph.reported_log _)

theorem sameParts_unplug (rack : Rack) (graph : Graph τ) :
    rack.SameParts (rack.unplug graph).1 where
  rest := rfl
  oscillators := fun id => by
    rw [find?_unplug, Option.map_map]
    rfl

theorem retains_unplug (rack : Rack) (graph : Graph τ) : graph.Retains (rack.unplug graph).2 := by
  rw [snd_unplug]
  refine .trans (.foldl graph (fun graph ring => ?_) _) (.foldl _ (fun graph stage => ?_) _)
  · exact ((Graph.Retains.keepConnections graph _).trans (.keepConnections _ _)).trans
      (.setValue _ _ _ _)
  · exact (Graph.Retains.keepConnections graph _).trans (.setValue _ _ _ _)

/-- Racks with the same frame have their nodes at the same sites. -/
theorem seat?_sameFrame (same : rack.SameFrame rack') (site : Site) :
    rack'.seat? site = rack.seat? site := by
  have port (id : String) (f : NodeKey × NodeKey → NodeKey) :=
    congrArg (Option.map f) (same.ports id)
  simp only [Option.map_map] at port
  cases site with
  | output id => exact port id Prod.fst
  | control id => exact port id Prod.snd
  | stage id => rw [seat?, seat?, same.gains]
  | destination => rfl

theorem Seated.sameParts (seated : rack.Seated graph) (same : rack.SameParts rack') :
    rack'.Seated graph :=
  seated.congr (seat?_sameFrame same.sameFrame) (by rw [same.rest]; exact seated.sinks)

theorem Seated.patch (seated : rack.Seated graph) (cables : List Cable) :
    (rack.patch graph cables).1.Seated (rack.patch graph cables).2 := by
  have unplugged := (seated.onward (rack.retains_unplug graph).onward).sameParts
    (rack.sameParts_unplug graph)
  exact List.foldlRecOn (motive := fun state : Rack × Graph τ => state.1.Seated state.2) cables _
    unplugged fun state seated cable _ =>
      (seated.onward (state.1.retains_plug state.2 cable).onward).sameParts
        (state.1.sameParts_plug state.2 cable)

theorem Built.seated [Fourier] [TimeAxis τ] (built : rack.Built graph) : rack.Seated graph := by
  induction built with
  | empty reachable =>
    have well := reachable.wellFormed
    have only {site : Site} {key : NodeKey} (sits : Rack.empty.seat? site = some key) :
        site = .destination ∧ key = Graph.destination := by
      cases site <;> cases sits
      exact ⟨rfl, rfl⟩
    have destined := (well.destined _).mpr rfl
    obtain ⟨_, lives, -⟩ := Option.map_eq_some_iff.mp destined
    refine ⟨well, fun site key sits => ?_, fun site other key sits sits' => ?_,
      fun site key kind sits is_now => ?_, fun _ _ found => nomatch found⟩
    · rw [(only sits).2]
      exact Graph.lt_size_of_node? lives
    · rw [(only sits).1, (only sits').1]
    · obtain ⟨rfl, rfl⟩ := only sits
      rw [destined] at is_now
      exact (Option.some.inj is_now).symm
  | furnish _ instrument ih => exact ih.furnish instrument
  | patch _ cables ih => exact ih.patch cables
  | schedule _ note position ih => exact ih.schedule note position
  | free _ ih => exact ih.free
  | perform _ operation ih => exact ih.onward (.perform _ operation)

/-! ### Racks whose nodes live -/

/-- The nodes of all oscillators and gains live. -/
def Lives (rack : Rack) (graph : Graph τ) : Prop :=
  (∀ ring ∈ rack.oscillators.values, graph.contains ring.oscillator.output ∧
    graph.contains ring.oscillator.control) ∧
  ∀ stage ∈ rack.gains.values, graph.contains stage.key

instance (rack : Rack) (graph : Graph τ) : Decidable (rack.Lives graph) :=
  inferInstanceAs (Decidable (_ ∧ _))

/-- The node at a site is of the right kind. -/
theorem Seated.kind_of_lives (seated : rack.Seated graph) (lives : rack.Lives graph) {site : Site}
    {key : NodeKey} (sits : rack.seat? site = some key) : graph.kind? key = some site.kind := by
  have contains : graph.contains key := by
    cases site with
    | output id =>
      obtain ⟨ring, found, rfl⟩ := Option.map_eq_some_iff.mp sits
      exact (lives.1 ring (Roster.mem_values.mpr ⟨id, found⟩)).1
    | control id =>
      obtain ⟨ring, found, rfl⟩ := Option.map_eq_some_iff.mp sits
      exact (lives.1 ring (Roster.mem_values.mpr ⟨id, found⟩)).2
    | stage id =>
      obtain ⟨stage, found, rfl⟩ := Option.map_eq_some_iff.mp sits
      exact lives.2 stage (Roster.mem_values.mpr ⟨id, found⟩)
    | destination =>
      cases sits
      rw [Graph.contains_eq_isSome_kind?, (seated.wellFormed.destined _).mpr rfl]
      rfl
  rw [Graph.contains_eq_isSome_kind?] at contains
  obtain ⟨kind, is_kind⟩ := Option.isSome_iff_exists.mp contains
  rw [is_kind, seated.kinds site key kind sits is_kind]

theorem seat?_output {id : String} {ring : RingOscillator}
    (found : rack.oscillators.find? id = some ring) :
    rack.seat? (.output id) = some ring.oscillator.output := by
  rw [seat?, found, Option.map_some]

theorem seat?_control {id : String} {ring : RingOscillator}
    (found : rack.oscillators.find? id = some ring) :
    rack.seat? (.control id) = some ring.oscillator.control := by
  rw [seat?, found, Option.map_some]

theorem seat?_stage {id : String} {stage : GainStage}
    (found : rack.gains.find? id = some stage) : rack.seat? (.stage id) = some stage.key := by
  rw [seat?, found, Option.map_some]

theorem Seated.control_inj (seated : rack.Seated graph) {id id' : String}
    {ring ring' : RingOscillator} (found : rack.oscillators.find? id = some ring)
    (found' : rack.oscillators.find? id' = some ring')
    (same : ring.oscillator.control = ring'.oscillator.control) : id = id' :=
  Site.control.inj (seated.apart _ _ _ (seat?_control found) (same ▸ seat?_control found'))

theorem Seated.stage_inj (seated : rack.Seated graph) {id id' : String} {stage stage' : GainStage}
    (found : rack.gains.find? id = some stage) (found' : rack.gains.find? id' = some stage')
    (same : stage.key = stage'.key) : id = id' :=
  Site.stage.inj (seated.apart _ _ _ (seat?_stage found) (same ▸ seat?_stage found'))

theorem Seated.control_ne_stage (seated : rack.Seated graph) {id id' : String}
    {ring : RingOscillator} {stage : GainStage} (found : rack.oscillators.find? id = some ring)
    (found' : rack.gains.find? id' = some stage) : ring.oscillator.control ≠ stage.key := by
  intro same
  cases seated.apart _ _ _ (seat?_control found) (same ▸ seat?_stage found')

end Rack

end Patchbay
