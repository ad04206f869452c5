import Patchbay.Proofs.Rack.Turnover

/-!
# Boards

What cables do to an instrument can be told from its description alone. A board names the nodes of
the instrument by the parts that they belong to, and cables are plugged into it as they are plugged
into a rack.
-/
namespace Patchbay

variable {τ : Type}

/-! ### Ends and effects under a change of names -/

def Endpoint.map {κ ι : Type} (f : κ → ι) : Endpoint κ → Endpoint ι
  | .oscillator output control => .oscillator (f output) (f control)
  | .gain key => .gain (f key)
  | .number value => .number value
  | .source => .source
  | .sink key => .sink (f key)

def Effect.map {κ ι : Type} (f : κ → ι) : Effect κ → Effect ι
  | .connect source target inlet => .connect (f source) (f target) inlet
  | .tune frequency => .tune frequency
  | .follow => .follow
  | .turn stage factor => .turn (f stage) factor
  | .nothing => .nothing

/-- A cable does the same whatever its nodes are called. -/
theorem Plug.effect_map {κ ι : Type} (f : κ → ι) (plug : Plug) (feeding fed : Endpoint κ) :
    plug.effect (feeding.map f) (fed.map f) = (plug.effect feeding fed).map f := by
  cases feeding <;> cases fed <;> rfl

/-! ### Sites -/

/-- A node of an instrument that is there before any voice, or the destination. -/
inductive Site where
  | output (id : String)
  | control (id : String)
  | stage (id : String)
  | destination
  deriving DecidableEq

/-- A connection between sites. -/
structure Wire where
  source : Site
  target : Site
  inlet : Inlet
  deriving DecidableEq

/-- Signals come out of output stages and gains. -/
def Site.Speaks : Site → Prop
  | output _ | stage _ => True
  | control _ | destination => False

/-- The kind of the node at a site. -/
def Site.kind : Site → Kind
  | output _ | stage _ => .gain
  | control _ => .constant
  | destination => .destination

/-- Nodes under the names of sites: how cables leave them. -/
structure Board where
  wires : List Wire
  levels : Site → Float32
  follows : String → Bool

namespace Board

/-- Make a connection, unless it is there or ends where it starts. -/
def connect (board : Board) (wire : Wire) : Board :=
  if wire.source = wire.target ∨ wire ∈ board.wires then board
  else { board with wires := board.wires ++ [wire] }

def turn (board : Board) (site : Site) (level : Float32) : Board :=
  { board with levels := fun other => if other = site then level else board.levels other }

/-- Set the control of an oscillator and whether it follows notes. -/
def tune (board : Board) (id : String) (follows : Bool) (level : Float32) : Board :=
  { board.turn (.control id) level with
    follows := fun other => if other = id then follows else board.follows other }

/-- The board before any cable is plugged in, with the factors of its gains. -/
def bare (factor : String → Float32) : Board where
  wires := []
  levels := fun
    | .stage id => factor id
    | _ => Oscillator.defaultFrequency
  follows := fun _ => false

/-- Plug a cable into a board, where ids stand for parts. -/
def plug (part? : String → Option (Endpoint Site)) (board : Board) (cable : Cable) : Board :=
  match part? cable.source, part? cable.target with
  | some feeding, some fed =>
    match cable.plug.effect feeding fed with
    | .connect source target inlet => board.connect ⟨source, target, inlet⟩
    | .tune frequency => board.tune cable.target false frequency
    | .follow => board.tune cable.target true 0.0
    | .turn stage factor => board.turn stage factor
    | .nothing => board
  | _, _ => board

end Board

/-- Ids stand for parts at known sites, and sinks for the destination. -/
structure Legend (part? : String → Option (Endpoint Site)) (known : Site → Prop) : Prop where
  destination : known .destination
  cases : ∀ id part, part? id = some part →
    (known (.output id) ∧ known (.control id) ∧ part = .oscillator (.output id) (.control id)) ∨
      (known (.stage id) ∧ part = .gain (.stage id)) ∨
      (∃ value, part = .number value) ∨ part = .source ∨ part = .sink .destination

/-- A wire goes from where signals come out to a known site. -/
def Wire.Within (known : Site → Prop) (wire : Wire) : Prop :=
  known wire.source ∧ wire.source.Speaks ∧ known wire.target

namespace Legend

variable {part? : String → Option (Endpoint Site)} {known : Site → Prop}

theorem within_of_connect (legend : Legend part? known) {source_id target_id : String}
    {feeding fed : Endpoint Site} (from_part : part? source_id = some feeding)
    (to_part : part? target_id = some fed) {plug : Plug} {source target : Site}
    {inlet : Inlet} (h : plug.effect feeding fed = .connect source target inlet) :
    Wire.Within known ⟨source, target, inlet⟩ := by
  obtain ⟨speaks, listens⟩ := Plug.ends_of_connect h
  have from_site : known source ∧ source.Speaks := by
    rcases legend.cases _ _ from_part with ⟨here, -, rfl⟩ | ⟨here, rfl⟩ | ⟨_, rfl⟩ | rfl | rfl
    all_goals rcases speaks with ⟨_, same⟩ | same <;> cases same
    · exact ⟨here, trivial⟩
    · exact ⟨here, trivial⟩
  refine ⟨from_site.1, from_site.2, ?_⟩
  rcases legend.cases _ _ to_part with ⟨-, here, rfl⟩ | ⟨here, rfl⟩ | ⟨_, rfl⟩ | rfl | rfl
  all_goals rcases listens with ⟨_, same⟩ | same | same <;> cases same
  · exact here
  · exact here
  · exact legend.destination

theorem within_of_mem_plug (legend : Legend part? known) {board : Board}
    (all : ∀ wire ∈ board.wires, wire.Within known) (cable : Cable) :
    ∀ wire ∈ (board.plug part? cable).wires, wire.Within known := by
  intro wire mem
  unfold Board.plug at mem
  split at mem
  · rename_i feeding fed from_part to_part
    split at mem
    · rename_i source target inlet effect
      unfold Board.connect at mem
      split at mem
      · exact all wire mem
      · rcases List.mem_append.mp mem with old | new
        · exact all wire old
        · rw [List.mem_singleton.mp new]
          exact legend.within_of_connect from_part to_part effect
    all_goals exact all wire mem
  · exact all wire mem

/-- All wires of a board are such. -/
theorem within_of_mem_plugAll (legend : Legend part? known) (factor : String → Float32)
    (cables : List Cable) :
    ∀ wire ∈ (cables.foldl (Board.plug part?) (Board.bare factor)).wires, wire.Within known := by
  have every (cables : List Cable) (board : Board)
      (all : ∀ wire ∈ board.wires, wire.Within known) :
      ∀ wire ∈ (cables.foldl (Board.plug part?) board).wires, wire.Within known := by
    induction cables generalizing board with
    | nil => exact all
    | cons cable rest ih => exact ih _ (legend.within_of_mem_plug all cable)
  exact every cables _ fun _ mem => absurd mem List.not_mem_nil

end Legend

namespace Instrument

/-- What an id of the instrument stands for. -/
def part? (instrument : Instrument) (id : String) : Option (Endpoint Site) :=
  if instrument.oscillators.contains id then some (.oscillator (.output id) (.control id))
  else if instrument.gains.contains id then some (.gain (.stage id))
  else
    match instrument.numbers.find? id with
    | some value => some (.number value)
    | none =>
      if id = instrument.source then some .source
      else if id = instrument.sink then some (.sink .destination)
      else none

/-- The board before any cable is plugged in. -/
def bareBoard (instrument : Instrument) : Board :=
  .bare fun id => (instrument.gains.find? id).getD 0.0

/-- The board of an instrument with its cables. -/
def board (instrument : Instrument) (cables : List Cable) : Board :=
  cables.foldl (Board.plug instrument.part?) instrument.bareBoard

/-- The instrument describes the part that a site belongs to. -/
def Describes (instrument : Instrument) : Site → Prop
  | .output id | .control id => instrument.oscillators.contains id
  | .stage id => instrument.gains.contains id
  | .destination => True

theorem legend (instrument : Instrument) : Legend instrument.part? instrument.Describes where
  destination := trivial
  cases := by
    intro id part h
    unfold part? at h
    by_cases oscillator : instrument.oscillators.contains id
    · rw [if_pos oscillator] at h
      cases h
      exact .inl ⟨oscillator, oscillator, rfl⟩
    · rw [if_neg oscillator] at h
      by_cases gain : instrument.gains.contains id
      · rw [if_pos gain] at h
        cases h
        exact .inr (.inl ⟨gain, rfl⟩)
      · rw [if_neg gain] at h
        cases number : instrument.numbers.find? id with
        | some value =>
          rw [number] at h
          cases h
          exact .inr (.inr (.inl ⟨value, rfl⟩))
        | none =>
          simp only [number] at h
          by_cases source : id = instrument.source
          · rw [if_pos source] at h
            cases h
            exact .inr (.inr (.inr (.inl rfl)))
          · rw [if_neg source] at h
            by_cases sink : id = instrument.sink
            · rw [if_pos sink] at h
              cases h
              exact .inr (.inr (.inr (.inr rfl)))
            · rw [if_neg sink] at h
              cases h

theorem within_of_mem_board (instrument : Instrument) (cables : List Cable) :
    ∀ wire ∈ (instrument.board cables).wires, wire.Within instrument.Describes :=
  instrument.legend.within_of_mem_plugAll _ cables

end Instrument

/-! ### Sites in the graph -/

namespace Racks

/-- The node of a site. -/
def keyAt (racks : Racks) (name : String) : Site → NodeKey
  | .output id => racks.output name id
  | .control id => racks.control name id
  | .stage id => (racks.stage? name id).elim Graph.destination (·.key)
  | .destination => Graph.destination

/-- The connection that a wire stands for. -/
def lift (racks : Racks) (name : String) (wire : Wire) : Connection :=
  ⟨racks.keyAt name wire.source, racks.keyAt name wire.target, wire.inlet⟩

/-- The racks hold the part that a site belongs to. -/
def Stands (racks : Racks) (name : String) : Site → Prop
  | .output id | .control id => ∃ ring, racks.ring? name id = some ring
  | .stage id => ∃ stage, racks.stage? name id = some stage
  | .destination => True

variable {racks : Racks} {graph : Graph τ} {name : String}

theorem lift_congr {racks' : Racks} (keys : racks'.keyAt name = racks.keyAt name) :
    racks'.lift name = racks.lift name := by
  funext wire
  rw [lift, lift, keys]

theorem keyAt_output {id : String} {ring : RingOscillator}
    (found : racks.ring? name id = some ring) :
    racks.keyAt name (.output id) = ring.oscillator.output := by
  simp only [keyAt, output, found, Option.elim]

theorem keyAt_control {id : String} {ring : RingOscillator}
    (found : racks.ring? name id = some ring) :
    racks.keyAt name (.control id) = ring.oscillator.control := by
  simp only [keyAt, control, found, Option.elim]

theorem keyAt_stage {id : String} {stage : GainStage}
    (found : racks.stage? name id = some stage) :
    racks.keyAt name (.stage id) = stage.key := by
  simp only [keyAt, found, Option.elim]

/-- What holds the node of a site. -/
def holderAt (name : String) : Site → Option Holder
  | .output id | .control id => some (.ring name id)
  | .stage id => some (.stage name id)
  | .destination => none

theorem keyAt_mem_held {site : Site} (stands : racks.Stands name site) {holder : Holder}
    (here : holderAt name site = some holder) :
    racks.keyAt name site ∈ racks.held holder ∧ holder.instrument = name := by
  cases site with
  | output id =>
    cases here
    obtain ⟨ring, found⟩ := stands
    rw [keyAt_output found, mem_held_ring found]
    exact ⟨List.mem_cons_self, rfl⟩
  | control id =>
    cases here
    obtain ⟨ring, found⟩ := stands
    rw [keyAt_control found, mem_held_ring found]
    exact ⟨List.mem_cons_of_mem _ List.mem_cons_self, rfl⟩
  | stage id =>
    cases here
    obtain ⟨stage, found⟩ := stands
    rw [keyAt_stage found, mem_held_stage found]
    exact ⟨rfl, rfl⟩
  | destination => cases here

theorem holderAt_eq_none {site : Site} (h : holderAt name site = none) : site = .destination := by
  cases site with
  | destination => rfl
  | _ => cases h

/-- Different sites have different nodes, also across instruments. -/
theorem Sound.keyAt_inj [Fourier] (sound : racks.Sound graph) {name' : String} {site site' : Site}
    (stands : racks.Stands name site) (stands' : racks.Stands name' site')
    (same : racks.keyAt name site = racks.keyAt name' site') :
    site = site' ∧ (site = .destination ∨ name = name') := by
  cases here : holderAt name site with
  | none =>
    obtain rfl := holderAt_eq_none here
    cases there : holderAt name' site' with
    | none =>
      obtain rfl := holderAt_eq_none there
      exact ⟨rfl, .inl rfl⟩
    | some holder =>
      have mem := (keyAt_mem_held stands' there).1
      rw [← same] at mem
      exact absurd mem (sound.ledger.inner holder)
  | some holder =>
    have mem := (keyAt_mem_held stands here).1
    cases there : holderAt name' site' with
    | none =>
      obtain rfl := holderAt_eq_none there
      rw [same] at mem
      exact absurd mem (sound.ledger.inner holder)
    | some other =>
      have mem' := (keyAt_mem_held stands' there).1
      rw [← same] at mem'
      have one := sound.ledger.apart holder other _ mem mem'
      rw [← one, ← here] at there
      cases site <;> cases site' <;> cases there
      · exact ⟨rfl, .inr rfl⟩
      · obtain ⟨ring, found⟩ := stands
        rw [keyAt_output found, keyAt_control found] at same
        exact absurd same (sound.output_ne_control found found)
      · obtain ⟨ring, found⟩ := stands
        rw [keyAt_output found, keyAt_control found] at same
        exact absurd same.symm (sound.output_ne_control found found)
      · exact ⟨rfl, .inr rfl⟩
      · exact ⟨rfl, .inr rfl⟩
      · exact ⟨rfl, .inl rfl⟩

/-- A site of an instrument belongs to it. -/
theorem owns_keyAt {site : Site} (stands : racks.Stands name site) :
    site = .destination ∨ racks.Owns name (racks.keyAt name site) := by
  cases here : holderAt name site with
  | none => exact .inl (holderAt_eq_none here)
  | some holder =>
    obtain ⟨mem, named⟩ := keyAt_mem_held stands here
    exact .inr ⟨holder, named, mem⟩

variable [Fourier]

/-- No voice takes up a site. -/
theorem Sound.keyAt_not_counted (sound : racks.Sound graph) {site : Site}
    (stands : racks.Stands name site) {place id : String} {ring : RingOscillator}
    (found : racks.ring? place id = some ring) :
    racks.keyAt name site ∉ ring.oscillator.nodes := by
  intro counted
  have theirs : racks.keyAt name site ∈ racks.held (.ring place id) :=
    (mem_held_ring found).mpr (RingOscillator.mem_keys_of_counted counted)
  cases site with
  | output part =>
    obtain ⟨other, found_other⟩ := stands
    rw [keyAt_output found_other] at counted
    exact (sound.output_not_counted found_other found).1 counted
  | control part =>
    obtain ⟨other, found_other⟩ := stands
    rw [keyAt_control found_other] at counted
    exact (sound.output_not_counted found_other found).2 counted
  | stage part =>
    have mine := (keyAt_mem_held stands rfl).1
    cases sound.ledger.apart _ _ _ mine theirs
  | destination => exact sound.ledger.inner _ theirs

/-- The node of a site lives. -/
theorem Sound.keyAt_lt (sound : racks.Sound graph) {site : Site}
    (stands : racks.Stands name site) : racks.keyAt name site < graph.nodes.size := by
  have lives : graph.contains (racks.keyAt name site) := by
    rw [sound.ledger.lives]
    cases here : holderAt name site with
    | none =>
      obtain rfl := holderAt_eq_none here
      exact .inl rfl
    | some holder => exact .inr ⟨holder, (keyAt_mem_held stands here).1⟩
  obtain ⟨node, found⟩ := Option.isSome_iff_exists.mp lives
  exact Graph.lt_size_of_node? found

end Racks

end Patchbay
