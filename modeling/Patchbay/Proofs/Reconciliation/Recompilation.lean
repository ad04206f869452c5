import Patchbay.Project.Demo
import Patchbay.Proofs.Reconciliation.Mirroring
import Patchbay.Proofs.Transport.Roles

/-!
# Compiling again and compiling from scratch

A transport keeps what earlier projects left in its racks. When it reconciles with a project that is
to be played, the instruments of this project are nevertheless the same as in a new transport that
has never seen another project.
-/
namespace Patchbay.Transport

section Compiling

variable {τ : Type} [TimeAxis τ] [Fourier]

/-- A new transport whose clock has counted some frames, at a location. -/
def anew (settings : Settings) (frames : UInt64) (location : τ) : Transport τ :=
  let new : Transport τ := create settings
  { new with
    graph := { new.graph with clock := { new.graph.clock with frames } }
    location }

theorem sound_anew (settings : Settings) (frames : UInt64) (location : τ) :
    (anew settings frames location).Sound := by
  have steady : (create settings : Transport τ).graph.Steady
      (anew settings frames location).graph :=
    ⟨fun _ => rfl, fun _ _ found => found, rfl, rfl,
      fun h => h.of_same (fun _ => rfl) rfl h.buffered fun _ kept => .inl kept⟩
  exact Racks.Sound.steady (sound_create settings) steady

/-! ### What is asked for does not depend on the racks -/

variable {transport other : Transport τ} {project : Project τ}

/-- Boards stand in a cleared transport. -/
theorem Sound.settled_cleared (sound : transport.Sound) (plugged : project.Plugged)
    (agrees : ∀ name instrument, project.instruments.find? name = some instrument →
      transport.Agrees name instrument) {name : String} {instrument : Instrument}
    (described : project.instruments.find? name = some instrument) :
    Racks.Settled (transport.cleared project).racks.find? name (transport.cleared project).graph
      instrument.Describes (instrument.board (project.cablesOf name)) := by
  obtain ⟨base, wired⟩ := sound.wired_cleared plugged agrees
  exact wired.settled name instrument (Roster.find?_eq_some_iff.mp described)

/-- An oscillator of a cleared transport asks for voices as its description and its board say. -/
theorem Sound.ring_cleared (sound : transport.Sound) (plugged : project.Plugged)
    (agrees : ∀ name instrument, project.instruments.find? name = some instrument →
      transport.Agrees name instrument) {name : String} {instrument : Instrument}
    (described : project.instruments.find? name = some instrument) {rack : Rack}
    (found_rack : (transport.cleared project).racks.find? name = some rack)
    (full : rack.Furnished instrument) {id : String} {partials : Partials}
    (listed : instrument.oscillators.find? id = some partials) :
    ∃ ring, rack.oscillators.find? id = some ring ∧ ring.oscillator.partials = partials ∧
      ring.oscillator.followsNote = (instrument.board (project.cablesOf name)).follows id ∧
      ring.signals = instrument.signals ∧ ring.weights = instrument.weights id := by
  obtain ⟨ring, found, same_partials, signals, weights⟩ := full.oscillators id partials listed
  have known := Roster.contains_of_find? listed
  obtain ⟨again, found_again, -, follows⟩ :=
    (sound.settled_cleared plugged agrees described).rings id (.inl known)
  rw [Racks.ring?, found_rack] at found_again
  obtain rfl : ring = again := Option.some.inj (found.symm.trans found_again)
  exact ⟨ring, found, same_partials, follows, signals, weights⟩

/-- At the same time and position, the same voices are asked for. -/
theorem Sound.calls_eq (sound : transport.Sound) (sound' : other.Sound)
    (now : other.now = transport.now) (position : other.position = transport.position)
    (plugged : project.Plugged)
    (agrees : ∀ name instrument, project.instruments.find? name = some instrument →
      transport.Agrees name instrument)
    (agrees' : ∀ name instrument, project.instruments.find? name = some instrument →
      other.Agrees name instrument) :
    (other.cleared project).calls project = (transport.cleared project).calls project := by
  have cleared := sound.clear project
  have cleared' := sound'.clear project
  rw [calls, calls, cleared.now, cleared'.now, cleared.position, cleared'.position, now, position]
  refine List.flatMap_congr fun name known => ?_
  obtain ⟨instrument, described⟩ := Option.isSome_iff_exists.mp
    (Roster.contains_iff_mem_names.mpr known)
  obtain ⟨rack, found_rack, full⟩ := cleared.furnished name instrument described
  obtain ⟨rack', found_rack', full'⟩ := cleared'.furnished name instrument described
  simp only [Racks.callsOf, found_rack, found_rack', Option.elim]
  refine List.flatMap_congr fun note _ => ?_
  rw [Rack.calls, Rack.calls, full.active, full'.active]
  refine List.flatMap_congr fun id takes_part => ?_
  obtain ⟨partials, listed⟩ := Option.isSome_iff_exists.mp
    (Roster.contains_iff_mem_names.mpr takes_part)
  obtain ⟨ring, found, partials, follows, signals, weights⟩ :=
    sound.ring_cleared plugged agrees described found_rack full listed
  obtain ⟨ring', found', partials', follows', signals', weights'⟩ :=
    sound'.ring_cleared plugged agrees' described found_rack' full' listed
  rw [found, found', Option.map_some, Option.map_some,
    RingOscillator.sheet_congr (partials'.trans partials.symm) (follows'.trans follows.symm)
      (signals'.trans signals.symm) (weights'.trans weights.symm)]

/-! ### Reconciling again -/

/-- Two transports at the same time and place lay out a project alike. -/
theorem Sound.mirrors (sound : transport.Sound) (sound' : other.Sound)
    (playing : project.playing = true) (plugged : project.Plugged)
    (rate : other.graph.rate = transport.graph.rate) (now : other.now = transport.now)
    (position : other.position = transport.position)
    (agrees : ∀ name instrument, project.instruments.find? name = some instrument →
      transport.Agrees name instrument)
    (agrees' : ∀ name instrument, project.instruments.find? name = some instrument →
      other.Agrees name instrument) :
    (other.reconcile project).fault = (transport.reconcile project).fault ∧
      ∃ rename, Mirrors rename project (transport.reconcile project).state
        (other.reconcile project).state := by
  have calls := sound.calls_eq sound' now position plugged agrees agrees'
  obtain ⟨_, fault, -, fresh_rate, -⟩ := sound.reconcile_playing playing
  obtain ⟨_, fault', -, live_rate, -⟩ := sound'.reconcile_playing playing
  have from_laid := sound.laid playing plugged agrees
  have laid := sound'.laid playing plugged agrees'
  rw [rate, calls] at laid
  refine ⟨?_, from_laid.mirrors laid ?_⟩
  · rw [fault', fault, rate, calls]
  · rw [live_rate, fresh_rate, rate]

/-- Whatever was done before: to reconcile with a project that is to be played ends as it does in a
new transport at the same time and location, and leaves the same instruments up to a renaming of
their nodes. The ids of each instrument have one role in all projects, and cables join parts of
their own instruments. -/
theorem reconcile_mirrors (settings : Settings) (operations : List (Operation τ))
    (project : Project τ) (playing : project.playing = true)
    (roles : OneRole (projects operations ++ [project])) (plugged : project.Plugged) :
    let before := after settings operations
    let fresh := (anew settings before.graph.clock.frames before.location).reconcile project
    let live := before.reconcile project
    live.fault = fresh.fault ∧ ∃ rename, Mirrors rename project fresh.state live.state := by
  intro before fresh live
  obtain ⟨sound, rate⟩ := sound_after settings operations
  have same_now : before.now =
      (anew settings before.graph.clock.frames before.location).now := by
    show Clock.now before.graph.clock = Clock.now _
    rw [Clock.now_eq, Clock.now_eq]
    have same_rate : before.graph.clock.rate = settings.sampleRate := rate
    rw [same_rate]
    rfl
  have last_uses {name id : String} {role : Role} {instrument : Instrument}
      (described : project.instruments.find? name = some instrument)
      (has : instrument.HasRole id role) :
      ∃ used ∈ projects operations ++ [project], used.UsesRole name id role :=
    ⟨project, List.mem_append_right _ (List.mem_singleton.mpr rfl), instrument, described, has⟩
  refine (sound_anew settings _ _).mirrors sound playing plugged rate same_now ?_ ?_ ?_
  · rw [Transport.position, Transport.position, same_now]
    rfl
  · intro name instrument described id role role' has has'
    refine roles.eq (last_uses described ?_) (last_uses described has')
    rcases has with held | used
    · obtain ⟨rack, found, -⟩ := holdsRole_of_rackOf held
      cases found
    · exact used
  · intro name instrument described id role role' has has'
    refine roles.eq ?_ (last_uses described has')
    rcases has with held | used
    · obtain ⟨earlier, mem, uses⟩ := holdsRole_after settings operations (holdsRole_of_rackOf held)
      exact ⟨earlier, List.mem_append_left _ mem, uses⟩
    · exact last_uses described used

end Compiling

theorem reconcile_mirrors_demo :
    let earlier := Project.demo.addInstrument "inst0" Project.modulated.1
      [⟨"e0", "in", "partner", .usual⟩, ⟨"e1", "partner", "carrier", .usual⟩,
        ⟨"e2", "carrier", "amp", .gain⟩]
    let operations : List (Operation Float) :=
      [.reconcile earlier, .render 256, .seek 5.0, .pause]
    let before := after {} operations
    let fresh := (anew {} before.graph.clock.frames before.location).reconcile Project.demo
    let live := before.reconcile Project.demo
    Project.demo.playing = true ∧ OneRole (projects operations ++ [Project.demo]) ∧
      Project.demo.Plugged ∧ live.fault = fresh.fault ∧
      ∃ rename, Mirrors rename Project.demo fresh.state live.state :=
  ⟨rfl, by decide +kernel, by decide +kernel,
    reconcile_mirrors {} _ Project.demo rfl (by decide +kernel) (by decide +kernel)⟩

end Patchbay.Transport
