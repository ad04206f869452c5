import Patchbay.Proofs.Graph.Permanence
import Patchbay.Proofs.Transport.History

/-!
# Knobs that are left alone

A knob is turned by few operations. All others leave it as it is on every node that was there. No
operation of a transport turns the frequency of a generator once it is made, and none but to equip
instruments turns any knob.
-/
namespace Patchbay

variable {τ : Type}

/-! ### Frequencies while instruments are equipped -/

namespace Rack

open Patchbay.Graph

theorem keepsFrequency_setOscillator (instrument : Instrument) (rack : Rack) (graph : Graph τ)
    (id : String) (partials : Partials) :
    graph.KeepsKnob .frequency (rack.setOscillator instrument graph id partials).2 := by
  have modulated (ring : RingOscillator) (graph : Graph τ) : graph.KeepsKnob .frequency
      (ring.modulate graph instrument.signals (instrument.weights id)).2 := by
    unfold RingOscillator.modulate
    dsimp only
    split
    · exact .refl _
    · exact (reported_log graph _).keepsKnob
  unfold Rack.setOscillator
  dsimp only
  refine KeepsKnob.trans ?_ (modulated _ _)
  split
  · exact .refl _
  · exact ((reported_log graph _).keepsKnob.trans (keepsKnob_add _ _)).trans (keepsKnob_add _ _)

theorem keepsFrequency_setGain (rack : Rack) (graph : Graph τ) (id : String) (factor : Float32) :
    graph.KeepsKnob .frequency (rack.setGain graph id factor).2 := by
  unfold Rack.setGain
  dsimp only
  refine KeepsKnob.trans ?_ (keepsKnob_setValue _ _ (by decide) factor)
  split
  · exact .refl _
  · exact keepsKnob_add _ _

theorem keepsFrequency_furnish (rack : Rack) (graph : Graph τ) (instrument : Instrument) :
    graph.KeepsKnob .frequency (rack.furnish graph instrument).2 := by
  let Keeps (state : Rack × Graph τ) : Prop := graph.KeepsKnob .frequency state.2
  have told := graph.reported_logAll (instrument.sharedIds.map .idShared)
  refine List.foldlRecOn (motive := Keeps) instrument.gains.entries _ ?_ fun state keeps entry _ =>
    keeps.trans (keepsFrequency_setGain state.1 state.2 entry.1 entry.2)
  exact List.foldlRecOn (motive := Keeps) instrument.oscillators.entries _ told.keepsKnob
    fun state keeps entry _ =>
      keeps.trans (keepsFrequency_setOscillator instrument state.1 state.2 entry.1 entry.2)

theorem keepsFrequency_plug (rack : Rack) (graph : Graph τ) (cable : Cable) :
    graph.KeepsKnob .frequency (rack.plug graph cable).2 := by
  have modified (id : String) {f : Oscillator → Graph τ → Oscillator × Graph τ} {level : Float32}
      (acts : ∀ oscillator graph, (f oscillator graph).2 =
        (graph.setValue oscillator.control .offset level).1) :
      graph.KeepsKnob .frequency (rack.modifyOscillator graph id f).2 := by
    unfold Rack.modifyOscillator
    split
    · simp only [RingOscillator.withOscillator, acts]
      exact keepsKnob_setValue _ _ (by decide) level
    · exact .refl _
  unfold Rack.plug
  split
  · split
    · exact keepsKnob_connect ..
    · exact modified _ fun _ _ => rfl
    · exact modified _ fun _ _ => rfl
    · exact keepsKnob_setValue _ _ (by decide) _
    · exact (reported_log graph _).keepsKnob
  · exact (reported_log graph _).keepsKnob

theorem keepsFrequency_patch (rack : Rack) (graph : Graph τ) (cables : List Cable) :
    graph.KeepsKnob .frequency (rack.patch graph cables).2 := by
  have unplugged : graph.KeepsKnob .frequency (rack.unplug graph).2 := by
    unfold Rack.unplug Rack.modifyOscillators
    refine KeepsKnob.trans ?_ (keepsKnob_foldl (fun graph stage => ?_) _ _)
    · show graph.KeepsKnob .frequency (rack.oscillators.mapState _ graph).2
      rw [Roster.snd_mapState]
      refine keepsKnob_foldl (fun graph entry => ?_) _ _
      have apart : Knob.offset ≠ .frequency := by decide
      exact ((keepsKnob_keepConnections graph _).trans (keepsKnob_keepConnections _ _)).trans
        (keepsKnob_setValue _ _ apart _)
    · have apart : Knob.gain ≠ .frequency := by decide
      exact (keepsKnob_keepConnections graph _).trans (keepsKnob_setValue _ _ apart _)
  exact List.foldlRecOn (motive := fun state : Rack × Graph τ =>
      graph.KeepsKnob .frequency state.2) cables _ unplugged
    fun state keeps cable _ => keeps.trans (keepsFrequency_plug state.1 state.2 cable)

end Rack

namespace Transport

/-- To equip instruments leaves the frequencies of generators. -/
theorem keepsFrequency_equipAll (transport : Transport τ) (project : Project τ) :
    transport.graph.KeepsKnob .frequency (transport.equipAll project).graph := by
  refine List.foldlRecOn (motive := fun after : Transport τ =>
    transport.graph.KeepsKnob .frequency after.graph) project.instruments.entries _ (.refl _) ?_
  rintro start keeps ⟨name, instrument⟩ -
  have furnished := ((start.racks.find? name).getD .empty).keepsFrequency_furnish start.graph
    instrument
  exact (keeps.trans furnished).trans (Rack.keepsFrequency_patch _ _ (project.cablesOf name))

variable [TimeAxis τ]

theorem keepsKnob_play (transport : Transport τ) (knob : Knob) :
    transport.graph.KeepsKnob knob transport.play.graph := by
  unfold play
  split
  · exact .refl _
  · exact .of_node? rfl fun _ => rfl

theorem keepsKnob_pause (transport : Transport τ) (knob : Knob) :
    transport.graph.KeepsKnob knob transport.pause.graph := by
  unfold pause
  split
  · exact .refl _
  · exact .of_node? rfl fun _ => rfl

theorem keepsKnob_reset (transport : Transport τ) (knob : Knob) :
    transport.graph.KeepsKnob knob transport.reset.graph := by
  refine (Graph.keepsKnob_foldl (fun graph rack => ?_) _ _).trans
    (Graph.reported_log _ _).keepsKnob
  refine Graph.keepsKnob_foldl (fun graph ring => ?_) _ _
  refine Graph.keepsKnob_foldl (fun graph key => ?_) _ _
  exact graph.keepsKnob_modifyGenerator key fun _ => rfl

/-- All operations but a reconciliation leave the racks and the knobs. -/
theorem keepsKnob_perform [Fourier] (transport : Transport τ) {operation : Operation τ}
    (other : ∀ project, operation ≠ .reconcile project) (knob : Knob) :
    (transport.perform operation).racks = transport.racks ∧
      transport.graph.KeepsKnob knob (transport.perform operation).graph := by
  cases operation with
  | play => exact ⟨transport.racks_play, transport.keepsKnob_play knob⟩
  | pause => exact ⟨transport.racks_pause, transport.keepsKnob_pause knob⟩
  | reset => exact ⟨rfl, transport.keepsKnob_reset knob⟩
  | seek position => exact ⟨rfl, .refl _⟩
  | reconcile project => exact absurd rfl (other project)
  | render frames =>
    unfold perform
    dsimp only
    split
    · rename_i rendered
      simp only [Transport.render, Fault.bind_ok_iff] at rendered
      obtain ⟨⟨samples, graph⟩, rendered, same⟩ := rendered
      cases same
      exact ⟨rfl, (Graph.elapsed_render rendered).keepsKnob⟩
    · exact ⟨rfl, .refl _⟩

end Transport

end Patchbay
