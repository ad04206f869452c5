import Patchbay.Proofs.Transport.History

/-!
# What every ring has

What holds of a new ring and what no step takes away holds of every ring of a rack. To equip a rack
sets rings to their descriptions and lets them follow notes or not, and leaves the rest of them.
Through a history, rings also give up their voices and are asked for new ones.
-/
namespace Patchbay

variable {τ : Type}

namespace RingOscillator

/-- A ring that is set to a description. -/
def described (ring : RingOscillator) (instrument : Instrument) (id : String)
    (partials : Partials) : RingOscillator :=
  { ring with
    oscillator := { ring.oscillator with partials }
    signals := instrument.signals
    weights := instrument.weights id }

/-- A ring that was just made. -/
def made (partials : Partials) (output control : NodeKey) : RingOscillator :=
  ⟨.around partials output control, [], [], []⟩

end RingOscillator

namespace Rack

/-- Every ring of a rack has a property. -/
def Each (P : String → RingOscillator → Prop) (rack : Rack) : Prop :=
  ∀ id ring, rack.oscillators.find? id = some ring → P id ring

variable {P : String → RingOscillator → Prop} {rack : Rack} {instrument : Instrument}

theorem Each.putOscillator (each : rack.Each P) {id : String} {ring : RingOscillator}
    (has : P id ring) : (rack.putOscillator id ring).Each P := by
  intro other found_ring found
  rw [Rack.putOscillator, Roster.find?_insert] at found
  split at found
  · rename_i here
    cases found
    exact here ▸ has
  · exact each other found_ring found

section Patch

variable (turned : ∀ id ring follows, P id ring → P id (ring.following follows))

include turned

theorem Each.plug (each : rack.Each P) (graph : Graph τ) (cable : Cable) :
    (rack.plug graph cable).1.Each P := by
  have modified (id : String) {f : Oscillator → Graph τ → Oscillator × Graph τ} {follows : Bool}
      (acts : ∀ oscillator graph,
        (f oscillator graph).1 = { oscillator with followsNote := follows }) :
      (rack.modifyOscillator graph id f).1.Each P := by
    unfold Rack.modifyOscillator
    split
    · rename_i ring found
      refine each.putOscillator ?_
      have same : (ring.withOscillator graph f).1 = ring.following follows := by
        simp only [RingOscillator.withOscillator, acts, RingOscillator.following]
      exact same ▸ turned id ring follows (each id ring found)
    · exact each
  unfold Rack.plug
  split
  · split
    · exact each
    · exact modified _ fun _ _ => rfl
    · exact modified _ fun _ _ => rfl
    · exact each
    · exact each
  · exact each

theorem Each.unplug (each : rack.Each P) (graph : Graph τ) : (rack.unplug graph).1.Each P := by
  intro id ring found
  have fixed : (rack.unplug graph).1.oscillators.find? id =
      (rack.oscillators.find? id).map (·.following false) := rack.find?_unplug graph id
  rw [fixed] at found
  obtain ⟨old, found_old, rfl⟩ := Option.map_eq_some_iff.mp found
  exact turned id old false (each id old found_old)

/-- To patch a rack decides which of its rings follow notes. -/
theorem Each.patch (each : rack.Each P) (graph : Graph τ) (cables : List Cable) :
    (rack.patch graph cables).1.Each P :=
  List.foldlRecOn (motive := fun state : Rack × Graph τ => state.1.Each P) cables _
    (each.unplug turned graph) fun state has cable _ => has.plug turned state.2 cable

end Patch

/-- To furnish a rack sets its rings to their descriptions and makes those that are not there. -/
theorem Each.furnish (each : rack.Each P)
    (made : ∀ id partials output control, (id, partials) ∈ instrument.oscillators.entries →
      P id (.made partials output control))
    (described : ∀ id partials ring, (id, partials) ∈ instrument.oscillators.entries →
      P id ring → P id (ring.described instrument id partials)) (graph : Graph τ) :
    (rack.furnish graph instrument).1.Each P := by
  let Has (state : Rack × Graph τ) : Prop := state.1.Each P
  -- gains are made after all oscillators and leave these as they are
  refine List.foldlRecOn (motive := Has) instrument.gains.entries _ ?_ fun _ has _ _ => has
  refine List.foldlRecOn (motive := Has) instrument.oscillators.entries _ each ?_
  rintro state has ⟨id, partials⟩ listed
  refine has.putOscillator ?_
  cases found : state.1.oscillators.find? id with
  | some ring => exact described id partials ring listed (has id ring found)
  | none => exact described id partials _ listed (made id partials _ _ listed)

theorem Each.free (each : rack.Each P) (freed : ∀ id ring, P id ring → P id ring.freed)
    (graph : Graph τ) : (rack.free graph).1.Each P := by
  intro id ring found
  rw [find?_free] at found
  obtain ⟨old, found_old, rfl⟩ := Option.map_eq_some_iff.mp found
  exact freed id old (each id old found_old)

theorem Each.schedule [Fourier] [TimeAxis τ] (each : rack.Each P)
    (scheduled : ∀ id ring graph note position delays next after, P id ring →
      ring.schedule graph note (position : τ) = .ok (delays, next, after) → P id next)
    (graph : Graph τ) (note : Note τ) (position : τ) :
    (rack.schedule graph note position).state.1.Each P := by
  refine Attempt.visit_keeps (P := fun state : Rack × Graph τ => state.1.Each P)
    (fun state id has => ?_) rack.active each
  dsimp only
  split
  · exact has
  · rename_i ring found
    split
    · rename_i runs
      exact has.putOscillator (scheduled id ring _ _ _ _ _ _ (has id ring found) runs)
    · exact has

end Rack

namespace Transport

/-- Every ring of a transport has a property. -/
def Each (P : String → String → RingOscillator → Prop) (transport : Transport τ) : Prop :=
  ∀ name rack, transport.racks.find? name = some rack → rack.Each (P name)

variable {P : String → String → RingOscillator → Prop} {transport : Transport τ}
  {project : Project τ}

instance [∀ name id, DecidablePred (P name id)] (transport : Transport τ) :
    Decidable (transport.Each P) :=
  decidable_of_iff (∀ entry ∈ transport.racks.entries, ∀ part ∈ entry.2.oscillators.entries,
      P entry.1 part.1 part.2) <| by
    simp only [Each, Rack.Each, Roster.find?_eq_some_iff, Prod.forall]

theorem Each.ring (each : transport.Each P) {name id : String} {ring : RingOscillator}
    (found : Racks.ring? transport.racks.find? name id = some ring) : P name id ring := by
  obtain ⟨rack, found_rack, found⟩ := Option.bind_eq_some_iff.mp found
  exact each name rack found_rack id ring found

theorem Each.of_ring (all : ∀ name id ring,
      Racks.ring? transport.racks.find? name id = some ring → P name id ring) : transport.Each P :=
  fun name rack found_rack id ring found =>
    all name id ring (Option.bind_eq_some_iff.mpr ⟨rack, found_rack, found⟩)

theorem Each.insert (each : transport.Each P) {name : String} {rack : Rack}
    (has : rack.Each (P name)) (graph : Graph τ) :
    Each P { transport with graph, racks := transport.racks.insert name rack } := by
  intro other found_rack found
  rw [Roster.find?_insert] at found
  split at found
  · rename_i here
    cases found
    exact here ▸ has
  · exact each other found_rack found

/-- A property of rings that is kept while a project's instruments are equipped. -/
structure Lasts (P : String → String → RingOscillator → Prop) (project : Project τ) : Prop where
  made : ∀ name instrument id partials output control,
    (name, instrument) ∈ project.instruments.entries →
    (id, partials) ∈ instrument.oscillators.entries → P name id (.made partials output control)
  described : ∀ name instrument id partials ring,
    (name, instrument) ∈ project.instruments.entries →
    (id, partials) ∈ instrument.oscillators.entries → P name id ring →
      P name id (ring.described instrument id partials)
  turned : ∀ name id ring follows, P name id ring → P name id (ring.following follows)

theorem Each.equipAll (each : transport.Each P) (lasts : Lasts P project) :
    (transport.equipAll project).Each P := by
  refine List.foldlRecOn (motive := Transport.Each P) project.instruments.entries _ each ?_
  rintro start has ⟨name, instrument⟩ listed
  refine has.insert ?_ _
  have before : ((start.racks.find? name).getD .empty).Each (P name) := by
    intro id ring found
    cases present : start.racks.find? name with
    | none =>
      rw [present] at found
      cases found
    | some rack =>
      rw [present] at found
      exact has name rack present id ring found
  exact (before.furnish (lasts.made name instrument · · · · listed)
    (lasts.described name instrument · · · listed) start.graph).patch (lasts.turned name) _ _

section Histories

variable [TimeAxis τ] (freed : ∀ name id ring, P name id ring → P name id ring.freed)

include freed

theorem Each.freeWhere (each : transport.Each P) (which : String → Bool) :
    (transport.freeWhere which).Each P := by
  intro name rack found
  rw [find?_freeWhere] at found
  obtain ⟨old, found_old, rfl⟩ := Option.map_eq_some_iff.mp found
  split
  · exact (each name old found_old).free (freed name) transport.graph
  · exact each name old found_old

theorem Each.cleared (each : transport.Each P) (lasts : Lasts P project) :
    (transport.cleared project).Each P :=
  (each.equipAll lasts).freeWhere freed _

theorem Each.followState (each : transport.Each P) (playing : Bool) :
    (transport.followState playing).Each P := by
  unfold Transport.followState
  split
  · simpa only [Each, racks_play] using each
  · refine Each.freeWhere freed ?_ _
    simpa only [Each, racks_pause] using each
  · exact each

variable [Fourier]
  (scheduled : ∀ name id ring graph note position delays next after, P name id ring →
    ring.schedule graph note (position : τ) = .ok (delays, next, after) → P name id next)

include scheduled

theorem Each.scheduleNotes (each : transport.Each P) (position : τ) (name : String)
    (notes : List (Note τ)) :
    (Transport.scheduleNotes position transport name notes).state.Each P := by
  unfold Transport.scheduleNotes
  split
  · exact each
  · rename_i rack found
    refine each.insert ?_ _
    exact Attempt.visit_keeps (P := fun state : Rack × Graph τ => state.1.Each (P name))
      (fun state note has => has.schedule (scheduled name) state.2 note position) _
      ((each name rack found).free (freed name) transport.graph)

theorem Each.scheduleProject (each : transport.Each P) (project : Project τ) :
    (transport.scheduleProject project).state.Each P := by
  have visited : (Attempt.visit (fun next name =>
      Transport.scheduleNotes transport.position next name (project.notesOf name)) transport
        project.instruments.names).state.Each P :=
    Attempt.visit_keeps (P := fun next : Transport τ => next.Each P)
      (fun next name has => has.scheduleNotes freed scheduled _ name _) _ each
  unfold Transport.scheduleProject
  dsimp only
  unfold Attempt.andThen
  split
  · exact visited
  · exact visited

theorem Each.reconcile (each : transport.Each P) (lasts : Lasts P project) :
    (transport.reconcile project).state.Each P := by
  have reached : (if project.playing then (transport.cleared project).scheduleProject project
      else .done (transport.cleared project)).state.Each P := by
    split
    · exact (each.cleared freed lasts).scheduleProject freed scheduled project
    · exact each.cleared freed lasts
  rw [reconcile_eq]
  unfold Attempt.andThen
  split
  · exact reached.followState freed _
  · exact reached

theorem Each.perform (each : transport.Each P) (operation : Operation τ)
    (lasts : ∀ project ∈ projects [operation], Lasts P project) :
    (transport.perform operation).Each P := by
  cases operation with
  | play =>
    show transport.play.Each P
    simpa only [Each, racks_play] using each
  | pause =>
    show transport.pause.Each P
    simpa only [Each, racks_pause] using each
  | reset => exact each
  | seek position => exact each
  | reconcile project =>
    exact each.reconcile freed scheduled (lasts project (List.mem_singleton.mpr rfl))
  | render frames =>
    unfold Transport.perform
    dsimp only
    split
    · rename_i rendered
      simp only [Transport.render, Fault.bind_ok_iff] at rendered
      obtain ⟨_, -, same⟩ := rendered
      cases same
      exact each
    · exact each

end Histories

end Transport

end Patchbay
