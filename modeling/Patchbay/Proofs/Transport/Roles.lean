import Patchbay.Proofs.Transport.History

/-!
# Roles through a history

Racks keep every part that they ever had. An id has a role in a rack only because some project of
the history described it in this role.
-/
namespace Patchbay

variable {τ : Type}

namespace Rack

theorem hasRole_putOscillator {rack : Rack} {id : String} {old : RingOscillator}
    (found : rack.oscillators.find? id = some old) (ring : RingOscillator) {other : String}
    {role : Role} (has : (rack.putOscillator id ring).HasRole other role) :
    rack.HasRole other role := by
  cases role with
  | oscillator =>
    simp only [HasRole, putOscillator, Roster.contains, Roster.find?_insert] at has ⊢
    split at has
    · rename_i here
      simp [here, found]
    · exact has
  | _ => exact has

theorem hasRole_schedule [Fourier] [TimeAxis τ] (rack : Rack) (graph : Graph τ) (note : Note τ)
    (position : τ) {other : String} {role : Role}
    (has : (rack.schedule graph note position).state.1.HasRole other role) :
    rack.HasRole other role := by
  unfold schedule at has
  refine Attempt.visit_keeps
    (P := fun state : Rack × Graph τ => state.1.HasRole other role → rack.HasRole other role)
    (fun state part start => ?_) rack.active (fun start => start) has
  dsimp only
  split
  · exact start
  · rename_i ring found
    split
    · exact fun has => start (hasRole_putOscillator found _ has)
    · exact start

theorem hasRole_free [TimeAxis τ] (rack : Rack) (graph : Graph τ) {other : String} {role : Role}
    (has : (rack.free graph).1.HasRole other role) : rack.HasRole other role := by
  cases role with
  | oscillator =>
    simp only [HasRole, Roster.contains, find?_free, Option.isSome_map] at has ⊢
    exact has
  | _ => exact has

end Rack

namespace Instrument

/-- No id has one role here and another there. -/
def Agrees (instrument other : Instrument) : Prop :=
  ∀ used ∈ instrument.roles, ∀ used' ∈ other.roles, used.1 = used'.1 → used.2 = used'.2

instance (instrument other : Instrument) : Decidable (instrument.Agrees other) :=
  inferInstanceAs (Decidable (∀ used ∈ instrument.roles, ∀ used' ∈ other.roles,
    used.1 = used'.1 → used.2 = used'.2))

end Instrument

/-- In these projects, each id of an instrument has one role. -/
def OneRole (projects : List (Project τ)) : Prop :=
  ∀ project ∈ projects, ∀ other ∈ projects, ∀ entry ∈ project.instruments.entries,
    ∀ entry' ∈ other.instruments.entries, entry.1 = entry'.1 → entry.2.Agrees entry'.2

instance (projects : List (Project τ)) : Decidable (OneRole projects) :=
  inferInstanceAs (Decidable (∀ project ∈ projects, ∀ other ∈ projects,
    ∀ entry ∈ project.instruments.entries, ∀ entry' ∈ other.instruments.entries,
      entry.1 = entry'.1 → entry.2.Agrees entry'.2))

/-- A project describes an id of an instrument in a role. -/
def Project.UsesRole (project : Project τ) (name id : String) (role : Role) : Prop :=
  ∃ instrument, project.instruments.find? name = some instrument ∧ instrument.HasRole id role

theorem OneRole.eq {projects : List (Project τ)} (one : OneRole projects) {name id : String}
    {role role' : Role} (used : ∃ project ∈ projects, project.UsesRole name id role)
    (used' : ∃ project ∈ projects, project.UsesRole name id role') : role = role' := by
  obtain ⟨project, listed, instrument, found, has⟩ := used
  obtain ⟨other, listed', instrument', found', has'⟩ := used'
  exact one project listed other listed' (name, instrument) (Roster.find?_eq_some_iff.mp found)
    (name, instrument') (Roster.find?_eq_some_iff.mp found') rfl (id, role)
    (Instrument.mem_roles.mpr has) (id, role') (Instrument.mem_roles.mpr has') rfl

namespace Transport

/-- Some rack holds an id in a role. -/
def HoldsRole (transport : Transport τ) (name id : String) (role : Role) : Prop :=
  ∃ rack, transport.racks.find? name = some rack ∧ rack.HasRole id role

theorem holdsRole_of_rackOf {transport : Transport τ} {name id : String} {role : Role}
    (has : (transport.rackOf name).HasRole id role) : transport.HoldsRole name id role := by
  unfold rackOf at has
  cases found : transport.racks.find? name with
  | some rack =>
    rw [found] at has
    exact ⟨rack, found, has⟩
  | none =>
    rw [found] at has
    cases role <;> exact absurd has (by simp [Rack.HasRole, Rack.empty, Roster.contains])

variable [TimeAxis τ] {transport : Transport τ} {name id : String} {role : Role}

theorem holdsRole_freeWhere (which : String → Bool)
    (has : (transport.freeWhere which).HoldsRole name id role) :
    transport.HoldsRole name id role := by
  obtain ⟨rack, found, has⟩ := has
  rw [find?_freeWhere] at found
  obtain ⟨old, found_old, rfl⟩ := Option.map_eq_some_iff.mp found
  refine ⟨old, found_old, ?_⟩
  split at has
  · exact old.hasRole_free transport.graph has
  · exact has

variable [Fourier]

theorem holdsRole_scheduleNotes (position : τ) (place : String) (notes : List (Note τ))
    (has : (scheduleNotes position transport place notes).state.HoldsRole name id role) :
    transport.HoldsRole name id role := by
  unfold scheduleNotes at has
  cases found : transport.racks.find? place with
  | none =>
    rw [found] at has
    exact has
  | some rack =>
    rw [found] at has
    obtain ⟨scheduled, found', has⟩ := has
    have kept : (Attempt.visit (fun (state : Rack × Graph τ) note =>
          state.1.schedule state.2 note position) (rack.free transport.graph)
          (notes.filter fun note => position < note.ends)).state.1.HasRole id role →
        rack.HasRole id role :=
      Attempt.visit_keeps
        (P := fun state : Rack × Graph τ => state.1.HasRole id role → rack.HasRole id role)
        (fun state note start has =>
          start (state.1.hasRole_schedule state.2 note position has))
        _ (rack.hasRole_free transport.graph)
    have found' := (Roster.find?_insert _ _ _ _).symm.trans found'
    split at found'
    · rename_i here
      cases found'
      exact ⟨rack, here ▸ found, kept has⟩
    · exact ⟨scheduled, found', has⟩

theorem holdsRole_scheduleProject (project : Project τ)
    (has : (transport.scheduleProject project).state.HoldsRole name id role) :
    transport.HoldsRole name id role := by
  have visited : (Attempt.visit (fun next place =>
        scheduleNotes transport.position next place (project.notesOf place))
        transport project.instruments.names).state.HoldsRole name id role →
      transport.HoldsRole name id role :=
    Attempt.visit_keeps
      (P := fun next : Transport τ => next.HoldsRole name id role →
        transport.HoldsRole name id role)
      (fun next place start has => start (holdsRole_scheduleNotes transport.position place _ has))
      _ fun has => has
  unfold scheduleProject at has
  dsimp only at has
  unfold Attempt.andThen at has
  split at has
  · exact visited has
  · exact visited has

omit [Fourier] in
theorem holdsRole_followState (playing : Bool)
    (has : (transport.followState playing).HoldsRole name id role) :
    transport.HoldsRole name id role := by
  unfold followState at has
  split at has
  · simpa only [HoldsRole, racks_play] using has
  · have paused := holdsRole_freeWhere _ has
    simpa only [HoldsRole, racks_pause] using paused
  · exact has

omit [TimeAxis τ] in
theorem Sound.holdsRole_equip (sound : transport.Sound) (place : String) (instrument : Instrument)
    (cables : List Cable)
    (has : (transport.equip place instrument cables).HoldsRole name id role) :
    transport.HoldsRole name id role ∨ name = place ∧ instrument.HasRole id role := by
  obtain ⟨rack, after, equip, -, -, -, -, roles⟩ := sound.equip place instrument cables
  rw [equip] at has
  obtain ⟨found_rack, found, has⟩ := has
  have found := (Roster.find?_insert _ _ _ _).symm.trans found
  split at found
  · rename_i here
    cases found
    subst here
    rcases roles id role has with old | new
    · exact .inl (holdsRole_of_rackOf old)
    · exact .inr ⟨rfl, new⟩
  · exact .inl ⟨found_rack, found, has⟩

omit [TimeAxis τ] in
theorem Sound.holdsRole_equipEntries (sound : transport.Sound) (cables : String → List Cable)
    (entries : List (String × Instrument))
    (has : (entries.foldl (fun (transport : Transport τ) (place, instrument) =>
      transport.equip place instrument (cables place)) transport).HoldsRole name id role) :
    transport.HoldsRole name id role ∨
      ∃ instrument, (name, instrument) ∈ entries ∧ instrument.HasRole id role := by
  induction entries generalizing transport with
  | nil => exact .inl has
  | cons entry rest ih =>
    obtain ⟨place, description⟩ := entry
    obtain ⟨_, _, -, sound', -⟩ := sound.equip place description (cables place)
    rcases ih sound' has with before | ⟨instrument, mem, described⟩
    · rcases sound.holdsRole_equip place description (cables place) before with old | ⟨rfl, new⟩
      · exact .inl old
      · exact .inr ⟨description, List.mem_cons_self, new⟩
    · exact .inr ⟨instrument, List.mem_cons_of_mem _ mem, described⟩

/-- A reconciliation brings in no roles but those of its project. -/
theorem Sound.holdsRole_reconcile (sound : transport.Sound) (project : Project τ)
    (has : (transport.reconcile project).state.HoldsRole name id role) :
    transport.HoldsRole name id role ∨ project.UsesRole name id role := by
  have cleared (has : (transport.cleared project).HoldsRole name id role) :
      transport.HoldsRole name id role ∨ project.UsesRole name id role := by
    rcases sound.holdsRole_equipEntries project.cablesOf _ (holdsRole_freeWhere _ has) with
      old | ⟨instrument, mem, described⟩
    · exact .inl old
    · exact .inr ⟨instrument, Roster.find?_eq_some_iff.mpr mem, described⟩
  have scheduled (has : (if project.playing then
        (transport.cleared project).scheduleProject project
      else .done (transport.cleared project)).state.HoldsRole name id role) :
      (transport.cleared project).HoldsRole name id role := by
    split at has
    · exact holdsRole_scheduleProject project has
    · exact has
  rw [reconcile_eq] at has
  unfold Attempt.andThen at has
  split at has
  · exact cleared (scheduled (holdsRole_followState _ has))
  · exact cleared (scheduled has)

theorem Sound.holdsRole_perform (sound : transport.Sound) (operation : Operation τ)
    (has : (transport.perform operation).HoldsRole name id role) :
    transport.HoldsRole name id role ∨
      ∃ project ∈ projects [operation], project.UsesRole name id role := by
  cases operation with
  | play =>
    have has : transport.play.HoldsRole name id role := has
    exact .inl (by simpa only [HoldsRole, racks_play] using has)
  | pause =>
    have has : transport.pause.HoldsRole name id role := has
    exact .inl (by simpa only [HoldsRole, racks_pause] using has)
  | reset => exact .inl has
  | seek position => exact .inl has
  | reconcile project =>
    rcases sound.holdsRole_reconcile project has with old | new
    · exact .inl old
    · exact .inr ⟨project, List.mem_singleton.mpr rfl, new⟩
  | render frames =>
    left
    unfold Transport.perform at has
    dsimp only at has
    split at has
    · rename_i rendered
      simp only [Transport.render, Fault.bind_ok_iff] at rendered
      obtain ⟨⟨samples, graph⟩, -, same⟩ := rendered
      cases same
      exact has
    · exact has

theorem Sound.holdsRole_foldl (sound : transport.Sound) (operations : List (Operation τ))
    (has : (operations.foldl Transport.perform transport).HoldsRole name id role) :
    transport.HoldsRole name id role ∨
      ∃ project ∈ projects operations, project.UsesRole name id role := by
  induction operations generalizing transport with
  | nil => exact .inl has
  | cons operation rest ih =>
    have split : projects (operation :: rest) = projects [operation] ++ projects rest :=
      List.filterMap_append (l := [operation])
    rw [split]
    rcases ih (sound.perform operation) has with before | ⟨project, mem, used⟩
    · rcases sound.holdsRole_perform operation before with old | ⟨project, mem, used⟩
      · exact .inl old
      · exact .inr ⟨project, List.mem_append_left _ mem, used⟩
    · exact .inr ⟨project, List.mem_append_right _ mem, used⟩

/-- After a history, every role of a rack comes from a project of the history. -/
theorem holdsRole_after (settings : Settings) (operations : List (Operation τ))
    (has : (after settings operations).HoldsRole name id role) :
    ∃ project ∈ projects operations, project.UsesRole name id role := by
  rcases (sound_create settings).holdsRole_foldl operations has with ⟨_, found, -⟩ | used
  · cases found
  · exact used

end Transport

end Patchbay
