import Patchbay.Proofs.Transport.History

/-!
# Compiling a project

When all instruments of a project are equipped, the wiring of the graph ends with the boards of these
instruments, one after another. What stands before comes from none of their output stages and
gains, and to clear the other racks and to schedule notes keeps this picture.
-/
namespace Patchbay

variable {τ : Type}

namespace Racks

variable {racks racks' : Racks} {name : String} {rack rack' : Rack} {graph after : Graph τ}

/-- Where a rack stays, so do its sites. -/
theorem keyAt_congr (same : racks' name = racks name) : racks'.keyAt name = racks.keyAt name := by
  funext site
  cases site <;> simp only [keyAt, output, control, ring?, stage?, same]

theorem stands_congr (same : racks' name = racks name) (site : Site) :
    racks'.Stands name site ↔ racks.Stands name site := by
  cases site <;> simp only [Stands, ring?, stage?, same]

/-- An instrument stays as it is while its rack and its nodes do. -/
theorem Settled.congr {known : Site → Prop} {board : Board}
    (settled : racks.Settled name graph known board) (same : racks' name = racks name)
    (nodes : ∀ key, racks.Owns name key → after.node? key = graph.node? key) :
    racks'.Settled name after known board where
  rings := by
    intro id described
    obtain ⟨ring, found, control, follows⟩ := settled.rings id described
    refine ⟨ring, ?_, ?_, follows⟩
    · rw [ring?, same]
      exact found
    · rw [nodes _ (owns_ring found (RingOscillator.control_mem_keys _)), control]
  stages := by
    intro id described
    obtain ⟨stage, found, factor⟩ := settled.stages id described
    refine ⟨stage, ?_, ?_⟩
    · rw [stage?, same]
      exact found
    · rw [nodes _ (owns_stage found), factor]

end Racks

namespace Transport

variable {transport : Transport τ}

/-- The wiring of boards, one after another. -/
def boardWires (transport : Transport τ) (cables : String → List Cable)
    (entries : List (String × Instrument)) : List Connection :=
  entries.flatMap fun (name, instrument) =>
    (instrument.board (cables name)).wires.map (Racks.lift transport.racks.find? name)

/-- The instruments of these entries stand as their boards say, after other wiring. -/
structure Wired (transport : Transport τ) (cables : String → List Cable)
    (entries : List (String × Instrument)) (base : List Connection) : Prop where
  connections : transport.graph.connections = base ++ transport.boardWires cables entries
  fresh : ∀ name instrument, (name, instrument) ∈ entries → ∀ site,
    Racks.Stands transport.racks.find? name site → site.Speaks →
      ∀ c ∈ base, c.source ≠ Racks.keyAt transport.racks.find? name site
  settled : ∀ name instrument, (name, instrument) ∈ entries →
    Racks.Settled transport.racks.find? name transport.graph instrument.Describes
      (instrument.board (cables name))

/-- No id of an instrument has another role, in its rack or in the instrument itself. -/
def Agrees (transport : Transport τ) (name : String) (instrument : Instrument) : Prop :=
  ∀ id role role', (transport.rackOf name).HasRole id role ∨ instrument.HasRole id role →
    instrument.HasRole id role' → role = role'

/-- To equip an instrument adds the wires of its board and leaves those of other instruments. -/
theorem Sound.equip_board [Fourier] (sound : transport.Sound) {name : String}
    {instrument : Instrument} (agrees : transport.Agrees name instrument) {cables : List Cable}
    (known : ∀ cable ∈ cables, cable.source ∈ instrument.ids ∧ cable.target ∈ instrument.ids) :
    let after := transport.equip name instrument cables
    ∃ keep : Connection → Bool,
      after.graph.connections = transport.graph.connections.filter keep ++
        (instrument.board cables).wires.map (Racks.lift after.racks.find? name) ∧
      (∀ c, (∃ place, place ≠ name ∧ Racks.Owns transport.racks.find? place c.source) →
        (c.target = Graph.destination ∨
          ∃ place, place ≠ name ∧ Racks.Owns transport.racks.find? place c.target) →
        keep c = true) ∧
      (∀ site, Racks.Stands after.racks.find? name site → site.Speaks →
        ∀ c ∈ transport.graph.connections.filter keep,
          c.source ≠ Racks.keyAt after.racks.find? name site) ∧
      Racks.Settled after.racks.find? name after.graph instrument.Describes
        (instrument.board cables) := by
  intro after
  obtain ⟨furnished, middle, furnish, sound', -, connections, -, full, roles⟩ :=
    (sound.rackOf name).furnish instrument
  obtain ⟨patched, last, patch, -, -, -, same⟩ := sound'.patch cables
  have is_after : after =
      { transport with graph := last, racks := transport.racks.insert name patched } := by
    rw [Transport.rackOf] at furnish
    simp only [after, Transport.equip, furnish, patch]
  have racks : after.racks.find? = Racks.set transport.racks.find? name patched := by
    rw [is_after]
    exact Racks.find?_insert ..
  have graph : after.graph = last := by rw [is_after]
  have rack_agrees : furnished.Agrees instrument := fun id role role' has =>
    agrees id role role' (roles id role has)
  obtain ⟨wires, settled⟩ := sound'.patch_instrument full rack_agrees cables known patch
  have keys : (Racks.set transport.racks.find? name patched).keyAt name =
      (Racks.set transport.racks.find? name furnished).keyAt name := Racks.keyAt_sameParts same
  refine ⟨furnished.spares, ?_, fun c source target => sound'.spares_of_foreign source target, ?_, ?_⟩
  · rw [racks, graph, wires, connections, Racks.lift_congr keys]
  · intro site stands speaks c mem
    rw [racks] at stands ⊢
    rw [keys]
    have stands := (Racks.stands_sameParts same site).mp stands
    exact Racks.apart_of_spares stands speaks (List.mem_filter.mp mem).2
  · rw [racks, graph]
    exact settled

theorem boardWires_congr {after : Transport τ} {entries : List (String × Instrument)}
    (cables : String → List Cable) (same : ∀ entry ∈ entries,
      Racks.keyAt after.racks.find? entry.1 = Racks.keyAt transport.racks.find? entry.1) :
    after.boardWires cables entries = transport.boardWires cables entries := by
  refine List.flatMap_congr fun entry mem => ?_
  show List.map (Racks.lift after.racks.find? entry.1) _ = _
  rw [Racks.lift_congr (same entry mem)]

theorem agrees_congr {after : Transport τ} {name : String} {instrument : Instrument}
    (same : after.racks.find? name = transport.racks.find? name)
    (agrees : transport.Agrees name instrument) : after.Agrees name instrument := by
  unfold Transport.Agrees rackOf
  rw [same]
  exact agrees

variable [Fourier]

/-- One more instrument is equipped. -/
theorem Sound.wired_equip (sound : transport.Sound) {cables : String → List Cable}
    {entries : List (String × Instrument)} {base : List Connection}
    (wired : transport.Wired cables entries base) {name : String} {instrument : Instrument}
    (new : name ∉ entries.map (·.1)) (agrees : transport.Agrees name instrument)
    (known : ∀ cable ∈ cables name,
      cable.source ∈ instrument.ids ∧ cable.target ∈ instrument.ids) :
    ∃ base', (transport.equip name instrument (cables name)).Wired cables
      (entries ++ [(name, instrument)]) base' := by
  obtain ⟨keep, connections, kept, fresh, settled⟩ := sound.equip_board agrees known
  obtain ⟨rack, last, equip, sound', -, spares, -, -⟩ := sound.equip name instrument (cables name)
  obtain ⟨after, is_after⟩ : ∃ after, after = transport.equip name instrument (cables name) :=
    ⟨_, rfl⟩
  rw [← is_after] at connections fresh settled equip sound' ⊢
  have differs {other : String} {description : Instrument}
      (mem : (other, description) ∈ entries) : other ≠ name := by
    rintro rfl
    exact new (List.mem_map.mpr ⟨_, mem, rfl⟩)
  have same {other : String} (apart : other ≠ name) :
      after.racks.find? other = transport.racks.find? other := by
    rw [equip]
    exact Roster.find?_insert_of_ne apart ..
  have others : after.boardWires cables entries = transport.boardWires cables entries :=
    boardWires_congr cables fun entry mem => Racks.keyAt_congr (same (differs mem))
  -- the wires of the other instruments stay
  have stay : (transport.boardWires cables entries).filter keep =
      transport.boardWires cables entries := by
    rw [List.filter_eq_self]
    intro c mem
    obtain ⟨⟨other, description⟩, entry, mem⟩ := List.mem_flatMap.mp mem
    obtain ⟨wire, listed, rfl⟩ := List.mem_map.mp mem
    obtain ⟨source, target⟩ := (wired.settled other description entry).owns_lift
      (description.within_of_mem_board (cables other) wire listed)
    exact kept _ ⟨other, differs entry, source⟩
      (target.imp_right fun owned => ⟨other, differs entry, owned⟩)
  refine ⟨base.filter keep, ?_, ?_, ?_⟩
  · have one_more : after.boardWires cables (entries ++ [(name, instrument)]) =
        after.boardWires cables entries ++
          (instrument.board (cables name)).wires.map (Racks.lift after.racks.find? name) := by
      simp [boardWires]
    rw [connections, wired.connections, List.filter_append, stay, ← others, one_more,
      List.append_assoc]
  · intro other description mem site stands speaks c member
    have old : c ∈ transport.graph.connections.filter keep := by
      rw [wired.connections, List.filter_append]
      exact List.mem_append_left _ member
    rcases List.mem_append.mp mem with mem | mem
    · have unchanged := same (differs mem)
      rw [Racks.keyAt_congr unchanged]
      exact wired.fresh other description mem site
        ((Racks.stands_congr unchanged site).mp stands) speaks c (List.mem_filter.mp member).1
    · cases List.mem_singleton.mp mem
      exact fresh site stands speaks c old
  · intro other description mem
    rcases List.mem_append.mp mem with mem | mem
    · have graph : after.graph = last := by rw [equip]
      rw [graph]
      exact (wired.settled other description mem).congr (same (differs mem))
        fun key owned => spares other key (differs mem) owned
    · cases List.mem_singleton.mp mem
      exact settled

/-- All instruments are equipped. -/
theorem Sound.wired_equipEntries (sound : transport.Sound) {cables : String → List Cable}
    {before entries : List (String × Instrument)} {base : List Connection}
    (wired : transport.Wired cables before base)
    (once : ((before ++ entries).map (·.1)).Nodup)
    (agrees : ∀ name instrument, (name, instrument) ∈ entries → transport.Agrees name instrument)
    (known : ∀ name instrument, (name, instrument) ∈ entries → ∀ cable ∈ cables name,
      cable.source ∈ instrument.ids ∧ cable.target ∈ instrument.ids) :
    ∃ base', (entries.foldl (fun (transport : Transport τ) (name, instrument) =>
      transport.equip name instrument (cables name)) transport).Wired cables
        (before ++ entries) base' := by
  induction entries generalizing transport before base with
  | nil => exact ⟨base, by simpa using wired⟩
  | cons entry rest ih =>
    obtain ⟨name, instrument⟩ := entry
    obtain ⟨rack, last, equip, sound', -⟩ := sound.equip name instrument (cables name)
    have apart : name ∉ before.map (·.1) ∧ name ∉ rest.map (·.1) := by
      rw [List.map_append, List.map_cons, List.nodup_append] at once
      obtain ⟨-, rest_once, disjoint⟩ := once
      exact ⟨fun mem => disjoint name mem name List.mem_cons_self rfl,
        (List.nodup_cons.mp rest_once).1⟩
    obtain ⟨base', wired'⟩ := sound.wired_equip wired apart.1
      (agrees name instrument List.mem_cons_self) (known name instrument List.mem_cons_self)
    have whole : before ++ [(name, instrument)] ++ rest = before ++ (name, instrument) :: rest := by
      simp
    rw [← whole] at once ⊢
    refine ih sound' wired' once (fun other description mem => ?_)
      fun other description mem => known other description (List.mem_cons_of_mem _ mem)
    have differs : other ≠ name := by
      rintro rfl
      exact apart.2 (List.mem_map.mpr ⟨_, mem, rfl⟩)
    refine agrees_congr ?_ (agrees other description (List.mem_cons_of_mem _ mem))
    rw [equip]
    exact Roster.find?_insert_of_ne differs ..

/-! ### Clearing -/

omit [Fourier] in
/-- Where nodes are taken out that are no sites, the boards stay. -/
theorem Wired.connections_filter {cables : String → List Cable}
    {entries : List (String × Instrument)} {base : List Connection}
    (wired : transport.Wired cables entries base) {gone : List NodeKey}
    (spared : ∀ name site, Racks.Stands transport.racks.find? name site →
      Racks.keyAt transport.racks.find? name site ∉ gone) :
    transport.graph.connections.filter (fun c => c.source ∉ gone ∧ c.target ∉ gone) =
      base.filter (fun c => c.source ∉ gone ∧ c.target ∉ gone) ++
        transport.boardWires cables entries := by
  have stay : (transport.boardWires cables entries).filter
      (fun c => c.source ∉ gone ∧ c.target ∉ gone) = transport.boardWires cables entries := by
    rw [List.filter_eq_self]
    intro c mem
    obtain ⟨⟨name, instrument⟩, entry, mem⟩ := List.mem_flatMap.mp mem
    obtain ⟨wire, listed, rfl⟩ := List.mem_map.mp mem
    obtain ⟨from_site, -, to_site⟩ := instrument.within_of_mem_board (cables name) wire listed
    have settled := wired.settled name instrument entry
    exact decide_eq_true ⟨spared name _ (settled.stands from_site),
      spared name _ (settled.stands to_site)⟩
  rw [wired.connections, List.filter_append, stay]

variable [TimeAxis τ]

/-- To free other racks leaves the boards as they are. -/
theorem Sound.wired_freeWhere (sound : transport.Sound) {cables : String → List Cable}
    {entries : List (String × Instrument)} {base : List Connection}
    (wired : transport.Wired cables entries base) {which : String → Bool}
    (kept : ∀ name instrument, (name, instrument) ∈ entries → which name = false) :
    ∃ base', (transport.freeWhere which).Wired cables entries base' := by
  obtain ⟨-, -, -, connections, nodes⟩ := sound.freeWhere which
  have same {name : String} (unasked : which name = false) :
      (transport.freeWhere which).racks.find? name = transport.racks.find? name := by
    rw [find?_freeWhere]
    simp [unasked]
  have spared (name : String) (site : Site) (stands : Racks.Stands transport.racks.find? name site) :
      Racks.keyAt transport.racks.find? name site ∉ transport.voicesWhere which := by
    intro mem
    obtain ⟨place, id, ring, -, found, counted⟩ := mem_voicesWhere.mp mem
    exact Racks.Sound.keyAt_not_counted sound stands found counted
  rw [wired.connections_filter spared] at connections
  refine ⟨base.filter fun c => c.source ∉ transport.voicesWhere which ∧
    c.target ∉ transport.voicesWhere which, ?_, ?_, ?_⟩
  · rw [connections,
      boardWires_congr cables fun entry mem => Racks.keyAt_congr (same (kept _ _ mem))]
  · intro name instrument mem site stands speaks c member
    have unchanged := same (kept name instrument mem)
    rw [Racks.keyAt_congr unchanged]
    exact wired.fresh name instrument mem site ((Racks.stands_congr unchanged site).mp stands)
      speaks c (List.mem_filter.mp member).1
  · intro name instrument mem
    refine (wired.settled name instrument mem).congr (same (kept name instrument mem))
      fun key owned => ?_
    rw [nodes, if_neg]
    intro gone
    obtain ⟨place, id, ring, asked, found, counted⟩ := mem_voicesWhere.mp gone
    have theirs : Racks.Owns transport.racks.find? place key :=
      Racks.owns_ring found (RingOscillator.mem_keys_of_counted counted)
    rw [← Racks.Sound.owner_unique sound owned theirs, kept name instrument mem] at asked
    cases asked

end Transport

/-- Cables join parts of their own instruments. -/
def Project.Plugged (project : Project τ) : Prop :=
  ∀ entry ∈ project.instruments.entries, ∀ cable ∈ project.cablesOf entry.1,
    cable.source ∈ entry.2.ids ∧ cable.target ∈ entry.2.ids

instance (project : Project τ) : Decidable project.Plugged :=
  inferInstanceAs (Decidable (∀ entry ∈ project.instruments.entries,
    ∀ cable ∈ project.cablesOf entry.1,
      cable.source ∈ entry.2.ids ∧ cable.target ∈ entry.2.ids))

namespace Transport

variable [TimeAxis τ] [Fourier] {transport : Transport τ}

/-- A project is compiled: its boards stand in the graph, and the other racks are silent. -/
theorem Sound.wired_cleared (sound : transport.Sound) {project : Project τ}
    (plugged : project.Plugged)
    (agrees : ∀ name instrument, project.instruments.find? name = some instrument →
      transport.Agrees name instrument) :
    ∃ base, (transport.cleared project).Wired project.cablesOf project.instruments.entries base := by
  have start : transport.Wired project.cablesOf [] transport.graph.connections :=
    ⟨by simp [boardWires], by simp, by simp⟩
  obtain ⟨equipped, run, sound', -⟩ :=
    sound.equipEntries project.cablesOf project.instruments.entries project.instruments.names_nodup
  have once : (([] : List (String × Instrument)) ++ project.instruments.entries |>.map (·.1)).Nodup :=
    project.instruments.names_nodup
  obtain ⟨base, wired⟩ := sound.wired_equipEntries start once
    (fun name instrument mem => agrees name instrument (Roster.find?_eq_some_iff.mpr mem))
    fun name instrument mem => plugged (name, instrument) mem
  rw [run, List.nil_append] at wired
  have is_equipped : transport.equipAll project = equipped := run
  unfold cleared
  rw [is_equipped]
  refine sound'.wired_freeWhere wired fun name instrument mem => ?_
  rw [Roster.contains_of_find? (Roster.find?_eq_some_iff.mpr mem), Bool.not_true]

end Transport

end Patchbay
