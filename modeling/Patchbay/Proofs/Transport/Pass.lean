import Patchbay.Proofs.Transport.Turn
import Patchbay.Proofs.Transport.Upkeep

/-!
# The passes of a transport

To schedule a project is a pass over its instruments. Where waves can be made it asks for the voices
of all notes, and where none can be made it stops at the first. To free racks is a pass that asks for
no voice.
-/
namespace Patchbay

variable {τ : Type}

/-- The calls that the notes of an instrument make, in order. -/
def Racks.callsOf [TimeAxis τ] (racks : Racks) (now position : τ) (name : String)
    (notes : List (Note τ)) : List (Call τ) :=
  (racks name).elim [] fun rack =>
    (notes.filter fun note => position < note.ends).flatMap
      (rack.calls name now position rack.active)

/-- The calls that can be played: all of them, or none where no wave can be made. -/
def playable (rate : Float32) (calls : List (Call τ)) : List (Call τ) :=
  if binCount rate ≤ Partials.maxBins then calls else []

namespace Transport

variable [TimeAxis τ] {transport : Transport τ}

/-- A call goes to an oscillator of its instrument that takes part. -/
theorem of_mem_callsOf {racks : Racks} {now position : τ} {name : String}
    {notes : List (Note τ)} {call : Call τ} (mem : call ∈ racks.callsOf now position name notes) :
    call.name = name ∧ ∃ rack, racks name = some rack ∧ call.id ∈ rack.active := by
  unfold Racks.callsOf at mem
  cases found : racks name with
  | none =>
    rw [found] at mem
    cases mem
  | some rack =>
    rw [found] at mem
    obtain ⟨note, -, mem⟩ := List.mem_flatMap.mp mem
    obtain ⟨id, takes_part, called⟩ := List.mem_flatMap.mp mem
    obtain ⟨ring, -, rfl⟩ := Option.map_eq_some_iff.mp (Option.mem_toList.mp called)
    exact ⟨rfl, rack, rfl, takes_part⟩

variable [Fourier]

/-- The notes of one instrument take the place of the voices it had. -/
theorem Sound.scheduleNotes (sound : transport.Sound)
    (fits : binCount transport.graph.rate ≤ Partials.maxBins) (position : τ) (name : String)
    (notes : List (Note τ)) :
    ∃ after, Transport.scheduleNotes position transport name notes = .done after ∧
      after = { transport with graph := after.graph, racks := after.racks } ∧
      Racks.Turned transport.racks.find? transport.graph [name]
        (Racks.callsOf transport.racks.find? transport.now position name notes)
        after.racks.find? after.graph := by
  unfold Transport.scheduleNotes
  cases found : transport.racks.find? name with
  | none =>
    refine ⟨transport, rfl, rfl, ?_⟩
    simp only [Racks.callsOf, found, Option.elim]
    refine Racks.Turned.idle sound [name] fun place here id ring found_ring => ?_
    obtain rfl := List.mem_singleton.mp here
    rw [Racks.ring?, found] at found_ring
    cases found_ring
  | some rack =>
    have same := Racks.set_eq_self found
    have sound' : (Racks.set transport.racks.find? name rack).Sound transport.graph :=
      same.symm ▸ sound
    obtain ⟨middle, free, sound_free, -, clock, -, -, -⟩ := sound'.free
    have rate : middle.rate = transport.graph.rate := by simp only [Graph.rate, clock]
    have now : (middle.now : τ) = transport.now := by
      simp only [Transport.now, Graph.now, clock]
    obtain ⟨rack', after, run, played, -⟩ := sound_free.playNotes (rate ▸ fits)
      (notes.filter fun note => position < note.ends) position
    have calls_free (note : Note τ) : (rack.free transport.graph).1.calls name transport.now
        position (rack.free transport.graph).1.active note =
          rack.calls name transport.now position rack.active note := by
      simp only [Rack.calls, Rack.find?_free]
      congr 1
      funext id
      cases rack.oscillators.find? id <;> rfl
    rw [now, funext calls_free] at played
    refine ⟨{ transport with graph := after, racks := transport.racks.insert name rack' }, ?_, rfl,
      ?_⟩
    · show Attempt.map _ (Attempt.visit _ (rack.free transport.graph) _) = _
      rw [free, run]
      rfl
    · simp only [Racks.callsOf, found, Option.elim, Racks.find?_insert]
      have turned := sound'.turn free played ?_
      · rwa [same] at turned
      · intro call mem
        have listed : call ∈
            Racks.callsOf transport.racks.find? transport.now position name notes := by
          simpa only [Racks.callsOf, found, Option.elim] using mem
        exact (of_mem_callsOf listed).1

/-- Where no wave can be made, notes are refused and everything stays as it was. -/
theorem Sound.refuseNotes (sound : transport.Sound)
    (large : Partials.maxBins < binCount transport.graph.rate) (position : τ) (name : String)
    (notes : List (Note τ)) :
    ∃ after, Transport.scheduleNotes position transport name notes = ⟨after, Racks.faultOf
        transport.graph.rate
        (Racks.callsOf transport.racks.find? transport.now position name notes)⟩ ∧
      after = { transport with racks := after.racks } ∧
      after.racks.find? = transport.racks.find? := by
  unfold Transport.scheduleNotes
  cases found : transport.racks.find? name with
  | none =>
    refine ⟨transport, ?_, rfl, rfl⟩
    simp [Racks.callsOf, found, Racks.faultOf, Attempt.done]
  | some rack =>
    have same := Racks.set_eq_self found
    have sound' : (Racks.set transport.racks.find? name rack).Sound transport.graph :=
      same.symm ▸ sound
    have refused := sound'.refuseNotes large (notes.filter fun note => position < note.ends) position
    refine ⟨{ transport with racks := transport.racks.insert name rack }, ?_, rfl, ?_⟩
    · show Attempt.map _ (Attempt.visit _ (rack.free transport.graph) _) = _
      rw [sound'.free_eq_self large, refused]
      simp only [Racks.callsOf, found, Option.elim]
      rfl
    · rw [Racks.find?_insert, same]

omit [Fourier] in
theorem callsOf_congr {racks racks' : Racks} {name : String}
    (same : racks' name = racks name) (now position : τ) (notes : List (Note τ)) :
    racks'.callsOf now position name notes = racks.callsOf now position name notes := by
  simp only [Racks.callsOf, same]

/-- Instruments are visited one after another, and each gives up only its own voices. -/
theorem Sound.playAll (sound : transport.Sound)
    (fits : binCount transport.graph.rate ≤ Partials.maxBins) (position : τ)
    (notes : String → List (Note τ)) (names : List String) (once : names.Nodup) :
    ∃ after, Attempt.visit (fun transport name =>
          Transport.scheduleNotes position transport name (notes name)) transport names =
        .done after ∧
      after = { transport with graph := after.graph, racks := after.racks } ∧
      Racks.Turned transport.racks.find? transport.graph names
        (names.flatMap fun name =>
          Racks.callsOf transport.racks.find? transport.now position name (notes name))
        after.racks.find? after.graph := by
  induction names generalizing transport with
  | nil => exact ⟨transport, rfl, rfl, .idle sound [] (by simp)⟩
  | cons name rest ih =>
    obtain ⟨absent, once⟩ := List.nodup_cons.mp once
    obtain ⟨middle, run, same, first⟩ := sound.scheduleNotes fits position name (notes name)
    have now : middle.now = transport.now := by simp only [Transport.now, Graph.now, first.clock]
    have apart (other : String) (later : other ∈ rest) : other ∉ [name] := by
      rintro here
      exact absent (List.mem_singleton.mp here ▸ later)
    obtain ⟨after, run', same', second⟩ := ih first.sound (first.rate ▸ fits) once
    refine ⟨after, ?_, ?_, ?_⟩
    · rw [Attempt.visit_cons, run, Attempt.done_andThen, run']
    · rw [same', same]
    · have still : (rest.flatMap fun name =>
          Racks.callsOf middle.racks.find? middle.now position name (notes name)) =
            rest.flatMap fun name =>
              Racks.callsOf transport.racks.find? transport.now position name (notes name) := by
        refine List.flatMap_congr fun other later => ?_
        rw [now, callsOf_congr (first.others other (apart other later))]
      rw [still] at second
      exact first.trans sound second apart

/-- Where no wave can be made, the first call ends the pass. -/
theorem Sound.refuseAll (sound : transport.Sound)
    (large : Partials.maxBins < binCount transport.graph.rate) (position : τ)
    (notes : String → List (Note τ)) (names : List String) :
    ∃ after, Attempt.visit (fun transport name =>
          Transport.scheduleNotes position transport name (notes name)) transport names =
        ⟨after, Racks.faultOf transport.graph.rate (names.flatMap fun name =>
          Racks.callsOf transport.racks.find? transport.now position name (notes name))⟩ ∧
      after = { transport with racks := after.racks } ∧
      after.racks.find? = transport.racks.find? := by
  induction names generalizing transport with
  | nil => exact ⟨transport, by simp [Racks.faultOf, Attempt.done], rfl, rfl⟩
  | cons name rest ih =>
    obtain ⟨middle, run, same, racks⟩ := sound.refuseNotes large position name (notes name)
    rw [Attempt.visit_cons, run, List.flatMap_cons]
    by_cases none_asked :
        Racks.callsOf transport.racks.find? transport.now position name (notes name) = []
    · have graph : middle.graph = transport.graph := by rw [same]
      have sound' : middle.Sound := by
        unfold Transport.Sound
        rw [racks, graph]
        exact sound
      obtain ⟨after, run', same', racks'⟩ := ih sound' (graph ▸ large)
      refine ⟨after, ?_, ?_, racks'.trans racks⟩
      · have now : middle.now = transport.now := by rw [Transport.now, Transport.now, graph]
        rw [graph, now, racks] at run'
        simp only [none_asked, Racks.faultOf, or_true, if_true, List.nil_append]
        exact run'
      · rw [same', same]
    · refine ⟨middle, ?_, same, racks⟩
      simp only [Racks.faultOf, none_asked, List.append_eq_nil_iff, false_and, or_false,
        Nat.not_le.mpr large, if_false]
      rfl

/-- The notes of all instruments take the place of the voices that these had. -/
theorem Sound.scheduleProject (sound : transport.Sound) (project : Project τ) :
    let calls := project.instruments.names.flatMap fun name =>
      Racks.callsOf transport.racks.find? transport.now transport.position name
        (project.notesOf name)
    ∃ after, transport.scheduleProject project =
        ⟨after, Racks.faultOf transport.graph.rate calls⟩ ∧
      after = { transport with graph := after.graph, racks := after.racks } ∧
      Racks.Turned transport.racks.find? transport.graph project.instruments.names
        (playable transport.graph.rate calls) after.racks.find? after.graph := by
  intro calls
  unfold Transport.scheduleProject
  by_cases fits : binCount transport.graph.rate ≤ Partials.maxBins
  · obtain ⟨after, run, same, turned⟩ := sound.playAll fits transport.position
      project.notesOf project.instruments.names project.instruments.names_nodup
    have no_fault : Racks.faultOf transport.graph.rate calls = none := if_pos (.inl fits)
    have all : playable transport.graph.rate calls = calls := if_pos fits
    rw [no_fault, all]
    refine ⟨{ after with
        graph := after.graph.log (.notesScheduled transport.position after.graph.nodeCount) },
      ?_, ?_, ?_⟩
    · simp only [run, Attempt.done_andThen]
      rfl
    · rw [same]
    · exact turned.reported (Graph.reported_log _ _)
  · have large := Nat.lt_of_not_le fits
    obtain ⟨after, run, same, racks⟩ := sound.refuseAll large transport.position
      project.notesOf project.instruments.names
    have graph : after.graph = transport.graph := by rw [same]
    have nothing : playable transport.graph.rate calls = [] := if_neg fits
    have idle : Racks.Turned transport.racks.find? transport.graph project.instruments.names
        ([] : List (Call τ)) transport.racks.find? transport.graph :=
      .idle sound _ fun name _ id ring found =>
        (Racks.Sound.idle sound large found).2
    simp only [run, nothing]
    by_cases none_asked : calls = []
    · have no_fault : Racks.faultOf transport.graph.rate calls = none := if_pos (.inr none_asked)
      refine ⟨{ after with
          graph := after.graph.log (.notesScheduled transport.position after.graph.nodeCount) },
        ?_, ?_, ?_⟩
      · show Attempt.andThen ⟨after, Racks.faultOf transport.graph.rate calls⟩ _ = _
        rw [no_fault]
        rfl
      · rw [same]
      · rw [racks, graph]
        exact idle.reported (Graph.reported_log _ _)
    · have fault : Racks.faultOf transport.graph.rate calls =
          some (.bufferTooLarge (binCount transport.graph.rate)) := by
        rw [Racks.faultOf, if_neg]
        exact fun either => either.elim fits none_asked
      refine ⟨after, ?_, ?_, ?_⟩
      · show Attempt.andThen ⟨after, Racks.faultOf transport.graph.rate calls⟩ _ = _
        rw [fault]
        rfl
      · rw [same]
      · rw [racks, graph]
        exact idle

/-! ### Voices that are freed -/

omit [TimeAxis τ] [Fourier] in
theorem mem_voicesWhere_iff (which : String → Bool) (key : NodeKey) :
    key ∈ transport.voicesWhere which ↔
      key ∈ Racks.voices transport.racks.find? (transport.racks.names.filter which) := by
  rw [mem_voicesWhere, Racks.mem_voices]
  constructor
  · rintro ⟨name, id, ring, asked, found, counted⟩
    obtain ⟨rack, found_rack, -⟩ := Option.bind_eq_some_iff.mp found
    have listed : name ∈ transport.racks.names :=
      Roster.mem_names_of_find? found_rack
    exact ⟨name, List.mem_filter.mpr ⟨listed, asked⟩, id, ring, found, counted⟩
  · rintro ⟨name, mem, id, ring, found, counted⟩
    exact ⟨name, id, ring, (List.mem_filter.mp mem).2, found, counted⟩

/-- To free some of the racks is to give up their voices and to ask for none. -/
theorem Sound.turned_freeWhere (sound : transport.Sound) (which : String → Bool) :
    Racks.Turned transport.racks.find? transport.graph (transport.racks.names.filter which)
      ([] : List (Call τ)) (transport.freeWhere which).racks.find?
      (transport.freeWhere which).graph := by
  obtain ⟨sound', clock, size, connections, nodes⟩ := sound.freeWhere which
  have listed {name id : String} {ring : RingOscillator}
      (found : Racks.ring? transport.racks.find? name id = some ring) :
      name ∈ transport.racks.names.filter which ↔ which name = true := by
    obtain ⟨rack, found_rack, -⟩ := Option.bind_eq_some_iff.mp found
    have known : name ∈ transport.racks.names :=
      Roster.mem_names_of_find? found_rack
    rw [List.mem_filter, and_iff_right known]
  constructor
  case sound => exact sound'
  case clock => exact clock
  case size => exact size
  case connections =>
    rw [connections]
    simp only [mem_voicesWhere_iff, Call.placed, List.flatMap_nil, List.append_nil]
  case old =>
    intro key _
    simp only [nodes, mem_voicesWhere_iff]
  case new => simp [Call.placed]
  case rings =>
    intro name id ring found
    refine ⟨_, by rw [ring?_freeWhere, found]; rfl, ?_⟩
    by_cases asked : which name = true
    · simp [asked, (listed found).mpr asked, RingOscillator.freed, RingOscillator.bare, Call.placed,
        Call.voicesOf]
    · simp [asked, mt (listed found).mp asked, Call.placed, Call.voicesOf]
  case absent =>
    intro name id none_found
    rw [ring?_freeWhere, none_found, Option.map_none]
  case stages => exact transport.stage?_freeWhere which
  case fittings =>
    intro name
    rw [find?_freeWhere]
    cases transport.racks.find? name with
    | none => rfl
    | some rack =>
      simp only [Option.map_some]
      split <;> rfl
  case memories =>
    intro name id ring ring' found found'
    rw [ring?_freeWhere, found] at found'
    cases found'
    split <;> rfl
  case scored => simp [Call.placed]
  case others =>
    intro name outside
    rw [find?_freeWhere]
    cases found : transport.racks.find? name with
    | none => rfl
    | some rack =>
      have known : name ∈ transport.racks.names :=
        Roster.mem_names_of_find? found
      have kept : ¬ which name = true := fun asked =>
        outside (List.mem_filter.mpr ⟨known, asked⟩)
      rw [Option.map_some, if_neg kept]
  case named => simp

end Transport

end Patchbay
