import Patchbay.Proofs.Reconciliation.Replugging
import Patchbay.Proofs.Transport.Inventory
import Patchbay.Proofs.Transport.Knobs
import Patchbay.Proofs.Transport.Performance

/-!
# Where a voice has its pitch from

The pitch of a generator is the frequency that it was made with plus the frequency control of its
oscillator. An oscillator that follows notes has its control at zero. The generators of one that
does not are made at zero, and stay so unless it stops following notes while its voices are kept.
That happens only where a stopped transport is reconciled with a project that is not to be played.
-/
namespace Patchbay

variable {τ : Type}

/-! ### Controls that are down at zero -/

/-- The control of every oscillator that follows notes is at zero. -/
def Board.Tuned (board : Board) : Prop :=
  ∀ id, board.follows id = true → board.levels (.control id) = 0.0

/-- A cable lets an oscillator follow notes only together with its control. -/
theorem Board.Tuned.plug {board : Board} (tuned : board.Tuned)
    {part? : String → Option (Endpoint Site)}
    (gains : ∀ id site, part? id = some (.gain site) → ∃ part, site = .stage part)
    (cable : Cable) : (board.plug part? cable).Tuned := by
  have set (id : String) {follows : Bool} {level : Float32}
      (zero : follows = true → level = 0.0) : (board.tune id follows level).Tuned := by
    intro other here
    by_cases same : other = id
    · subst same
      simp only [Board.tune, Board.turn, if_true] at here ⊢
      exact zero here
    · simp only [Board.tune, Board.turn, if_neg same] at here ⊢
      rw [if_neg fun control => same (Site.control.inj control)]
      exact tuned other here
  unfold Board.plug
  split
  · rename_i feeding fed from_part to_part
    split
    · unfold Board.connect
      split
      · exact tuned
      · exact tuned
    · exact set _ Bool.noConfusion
    · exact set _ fun _ => rfl
    · rename_i stage factor effect
      rw [Plug.end_of_turn effect] at to_part
      obtain ⟨part, rfl⟩ := gains _ _ to_part
      exact tuned
    · exact tuned
  · exact tuned

theorem Rack.tuned_board (rack : Rack) (cables : List Cable) : (rack.board cables).Tuned := by
  have gains (id : String) (site : Site) (here : rack.site? id = some (.gain site)) :
      ∃ part, site = .stage part := by
    unfold Rack.site? at here
    split at here
    · cases here
    · split at here
      · cases here
        exact ⟨id, rfl⟩
      · split at here
        · cases here
        · split at here
          · cases here
          · split at here <;> cases here
  exact List.foldlRecOn (motive := Board.Tuned) cables _ (fun _ => Bool.noConfusion)
    fun board tuned cable _ => tuned.plug gains cable

namespace Transport

/-- The frequency control of every oscillator that follows notes is at zero. -/
def Tuned (transport : Transport τ) : Prop :=
  transport.Each fun _ _ ring => ring.oscillator.followsNote = true →
    transport.graph.value? ring.oscillator.control .offset = some 0.0

/-- The generators of every oscillator that does not follow notes are made at zero. -/
def Grounded (transport : Transport τ) : Prop :=
  transport.Each fun _ _ ring => ring.oscillator.followsNote = false →
    ∀ key ∈ ring.oscillator.generators, transport.graph.value? key .frequency = some 0.0

instance (transport : Transport τ) : Decidable transport.Tuned :=
  inferInstanceAs (Decidable (transport.Each fun _ _ ring => ring.oscillator.followsNote = true →
    transport.graph.value? ring.oscillator.control .offset = some 0.0))

instance (transport : Transport τ) : Decidable transport.Grounded :=
  inferInstanceAs (Decidable (transport.Each fun _ _ ring => ring.oscillator.followsNote = false →
    ∀ key ∈ ring.oscillator.generators, transport.graph.value? key .frequency = some 0.0))

variable {transport next : Transport τ} {project : Project τ}

theorem Tuned.of_keepsKnob (tuned : transport.Tuned) (racks : next.racks = transport.racks)
    (keeps : transport.graph.KeepsKnob .offset next.graph) : next.Tuned := by
  intro name rack found id ring found_ring follows
  rw [racks] at found
  exact keeps.value_eq_some (tuned name rack found id ring found_ring follows)

theorem Grounded.of_keepsKnob (grounded : transport.Grounded)
    (racks : next.racks = transport.racks)
    (keeps : transport.graph.KeepsKnob .frequency next.graph) : next.Grounded := by
  intro name rack found id ring found_ring apart key mem
  rw [racks] at found
  exact keeps.value_eq_some (grounded name rack found id ring found_ring apart key mem)

section Tuning

variable [Fourier]

/-- Once instruments are equipped, the oscillators of the project stand as their boards ask, and the
others as before. -/
theorem Sound.tuned_equipAll (sound : transport.Sound) (tuned : transport.Tuned)
    (project : Project τ) : (transport.equipAll project).Tuned := by
  obtain ⟨-, equipped, others, -⟩ :=
    sound.equipped_each project.cablesOf project.instruments.entries project.instruments.names_nodup
  intro name rack found id ring found_ring follows
  by_cases listed : name ∈ project.instruments.entries.map (·.1)
  · obtain ⟨⟨_, instrument⟩, mem, rfl⟩ := List.mem_map.mp listed
    obtain ⟨same, found_same, stands⟩ := equipped _ instrument mem
    obtain rfl : same = rack := Option.some.inj (found_same.symm.trans found)
    obtain ⟨level, asked⟩ := stands.rings id ring found_ring
    have control : (transport.equipAll project).graph.node? ring.oscillator.control = _ := level
    rw [Graph.value?, control]
    exact congrArg some (same.tuned_board _ id (asked ▸ follows))
  · obtain ⟨same, nodes⟩ := others name listed
    have found_old : transport.racks.find? name = some rack := same.symm.trans found
    have owned : Racks.Owns transport.racks.find? name ring.oscillator.control :=
      Racks.owns_ring (Option.bind_eq_some_iff.mpr ⟨rack, found_old, found_ring⟩)
        ring.control_mem_keys
    have kept : (transport.equipAll project).graph.node? ring.oscillator.control = _ :=
      nodes _ owned
    rw [Graph.value?, kept]
    exact tuned name rack found_old id ring found_ring follows

/-- Voices that come and go leave the controls. -/
theorem Sound.tuned_turned (sound : transport.Sound) (tuned : transport.Tuned)
    {names : List String} {calls : List (Call τ)}
    (turned : Racks.Turned transport.racks.find? transport.graph names calls next.racks.find?
      next.graph) : next.Tuned := by
  refine Each.of_ring fun name id ring found follows => ?_
  cases found_old : Racks.ring? transport.racks.find? name id with
  | none =>
    rw [turned.absent name id found_old] at found
    cases found
  | some old =>
    obtain ⟨same, found_same, bare, -⟩ := turned.rings name id old found_old
    obtain rfl : same = ring := Option.some.inj (found_same.symm.trans found)
    have control : same.oscillator.control = old.oscillator.control :=
      congrArg (·.oscillator.control) bare
    have asked : old.oscillator.followsNote = true :=
      (congrArg (·.oscillator.followsNote) bare).symm.trans follows
    have lt := sound.lt_size (Racks.owns_ring found_old old.control_mem_keys)
    have stays : old.oscillator.control ∉ Racks.voices transport.racks.find? names := by
      intro mem
      obtain ⟨_, -, _, _, found', counted⟩ := Racks.mem_voices.mp mem
      exact (sound.output_not_counted found_old found').2 counted
    rw [control, Graph.value?, turned.old _ lt, if_neg stays]
    exact Each.ring tuned found_old asked

/-! ### What is done to a transport -/

variable [TimeAxis τ]

theorem Sound.tuned_freeWhere (sound : transport.Sound) (tuned : transport.Tuned)
    (which : String → Bool) : (transport.freeWhere which).Tuned :=
  sound.tuned_turned tuned (sound.turned_freeWhere which)

theorem Sound.tuned_cleared (sound : transport.Sound) (tuned : transport.Tuned)
    (project : Project τ) : (transport.cleared project).Tuned := by
  obtain ⟨equipped, -⟩ := sound.equips_equipAll project
  exact equipped.tuned_freeWhere (sound.tuned_equipAll tuned project) _

theorem Sound.tuned_followState (sound : transport.Sound) (tuned : transport.Tuned)
    (playing : Bool) : (transport.followState playing).Tuned := by
  unfold Transport.followState
  split
  · exact tuned.of_keepsKnob transport.racks_play (transport.keepsKnob_play _)
  · exact sound.pause.tuned_freeWhere
      (tuned.of_keepsKnob transport.racks_pause (transport.keepsKnob_pause _)) _
  · exact tuned

/-- To reconcile keeps the controls of oscillators that follow notes at zero. -/
theorem Sound.tuned_reconcile (sound : transport.Sound) (tuned : transport.Tuned)
    (project : Project τ) : (transport.reconcile project).state.Tuned := by
  have cleared := sound.tuned_cleared tuned project
  have sound_cleared := (sound.clear project).sound
  by_cases playing : project.playing = true
  · obtain ⟨scheduled, -, -, -, nodes, -, turned⟩ := sound.reconcile_playing playing
    have same : scheduled.nodes = (transport.reconcile project).state.graph.nodes := nodes.symm
    have tuned_scheduled : Tuned { (transport.reconcile project).state with graph := scheduled } :=
      sound_cleared.tuned_turned cleared turned
    exact tuned_scheduled.of_keepsKnob rfl
      (.of_node? (congrArg Array.size nodes) fun key => by rw [Graph.node?, Graph.node?, nodes])
  · rw [reconcile_eq, if_neg playing]
    exact sound_cleared.tuned_followState cleared project.playing

theorem Sound.tuned_perform (sound : transport.Sound) (tuned : transport.Tuned)
    (operation : Operation τ) : (transport.perform operation).Tuned := by
  by_cases other : ∀ project, operation ≠ .reconcile project
  · obtain ⟨racks, keeps⟩ := transport.keepsKnob_perform other .offset
    exact tuned.of_keepsKnob racks keeps
  · obtain ⟨project, rfl⟩ := not_forall_not.mp other
    exact sound.tuned_reconcile tuned project

/-! ### Generators that are made at zero -/

/-- The voices of a project that is played are made at the frequencies of notes where their
oscillators follow notes, else at zero. -/
theorem Sound.grounded_reconcile_playing (sound : transport.Sound)
    (playing : project.playing = true) : (transport.reconcile project).state.Grounded := by
  obtain ⟨scheduled, -, -, -, nodes, -, turned⟩ := sound.reconcile_playing playing
  refine Each.of_ring fun name id ring found apart key mem => ?_
  obtain ⟨old, found_old, bare, -, generators⟩ := sound.ring_of_turned turned found
  have follows : old.oscillator.followsNote = false :=
    (congrArg (·.oscillator.followsNote) bare).symm.trans apart
  rw [generators] at mem
  obtain ⟨p, voiced, mem⟩ := List.mem_flatMap.mp mem
  obtain ⟨-, placed, -, note, same⟩ := of_mem_voicesOf voiced found_old
  have zero : p.2.sheet.frequency = 0.0 := by
    rw [same]
    simp only [RingOscillator.sheet, Oscillator.pitch, follows, Bool.false_eq_true, if_false]
  have voices := Sheet.forall₂_voices (turned.new p placed)
  obtain ⟨index, lt, rfl⟩ := List.getElem_of_mem mem
  obtain ⟨g, lives, -, frequency, -⟩ :=
    (List.forall₂_iff_get.mp voices).2 index (voices.length_eq ▸ lt) lt
  have value : scheduled.value? (Call.generatorsOf p)[index] .frequency = some g.frequency :=
    congrArg (fun node : Option (Node τ) => node.bind (·.value? .frequency)) lives
  rw [Graph.value?, Graph.node?, nodes, ← Graph.node?, ← Graph.value?, value, frequency, zero]

omit [Fourier] in
/-- Where a transport is cleared, voices are left as they were or freed. -/
theorem generators_cleared (transport : Transport τ) (project : Project τ) :
    (transport.cleared project).Each fun name id ring =>
      ring.oscillator.generators = [] ∨ ∃ old, transport.ring? name id = some old ∧
        old.oscillator.generators = ring.oscillator.generators := by
  refine Each.cleared (fun _ _ _ _ => .inl rfl) (Each.of_ring fun name id ring found => ?_) ?_
  · exact .inr ⟨ring, found, rfl⟩
  · exact ⟨fun _ _ _ _ _ _ _ _ => .inl rfl, fun _ _ _ _ _ _ _ same => same,
      fun _ _ _ _ same => same⟩

/-- The oscillators that have voices and follow notes in a transport do so in another one. -/
def StillFollow (transport next : Transport τ) : Prop :=
  transport.Each fun name id ring => ring.oscillator.followsNote = true →
    ring.oscillator.generators ≠ [] →
      ∀ other ∈ next.ring? name id, other.oscillator.followsNote = true

instance (transport next : Transport τ) : Decidable (transport.StillFollow next) :=
  inferInstanceAs (Decidable (transport.Each fun name id ring =>
    ring.oscillator.followsNote = true → ring.oscillator.generators ≠ [] →
      ∀ other ∈ next.ring? name id, other.oscillator.followsNote = true))

/-- To clear keeps generators at zero, unless their oscillators stop following notes. -/
theorem Sound.grounded_cleared (sound : transport.Sound) (grounded : transport.Grounded)
    (follow : transport.StillFollow (transport.cleared project)) :
    (transport.cleared project).Grounded := by
  refine Each.of_ring fun name id ring found apart key mem => ?_
  have sound_cleared := (sound.clear project).sound
  rcases (transport.generators_cleared project).ring found with none_left | ⟨old, found_old, same⟩
  · rw [none_left] at mem
    cases mem
  · have old_apart : old.oscillator.followsNote = false := by
      by_contra follows
      have still := Each.ring follow found_old (by simpa using follows)
        (by rw [same]; exact List.ne_nil_of_mem mem) ring found
      rw [apart] at still
      cases still
    have value := Each.ring grounded found_old old_apart key (same ▸ mem)
    have equipped := (transport.keepsFrequency_equipAll project).value_eq_some value
    -- the generator lives on, so it was not among the voices that were freed
    have lives : (transport.cleared project).graph.contains key := by
      have ring_sound := Racks.Sound.rings sound_cleared name id ring found
      rw [Graph.contains_eq_isSome_kind?, ring_sound.voices key (ring_sound.generators.subset mem),
        if_pos mem]
      rfl
    obtain ⟨sound_equipped, -⟩ := sound.equips_equipAll project
    obtain ⟨-, -, -, -, nodes⟩ := sound_equipped.freeWhere
      fun name => !project.instruments.contains name
    have node : (transport.cleared project).graph.node? key = _ := nodes key
    rw [Graph.contains, node] at lives
    rw [Graph.value?, node]
    split at lives
    · cases lives
    · rename_i stays
      rw [if_neg stays]
      exact equipped

/-- Where a playing transport stops, all voices go; where a stopped one goes on, they stay. -/
theorem Sound.grounded_reconcile_stopping (sound : transport.Sound) (grounded : transport.Grounded)
    (stopping : project.playing = false)
    (follow : transport.state = .playing ∨
      transport.StillFollow (transport.reconcile project).state) :
    (transport.reconcile project).state.Grounded := by
  have result : (transport.reconcile project).state =
      (transport.cleared project).followState false := by
    rw [reconcile_eq, stopping]
    rfl
  have state : (transport.cleared project).state = transport.state := by
    rw [(sound.clear project).rest]
  rw [result] at follow ⊢
  cases playing : transport.state with
  | playing =>
    simp only [Transport.followState, state, playing]
    refine Each.of_ring fun name id ring found _ key mem => ?_
    rw [ring?_freeWhere] at found
    obtain ⟨old, -, rfl⟩ := Option.map_eq_some_iff.mp found
    cases mem
  | stopped =>
    have stays : (transport.cleared project).followState false = transport.cleared project := by
      simp only [Transport.followState, state, playing]
    rw [stays] at follow ⊢
    exact sound.grounded_cleared grounded
      (follow.resolve_left fun here => nomatch here.symm.trans playing)

/-- A reconciliation that keeps voices keeps their oscillators following notes, if they did. -/
def KeepsFollowing (transport : Transport τ) : Operation τ → Prop
  | .reconcile project => project.playing = true ∨ transport.state = .playing ∨
      transport.StillFollow (transport.reconcile project).state
  | _ => True

instance (transport : Transport τ) (operation : Operation τ) :
    Decidable (transport.KeepsFollowing operation) := by
  cases operation <;> unfold KeepsFollowing <;> infer_instance

theorem Sound.grounded_perform (sound : transport.Sound) (grounded : transport.Grounded)
    {operation : Operation τ} (follows : transport.KeepsFollowing operation) :
    (transport.perform operation).Grounded := by
  by_cases other : ∀ project, operation ≠ .reconcile project
  · obtain ⟨racks, keeps⟩ := transport.keepsKnob_perform other .frequency
    exact grounded.of_keepsKnob racks keeps
  · obtain ⟨project, rfl⟩ := not_forall_not.mp other
    cases playing : project.playing with
    | true => exact sound.grounded_reconcile_playing playing
    | false =>
      exact sound.grounded_reconcile_stopping grounded playing
        (follows.resolve_left fun here => nomatch here.symm.trans playing)

/-! ### One source of pitch -/

/-- Through a history, every reconciliation that keeps voices keeps their oscillators following. -/
def FollowsOn (transport : Transport τ) : List (Operation τ) → Prop
  | [] => True
  | operation :: rest =>
    transport.KeepsFollowing operation ∧ (transport.perform operation).FollowsOn rest

instance decidableFollowsOn : (transport : Transport τ) → (operations : List (Operation τ)) →
    Decidable (transport.FollowsOn operations)
  | _, [] => .isTrue trivial
  | transport, operation :: rest =>
    have := decidableFollowsOn (transport.perform operation) rest
    inferInstanceAs (Decidable (_ ∧ _))

theorem Sound.tuned_foldl (sound : transport.Sound) (tuned : transport.Tuned)
    (operations : List (Operation τ)) : (operations.foldl Transport.perform transport).Tuned := by
  induction operations generalizing transport with
  | nil => exact tuned
  | cons operation rest ih =>
    exact ih (sound.perform operation) (sound.tuned_perform tuned operation)

theorem Sound.grounded_foldl (sound : transport.Sound) (grounded : transport.Grounded)
    {operations : List (Operation τ)} (follows : transport.FollowsOn operations) :
    (operations.foldl Transport.perform transport).Grounded := by
  induction operations generalizing transport with
  | nil => exact grounded
  | cons operation rest ih =>
    exact ih (sound.perform operation) (sound.grounded_perform grounded follows.1) follows.2

/-- Every generator is of an oscillator, and is made at zero or driven by a control at zero. -/
def OneSource (transport : Transport τ) : Prop :=
  ∀ key, transport.graph.kind? key = some .generator →
    ∃ name id ring, transport.ring? name id = some ring ∧ key ∈ ring.oscillator.generators ∧
      (transport.graph.value? key .frequency = some 0.0 ∨
        transport.graph.value? ring.oscillator.control .offset = some 0.0)

omit [TimeAxis τ] in
theorem Sound.oneSource (sound : transport.Sound) (tuned : transport.Tuned)
    (grounded : transport.Grounded) : transport.OneSource := by
  intro key generator
  obtain ⟨name, id, ring, found, mem⟩ := sound.counted_of_generator generator
  refine ⟨name, id, ring, found, mem, ?_⟩
  cases follows : ring.oscillator.followsNote with
  | true => exact .inr (Each.ring tuned found follows)
  | false => exact .inl (Each.ring grounded found follows key mem)

/-- Whatever a transport goes through, the controls of oscillators that follow notes are at zero.
The generators of the others are made at zero, if no oscillator stops following notes while its
voices are kept. No voice then plays at a sum of two frequencies. -/
theorem single_source_of_pitch (settings : Settings) (operations : List (Operation τ)) :
    (after settings operations).Tuned ∧
      ((create settings).FollowsOn operations →
        (after settings operations).Grounded ∧ (after settings operations).OneSource) := by
  have sound : (create settings : Transport τ).Sound := sound_create settings
  have tuned := sound.tuned_foldl (fun _ _ found => nomatch found) operations
  refine ⟨tuned, fun follows => ?_⟩
  have grounded := sound.grounded_foldl (fun _ _ found => nomatch found) follows
  exact ⟨grounded, (sound.foldl operations).1.oneSource tuned grounded⟩

end Tuning

theorem single_source_of_pitch_demo :
    let instrument := { Instrument.bare "in" "out" with
      oscillators := .ofList [("x", .ofList [(2.0, 1.0)])] }
    let cables : List Cable := [⟨"e0", "in", "x", .usual⟩, ⟨"e1", "x", "out", .usual⟩]
    let resting := ((Project.empty : Project Float).addInstrument "a" instrument cables).addTrack
      "a" [⟨0.5, 0.0, 10.0⟩]
    let operations : List (Operation Float) :=
      [.reconcile { resting with playing := true }, .render 3, .pause, .reconcile resting, .play]
    (create { sampleRate := 4.0 }).FollowsOn operations ∧
      (after { sampleRate := 4.0 } operations).Tuned ∧
      (after { sampleRate := 4.0 } operations).Grounded ∧
      (after { sampleRate := 4.0 } operations).OneSource := by
  intro instrument cables resting operations
  have follows : (create { sampleRate := 4.0 }).FollowsOn operations := by decide +kernel
  obtain ⟨tuned, grounded⟩ := single_source_of_pitch { sampleRate := 4.0 } operations
  exact ⟨follows, tuned, grounded follows⟩

/-- A number that is wired to an oscillator while its voices are kept is added to the frequency of
their notes. -/
theorem number_added_to_note :
    let instrument := { Instrument.bare "in" "out" with
      oscillators := .ofList [("x", .ofList [(2.0, 1.0)])]
      numbers := .ofList [("n", 0.5)] }
    let fed (source : String) : List Cable :=
      [⟨"e0", source, "x", .usual⟩, ⟨"e1", "x", "out", .usual⟩]
    let played := ({ Project.empty with playing := true } : Project Float).addInstrument "a"
      instrument (fed "in") |>.addTrack "a" [⟨0.5, 0.0, 10.0⟩]
    let numbered := (Project.empty : Project Float).addInstrument "a" instrument (fed "n")
    let transport := after { sampleRate := 4.0 } [.reconcile played, .pause, .reconcile numbered]
    ¬ transport.Grounded ∧ ∃ ring ∈ transport.ring? "a" "x",
      ring.oscillator.followsNote = false ∧
      ring.oscillator.generators.map (transport.graph.value? · .frequency) = [some 0.5] ∧
      transport.graph.value? ring.oscillator.control .offset = some 0.5 := by
  decide +kernel

end Transport

end Patchbay
