import Patchbay.Proofs.Reconciliation.Layout

/-!
# Other keys for the same nodes

Where a project is laid out in two graphs, the sites of the one have other keys than those of the
other, and the voices begin at another key. A renaming takes sites to sites and moves the voices as
a whole.
-/
namespace Patchbay

variable {τ : Type}

/-- A connection under other keys. -/
def Connection.map (f : NodeKey → NodeKey) (c : Connection) : Connection :=
  ⟨f c.source, f c.target, c.inlet⟩

/-! ### Keys that are moved as a whole -/

/-- From a key on, all keys are moved by the same distance. -/
def Shifts (f : Nat → Nat) (base : Nat) : Prop :=
  ∀ distance, f (base + distance) = f base + distance

theorem Shifts.add {f : Nat → Nat} {base : Nat} (shifts : Shifts f base) (offset : Nat) :
    Shifts f (base + offset) := by
  intro distance
  rw [Nat.add_assoc, shifts, shifts, Nat.add_assoc]

section Voices

variable {f : Nat → Nat} {base chain : Nat} (count : Nat)

theorem map_stageNodes (shifts : Shifts f chain) :
    (stageNodes chain count).map f = stageNodes (f chain) count := by
  induction count generalizing chain with
  | zero => rfl
  | succ count ih =>
    simp only [stageNodes, List.map_append, List.map_cons, List.map_nil, ih (shifts.add 3),
      shifts 1, shifts 2, shifts 3]

theorem map_voiceNodes (shifts : Shifts f base) :
    (voiceNodes base count).map f = voiceNodes (f base) count := by
  rw [voiceNodes, List.map_cons, map_stageNodes count shifts, voiceNodes]

theorem map_stageGenerators (shifts : Shifts f chain) :
    (stageGenerators chain count).map f = stageGenerators (f chain) count := by
  induction count generalizing chain with
  | zero => rfl
  | succ count ih =>
    simp only [stageGenerators, List.map_cons, ih (shifts.add 3), shifts 2, shifts 3]

theorem map_voiceGenerators (shifts : Shifts f base) :
    (voiceGenerators base count).map f = voiceGenerators (f base) count := by
  rw [voiceGenerators, List.map_cons, map_stageGenerators count shifts, voiceGenerators]

theorem map_stageWires (control : Nat) (shifts : Shifts f chain) :
    (stageWires control chain count).map (Connection.map f) =
      stageWires (f control) (f chain) count := by
  induction count generalizing chain with
  | zero => rfl
  | succ count ih =>
    simp only [stageWires, List.map_append, List.map_cons, List.map_nil, Connection.map,
      ih (shifts.add 3), shifts 1, shifts 2, shifts 3]

theorem map_voiceWires (output control : Nat) (shifts : Shifts f base) :
    (voiceWires output control base count).map (Connection.map f) =
      voiceWires (f output) (f control) (f base) count := by
  simp only [voiceWires, List.map_append, List.map_cons, List.map_nil,
    map_stageWires count control shifts, Connection.map, shifts (3 * count)]

end Voices

/-- Where the first voice is moved, all are. -/
theorem Call.placed_shift {f : Nat → Nat} {base : Nat} (shifts : Shifts f base)
    (calls : List (Call τ)) :
    placed (f base) calls = (placed base calls).map fun p => (f p.1, p.2) := by
  induction calls generalizing base with
  | nil => rfl
  | cons call rest ih =>
    rw [placed, placed, List.map_cons, ← shifts call.width, ih (shifts.add call.width)]

theorem Call.voicesOf_map (f : Nat → Nat) (name id : String) (placed : List (Nat × Call τ)) :
    voicesOf name id (placed.map fun p => (f p.1, p.2)) =
      (voicesOf name id placed).map fun p => (f p.1, p.2) := by
  rw [voicesOf, List.filter_map]
  rfl

theorem Call.shifts_placed {f : Nat → Nat} {base : Nat} (shifts : Shifts f base)
    {calls : List (Call τ)} {p : Nat × Call τ} (mem : p ∈ placed base calls) : Shifts f p.1 := by
  have first := (bounds_of_mem_placed mem).1
  have moved := shifts.add (p.1 - base)
  rwa [Nat.add_sub_cancel' first] at moved

/-- The voices of an oscillator have the same nodes under other keys. -/
theorem Call.voices_moved {f : Nat → Nat} {base : Nat} (shifts : Shifts f base)
    (calls : List (Call τ)) (name id : String) :
    (voicesOf name id (placed (f base) calls)).flatMap nodesOf =
        ((voicesOf name id (placed base calls)).flatMap nodesOf).map f ∧
      (voicesOf name id (placed (f base) calls)).flatMap generatorsOf =
        ((voicesOf name id (placed base calls)).flatMap generatorsOf).map f := by
  rw [placed_shift shifts, voicesOf_map, List.flatMap_map, List.flatMap_map, List.map_flatMap,
    List.map_flatMap]
  constructor
  · refine List.flatMap_congr fun p mem => ?_
    exact (map_voiceNodes _ (shifts_placed shifts (List.mem_filter.mp mem).1)).symm
  · refine List.flatMap_congr fun p mem => ?_
    exact (map_voiceGenerators _ (shifts_placed shifts (List.mem_filter.mp mem).1)).symm

/-! ### Sites under other keys -/

/-- The sites of a project that have nodes of their own. -/
def Project.sites (project : Project τ) : List (String × Site) :=
  project.instruments.entries.flatMap fun (name, instrument) =>
    instrument.oscillators.names.flatMap (fun id => [(name, .output id), (name, .control id)]) ++
      instrument.gains.names.map fun id => (name, .stage id)

theorem Project.mem_sites {project : Project τ} {name : String} {site : Site} :
    (name, site) ∈ project.sites ↔ site ≠ .destination ∧
      ∃ instrument, project.instruments.find? name = some instrument ∧
        instrument.Describes site := by
  simp only [sites, List.mem_flatMap, List.mem_append, List.mem_map, List.mem_cons,
    List.not_mem_nil, or_false, Prod.mk.injEq]
  constructor
  · rintro ⟨⟨place, instrument⟩, entry, ⟨id, listed, ⟨rfl, rfl⟩ | ⟨rfl, rfl⟩⟩ | ⟨id, listed, rfl, rfl⟩⟩
    all_goals refine ⟨by simp, instrument, Roster.find?_eq_some_iff.mpr entry, ?_⟩
    all_goals exact Roster.contains_iff_mem_names.mpr listed
  · rintro ⟨inner, instrument, found, listed⟩
    refine ⟨(name, instrument), Roster.find?_eq_some_iff.mp found, ?_⟩
    cases site with
    | output id => exact .inl ⟨id, Roster.contains_iff_mem_names.mp listed, .inl ⟨rfl, rfl⟩⟩
    | control id => exact .inl ⟨id, Roster.contains_iff_mem_names.mp listed, .inr ⟨rfl, rfl⟩⟩
    | stage id => exact .inr ⟨id, Roster.contains_iff_mem_names.mp listed, rfl, rfl⟩
    | destination => exact absurd rfl inner

/-- Take the sites of one graph to those of another, and the keys from one start on to those from
another. -/
def relocate (sites : List (String × Site)) (racks racks' : Racks) (start start' : Nat)
    (key : NodeKey) : NodeKey :=
  if start ≤ key then start' + (key - start)
  else
    match sites.find? fun (name, site) => racks.keyAt name site = key with
    | some (name, site) => racks'.keyAt name site
    | none => key

theorem relocate_start (sites : List (String × Site)) (racks racks' : Racks) (start start' : Nat) :
    relocate sites racks racks' start start' start = start' := by
  unfold relocate
  rw [if_pos (Nat.le_refl start), Nat.sub_self, Nat.add_zero]

theorem shifts_relocate (sites : List (String × Site)) (racks racks' : Racks)
    (start start' : Nat) : Shifts (relocate sites racks racks' start start') start := by
  intro distance
  rw [relocate_start, relocate, if_pos (Nat.le_add_right start distance), Nat.add_sub_cancel_left]

namespace Transport

variable [Fourier] {fresh : Transport τ} {project : Project τ} {start : Nat} {calls : List (Call τ)}

/-- The node of a site is taken to the node of the same site. -/
theorem Laid.relocate_keyAt (laid : fresh.Laid project start calls) (racks' : Racks) (start' : Nat)
    {name : String} {instrument : Instrument}
    (described : project.instruments.find? name = some instrument) {site : Site}
    (listed : instrument.Describes site) :
    relocate project.sites fresh.racks.find? racks' start start'
      (Racks.keyAt fresh.racks.find? name site) = racks'.keyAt name site := by
  have stands := laid.stands described listed
  unfold relocate
  rw [if_neg (Nat.not_le.mpr (laid.low name site stands))]
  cases found : project.sites.find? fun (other, site') =>
      Racks.keyAt fresh.racks.find? other site' = Racks.keyAt fresh.racks.find? name site with
  | some place =>
    obtain ⟨other, site'⟩ := place
    have same := List.find?_some found
    obtain ⟨-, instrument', described', listed'⟩ :=
      Project.mem_sites.mp (List.mem_of_find?_eq_some found)
    simp only [decide_eq_true_eq] at same
    obtain ⟨rfl, destined | rfl⟩ :=
      Racks.Sound.keyAt_inj laid.sound (laid.stands described' listed') stands same
    · subst destined
      rfl
    · rfl
  | none =>
    by_cases destined : site = .destination
    · subst destined
      rfl
    · have mem : (name, site) ∈ project.sites :=
        Project.mem_sites.mpr ⟨destined, instrument, described, listed⟩
      have missed := List.find?_eq_none.mp found _ mem
      simp at missed

theorem Laid.relocate_destination (laid : fresh.Laid project start calls) (racks' : Racks)
    (start' : Nat) : relocate project.sites fresh.racks.find? racks' start start'
      Graph.destination = Graph.destination := by
  have low : Graph.destination < start := laid.low "" .destination trivial
  unfold relocate
  rw [if_neg (Nat.not_le.mpr low)]
  cases found : project.sites.find? fun (other, site) =>
      Racks.keyAt fresh.racks.find? other site = Graph.destination with
  | some place =>
    obtain ⟨other, site⟩ := place
    have same := List.find?_some found
    obtain ⟨inner, instrument, described, listed⟩ :=
      Project.mem_sites.mp (List.mem_of_find?_eq_some found)
    simp only [decide_eq_true_eq] at same
    have anywhere : Racks.Stands fresh.racks.find? "" .destination := trivial
    have destined : site = .destination :=
      (Racks.Sound.keyAt_inj laid.sound (laid.stands described listed) anywhere same).1
    exact absurd destined inner
  | none => rfl

end Transport

end Patchbay
