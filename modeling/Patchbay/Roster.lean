/-!
# Rosters

A roster holds one entry for each name, in the order of the names. Names are compared by
their characters, which is also the order of their bytes in UTF-8.
-/
namespace Patchbay

/-- Entries under names, in the order of the names. -/
structure Roster (α : Type) where
  entries : List (String × α)
  ordered : (entries.map (·.1)).Pairwise (· < ·)
  deriving Repr

namespace Roster

variable {α β : Type}

/-- Two rosters are equal if they have the same entries. -/
instance [BEq α] : BEq (Roster α) := ⟨fun a b => a.entries == b.entries⟩

/-- The roster without entries. -/
def empty : Roster α :=
  ⟨[], List.Pairwise.nil⟩

instance : Inhabited (Roster α) := ⟨empty⟩

/-- Put an entry at its place in a list ordered by name, over the one of its name. -/
def place (name : String) (a : α) : List (String × α) → List (String × α)
  | [] => [(name, a)]
  | entry :: rest =>
    if name < entry.1 then (name, a) :: entry :: rest
    else if name = entry.1 then (name, a) :: rest
    else entry :: place name a rest

/-- Only the name that is entered can be new. -/
theorem mem_names_place (name : String) (a : α) (entries : List (String × α)) (other : String) :
    other ∈ (place name a entries).map (·.1) ↔ other = name ∨ other ∈ entries.map (·.1) := by
  induction entries with
  | nil => simp [place]
  | cons entry rest ih =>
    simp only [place]
    split
    · simp
    · split
      · rename_i h
        simp [h]
      · simp only [List.map_cons, List.mem_cons, ih]
        exact or_left_comm

/-- Names stay in order. -/
theorem ordered_place (name : String) (a : α) (entries : List (String × α))
    (h : (entries.map (·.1)).Pairwise (· < ·)) :
    ((place name a entries).map (·.1)).Pairwise (· < ·) := by
  induction entries with
  | nil => simp [place]
  | cons entry rest ih =>
    rw [List.map_cons, List.pairwise_cons] at h
    simp only [place]
    split
    · rename_i before
      simp only [List.map_cons, List.pairwise_cons, List.mem_cons]
      refine ⟨?_, h.1, h.2⟩
      rintro other (rfl | within)
      · exact before
      · exact String.lt_trans before (h.1 other within)
    · split
      · rename_i same
        rw [List.map_cons, List.pairwise_cons]
        exact ⟨same ▸ h.1, h.2⟩
      · rename_i after differs
        have before : entry.1 < name := Std.lt_of_le_of_ne after (Ne.symm differs)
        rw [List.map_cons, List.pairwise_cons]
        refine ⟨?_, ih h.2⟩
        intro other within
        rcases (mem_names_place name a rest other).mp within with rfl | within
        · exact before
        · exact h.1 other within

/-- Enter something under a name, in place of what stood there. -/
def insert (roster : Roster α) (name : String) (a : α) : Roster α :=
  ⟨place name a roster.entries, ordered_place name a roster.entries roster.ordered⟩

/-- What stands under a name. -/
def find? (roster : Roster α) (name : String) : Option α :=
  roster.entries.lookup name

/-- Does something stand under the name? -/
def contains (roster : Roster α) (name : String) : Bool :=
  (roster.find? name).isSome

/-- Take out what stands under a name. -/
def erase (roster : Roster α) (name : String) : Roster α :=
  ⟨roster.entries.filter fun entry => entry.1 != name,
    roster.ordered.sublist (List.filter_sublist.map _)⟩

/-- The names, in order. -/
def names (roster : Roster α) : List String :=
  roster.entries.map (·.1)

/-- What stands under the names, in their order. -/
def values (roster : Roster α) : List α :=
  roster.entries.map (·.2)

/-- Enter the pairs of a list one after another. -/
def ofList (pairs : List (String × α)) : Roster α :=
  pairs.foldl (fun roster pair => roster.insert pair.1 pair.2) empty

/-- Change the entries of a list while a state passes through them. -/
def mapEntries {σ : Type} (f : String → α → σ → β × σ) :
    List (String × α) → σ → List (String × β) × σ
  | [], state => ([], state)
  | entry :: rest, state =>
    let (changed, next) := f entry.1 entry.2 state
    let (others, last) := mapEntries f rest next
    ((entry.1, changed) :: others, last)

theorem map_fst_mapEntries {σ : Type} (f : String → α → σ → β × σ)
    (entries : List (String × α)) (state : σ) :
    (mapEntries f entries state).1.map (·.1) = entries.map (·.1) := by
  induction entries generalizing state with
  | nil => rfl
  | cons entry rest ih => simp [mapEntries, ih]

/-- Change each entry while a state passes through them, in the order of the names. -/
def mapState {σ : Type} (f : String → α → σ → β × σ) (roster : Roster α) (state : σ) :
    Roster β × σ :=
  (⟨(mapEntries f roster.entries state).1, by
      rw [map_fst_mapEntries]
      exact roster.ordered⟩,
    (mapEntries f roster.entries state).2)

@[simp] theorem names_mapState {σ : Type} (f : String → α → σ → β × σ) (roster : Roster α)
    (state : σ) : (roster.mapState f state).1.names = roster.names :=
  map_fst_mapEntries f roster.entries state

@[simp] theorem find?_empty (name : String) : (empty : Roster α).find? name = none := rfl

theorem lookup_place_self (name : String) (a : α) (entries : List (String × α)) :
    (place name a entries).lookup name = some a := by
  induction entries with
  | nil => simp [place]
  | cons entry rest ih =>
    simp only [place]
    split
    · simp
    · split
      · simp
      · rename_i h
        rw [List.lookup_cons]
        split
        · rename_i e
          exact absurd (by simpa using e) h
        · exact ih

@[simp] theorem find?_insert_self (roster : Roster α) (name : String) (a : α) :
    (roster.insert name a).find? name = some a :=
  lookup_place_self name a roster.entries

theorem lookup_place_of_ne {name other : String} (h : other ≠ name) (a : α)
    (entries : List (String × α)) : (place name a entries).lookup other = entries.lookup other := by
  have differs : (other == name) = false := by simpa using h
  induction entries with
  | nil => simp [place, List.lookup_cons, differs]
  | cons entry rest ih =>
    obtain ⟨first, b⟩ := entry
    simp only [place]
    split
    · simp [List.lookup_cons, differs]
    · split
      · rename_i e
        have e : name = first := e
        subst e
        simp [List.lookup_cons, differs]
      · simp only [List.lookup_cons, ih]

/-- Entering under one name leaves the others alone. -/
theorem find?_insert_of_ne {name other : String} (h : other ≠ name) (roster : Roster α) (a : α) :
    (roster.insert name a).find? other = roster.find? other :=
  lookup_place_of_ne h a roster.entries

theorem find?_insert (roster : Roster α) (name : String) (a : α) (other : String) :
    (roster.insert name a).find? other = if other = name then some a else roster.find? other := by
  split
  · rename_i same
    rw [same, find?_insert_self]
  · rename_i differs
    exact find?_insert_of_ne differs roster a

theorem mem_of_lookup {name : String} {a : α} {entries : List (String × α)}
    (h : entries.lookup name = some a) : (name, a) ∈ entries := by
  induction entries with
  | nil => simp at h
  | cons entry rest ih =>
    rw [List.lookup_cons] at h
    split at h
    · rename_i same
      have same : name = entry.1 := by simpa using same
      cases h
      rw [same]
      exact List.mem_cons_self
    · exact List.mem_cons_of_mem _ (ih h)

theorem lookup_of_mem {name : String} {a : α} {entries : List (String × α)}
    (ordered : (entries.map (·.1)).Pairwise (· < ·)) (h : (name, a) ∈ entries) :
    entries.lookup name = some a := by
  induction entries with
  | nil => cases h
  | cons entry rest ih =>
    rw [List.map_cons, List.pairwise_cons] at ordered
    rcases List.mem_cons.mp h with same | later
    · rw [← same]
      simp
    · have before : entry.1 < name := ordered.1 name (List.mem_map.mpr ⟨_, later, rfl⟩)
      have differs : (name == entry.1) = false := by
        simpa using fun same => String.lt_irrefl _ (same ▸ before)
      rw [List.lookup_cons, differs]
      exact ih ordered.2 later

/-- What is found are the entries. -/
theorem find?_eq_some_iff {roster : Roster α} {name : String} {a : α} :
    roster.find? name = some a ↔ (name, a) ∈ roster.entries :=
  ⟨mem_of_lookup, lookup_of_mem roster.ordered⟩

theorem contains_iff_mem_names {roster : Roster α} {name : String} :
    roster.contains name ↔ name ∈ roster.names := by
  simp only [contains, Option.isSome_iff_exists, find?_eq_some_iff, names, List.mem_map]
  constructor
  · rintro ⟨a, mem⟩
    exact ⟨_, mem, rfl⟩
  · rintro ⟨entry, mem, rfl⟩
    exact ⟨entry.2, mem⟩

theorem contains_of_find? {roster : Roster α} {name : String} {a : α}
    (found : roster.find? name = some a) : roster.contains name = true := by
  rw [contains, found, Option.isSome_some]

theorem mem_names_of_find? {roster : Roster α} {name : String} {a : α}
    (found : roster.find? name = some a) : name ∈ roster.names :=
  contains_iff_mem_names.mp (contains_of_find? found)

theorem names_nodup (roster : Roster α) : roster.names.Nodup := by
  refine List.Pairwise.imp (fun {a b} before same => ?_) roster.ordered
  exact String.lt_irrefl b (same ▸ before)

/-- Where a change does not look at the state, each entry is changed for itself. -/
theorem find?_mapState {σ : Type} {f : String → α → σ → β × σ} {g : String → α → β}
    (h : ∀ name a state, (f name a state).1 = g name a) (roster : Roster α) (state : σ)
    (name : String) : (roster.mapState f state).1.find? name = (roster.find? name).map (g name) := by
  simp only [find?, mapState]
  generalize roster.entries = entries
  induction entries generalizing state with
  | nil => rfl
  | cons entry rest ih =>
    obtain ⟨first, a⟩ := entry
    simp only [mapEntries, List.lookup_cons, ih, h]
    cases same : name == first with
    | true =>
      have same : name = first := by simpa using same
      simp [same]
    | false => rfl

theorem fst_mapState_congr {σ : Type} {f : String → α → σ → β × σ}
    (h : ∀ name a state state', (f name a state).1 = (f name a state').1) (roster : Roster α)
    (state state' : σ) : (roster.mapState f state).1 = (roster.mapState f state').1 := by
  simp only [mapState, Roster.mk.injEq]
  generalize roster.entries = entries
  induction entries generalizing state state' with
  | nil => rfl
  | cons entry rest ih =>
    simp only [mapEntries]
    rw [h entry.1 entry.2 state state', ih _ (f entry.1 entry.2 state').2]

/-- The state passes through the entries from first to last. -/
theorem snd_mapState {σ : Type} (f : String → α → σ → β × σ) (roster : Roster α) (state : σ) :
    (roster.mapState f state).2 =
      roster.entries.foldl (fun state entry => (f entry.1 entry.2 state).2) state := by
  simp only [mapState]
  generalize roster.entries = entries
  induction entries generalizing state with
  | nil => rfl
  | cons entry rest ih => simp only [mapEntries, List.foldl_cons, ih]

/-- A change that leaves each entry and the state as they are leaves the roster as it is. -/
theorem mapState_eq_self {σ : Type} {f : String → α → σ → α × σ} {roster : Roster α} {state : σ}
    (h : ∀ name a, roster.find? name = some a → f name a state = (a, state)) :
    roster.mapState f state = (roster, state) := by
  have entries : mapEntries f roster.entries state = (roster.entries, state) := by
    have each (name : String) (a : α) (mem : (name, a) ∈ roster.entries) :
        f name a state = (a, state) := h name a (find?_eq_some_iff.mpr mem)
    generalize roster.entries = entries at each
    induction entries with
    | nil => rfl
    | cons entry rest ih =>
      have later := ih fun name a mem => each name a (List.mem_cons_of_mem _ mem)
      simp only [mapEntries, each _ _ List.mem_cons_self, later]
  simp only [mapState, entries]

/-- Entries that are put into a roster one after another are found before what it had. -/
theorem find?_foldl_insert (entries : List (String × α)) (once : (entries.map (·.1)).Nodup)
    (roster : Roster α) (name : String) :
    (entries.foldl (fun roster entry => roster.insert entry.1 entry.2) roster).find? name =
      (entries.lookup name).or (roster.find? name) := by
  induction entries generalizing roster with
  | nil => simp
  | cons entry rest ih =>
    obtain ⟨first, a⟩ := entry
    obtain ⟨absent, once⟩ := List.nodup_cons.mp once
    rw [List.foldl_cons, ih once, find?_insert]
    by_cases here : name = first
    · subst here
      have not_later : rest.lookup name = none := by
        rw [List.lookup_eq_none_iff]
        intro entry mem
        simpa using fun same : name = entry.1 => absent (List.mem_map.mpr ⟨entry, mem, same.symm⟩)
      simp [not_later]
    · have differs : (name == first) = false := by simpa using here
      simp [List.lookup_cons, differs, here]

end Roster

end Patchbay
