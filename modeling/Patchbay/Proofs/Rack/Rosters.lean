import Mathlib.Data.List.Sort
import Patchbay.Roster

/-!
# Rosters by their names

A roster is known by what it has under each name. Rosters that agree under some names have the same
entries there, in the same order.
-/
namespace Patchbay.Roster

variable {α : Type} {roster other : Roster α}

theorem mem_values {a : α} : a ∈ roster.values ↔ ∃ name, roster.find? name = some a := by
  simp only [values, List.mem_map, find?_eq_some_iff]
  constructor
  · rintro ⟨entry, mem, rfl⟩
    exact ⟨entry.1, mem⟩
  · rintro ⟨name, mem⟩
    exact ⟨_, mem, rfl⟩

theorem contains_insert (roster : Roster α) (name : String) (a : α) (other : String) :
    (roster.insert name a).contains other = (roster.contains other || other == name) := by
  rw [contains, find?_insert, contains]
  by_cases here : other = name <;> simp [here]

theorem contains_eq_names (roster : Roster α) (name : String) :
    roster.contains name = (roster.entries.map (·.1)).contains name := by
  rw [Bool.eq_iff_iff, contains_iff_mem_names, List.contains_iff_mem]
  rfl

/-! ### Rosters that agree -/

open Classical in
/-- Rosters that agree on some names have the same entries under them. -/
theorem filter_entries_congr {shared : String → Prop}
    (same : ∀ name, shared name → other.find? name = roster.find? name) :
    other.entries.filter (fun entry => shared entry.1) =
      roster.entries.filter (fun entry => shared entry.1) := by
  have ordered (roster : Roster α) :
      (roster.entries.filter (fun entry => shared entry.1)).Pairwise (·.1 < ·.1) :=
    (List.pairwise_map.mp roster.ordered).filter _
  have irreflexive : Std.Irrefl fun a b : String × α => a.1 < b.1 := ⟨fun _ => String.lt_irrefl _⟩
  have asymmetric : Std.Antisymm fun a b : String × α => a.1 < b.1 :=
    ⟨fun _ _ before after => absurd (String.lt_trans before after) (String.lt_irrefl _)⟩
  refine List.Pairwise.eq_of_mem_iff (ordered other) (ordered roster) fun ⟨name, a⟩ => ?_
  simp only [List.mem_filter, decide_eq_true_eq, ← Roster.find?_eq_some_iff]
  exact and_congr_left fun here => by rw [same name here]

open Classical in
theorem filter_names_congr {shared : String → Prop}
    (same : ∀ name, shared name → other.find? name = roster.find? name) :
    other.names.filter (fun name => shared name) =
      roster.names.filter (fun name => shared name) := by
  rw [names, names, List.filter_map, List.filter_map]
  exact congrArg _ (filter_entries_congr same)

/-- Rosters with the same under each name are the same. -/
theorem eq_of_find? (same : ∀ name, other.find? name = roster.find? name) : other = roster := by
  have entries := @filter_entries_congr α roster other (fun _ => True) fun name _ => same name
  simp only [decide_true, List.filter_true] at entries
  cases other
  cases roster
  cases entries
  rfl

/-- To enter what stands there changes nothing. -/
theorem insert_eq_self {name : String} {a : α} (found : roster.find? name = some a) :
    roster.insert name a = roster := by
  refine eq_of_find? fun other => ?_
  rw [find?_insert]
  split
  · rename_i here
    rw [here, found]
  · rfl

end Patchbay.Roster
