import Patchbay.Proofs.Wave.Timbre

/-!
# Timbres as finite maps

Whether two timbres agree is decided by their sizes and by a look from the first one into the
second. As long as every index stands once, that is enough: with as many partials on both sides no
partial of the second can be without its match. So timbres of numbers agree exactly if they are the
same map, whatever was done to make them.
-/
namespace Patchbay.Partials

/-! ### Histories -/

/-- A way to change a timbre. To collect pairs begins anew. -/
inductive Edit where
  | set (index amplitude : Float32)
  | erase (index : Float32)
  | collect (pairs : List (Float32 × Float32))

/-- The timbre after a change. -/
def edit (partials : Partials) : Edit → Partials
  | .set index amplitude => partials.set index amplitude
  | .erase index => partials.erase index
  | .collect pairs => ofList pairs

/-- The timbre that changes make of the one without partials. -/
def edited (edits : List Edit) : Partials :=
  edits.foldl edit empty

/-- Every amplitude is a number. -/
def Numeric (partials : Partials) : Prop :=
  ∀ entry ∈ partials.entries, entry.amplitude.isNaN = false

instance (partials : Partials) : Decidable partials.Numeric :=
  inferInstanceAs (Decidable (∀ entry ∈ partials.entries, _))

/-- A timbre of numbers that some history has led to. -/
structure Plain where
  partials : Partials
  history : ∃ edits, edited edits = partials
  numeric : partials.Numeric

/-- Both timbres have the same indices, with equal amplitudes. -/
def SameMap (a b : Partials) : Prop :=
  ∀ index, Option.Rel (fun x y => (x == y) = true) (a.get? index) (b.get? index)

variable {partials a b : Partials}

theorem Keyed.edit (keyed : partials.Keyed) (change : Edit) : (partials.edit change).Keyed := by
  cases change with
  | set index amplitude => exact keyed.set index amplitude
  | erase index => exact keyed.erase index
  | collect pairs => exact keyed_ofList pairs

/-- No history makes an index stand twice. -/
theorem keyed_edited (edits : List Edit) : (edited edits).Keyed := by
  induction edits using List.reverseRecOn with
  | nil => exact keyed_empty
  | append_singleton edits change ih =>
    rw [edited, List.foldl_append]
    exact ih.edit change

theorem Plain.keyed (plain : Plain) : plain.partials.Keyed := by
  obtain ⟨edits, made⟩ := plain.history
  exact made ▸ keyed_edited edits

/-! ### The same map -/

theorem Keyed.get?_iff (keyed : partials.Keyed) {index amplitude : Float32} :
    partials.get? index = some amplitude ↔
      ∃ entry ∈ partials.entries, entry.index = key index ∧ entry.amplitude = amplitude := by
  refine ⟨mem_of_get?, ?_⟩
  rintro ⟨entry, mem, named, rfl⟩
  have found := keyed.get?_of_mem mem
  rwa [named, get?, key_key] at found

theorem get?_index_eq_none {index : Float32} (absent : partials.get? index = none)
    {entry : Partial} (mem : entry ∈ partials.entries) : entry.index ≠ key index := by
  intro named
  have missed := List.find?_eq_none.mp (Option.map_eq_none_iff.mp absent) entry mem
  simp [Partials.named, named] at missed

/-- Timbres that agree are the same map. -/
theorem Keyed.sameMap_of_beq (keyed : a.Keyed) (keyed' : b.Keyed) (same : (a == b) = true) :
    SameMap a b := by
  intro index
  cases here : a.get? index with
  | some amplitude =>
    obtain ⟨entry, mem, named, rfl⟩ := mem_of_get? here
    obtain ⟨other, listed, index', equal⟩ := keyed.match_right same mem
    have there : b.get? index = some other.amplitude :=
      keyed'.get?_iff.mpr ⟨other, listed, index'.trans named, rfl⟩
    rw [there]
    exact .some (Number.beq_symm equal)
  | none =>
    cases there : b.get? index with
    | none => exact .none
    | some amplitude =>
      obtain ⟨other, listed, named, -⟩ := mem_of_get? there
      obtain ⟨entry, mem, index', -⟩ := keyed.match_left keyed' same listed
      exact absurd (index'.trans named) (get?_index_eq_none here mem)

/-- The same map has a match for every partial. -/
theorem SameMap.match_right (same : SameMap a b) (keyed : a.Keyed) {entry : Partial}
    (mem : entry ∈ a.entries) : ∃ other ∈ b.entries, other.index = entry.index ∧
      (entry.amplitude == other.amplitude) = true := by
  have both := same entry.index
  rw [keyed.get?_of_mem mem] at both
  cases there : b.get? entry.index with
  | none =>
    rw [there] at both
    cases both
  | some amplitude =>
    rw [there] at both
    obtain ⟨other, listed, named, rfl⟩ := mem_of_get? there
    cases both with
    | some equal => exact ⟨other, listed, named.trans (keyed.fixed entry mem), equal⟩

theorem SameMap.symm (same : SameMap a b) : SameMap b a := by
  intro index
  have both := same index
  revert both
  generalize a.get? index = x
  generalize b.get? index = y
  rintro (equal | _)
  · exact .some (Number.beq_symm equal)
  · exact .none

/-- The same map has as many partials. -/
theorem SameMap.size_le (same : SameMap a b) (keyed : a.Keyed) : a.size ≤ b.size := by
  have within : a.entries.map (·.index.toBits) ⊆ b.entries.map (·.index.toBits) := by
    intro bits listed
    obtain ⟨entry, mem, rfl⟩ := List.mem_map.mp listed
    obtain ⟨other, mem', named, -⟩ := same.match_right keyed mem
    exact List.mem_map.mpr ⟨other, mem', by rw [named]⟩
  simpa [size] using (keyed.once.subperm within).length_le

theorem SameMap.beq (same : SameMap a b) (keyed : a.Keyed) (keyed' : b.Keyed) :
    (a == b) = true := by
  have size : a.size = b.size := le_antisymm (same.size_le keyed) (same.symm.size_le keyed')
  refine keyed'.beq_of_match size fun entry mem => ?_
  obtain ⟨other, listed, named, equal⟩ := same.match_right keyed mem
  exact ⟨other, listed, named, Number.beq_symm equal⟩

theorem beq_self_of_number {x : Float32} (number : x.isNaN = false) : (x == x) = true := by
  rw [Float32.isNaN_eq_decide_eq_nan, decide_eq_false_iff_not] at number
  exact Float32.beq_self_iff.mpr number

/-- A timbre of numbers agrees with itself. -/
theorem Keyed.beq_refl (keyed : partials.Keyed) (numeric : partials.Numeric) :
    (partials == partials) = true :=
  keyed.beq_of_match rfl fun entry mem =>
    ⟨entry, mem, rfl, beq_self_of_number (numeric entry mem)⟩

/-! ### The order in which partials are set -/

/-- A new index goes to the end. -/
theorem put_of_absent {key amplitude : Float32} {entries : List Partial}
    (absent : key.toBits ∉ entries.map (·.index.toBits)) :
    put key amplitude entries = entries ++ [⟨key, amplitude⟩] := by
  induction entries with
  | nil => rfl
  | cons entry rest ih =>
    rw [List.map_cons, List.mem_cons, not_or] at absent
    have elsewhere : named key entry = false := by simpa [named] using Ne.symm absent.1
    rw [put, elsewhere, if_neg Bool.false_ne_true, ih absent.2, List.cons_append]

/-- The entry that a pair becomes. -/
def entryOf (pair : Float32 × Float32) : Partial :=
  ⟨key pair.1, pair.2⟩

/-- Pairs with distinct indices are set one behind the other. -/
theorem entries_ofList {pairs : List (Float32 × Float32)}
    (distinct : (pairs.map fun pair => (key pair.1).toBits).Nodup) :
    (ofList pairs).entries = pairs.map entryOf := by
  induction pairs using List.reverseRecOn with
  | nil => rfl
  | append_singleton pairs last ih =>
    rw [List.map_append, List.nodup_append] at distinct
    obtain ⟨distinct, -, apart⟩ := distinct
    have made : ofList (pairs ++ [last]) = (ofList pairs).set last.1 last.2 := by
      rw [ofList, List.foldl_append]
      rfl
    have absent : (key last.1).toBits ∉ (ofList pairs).entries.map (·.index.toBits) := by
      rw [ih distinct, List.map_map]
      intro listed
      exact apart _ listed _ (List.mem_singleton_self _) rfl
    rw [made, set, put_of_absent absent, ih distinct, List.map_append]
    rfl

/-- Set in another order, the same pairs make a timbre that agrees. -/
theorem beq_of_perm {pairs pairs' : List (Float32 × Float32)} (perm : pairs.Perm pairs')
    (distinct : (pairs.map fun pair => (key pair.1).toBits).Nodup)
    (numeric : ∀ pair ∈ pairs, pair.2.isNaN = false) : (ofList pairs == ofList pairs') = true := by
  have entries := entries_ofList distinct
  have entries' : (ofList pairs').entries = pairs'.map entryOf :=
    entries_ofList ((perm.map _).nodup_iff.mp distinct)
  have reordered : (ofList pairs).entries.Perm (ofList pairs').entries := by
    rw [entries, entries']
    exact perm.map entryOf
  refine (keyed_ofList pairs').beq_of_match reordered.length_eq fun entry mem => ?_
  obtain ⟨pair, listed, rfl⟩ := List.mem_map.mp (entries ▸ mem)
  exact ⟨entryOf pair, reordered.mem_iff.mp mem, rfl, beq_self_of_number (numeric pair listed)⟩

/-! ### Agreement -/

/-- Timbres of numbers, however they were made, agree exactly if they are the same map. That is an
equivalence, and pairs with distinct indices make timbres that agree in whatever order they are
set. -/
theorem agreement_of_maps :
    (∀ a b : Plain, (a.partials == b.partials) = true ↔ SameMap a.partials b.partials) ∧
      Equivalence (fun a b : Plain => (a.partials == b.partials) = true) ∧
      ∀ pairs pairs' : List (Float32 × Float32), pairs.Perm pairs' →
        (pairs.map fun pair => (key pair.1).toBits).Nodup →
        (∀ pair ∈ pairs, pair.2.isNaN = false) → (ofList pairs == ofList pairs') = true := by
  refine ⟨fun a b => ⟨a.keyed.sameMap_of_beq b.keyed, fun same => same.beq a.keyed b.keyed⟩,
    ⟨?refl, ?symm, ?trans⟩, fun _ _ => beq_of_perm⟩
  case refl => exact fun a => a.keyed.beq_refl a.numeric
  case symm => exact fun {a b} => a.keyed.beq_symm b.keyed
  case trans => exact fun {a b c} => a.keyed.beq_trans b.keyed c.keyed

/-- An index that is set twice, one that is erased again, both zeros and an index that is not a
number. -/
def detours : List Edit :=
  [.set 2.0 7.0, .set (-0.0) 0.5, .set (0.0 / 0.0) 0.0, .set 3.0 4.0, .set 2.0 1.0, .erase 3.0]

/-- The same map by another way and in another order. -/
def directly : List Edit :=
  [.set 9.0 9.0, .collect [(0.0 / 0.0, -0.0), (2.0, 1.0), (0.0, 0.5)]]

theorem agreement_of_maps_detours :
    (edited detours == edited directly) = true ∧ SameMap (edited detours) (edited directly) ∧
      (edited directly == edited detours) = true := by
  obtain ⟨maps, equivalence, -⟩ := agreement_of_maps
  have same : (edited detours == edited directly) = true := by decide +kernel
  let there : Plain := ⟨edited detours, ⟨_, rfl⟩, by decide +kernel⟩
  let here : Plain := ⟨edited directly, ⟨_, rfl⟩, by decide +kernel⟩
  exact ⟨same, (maps there here).mp same, @Equivalence.symm _ _ equivalence there here same⟩

end Patchbay.Partials
