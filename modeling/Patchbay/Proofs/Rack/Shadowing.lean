import Mathlib.Data.Finset.Card
import Mathlib.Data.String.Basic
import Patchbay.Proofs.Rack.Lookup

/-!
# Ids with several parts

A description may use an id in several roles. A rack then finds the part of one role under it, which
comes before the others. Its shared ids are those under which a part cannot be found.
-/
namespace Patchbay

variable {τ : Type}

/-! ### Texts and their bytes -/

/-- The bytes of a text in UTF-8. -/
def bytesOf (text : String) : List UInt8 :=
  text.toUTF8.data.toList

theorem bytesOf_eq_flatMap (text : String) :
    bytesOf text = text.toList.flatMap String.utf8EncodeChar := by
  rw [bytesOf, String.toUTF8, ← String.utf8Encode_toList, List.utf8Encode, List.data_toByteArray]

/-- Of two characters, the bytes of the lesser one are less, whatever follows them. -/
theorem utf8EncodeChar_append_lt {c d : Char} (before : c < d) (rest rest' : List UInt8) :
    String.utf8EncodeChar c ++ rest < String.utf8EncodeChar d ++ rest' := by
  have lt : c.val.toNat < d.val.toNat := before
  have le : d.val.toNat < 0x110000 := by
    have valid := d.valid
    simp only [UInt32.isValidChar, Nat.isValidChar] at valid
    omega
  unfold String.utf8EncodeChar
  dsimp only
  split_ifs
  -- no byte overflows, so bytes compare as the digits of the numbers that they are computed from
  all_goals
    simp (disch := omega) only [List.cons_append, List.nil_append, List.cons_lt_cons_iff,
      UInt8.lt_iff_toNat_lt, ← UInt8.toNat_inj, UInt8.toNat_ofNat', Nat.mod_eq_of_lt]
    omega

theorem flatMap_utf8EncodeChar_lt {text other : List Char} (before : text < other) :
    text.flatMap String.utf8EncodeChar < other.flatMap String.utf8EncodeChar := by
  induction text generalizing other with
  | nil =>
    cases other with
    | nil => exact absurd before (List.lt_irrefl _)
    | cons d rest' =>
      rw [List.flatMap_nil, List.flatMap_cons]
      cases head : String.utf8EncodeChar d with
      | nil => exact absurd head String.utf8EncodeChar_ne_nil
      | cons byte bytes => exact List.nil_lt_cons ..
  | cons c rest ih =>
    cases other with
    | nil => exact absurd before (List.not_lt_nil _)
    | cons d rest' =>
      rw [List.flatMap_cons, List.flatMap_cons]
      rcases List.cons_lt_cons_iff.mp before with less | ⟨rfl, after⟩
      · exact utf8EncodeChar_append_lt less _ _
      · exact List.append_left_lt (ih after)

/-- The order of texts is the order of their bytes. -/
theorem bytesOf_lt {text other : String} (before : text < other) :
    bytesOf text < bytesOf other := by
  rw [bytesOf_eq_flatMap, bytesOf_eq_flatMap]
  exact flatMap_utf8EncodeChar_lt (String.lt_iff_toList_lt.mp before)

/-! ### Roles of an id -/

/-- The roles in the order in which an id is looked up. -/
def Role.ranked : List Role :=
  [.oscillator, .gain, .number, .source, .sink]

/-- The place of a role in this order. -/
def Role.rank : Role → Nat
  | .oscillator => 0
  | .gain => 1
  | .number => 2
  | .source => 3
  | .sink => 4

theorem Role.rank_inj {role role' : Role} (same : role.rank = role'.rank) : role = role' := by
  cases role <;> cases role' <;> simp_all [rank]

/-- The role of a part. -/
def Endpoint.role {κ : Type} : Endpoint κ → Role
  | .oscillator .. => .oscillator
  | .gain _ => .gain
  | .number _ => .number
  | .source => .source
  | .sink _ => .sink

@[simp] theorem Endpoint.role_map {κ ι : Type} (f : κ → ι) (part : Endpoint κ) :
    (part.map f).role = part.role := by
  cases part <;> rfl

namespace Instrument

variable {instrument : Instrument} {id : String} {role : Role}

/-- The part that an instrument has under an id in a role. -/
def given? (instrument : Instrument) (id : String) : Role → Option (Endpoint Site)
  | .oscillator =>
    if instrument.oscillators.contains id then some (.oscillator (.output id) (.control id))
    else none
  | .gain => if instrument.gains.contains id then some (.gain (.stage id)) else none
  | .number => (instrument.numbers.find? id).map .number
  | .source => if id = instrument.source then some .source else none
  | .sink => if id = instrument.sink then some (.sink .destination) else none

theorem hasRole_iff_given? :
    instrument.HasRole id role ↔ ∃ part, instrument.given? id role = some part := by
  cases role <;> simp only [HasRole, given?]
  case oscillator => cases instrument.oscillators.contains id <;> simp
  case gain => cases instrument.gains.contains id <;> simp
  case number => simp [Roster.contains, Option.isSome_iff_exists]
  all_goals simp

theorem role_of_given? {part : Endpoint Site} (given : instrument.given? id role = some part) :
    part.role = role := by
  cases role with
  | number =>
    obtain ⟨value, -, rfl⟩ := Option.map_eq_some_iff.mp given
    rfl
  | _ =>
    obtain ⟨-, same⟩ := Option.ite_none_right_eq_some.mp given
    cases same
    rfl

/-- An id stands for the first part that it is given. -/
theorem part?_eq_findSome? (instrument : Instrument) (id : String) :
    instrument.part? id = Role.ranked.findSome? (instrument.given? id) := by
  simp only [part?, Role.ranked, List.findSome?_cons, List.findSome?_nil, given?]
  cases instrument.oscillators.contains id <;> cases instrument.gains.contains id <;>
    cases instrument.numbers.find? id <;> try rfl
  by_cases source : id = instrument.source
  · simp [if_pos source]
  · by_cases sink : id = instrument.sink
    · simp [if_neg source, if_pos sink]
    · simp [if_neg source, if_neg sink]

/-- The role of an id that comes before all its other roles. -/
structure Foremost (instrument : Instrument) (id : String) (role : Role) : Prop where
  has : instrument.HasRole id role
  first : ∀ other, instrument.HasRole id other → role.rank ≤ other.rank

theorem exists_foremost (has : instrument.HasRole id role) :
    ∃ first, instrument.Foremost id first := by
  -- a role is foremost unless another one has a lesser rank
  induction least : role.rank using Nat.strong_induction_on generalizing role with
  | _ rank ih =>
    by_cases better : ∃ other, instrument.HasRole id other ∧ other.rank < rank
    · obtain ⟨other, has', less⟩ := better
      exact ih other.rank less has' rfl
    · push Not at better
      exact ⟨role, has, fun other has' => least ▸ better other has'⟩

/-- An id stands for its part in the foremost role. -/
theorem Foremost.part?_eq (foremost : instrument.Foremost id role) :
    instrument.part? id = instrument.given? id role := by
  have none_before (other : Role) (less : other.rank < role.rank) :
      instrument.given? id other = none := by
    by_contra given
    have has := hasRole_iff_given?.mpr (Option.ne_none_iff_exists'.mp given)
    exact Nat.not_lt.mpr (foremost.first other has) less
  obtain ⟨part, given⟩ := hasRole_iff_given?.mp foremost.has
  rw [part?_eq_findSome?, given, List.findSome?_eq_some_iff]
  refine ⟨Role.ranked.take role.rank, role, Role.ranked.drop (role.rank + 1), ?_, given,
    fun other mem => none_before other ?_⟩
  · cases role <;> rfl
  · revert mem
    cases role <;> cases other <;> decide

/-! ### Shared ids -/

/-- A count of names tells how often each of them is listed. -/
theorem find?_foldl_count (names : List String) (counts : Roster Nat) (name : String) :
    ((names.foldl (fun (counts : Roster Nat) id =>
        counts.insert id ((counts.find? id).getD 0 + 1)) counts).find? name).getD 0 =
      (counts.find? name).getD 0 + names.count name := by
  induction names generalizing counts with
  | nil => rfl
  | cons id rest ih =>
    rw [List.foldl_cons, ih, Roster.find?_insert, List.count_cons]
    by_cases here : name = id
    · rw [if_pos here, here, Option.getD_some, if_pos (beq_self_eq_true id)]
      omega
    · rw [if_neg here, if_neg (by simpa using Ne.symm here), Nat.add_zero]

theorem mem_sharedIds : id ∈ instrument.sharedIds ↔ 1 < instrument.ids.count id := by
  have counted := find?_foldl_count instrument.ids .empty id
  rw [Roster.find?_empty, Option.getD_none, Nat.zero_add] at counted
  rw [sharedIds, ← counted]
  simp only [List.mem_map, List.mem_filter, decide_eq_true_eq, Prod.exists, exists_and_right,
    exists_eq_right, ← Roster.find?_eq_some_iff]
  constructor
  · rintro ⟨count, found, shared⟩
    rwa [found]
  · intro shared
    cases found : (instrument.ids.foldl (fun (counts : Roster Nat) id =>
        counts.insert id ((counts.find? id).getD 0 + 1)) .empty).find? id with
    | none => simp [found] at shared
    | some count => exact ⟨count, rfl, by simpa [found] using shared⟩

theorem ids_eq_roles (instrument : Instrument) : instrument.ids = instrument.roles.map (·.1) := by
  simp [ids, roles, Function.comp_def]

theorem roles_nodup (instrument : Instrument) : instrument.roles.Nodup := by
  have named {α : Type} (roster : Roster α) (role : Role) :
      (roster.names.map (·, role)).Nodup :=
    roster.names_nodup.map fun _ _ same => congrArg Prod.fst same
  simp only [roles, List.nodup_append, named, List.mem_append, List.mem_map]
  grind

/-- An id is shared if it has two roles. -/
theorem mem_sharedIds_iff_roles : id ∈ instrument.sharedIds ↔
    ∃ role other, role ≠ other ∧ instrument.HasRole id role ∧ instrument.HasRole id other := by
  have once : (instrument.roles.filter (·.1 == id)).Nodup := instrument.roles_nodup.filter _
  have counted : instrument.ids.count id = (instrument.roles.filter (·.1 == id)).length := by
    rw [ids_eq_roles, List.count, List.countP_map, List.countP_eq_length_filter]
    rfl
  rw [mem_sharedIds, counted, ← List.toFinset_card_of_nodup once, Finset.one_lt_card]
  simp only [← mem_roles, List.mem_toFinset, List.mem_filter, beq_iff_eq]
  constructor
  · rintro ⟨⟨_, role⟩, ⟨listed, rfl⟩, ⟨_, other⟩, ⟨listed', rfl⟩, differ⟩
    exact ⟨role, other, fun same => differ (by rw [same]), listed, listed'⟩
  · rintro ⟨role, other, differ, listed, listed'⟩
    exact ⟨(id, role), ⟨listed, rfl⟩, (id, other), ⟨listed', rfl⟩,
      fun same => differ (congrArg Prod.snd same)⟩

theorem sharedIds_ordered (instrument : Instrument) :
    instrument.sharedIds.Pairwise fun id other => bytesOf id < bytesOf other := by
  have ordered : instrument.sharedIds.Pairwise (· < ·) :=
    (Roster.ordered _).sublist (List.filter_sublist.map _)
  exact ordered.imp bytesOf_lt

theorem resolve_singleton (instrument : Instrument) (id : String) :
    resolve [instrument] id = instrument.part? id := by
  simp only [resolve, part?, List.any_cons, List.any_nil, Bool.or_false, beq_iff_eq,
    eq_comm (a := id)]
  cases found : instrument.numbers.find? id <;> simp [found]

end Instrument

namespace Rack

/-! ### Racks of one description -/

/-- The role of the part that is found under an id. -/
def reached? (rack : Rack) (id : String) : Option Role :=
  (rack.part? id).map Endpoint.role

theorem part?_furnish_empty (graph : Graph τ) (instrument : Instrument) (id : String) :
    let rack := (Rack.empty.furnish graph instrument).1
    rack.part? id = (instrument.part? id).map (Endpoint.map rack.keyAt) := by
  intro rack
  have sinks (out : String) (key : NodeKey) (found : rack.sinks.find? out = some key) :
      key = Graph.destination := by
    obtain ⟨-, -, -, -, sinks⟩ := Rack.empty.furnish_spec graph instrument
    rw [sinks, Roster.find?_insert] at found
    split at found
    · exact (Option.some.inj found).symm
    · cases found
  rw [part?_eq_map_keyAt sinks, (remembers_empty.furnish graph instrument).site?_eq,
    List.nil_append, Instrument.resolve_singleton]

/-- A rack of one description finds the part of the foremost role. -/
theorem reached?_furnish_empty (graph : Graph τ) {instrument : Instrument} {id : String}
    {role : Role} (foremost : instrument.Foremost id role) :
    (Rack.empty.furnish graph instrument).1.reached? id = some role := by
  obtain ⟨part, given⟩ := Instrument.hasRole_iff_given?.mp foremost.has
  rw [reached?, part?_furnish_empty, foremost.part?_eq, given, Option.map_some, Option.map_some,
    Endpoint.role_map, Instrument.role_of_given? given]

end Rack

/-- The shared ids, in the order of their bytes, are those with a role that is not reached in a rack
of the description, where another role of the id comes before it. An id that is not shared stands
for what it is given in its only role. -/
theorem Instrument.sharedIds_iff_shadowed (graph : Graph τ) (instrument : Instrument) :
    let rack := (Rack.empty.furnish graph instrument).1
    (instrument.sharedIds.Pairwise fun id other => bytesOf id < bytesOf other) ∧
    (∀ id, id ∈ instrument.sharedIds ↔
      ∃ role, instrument.HasRole id role ∧ rack.reached? id ≠ some role) ∧
    (∀ id role, instrument.HasRole id role → rack.reached? id ≠ some role →
      ∃ before, instrument.HasRole id before ∧ before.rank < role.rank ∧
        rack.reached? id = some before) ∧
    ∀ id role, instrument.HasRole id role → id ∉ instrument.sharedIds →
      (∀ other, instrument.HasRole id other → other = role) ∧
        rack.part? id = (instrument.given? id role).map (Endpoint.map rack.keyAt) := by
  intro rack
  have reached {id : String} {role : Role} (foremost : instrument.Foremost id role) :
      rack.reached? id = some role := Rack.reached?_furnish_empty graph foremost
  refine ⟨instrument.sharedIds_ordered, fun id => ?_, fun id role has hidden => ?_,
    fun id role has single => ?_⟩
  · rw [mem_sharedIds_iff_roles]
    constructor
    · rintro ⟨role, other, differ, has, has'⟩
      -- the role that is reached is at most one of the two
      by_cases hidden : rack.reached? id = some role
      · exact ⟨other, has', hidden ▸ fun same => differ (Option.some.inj same)⟩
      · exact ⟨role, has, hidden⟩
    · rintro ⟨role, has, hidden⟩
      obtain ⟨first, foremost⟩ := exists_foremost has
      exact ⟨role, first, fun same => hidden (same ▸ reached foremost), has, foremost.has⟩
  · obtain ⟨first, foremost⟩ := exists_foremost has
    have differ : first.rank ≠ role.rank := fun same =>
      hidden (Role.rank_inj same ▸ reached foremost)
    exact ⟨first, foremost.has, Nat.lt_of_le_of_ne (foremost.first role has) differ,
      reached foremost⟩
  · have only (other : Role) (has' : instrument.HasRole id other) : other = role := by
      by_contra differ
      exact single (mem_sharedIds_iff_roles.mpr ⟨other, role, differ, has', has⟩)
    refine ⟨only, ?_⟩
    obtain ⟨first, foremost⟩ := exists_foremost has
    obtain rfl := only first foremost.has
    rw [Rack.part?_furnish_empty, foremost.part?_eq]

end Patchbay
