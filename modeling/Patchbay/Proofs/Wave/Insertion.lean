import Patchbay.Proofs.Wave.Agreement

/-!
# The order of partials

What changes say of an index are words, and the last word on it is its amplitude, or that it has
none. Partials stand in the order in which their indices came in. More words on an index that is
there move nothing, and an index that was taken out comes in anew at the end. So a timbre is a map
in order of insertion, and its pairs, set one after another, make the same timbre again.
-/
namespace Patchbay.Partials

open Number (Null)

/-! ### Words -/

/-- Two numbers are one index if they are the same, or zeros of either sign. -/
def SameIndex (index other : Float32) : Prop :=
  index = other ∨ Null index ∧ Null other

/-- What is said of one index. -/
inductive Word where
  | set (index amplitude : Float32)
  | erase (index : Float32)

/-- The index that a word is on. -/
def Word.index : Word → Float32
  | .set index _ => index
  | .erase index => index

/-- The words after one more change. To collect pairs unsays all words before. -/
def tell (words : List Word) : Edit → List Word
  | .set index amplitude => words ++ [.set index amplitude]
  | .erase index => words ++ [.erase index]
  | .collect pairs => pairs.map fun pair => .set pair.1 pair.2

/-- The words that changes leave standing. -/
def told (edits : List Edit) : List Word :=
  edits.foldl tell []

/-- The last word on an index is that it has this amplitude. -/
def LastWord (words : List Word) (index amplitude : Float32) : Prop :=
  ∃ (place : Nat) (namesake : Float32), words[place]? = some (.set namesake amplitude) ∧
    SameIndex namesake index ∧
      ∀ later word, place < later → words[later]? = some word → ¬ SameIndex word.index index

/-- An index came in at this place: it was set there while it had no amplitude, and it was not
erased since. -/
structure Enters (words : List Word) (index : Float32) (place : Nat) : Prop where
  set : ∃ namesake amplitude,
    words[place]? = some (.set namesake amplitude) ∧ SameIndex namesake index
  absent : ∀ amplitude, ¬ LastWord (words.take place) index amplitude
  stays : ∀ later namesake, place < later → words[later]? = some (.erase namesake) →
    ¬ SameIndex namesake index

/-- The first index came in before the second one. -/
def Before (words : List Word) (index other : Float32) : Prop :=
  ∃ place later, place < later ∧ Enters words index place ∧ Enters words other later

variable {words : List Word} {index other namesake amplitude : Float32} {word : Word} {place : Nat}

theorem getElem?_concat_iff {α : Type} {xs : List α} {x y : α} :
    (xs ++ [x])[place]? = some y ↔ xs[place]? = some y ∨ place = xs.length ∧ x = y := by
  rcases lt_trichotomy place xs.length with inside | rfl | outside
  · rw [List.getElem?_append_left inside]
    simp [inside.ne]
  · simp
  · simp [outside.le, outside.ne', outside]

/-- One more word is the last one on its own index and leaves the last word on all others. -/
theorem lastWord_concat : LastWord (words ++ [word]) index amplitude ↔
    (∃ namesake, word = .set namesake amplitude ∧ SameIndex namesake index) ∨
      LastWord words index amplitude ∧ ¬ SameIndex word.index index := by
  constructor
  · rintro ⟨place, namesake, said, same, last⟩
    rcases getElem?_concat_iff.mp said with said | ⟨-, rfl⟩
    · obtain ⟨within, -⟩ := List.getElem?_eq_some_iff.mp said
      refine .inr ⟨⟨place, namesake, said, same, fun later word after said => ?_⟩, ?_⟩
      · exact last later word after (getElem?_concat_iff.mpr (.inl said))
      · exact last words.length word within List.getElem?_concat_length
    · exact .inl ⟨namesake, rfl, same⟩
  · rintro (⟨namesake, rfl, same⟩ | ⟨⟨place, namesake, said, same, last⟩, elsewhere⟩)
    · refine ⟨words.length, namesake, List.getElem?_concat_length, same,
        fun later word after said => ?_⟩
      rw [List.getElem?_eq_none (by simpa using after)] at said
      cases said
    · refine ⟨place, namesake, getElem?_concat_iff.mpr (.inl said), same,
        fun later word after said => ?_⟩
      rcases getElem?_concat_iff.mp said with said | ⟨-, rfl⟩
      · exact last later word after said
      · exact elsewhere

/-- An index that was set and not erased since has an amplitude. -/
theorem exists_lastWord (said : words[place]? = some (.set namesake amplitude))
    (same : SameIndex namesake index)
    (stays : ∀ later erased, place < later → words[later]? = some (.erase erased) →
      ¬ SameIndex erased index) : ∃ amplitude, LastWord words index amplitude := by
  -- From the end: the last word that is on the index at all cannot be one that erases it.
  induction words using List.reverseRecOn with
  | nil => cases said
  | append_singleton words word ih =>
    by_cases about : SameIndex word.index index
    · cases word with
      | set other amplitude => exact ⟨amplitude, lastWord_concat.mpr (.inl ⟨other, rfl, about⟩)⟩
      | erase other =>
        rcases getElem?_concat_iff.mp said with said | ⟨-, last⟩
        · obtain ⟨within, -⟩ := List.getElem?_eq_some_iff.mp said
          exact absurd about (stays words.length other within List.getElem?_concat_length)
        · cases last
    · rcases getElem?_concat_iff.mp said with said | ⟨-, rfl⟩
      · obtain ⟨amplitude, last⟩ := ih said fun later erased after said =>
          stays later erased after (getElem?_concat_iff.mpr (.inl said))
        exact ⟨amplitude, lastWord_concat.mpr (.inr ⟨last, about⟩)⟩
      · exact absurd same about

/-! ### Where an index comes in -/

theorem Enters.lt (enters : Enters words index place) : place < words.length := by
  obtain ⟨_, _, said, -⟩ := enters.set
  exact (List.getElem?_eq_some_iff.mp said).1

/-- To come in a second time, an index has to be erased in between. -/
theorem Enters.le {later : Nat} (first : Enters words index place)
    (second : Enters words index later) : later ≤ place := by
  by_contra before
  -- At the later place the index still has an amplitude from the first one.
  obtain ⟨namesake, amplitude, said, same⟩ := first.set
  have said : (words.take later)[place]? = some (.set namesake amplitude) := by
    rw [List.getElem?_take_of_lt (by omega), said]
  obtain ⟨_, last⟩ := exists_lastWord said same fun between erased after said => by
    obtain ⟨within, -⟩ := List.getElem?_eq_some_iff.mp said
    rw [List.length_take] at within
    rw [List.getElem?_take_of_lt (by omega)] at said
    exact first.stays between erased after said
  exact second.absent _ last

theorem Enters.unique {later : Nat} (first : Enters words index place)
    (second : Enters words index later) : place = later :=
  le_antisymm (second.le first) (first.le second)

/-- What is said later leaves where an index came in, unless it is erased. -/
theorem Enters.concat (enters : Enters words index place)
    (kept : ∀ erased, word = .erase erased → ¬ SameIndex erased index) :
    Enters (words ++ [word]) index place where
  set := by
    obtain ⟨namesake, amplitude, said, same⟩ := enters.set
    exact ⟨namesake, amplitude, getElem?_concat_iff.mpr (.inl said), same⟩
  absent := by
    rw [List.take_append_of_le_length enters.lt.le]
    exact enters.absent
  stays := by
    intro later namesake after said
    rcases getElem?_concat_iff.mp said with said | ⟨-, rfl⟩
    · exact enters.stays later namesake after said
    · exact kept namesake rfl

/-- An index without amplitude comes in when it is set. -/
theorem enters_concat (absent : ∀ amplitude, ¬ LastWord words index amplitude)
    (same : SameIndex namesake index) :
    Enters (words ++ [.set namesake amplitude]) index words.length where
  set := ⟨namesake, amplitude, List.getElem?_concat_length, same⟩
  absent := by
    rw [List.take_left]
    exact absent
  stays := by
    intro later erased after said
    rw [List.getElem?_eq_none (by simpa using after)] at said
    cases said

/-- All indices of a list came in, one after the other. -/
structure InOrder (words : List Word) (row : List Float32) : Prop where
  entered : ∀ index ∈ row, ∃ place, Enters words index place
  ordered : row.Pairwise (Before words)

variable {row : List Float32}

theorem InOrder.sublist (order : InOrder words row) {kept : List Float32}
    (within : kept.Sublist row) : InOrder words kept :=
  ⟨fun index mem => order.entered index (within.subset mem), order.ordered.sublist within⟩

theorem InOrder.concat (order : InOrder words row)
    (kept : ∀ erased, word = .erase erased → ∀ index ∈ row, ¬ SameIndex erased index) :
    InOrder (words ++ [word]) row where
  entered := by
    intro index mem
    obtain ⟨place, enters⟩ := order.entered index mem
    exact ⟨place, enters.concat fun erased said => kept erased said index mem⟩
  ordered := by
    refine order.ordered.imp_of_mem ?_
    rintro index other mem mem' ⟨place, later, before, enters, enters'⟩
    exact ⟨place, later, before, enters.concat fun erased said => kept erased said index mem,
      enters'.concat fun erased said => kept erased said other mem'⟩

/-- An index that comes in stands behind all others. -/
theorem InOrder.enter (order : InOrder words row)
    (absent : ∀ amplitude, ¬ LastWord words index amplitude) (same : SameIndex namesake index) :
    InOrder (words ++ [.set namesake amplitude]) (row ++ [index]) := by
  have kept : InOrder (words ++ [.set namesake amplitude]) row :=
    order.concat fun _ said => nomatch said
  have enters : Enters (words ++ [.set namesake amplitude]) index words.length :=
    enters_concat absent same
  refine ⟨fun other mem => ?_,
    List.pairwise_append.mpr ⟨kept.ordered, List.pairwise_singleton .., ?_⟩⟩
  · rcases List.mem_append.mp mem with old | new
    · exact kept.entered other old
    · exact ⟨words.length, List.mem_singleton.mp new ▸ enters⟩
  · intro old mem new mem'
    obtain ⟨place, earlier⟩ := order.entered old mem
    refine ⟨place, words.length, earlier.lt, earlier.concat (fun _ said => nomatch said), ?_⟩
    exact List.mem_singleton.mp mem' ▸ enters

/-! ### One index under both zeros -/

theorem null_of_bits (bits : index.toBits = 0x80000000) : Null index :=
  Number.null_iff.mpr (.inr (Float32.toBits_inj.mp bits))

theorem key_of_null (null : Null index) : key index = 0.0 := by
  rcases Number.null_iff.mp null with rfl | rfl <;> rfl

theorem key_of_not_null (inner : ¬ Null index) : key index = index :=
  if_neg fun bits => inner (null_of_bits bits)

/-- The key is what comes of adding zero. -/
theorem key_eq_add (index : Float32) : key index = index + 0.0 := by
  by_cases null : Null index
  · rcases Number.null_iff.mp null with rfl | rfl <;> rfl
  · rw [key_of_not_null null, Number.add_null_of_not_null ⟨.positive, rfl⟩ null]

theorem key_ne_negative_zero (index : Float32) : key index ≠ -0.0 := by
  by_cases null : Null index
  · rw [key_of_null null]
    decide
  · rw [key_of_not_null null]
    exact fun same => null (Number.null_iff.mpr (.inr same))

theorem null_key_iff : Null (key index) ↔ Null index := by
  by_cases null : Null index
  · exact iff_of_true (key_of_null null ▸ ⟨.positive, rfl⟩) null
  · rw [key_of_not_null null]

theorem sameIndex_iff : SameIndex index other ↔ key index = key other := by
  constructor
  · rintro (rfl | ⟨null, null'⟩)
    · rfl
    · rw [key_of_null null, key_of_null null']
  · intro same
    by_cases null : Null index
    · exact .inr ⟨null, null_key_iff.mp (same ▸ null_key_iff.mpr null)⟩
    · have null' : ¬ Null other := fun null' =>
        null (null_key_iff.mp (same ▸ null_key_iff.mpr null'))
      rw [key_of_not_null null, key_of_not_null null'] at same
      exact .inl same

/-! ### What a word does to the entries -/

variable {partials : Partials}

/-- The indices of all partials in order. -/
def indices (partials : Partials) : List Float32 :=
  partials.entries.map (·.index)

theorem get?_congr (same : key index = key other) : partials.get? index = partials.get? other := by
  rw [get?, get?, same]

theorem put_append {key : Float32} {before after : List Partial} {old : Partial}
    (elsewhere : ∀ entry ∈ before, named key entry = false) (here : named key old = true) :
    put key amplitude (before ++ old :: after) = before ++ { old with amplitude } :: after := by
  induction before with
  | nil => simp [put, here]
  | cons entry rest ih =>
    rw [List.forall_mem_cons] at elsewhere
    simp [put, elsewhere.1, ih elsewhere.2]

/-- A partial that is there is overwritten in its place, or taken out from between the others. -/
theorem exists_split (present : (partials.get? index).isSome) : ∃ before old after,
    partials.entries = before ++ old :: after ∧ old.index = key index ∧
      (∀ amplitude,
        (partials.set index amplitude).entries = before ++ { old with amplitude } :: after) ∧
      (partials.erase index).entries = before ++ after := by
  obtain ⟨amplitude, found⟩ := Option.isSome_iff_exists.mp present
  obtain ⟨old, first, -⟩ := Option.map_eq_some_iff.mp found
  obtain ⟨here, before, after, split, elsewhere⟩ := List.find?_eq_some_iff_append.mp first
  have elsewhere : ∀ entry ∈ before, named (key index) entry = false := by simpa using elsewhere
  refine ⟨before, old, after, split, Float32.toBits_inj.mp (by simpa [named] using here), ?_, ?_⟩
  · intro amplitude
    rw [set, split, put_append elsewhere here]
  · rw [erase, split, List.eraseP_append_right _ (by simpa using elsewhere),
      List.eraseP_cons_of_pos here]

/-- A partial that is not there goes to the end. -/
theorem entries_set_of_absent (absent : partials.get? index = none) :
    (partials.set index amplitude).entries = partials.entries ++ [⟨key index, amplitude⟩] := by
  refine put_of_absent fun listed => ?_
  obtain ⟨entry, mem, bits⟩ := List.mem_map.mp listed
  exact get?_index_eq_none absent mem (Float32.toBits_inj.mp bits)

theorem erase_of_absent (absent : partials.get? index = none) :
    partials.erase index = partials := by
  rw [erase, List.eraseP_of_forall_not]
  exact List.find?_eq_none.mp (Option.map_eq_none_iff.mp absent)

theorem indices_set_of_present (present : (partials.get? index).isSome) :
    (partials.set index amplitude).indices = partials.indices := by
  obtain ⟨before, old, after, split, -, overwritten, -⟩ := exists_split present
  simp [indices, split, overwritten]

theorem indices_set_of_absent (absent : partials.get? index = none) :
    (partials.set index amplitude).indices = partials.indices ++ [key index] := by
  simp [indices, entries_set_of_absent absent]

theorem indices_erase_sublist (partials : Partials) (index : Float32) :
    (partials.erase index).indices.Sublist partials.indices :=
  (List.eraseP_sublist ..).map _

/-- What was taken out is not left. -/
theorem Keyed.not_mem_indices_erase (keyed : partials.Keyed) (index : Float32) :
    key index ∉ (partials.erase index).indices := by
  intro listed
  obtain ⟨entry, mem, same⟩ := List.mem_map.mp listed
  cases found : partials.get? index with
  | none =>
    rw [erase_of_absent found] at mem
    exact get?_index_eq_none found mem same
  | some amplitude =>
    obtain ⟨before, old, after, split, old_index, -, erased⟩ :=
      exists_split (Option.isSome_of_eq_some found)
    have once := keyed.once
    rw [split, List.map_append, List.map_cons, List.nodup_middle, List.nodup_cons,
      ← List.map_append, ← erased] at once
    exact once.1 (List.mem_map.mpr ⟨entry, mem, by rw [same, old_index]⟩)

theorem Keyed.get?_erase_self (keyed : partials.Keyed) (index : Float32) :
    (partials.erase index).get? index = none := by
  rw [Option.eq_none_iff_forall_ne_some]
  intro amplitude found
  obtain ⟨entry, mem, same, -⟩ := mem_of_get? found
  exact keyed.not_mem_indices_erase index (List.mem_map.mpr ⟨entry, mem, same⟩)

theorem get?_erase_of_ne (apart : key index ≠ key other) :
    (partials.erase index).get? other = partials.get? other := by
  cases found : partials.get? index with
  | none => rw [erase_of_absent found, get?]
  | some amplitude =>
    obtain ⟨before, old, after, split, here, -, erased⟩ :=
      exists_split (Option.isSome_of_eq_some found)
    have skip : named (key other) old = false := by simp [named, here, Float32.toBits_inj, apart]
    simp [get?, split, erased, List.find?_append, skip]

/-! ### Timbres that follow words -/

/-- Carry out a word. -/
def say (partials : Partials) : Word → Partials
  | .set index amplitude => partials.set index amplitude
  | .erase index => partials.erase index

/-- A timbre has the last word on every index, and its partials in the order in which they came
in. -/
structure Follows (words : List Word) (partials : Partials) : Prop where
  keyed : partials.Keyed
  found : ∀ index amplitude,
    partials.get? index = some amplitude ↔ LastWord words index amplitude
  order : InOrder words partials.indices

theorem follows_empty : Follows [] empty where
  keyed := keyed_empty
  found := fun _ _ => iff_of_false (fun found => nomatch found) fun ⟨_, _, said, _⟩ => nomatch said
  order := ⟨fun _ mem => absurd mem List.not_mem_nil, List.Pairwise.nil⟩

theorem get?_say_of_ne (apart : ¬ SameIndex word.index other) :
    (partials.say word).get? other = partials.get? other := by
  rw [sameIndex_iff] at apart
  cases word with
  | set index amplitude =>
    exact get?_set_of_ne (fun bits => apart (Float32.toBits_inj.mp bits)) partials amplitude
  | erase index => exact get?_erase_of_ne apart

theorem Follows.found_say (follows : Follows words partials) (word : Word)
    (other value : Float32) : (partials.say word).get? other = some value ↔
      LastWord (words ++ [word]) other value := by
  rw [lastWord_concat, ← follows.found]
  by_cases same : SameIndex word.index other
  · rw [← get?_congr (sameIndex_iff.mp same)]
    cases word with
    | set index amplitude =>
      have now : (partials.set index amplitude).get? index = some amplitude := get?_set_self ..
      constructor
      · intro found
        cases now.symm.trans found
        exact .inl ⟨index, rfl, same⟩
      · rintro (⟨_, ⟨⟩, -⟩ | ⟨-, apart⟩)
        · exact now
        · exact absurd same apart
    | erase index =>
      have now : (partials.erase index).get? index = none := follows.keyed.get?_erase_self index
      constructor
      · intro found
        cases now.symm.trans found
      · rintro (⟨_, ⟨⟩, -⟩ | ⟨-, apart⟩)
        exact absurd same apart
  · rw [get?_say_of_ne same]
    constructor
    · exact fun found => .inr ⟨found, same⟩
    · rintro (⟨_, rfl, same'⟩ | ⟨found, -⟩)
      · exact absurd same' same
      · exact found

theorem Follows.order_set (follows : Follows words partials) (index amplitude : Float32) :
    InOrder (words ++ [.set index amplitude]) (partials.set index amplitude).indices := by
  -- Whether an index comes in hangs on whether it has an amplitude already.
  cases found : partials.get? index with
  | some old =>
    rw [indices_set_of_present (Option.isSome_of_eq_some found)]
    exact follows.order.concat fun _ said => nomatch said
  | none =>
    rw [indices_set_of_absent found]
    refine follows.order.enter (fun value last => ?_) (sameIndex_iff.mpr (key_key index).symm)
    have held := (follows.found (key index) value).mpr last
    rw [get?_congr (key_key index), found] at held
    cases held

theorem Follows.order_erase (follows : Follows words partials) (index : Float32) :
    InOrder (words ++ [.erase index]) (partials.erase index).indices := by
  refine (follows.order.sublist (indices_erase_sublist partials index)).concat ?_
  rintro _ ⟨⟩ other mem same
  obtain ⟨entry, listed, rfl⟩ := List.mem_map.mp mem
  have fixed := (follows.keyed.erase index).fixed entry listed
  rw [sameIndex_iff, fixed] at same
  exact follows.keyed.not_mem_indices_erase index (same ▸ mem)

/-- A timbre that follows words follows one more. -/
theorem Follows.say (follows : Follows words partials) (word : Word) :
    Follows (words ++ [word]) (partials.say word) := by
  cases word with
  | set index amplitude =>
    exact ⟨follows.keyed.set index amplitude, follows.found_say (.set index amplitude),
      follows.order_set index amplitude⟩
  | erase index =>
    exact ⟨follows.keyed.erase index, follows.found_say (.erase index), follows.order_erase index⟩

theorem follows_foldl (words : List Word) : Follows words (words.foldl say empty) := by
  induction words using List.reverseRecOn with
  | nil => exact follows_empty
  | append_singleton words word ih =>
    rw [List.foldl_append]
    exact ih.say word

/-- Changes make what their words make. -/
theorem edited_eq (edits : List Edit) : edited edits = (told edits).foldl say empty := by
  induction edits using List.reverseRecOn with
  | nil => rfl
  | append_singleton edits change ih =>
    have made : edited (edits ++ [change]) = (edited edits).edit change := by
      rw [edited, List.foldl_append]
      rfl
    have said : told (edits ++ [change]) = tell (told edits) change := by
      rw [told, List.foldl_append]
      rfl
    rw [made, said]
    cases change with
    | set index amplitude =>
      rw [tell, List.foldl_append, ← ih]
      rfl
    | erase index =>
      rw [tell, List.foldl_append, ← ih]
      rfl
    | collect pairs =>
      rw [tell, List.foldl_map]
      rfl

/-- No history leads astray from its words. -/
theorem follows_edited (edits : List Edit) : Follows (told edits) (edited edits) :=
  edited_eq edits ▸ follows_foldl (told edits)

/-! ### Maps in order of insertion -/

/-- To set the pairs of a timbre one after another makes the timbre again. -/
theorem Keyed.ofList_toList (keyed : partials.Keyed) : ofList partials.toList = partials := by
  have bits : partials.toList.map (fun pair => (key pair.1).toBits) =
      partials.entries.map (·.index.toBits) := by
    rw [toList, List.map_map]
    exact List.map_congr_left fun entry mem => congrArg Float32.toBits (keyed.fixed entry mem)
  have entries : partials.toList.map entryOf = partials.entries := by
    rw [toList, List.map_map]
    refine (List.map_congr_left fun entry mem => ?_).trans (List.map_id _)
    show (⟨key entry.index, entry.amplitude⟩ : Partial) = entry
    rw [keyed.fixed entry mem]
  have made : (ofList partials.toList).entries = partials.entries := by
    rw [entries_ofList (bits ▸ keyed.once), entries]
  exact congrArg Partials.mk made

/-- A timbre is the map from indices to amplitudes that changes tell, in order of insertion. No
index stands twice and none is `-0`. The last word on an index decides on its amplitude, and partials
stand in the order in which their indices came in. A further change is about one partial and leaves
the others, and the pairs of the timbre make it again. -/
structure OrderedMap (edits : List Edit) (partials : Partials) : Prop where
  once : (partials.entries.map (·.index.toBits)).Nodup
  unsigned : ∀ entry ∈ partials.entries, entry.index ≠ -0.0
  found : ∀ index amplitude,
    partials.get? index = some amplitude ↔ LastWord (told edits) index amplitude
  entered : ∀ entry ∈ partials.entries, ∃! place, Enters (told edits) entry.index place
  ordered : partials.entries.Pairwise fun entry other =>
    Before (told edits) entry.index other.index
  overwritten : ∀ index amplitude, (partials.get? index).isSome → ∃ before old after,
    SameIndex old.index index ∧ partials.entries = before ++ old :: after ∧
      (partials.set index amplitude).entries = before ++ { old with amplitude } :: after
  appended : ∀ index amplitude, partials.get? index = none →
    (partials.set index amplitude).entries = partials.entries ++ [⟨index + 0.0, amplitude⟩]
  erased : ∀ index, (partials.get? index).isSome → ∃ before old after,
    SameIndex old.index index ∧ partials.entries = before ++ old :: after ∧
      (partials.erase index).entries = before ++ after
  untouched : ∀ index, partials.get? index = none → partials.erase index = partials
  readBack : ofList partials.toList = partials

/-- Whatever is set, erased and collected one after another, what comes of it is the map in order
of insertion that the changes tell. -/
theorem orderedMap_edited (edits : List Edit) : OrderedMap edits (edited edits) where
  once := (keyed_edited edits).once
  unsigned := by
    intro entry mem
    rw [← (keyed_edited edits).fixed entry mem]
    exact key_ne_negative_zero entry.index
  found := (follows_edited edits).found
  entered := by
    intro entry mem
    obtain ⟨place, enters⟩ :=
      (follows_edited edits).order.entered entry.index (List.mem_map_of_mem mem)
    exact ⟨place, enters, fun other enters' => enters'.unique enters⟩
  ordered := List.pairwise_map.mp (follows_edited edits).order.ordered
  overwritten := by
    intro index amplitude present
    obtain ⟨before, old, after, split, here, overwritten, -⟩ := exists_split present
    refine ⟨before, old, after, sameIndex_iff.mpr ?_, split, overwritten amplitude⟩
    rw [here, key_key]
  appended := by
    intro index amplitude absent
    rw [← key_eq_add, entries_set_of_absent absent]
  erased := by
    intro index present
    obtain ⟨before, old, after, split, here, -, erased⟩ := exists_split present
    refine ⟨before, old, after, sameIndex_iff.mpr ?_, split, erased⟩
    rw [here, key_key]
  untouched := fun _ => erase_of_absent
  readBack := (keyed_edited edits).ofList_toList

/-- What is not a number is an index like others, both zeros are one, and an index that was erased
comes in anew at the end. -/
example : (edited [.set 3.0 0.1, .set (-0.0) 0.4, .set 3.0 0.9, .set (0.0 / 0.0) 0.2, .erase 3.0,
    .set 0.0 0.5, .set 3.0 0.7]).toList = [(0.0, 0.5), (0.0 / 0.0, 0.2), (3.0, 0.7)] := by
  decide +kernel

end Patchbay.Partials
