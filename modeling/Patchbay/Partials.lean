/-!
# Partials

A timbre is a sparse list of partials, each an index with an amplitude. An index stands
in the list once: setting it again changes the amplitude in place, a new index goes to the
end. Indices are told apart by their bits, after `-0` has become `0`.
-/
namespace Patchbay

/-- One harmonic component. -/
structure Partial where
  index : Float32
  amplitude : Float32
  deriving Repr

/-- The partials of a timbre, in the order in which their indices first came. -/
structure Partials where
  entries : List Partial
  deriving Repr

namespace Partials

/-- The index under which an entry stands. Both zeros stand under `0`. -/
def key (index : Float32) : Float32 :=
  if index.toBits = 0x80000000 then 0.0 else index

/-- Does this entry stand under the key? -/
def named (key : Float32) (entry : Partial) : Bool :=
  entry.index.toBits == key.toBits

/-- The timbre without partials. -/
def empty : Partials :=
  ⟨[]⟩

instance : Inhabited Partials := ⟨empty⟩

/-- Overwrite the entry under a key in place, or append one. -/
def put (key amplitude : Float32) : List Partial → List Partial
  | [] => [⟨key, amplitude⟩]
  | entry :: rest =>
    if named key entry then { entry with amplitude } :: rest
    else entry :: put key amplitude rest

/-- Set the amplitude at an index. -/
def set (partials : Partials) (index amplitude : Float32) : Partials :=
  ⟨put (key index) amplitude partials.entries⟩

/-- The amplitude at an index. -/
def get? (partials : Partials) (index : Float32) : Option Float32 :=
  (partials.entries.find? (named (key index))).map (·.amplitude)

/-- Take the partial at an index out. The others keep their order. -/
def erase (partials : Partials) (index : Float32) : Partials :=
  ⟨partials.entries.eraseP (named (key index))⟩

/-- How many partials there are. -/
def size (partials : Partials) : Nat :=
  partials.entries.length

/-- Is there no partial at all? -/
def isEmpty (partials : Partials) : Bool :=
  partials.entries.isEmpty

/-- Set the pairs of a list one after another. -/
def ofList (pairs : List (Float32 × Float32)) : Partials :=
  pairs.foldl (fun partials pair => partials.set pair.1 pair.2) empty

/-- The pairs of index and amplitude, in order. -/
def toList (partials : Partials) : List (Float32 × Float32) :=
  partials.entries.map fun entry => (entry.index, entry.amplitude)

/-- Two timbres agree if they are of one size and every partial of the first has the same
amplitude in the second. A NaN amplitude agrees with nothing, not even with itself. -/
def agrees (a b : Partials) : Bool :=
  a.size == b.size && a.entries.all fun entry => b.get? entry.index == some entry.amplitude

instance : BEq Partials := ⟨agrees⟩

@[simp] theorem size_empty : empty.size = 0 := rfl

@[simp] theorem get?_empty (index : Float32) : empty.get? index = none := rfl

@[simp] theorem named_self (key amplitude : Float32) : named key ⟨key, amplitude⟩ = true := by
  simp [named]

theorem map_find?_put_self (key amplitude : Float32) (entries : List Partial) :
    ((put key amplitude entries).find? (named key)).map (·.amplitude) = some amplitude := by
  induction entries with
  | nil => simp [put]
  | cons entry rest ih =>
    by_cases h : named key entry
    · have kept : named key { entry with amplitude } = true := h
      simp [put, h, kept]
    · simp [put, h, ih]

/-- What was set is found. -/
@[simp] theorem get?_set_self (partials : Partials) (index amplitude : Float32) :
    (partials.set index amplitude).get? index = some amplitude :=
  map_find?_put_self (key index) amplitude partials.entries

theorem find?_put_of_ne {key other : Float32} (h : key.toBits ≠ other.toBits)
    (amplitude : Float32) (entries : List Partial) :
    (put key amplitude entries).find? (named other) = entries.find? (named other) := by
  induction entries with
  | nil => simp [put, named, h]
  | cons entry rest ih =>
    by_cases e : named key entry
    · have bits : entry.index.toBits = key.toBits := by simpa [named] using e
      have skip : named other entry = false := by simp [named, bits, h]
      have skip' : named other { entry with amplitude } = false := skip
      simp [put, e, skip, skip']
    · simp [put, e, List.find?_cons, ih]

/-- Setting one index leaves the others alone. -/
theorem get?_set_of_ne {index other : Float32} (h : (key index).toBits ≠ (key other).toBits)
    (partials : Partials) (amplitude : Float32) :
    (partials.set index amplitude).get? other = partials.get? other := by
  simp only [get?, set, find?_put_of_ne h]

@[simp] theorem length_toList (partials : Partials) : partials.toList.length = partials.size := by
  simp [toList, size]

end Partials

end Patchbay
