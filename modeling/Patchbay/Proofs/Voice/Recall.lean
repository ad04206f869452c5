import Mathlib.Data.List.Basic
import Patchbay.Proofs.Wave.Memos
import Patchbay.Voice.RingOscillator

/-!
# What a ring keeps

A ring that has asked for its waves once keeps what it needs to be given the same ones again. So
what a voice sounds like hangs on the memos from before the first voice, and not on how many voices
there have been since.
-/
namespace Patchbay

/-- A generator at the beginning of the wave of a memo, but for the serial number. -/
def WaveMemo.cued {τ : Type} (memo : Option WaveMemo) (frequency : Float32)
    (starts stops : Option τ) : Node τ :=
  .generator ⟨0, Player.start ((memo.map (·.shared.wave)).getD Wave.silent), frequency, starts,
    stops⟩

variable {τ : Type}

namespace RingOscillator

/-- A memo is one of those that a ring keeps. -/
def Keeps (ring : RingOscillator) (memo : WaveMemo) : Prop :=
  ring.oscillator.memo = some memo ∨ some memo ∈ ring.memos

section Asking

variable [Fourier]

/-- What a ring keeps of the timbre with an index, once the branches have asked for their waves. -/
def askedAt (branches : List Branch) (rate : Float32) (index : Nat) (memo : Option WaveMemo) :
    Option WaveMemo :=
  match branches.find? (·.index == index) with
  | some branch => some (WaveMemo.asked memo rate branch.signal)
  | none => memo.map WaveMemo.unnumbered

theorem askedAt_of_absent {branches : List Branch} {rate : Float32} {index : Nat}
    (h : index ∉ branches.map (·.index)) :
    askedAt branches rate index = Option.map WaveMemo.unnumbered := by
  have none_asks : branches.find? (·.index == index) = none := by
    simpa using fun b mem same => h (List.mem_map.mpr ⟨b, mem, same⟩)
  funext memo
  simp only [askedAt, none_asks]

theorem askedAt_cons_self (branch : Branch) (rest : List Branch) (rate : Float32)
    (memo : Option WaveMemo) : askedAt (branch :: rest) rate branch.index memo =
      some (WaveMemo.asked memo rate branch.signal) := by
  simp [askedAt]

theorem askedAt_cons_of_ne {branch : Branch} {index : Nat} (h : branch.index ≠ index)
    (rest : List Branch) (rate : Float32) :
    askedAt (branch :: rest) rate index = askedAt rest rate index := by
  funext memo
  simp [askedAt, h]

/-- The memos of a ring but for serial numbers, first that of its own timbre. -/
def memory (ring : RingOscillator) : Option WaveMemo × List (Option WaveMemo) :=
  (ring.oscillator.memo.map WaveMemo.unnumbered, ring.memos.map (Option.map WaveMemo.unnumbered))

/-- The memos of a ring after it built a voice. -/
def recalled (ring : RingOscillator) (rate : Float32) :
    Option WaveMemo × List (Option WaveMemo) :=
  (some (WaveMemo.asked ring.oscillator.memo rate ring.oscillator.partials),
    ring.reserve.memos.mapIdx (askedAt ring.branches rate))

/-- The nodes of a branch of a voice, with the memos that are asked for the waves. -/
def branchScore (memos : List (Option WaveMemo)) (rate frequency : Float32) (starts stops : Option τ)
    (branch : Branch) : List (Node τ) :=
  [.gain branch.weight, WaveMemo.cued (some (WaveMemo.asked memos[branch.index]?.join rate
    branch.signal)) frequency starts stops, .gain 1.0]

/-- The nodes of a voice but for serial numbers. -/
def score (ring : RingOscillator) (rate frequency : Float32) (starts stops : Option τ) :
    List (Node τ) :=
  WaveMemo.cued (some (WaveMemo.asked ring.oscillator.memo rate ring.oscillator.partials)) frequency
      starts stops ::
    ring.branches.flatMap (branchScore ring.reserve.memos rate frequency starts stops)

omit [Fourier] in
theorem index_branches_nodup (ring : RingOscillator) : (ring.branches.map (·.index)).Nodup := by
  have indices : ((ring.signals.zip ring.weights).zipIdx.map fun entry =>
      (⟨entry.2, entry.1.1, entry.1.2⟩ : Branch)).map (·.index) =
        List.range (ring.signals.zip ring.weights).length := by
    simp [List.map_map, Function.comp_def, List.zipIdx_map_snd, List.range_eq_range']
  have all := List.nodup_range (n := (ring.signals.zip ring.weights).length)
  rw [← indices] at all
  exact all.sublist (List.filter_sublist.map _)

/-- A ring without voices and memos. -/
def bare (ring : RingOscillator) : RingOscillator :=
  { ring with
    oscillator := { ring.oscillator with memo := none, nodes := [], generators := [] }
    memos := [] }

theorem askedAt_unnumbered (branches : List Branch) (rate : Float32) (index : Nat)
    (memo : Option WaveMemo) :
    askedAt branches rate index (memo.map WaveMemo.unnumbered) = askedAt branches rate index memo := by
  unfold askedAt
  split
  · rw [WaveMemo.asked_unnumbered]
  · cases memo <;> rfl

theorem askedAt_askedAt (branches : List Branch) (rate : Float32) (index : Nat)
    (memo : Option WaveMemo) :
    askedAt branches rate index (askedAt branches rate index memo) =
      askedAt branches rate index memo := by
  unfold askedAt
  split
  · rw [WaveMemo.asked_asked]
  · cases memo <;> rfl

theorem askedAt_of_mem {branches : List Branch} (once : (branches.map (·.index)).Nodup)
    {branch : Branch} (mem : branch ∈ branches) (rate : Float32) (memo : Option WaveMemo) :
    askedAt branches rate branch.index memo = some (WaveMemo.asked memo rate branch.signal) := by
  have found : branches.find? (·.index == branch.index) = some branch := by
    induction branches with
    | nil => cases mem
    | cons first rest ih =>
      obtain ⟨absent, once⟩ := List.nodup_cons.mp once
      rcases List.mem_cons.mp mem with rfl | later
      · simp
      · have differs : first.index ≠ branch.index := fun same =>
          absent (List.mem_map.mpr ⟨branch, later, same.symm⟩)
        rw [List.find?_cons_of_neg (by simpa using differs)]
        exact ih once later
  simp only [askedAt, found]

end Asking

theorem index_lt_of_mem_branches {ring : RingOscillator} {branch : Branch}
    (mem : branch ∈ ring.branches) : branch.index < ring.reserve.memos.length := by
  obtain ⟨entry, listed, rfl⟩ := List.mem_map.mp (List.mem_filter.mp mem).1
  have lt := List.snd_lt_of_mem_zipIdx listed
  rw [List.length_zip] at lt
  simp only [reserve, List.length_rightpad]
  omega

variable {ring other : RingOscillator}

theorem branches_congr (signals : other.signals = ring.signals)
    (weights : other.weights = ring.weights) : other.branches = ring.branches := by
  simp only [branches, signals, weights]

/-- The memos of the signals, one for each signal at least. -/
def shelf (ring : RingOscillator) : List (Option WaveMemo) :=
  ring.memory.2.rightpad ring.signals.length none

theorem map_reserve (ring : RingOscillator) :
    ring.reserve.memos.map (Option.map WaveMemo.unnumbered) = ring.shelf := by
  simp [reserve, shelf, memory, List.rightpad]

theorem getElem?_shelf (ring : RingOscillator) (index : Nat) :
    ring.shelf[index]?.join = ring.reserve.memos[index]?.join.map WaveMemo.unnumbered := by
  rw [← map_reserve, List.getElem?_map]
  cases ring.reserve.memos[index]? <;> rfl

variable [Fourier]

theorem recalled_eq (ring : RingOscillator) (rate : Float32) : ring.recalled rate =
    (some (WaveMemo.asked ring.memory.1 rate ring.oscillator.partials),
      ring.shelf.mapIdx (askedAt ring.branches rate)) := by
  rw [recalled, memory, WaveMemo.asked_unnumbered, ← map_reserve]
  congr 1
  refine List.ext_getElem? fun index => ?_
  simp only [List.getElem?_mapIdx, List.getElem?_map, Option.map_map]
  exact Option.map_congr fun memo _ => (askedAt_unnumbered _ _ _ memo).symm

theorem score_eq (ring : RingOscillator) (rate frequency : Float32) (starts stops : Option τ) :
    ring.score rate frequency starts stops =
      WaveMemo.cued (some (WaveMemo.asked ring.memory.1 rate ring.oscillator.partials)) frequency
          starts stops ::
        ring.branches.flatMap (branchScore ring.shelf rate frequency starts stops) := by
  rw [score, memory, WaveMemo.asked_unnumbered]
  congr 2
  funext branch
  simp only [branchScore, getElem?_shelf, WaveMemo.asked_unnumbered]

section Congruence

variable (partials : other.oscillator.partials = ring.oscillator.partials)
  (signals : other.signals = ring.signals) (weights : other.weights = ring.weights)

include partials signals weights

/-- What a ring sounds like hangs on its setting and its memos alone. -/
theorem score_congr (memory : other.memory = ring.memory) (rate frequency : Float32)
    (starts stops : Option τ) :
    other.score rate frequency starts stops = ring.score rate frequency starts stops := by
  simp only [score_eq, shelf, memory, partials, signals, branches_congr signals weights]

theorem recalled_congr (memory : other.memory = ring.memory) (rate : Float32) :
    other.recalled rate = ring.recalled rate := by
  simp only [recalled_eq, shelf, memory, partials, signals, branches_congr signals weights]

variable {rate : Float32} (recalls : other.memory = ring.recalled rate)

include recalls

omit partials weights in
theorem shelf_of_recalled : other.shelf = ring.shelf.mapIdx (askedAt ring.branches rate) := by
  have enough : ring.signals.length ≤ (ring.shelf.mapIdx (askedAt ring.branches rate)).length := by
    simp only [shelf, List.length_mapIdx, List.length_rightpad]
    omega
  rw [shelf, recalls, recalled_eq, signals, List.rightpad, Nat.sub_eq_zero_of_le enough]
  exact List.append_nil _

/-- After a ring has asked for its waves, its voices sound as before. -/
theorem score_of_recalled (frequency : Float32) (starts stops : Option τ) :
    other.score rate frequency starts stops = ring.score rate frequency starts stops := by
  have shelved := shelf_of_recalled signals recalls
  simp only [score_eq, recalls, recalled_eq, partials, branches_congr signals weights,
    WaveMemo.asked_asked]
  congr 1
  refine List.flatMap_congr fun branch mem => ?_
  have within : branch.index < ring.shelf.length := by
    rw [← map_reserve, List.length_map]
    exact index_lt_of_mem_branches mem
  simp only [branchScore, shelved, List.getElem?_mapIdx, List.getElem?_eq_getElem within,
    Option.map_some, Option.join_some, askedAt_of_mem ring.index_branches_nodup mem,
    WaveMemo.asked_asked]

/-- To ask again changes nothing. -/
theorem recalled_of_recalled : other.recalled rate = ring.recalled rate := by
  have shelved := shelf_of_recalled signals recalls
  rw [recalled_eq, recalled_eq, shelved, recalls, recalled_eq, partials,
    branches_congr signals weights, WaveMemo.asked_asked]
  congr 1
  refine List.ext_getElem? fun index => ?_
  simp only [List.getElem?_mapIdx, Option.map_map, Function.comp_def, askedAt_askedAt]

end Congruence

section Twice

variable {rate : Float32} {asked : Bool} (bare : other.bare = ring.bare)
  (memory : other.memory = if asked then ring.recalled rate else ring.memory)

include bare memory

/-- Once a ring may have asked for its waves, its voices sound as before. -/
theorem score_twice (frequency : Float32) (starts stops : Option τ) :
    other.score rate frequency starts stops = ring.score rate frequency starts stops := by
  have partials : other.oscillator.partials = ring.oscillator.partials :=
    congrArg (·.oscillator.partials) bare
  have signals : other.signals = ring.signals := congrArg (·.signals) bare
  have weights : other.weights = ring.weights := congrArg (·.weights) bare
  split at memory
  · exact score_of_recalled partials signals weights memory frequency starts stops
  · exact score_congr partials signals weights memory rate frequency starts stops

/-- It does not matter how often a ring asks for its waves. -/
theorem memory_twice (again : Bool) :
    (if again then other.recalled rate else other.memory) =
      if asked || again then ring.recalled rate else ring.memory := by
  have partials : other.oscillator.partials = ring.oscillator.partials :=
    congrArg (·.oscillator.partials) bare
  have signals : other.signals = ring.signals := congrArg (·.signals) bare
  have weights : other.weights = ring.weights := congrArg (·.weights) bare
  cases asked with
  | true =>
    have memory : other.memory = ring.recalled rate := memory
    simp only [recalled_of_recalled partials signals weights memory, memory, Bool.true_or, ite_self,
      if_true]
  | false =>
    have memory : other.memory = ring.memory := memory
    simp only [recalled_congr partials signals weights memory, memory, Bool.false_or]

end Twice

end RingOscillator

end Patchbay
