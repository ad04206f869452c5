import Patchbay.Proofs.Number.Quotients
import Patchbay.Wave.Synthesis
import Patchbay.Wave.Transform

/-!
# Waves that are safe to play

A table that is divided by its peak stays between minus one and one and reaches one of them. The
peak passes over what is not a number, and so does the division: a table is spoiled by such a value
just if its others have a peak, and is silent if they have none. Infinities make a table silent.
-/
namespace Patchbay

open Number

namespace Wave

/-- What is safe to play: silence, or samples between minus one and one that reach one of them. -/
def Playable (table : Array Float32) : Prop :=
  (∀ sample ∈ table, sample = 0.0) ∨
    (∀ sample ∈ table, -1.0 ≤ sample ∧ sample ≤ 1.0) ∧ ∃ sample ∈ table, sample.abs = 1.0

instance (table : Array Float32) : Decidable (Playable table) :=
  inferInstanceAs (Decidable (_ ∨ _))

/-- Values are spoiled where one of them is not a number and the others have a peak: one is not
zero and none is infinite. -/
def Spoiled (values : Array Float32) : Prop :=
  (∃ value ∈ values, value.isNaN = true) ∧ (∃ value ∈ values, 0.0 < value.abs) ∧
    ∀ value ∈ values, value.isInf = false

instance (values : Array Float32) : Decidable (Spoiled values) :=
  inferInstanceAs (Decidable (_ ∧ _))

/-! ### The peak -/

/-- The greatest magnitude among samples. What is not a number is passed over. -/
structure Greatest (samples : List Float32) (top : Float32) : Prop where
  atLeastZero : AtLeastZero top.toModel.unpack
  bounds : ∀ sample ∈ samples, sample.isNaN = false → sample.abs ≤ top
  reached : top = 0.0 ∨ ∃ sample ∈ samples, sample.abs = top

namespace Greatest

variable {samples : List Float32} {top : Float32}

theorem append (greatest : Greatest samples top) (sample : Float32) :
    Greatest (samples ++ [sample]) (if top < sample.abs then sample.abs else top) := by
  obtain ⟨atLeastZero, bounds, reached⟩ := greatest
  split
  case isTrue louder =>
    have above := atLeastZero_abs (isNaN_of_lt_abs louder)
    refine ⟨above, fun one mem number => ?_, .inr ⟨sample, by simp, rfl⟩⟩
    rw [le_single_iff]
    rcases List.mem_append.mp mem with before | last
    · have below := le_single_iff.mp (bounds one before number)
      exact (atLeastZero_abs number).trans atLeastZero above below
        (atLeastZero.le_of_lt above (lt_single_iff.mp louder))
    · rw [List.mem_singleton.mp last]
      exact above.le_refl
  case isFalse quieter =>
    refine ⟨atLeastZero, fun one mem number => ?_, reached.imp_right fun ⟨one, mem, same⟩ =>
      ⟨one, List.mem_append_left _ mem, same⟩⟩
    rcases List.mem_append.mp mem with before | last
    · exact bounds one before number
    · rw [List.mem_singleton.mp last] at number ⊢
      rw [lt_single_iff, Bool.not_eq_true] at quieter
      exact le_single_iff.mpr (atLeastZero.le_of_not_lt (atLeastZero_abs number) quieter)

/-- The peak is above zero just if some sample is. -/
theorem pos_iff (greatest : Greatest samples top) :
    0.0 < top ↔ ∃ sample ∈ samples, 0.0 < sample.abs := by
  constructor
  · intro positive
    rcases greatest.reached with rfl | ⟨sample, mem, rfl⟩
    · exact absurd positive (by decide)
    · exact ⟨sample, mem, positive⟩
  · rintro ⟨sample, mem, positive⟩
    have number := isNaN_of_lt_abs positive
    exact lt_single_iff.mpr ((atLeastZero_abs number).pos_of_le greatest.atLeastZero
      (lt_single_iff.mp positive) (le_single_iff.mp (greatest.bounds sample mem number)))

/-- The peak is finite just if no sample is infinite. -/
theorem isFinite_iff (greatest : Greatest samples top) :
    top.isFinite = true ↔ ∀ sample ∈ samples, sample.isInf = false := by
  rw [isFinite_iff_ne_infinity greatest.atLeastZero]
  constructor
  · intro inside sample mem
    rw [← Bool.not_eq_true, isInf_iff]
    intro infinite
    have number : sample.isNaN = false := by
      rw [← Bool.not_eq_true, isNaN_single_iff]
      intro unpacked
      rw [unpack_abs, unpacked] at infinite
      cases infinite
    have le := le_single_iff.mp (greatest.bounds sample mem number)
    rw [infinite] at le
    exact inside (greatest.atLeastZero.antisymm .infinity greatest.atLeastZero.le_infinity le)
  · intro finite infinite
    rcases greatest.reached with rfl | ⟨sample, mem, rfl⟩
    · cases infinite
    · exact Bool.false_ne_true ((finite sample mem).symm.trans (isInf_iff.mpr infinite))

end Greatest

theorem greatest_peak (values : Array Float32) : Greatest values.toList (peak values) :=
  peak_induction ⟨.zero, by simp, .inl rfl⟩ (fun _ _ sample greatest => greatest.append sample)
    values

/-! ### The division by the peak -/

variable {values : Array Float32}

/-- There is a peak to divide by just if some value is not zero and none is infinite. -/
theorem has_peak_iff : 0 < peak values ∧ Sample.isFinite (peak values) = true ↔
    (∃ value ∈ values, 0.0 < value.abs) ∧ ∀ value ∈ values, value.isInf = false := by
  have greatest := greatest_peak values
  simp only [← Array.mem_toList_iff]
  exact and_congr greatest.pos_iff greatest.isFinite_iff

theorem spoiled_iff : Spoiled values ↔ (∃ value ∈ values, value.isNaN = true) ∧
    0 < peak values ∧ Sample.isFinite (peak values) = true :=
  and_congr_right fun _ => has_peak_iff.symm

section Peak

variable (loud : 0 < peak values ∧ Sample.isFinite (peak values) = true)

include loud

theorem normalize_of_peak : normalize values = values.map (· / peak values) := by
  simp only [normalize]
  exact if_pos loud

theorem bounds_of_number {value : Float32} (mem : value ∈ values) (number : value.isNaN = false) :
    -1.0 ≤ value / peak values ∧ value / peak values ≤ 1.0 :=
  div_bounds loud.1 loud.2
    ((greatest_peak values).bounds value (Array.mem_toList_iff.mpr mem) number)

/-- Some value has the magnitude of the peak. -/
theorem reaches_one : ∃ sample ∈ normalize values, sample.abs = 1.0 := by
  obtain silent | ⟨value, mem, same⟩ := (greatest_peak values).reached
  · have positive := loud.1
    rw [silent] at positive
    exact absurd positive (by decide)
  · rw [normalize_of_peak loud]
    exact ⟨_, Array.mem_map.mpr ⟨value, Array.mem_toList_iff.mp mem, rfl⟩,
      abs_div_of_abs_eq loud.1 loud.2 same⟩

end Peak

theorem normalize_of_no_peak (still : ¬ (0 < peak values ∧ Sample.isFinite (peak values) = true)) :
    normalize values = values.map fun _ => 0 := by
  simp only [normalize]
  exact if_neg still

/-- What a division by the peak leaves is not a number, or is between minus one and one. -/
theorem mem_normalize {sample : Float32} (mem : sample ∈ normalize values) :
    sample.isNaN = true ∨ -1.0 ≤ sample ∧ sample ≤ 1.0 := by
  by_cases loud : 0 < peak values ∧ Sample.isFinite (peak values) = true
  · rw [normalize_of_peak loud] at mem
    obtain ⟨value, inside, rfl⟩ := Array.mem_map.mp mem
    cases number : value.isNaN
    · exact .inr (bounds_of_number loud inside number)
    · exact .inl (isNaN_div number)
  · rw [normalize_of_no_peak loud] at mem
    obtain ⟨_, _, rfl⟩ := Array.mem_map.mp mem
    exact .inr (by decide)

/-- Where there is a peak, just what was not a number before the division is none after it. -/
theorem isNaN_normalize (loud : 0 < peak values ∧ Sample.isFinite (peak values) = true) :
    (normalize values).map Float32.isNaN = values.map Float32.isNaN := by
  rw [normalize_of_peak loud, Array.map_map]
  refine Array.map_congr_left fun value mem => ?_
  cases number : value.isNaN
  · obtain ⟨low, high⟩ := bounds_of_number loud mem number
    exact (isFinite_iff.mp (isFinite_of_bounds low high)).1
  · exact isNaN_div number

theorem Playable.isFinite {table : Array Float32} (playable : Playable table) {sample : Float32}
    (mem : sample ∈ table) : sample.isFinite = true := by
  rcases playable with silent | ⟨bounds, _⟩
  · rw [silent sample mem]
    rfl
  · exact isFinite_of_bounds (bounds sample mem).1 (bounds sample mem).2

/-- A table that is divided by its peak is safe to play just if its values were not spoiled. -/
theorem playable_normalize_iff : Playable (normalize values) ↔ ¬ Spoiled values := by
  rw [spoiled_iff]
  by_cases loud : 0 < peak values ∧ Sample.isFinite (peak values) = true
  · constructor
    · rintro playable ⟨⟨value, mem, not_number⟩, _⟩
      have sample : value / peak values ∈ normalize values := by
        rw [normalize_of_peak loud]
        exact Array.mem_map.mpr ⟨value, mem, rfl⟩
      have number := (isFinite_iff.mp (playable.isFinite sample)).1
      rw [isNaN_div not_number] at number
      cases number
    · intro numbers
      refine .inr ⟨fun sample mem => (mem_normalize mem).resolve_left fun not_number => ?_,
        reaches_one loud⟩
      have flags := isNaN_normalize loud
      have mem : true ∈ values.map Float32.isNaN := by
        rw [← flags]
        exact Array.mem_map.mpr ⟨sample, mem, not_number⟩
      obtain ⟨value, mem, not_number⟩ := Array.mem_map.mp mem
      exact numbers ⟨⟨value, mem, not_number⟩, loud⟩
  · refine iff_of_true (.inl fun sample mem => ?_) fun spoiled => loud spoiled.2
    rw [normalize_of_no_peak loud] at mem
    obtain ⟨_, _, same⟩ := Array.mem_map.mp mem
    exact same.symm

/-- Two values and their opposites are spoiled just if one of the two is not a number and the other
one is finite and not zero. -/
theorem spoiled_quarters_iff (r i : Float32) : Spoiled #[r, i, -r, -i] ↔
    r.isNaN = true ∧ i.isFinite = true ∧ 0.0 < i.abs ∨
      i.isNaN = true ∧ r.isFinite = true ∧ 0.0 < r.abs := by
  have members : Spoiled #[r, i, -r, -i] ↔ (r.isNaN = true ∨ i.isNaN = true) ∧
      (0.0 < r.abs ∨ 0.0 < i.abs) ∧ r.isInf = false ∧ i.isInf = false := by
    simp only [Spoiled, List.mem_toArray, List.exists_mem_cons_iff, List.forall_mem_cons, isNaN_neg,
      abs_neg_single, isInf_neg, List.not_mem_nil]
    grind
  rw [members, isFinite_iff, isFinite_iff]
  cases number : r.isNaN <;> cases number' : i.isNaN
  · simp
  · have ⟨small, inside⟩ := of_not_number number'
    simp [small, inside, and_comm]
  · have ⟨small, inside⟩ := of_not_number number
    simp [small, inside, and_comm]
  · have ⟨small, inside⟩ := of_not_number number
    have ⟨small', inside'⟩ := of_not_number number'
    simp [small, small']

/-! ### Waves -/

/-- A wave is safe to play just if the values of its transform were not spoiled, and then its table
has only finite samples. In a spoiled one just what was not a number stays so, and the others are
between minus one and one and reach one of them. At two bins the values are the parts of the one
harmonic and their opposites. -/
theorem playable_unless_spoiled (inverse : Transform Float32) (real imag : Array Float32) :
    let bins := max real.size imag.size
    let values := (inverse (spectrum bins real imag)).map (·.re)
    let table := (ofHarmonics inverse real imag).table
    (Playable table ↔ ¬ (bins ≠ 0 ∧ Spoiled values)) ∧
      (Playable table → ∀ sample ∈ table, sample.isFinite = true) ∧
      (∀ sample ∈ table, sample.isNaN = true ∨ -1.0 ≤ sample ∧ sample ≤ 1.0) ∧
      (bins ≠ 0 → Spoiled values → table.map Float32.isNaN = values.map Float32.isNaN ∧
        ∃ sample ∈ table, sample.abs = 1.0) ∧
      let r := real[1]?.getD 0.0
      let i := imag[1]?.getD 0.0
      (bins = 2 → values = #[r, i, -r, -i] → (Playable table ↔
        ¬ (r.isNaN = true ∧ i.isFinite = true ∧ 0.0 < i.abs ∨
          i.isNaN = true ∧ r.isFinite = true ∧ 0.0 < r.abs))) := by
  intro bins values table
  have empty (none : bins = 0) : table = #[0.0] := by
    have none : max real.size imag.size = 0 := none
    show (ofHarmonics inverse real imag).table = #[0.0]
    simp only [ofHarmonics, none]
    rfl
  have filled (some_bins : bins ≠ 0) : table = normalize values := by
    have some_bins : max real.size imag.size ≠ 0 := some_bins
    show (ofHarmonics inverse real imag).table = normalize values
    simp only [ofHarmonics, some_bins]
    rfl
  have playable : Playable table ↔ ¬ (bins ≠ 0 ∧ Spoiled values) := by
    by_cases none : bins = 0
    · rw [empty none]
      exact iff_of_true (by decide) fun spoiled => spoiled.1 none
    · rw [filled none, playable_normalize_iff]
      simp [none]
  refine ⟨playable, fun safe sample mem => safe.isFinite mem, fun sample mem => ?_,
    fun some_bins spoiled => ?_, fun two parts => ?_⟩
  · by_cases none : bins = 0
    · rw [empty none] at mem
      rw [Array.mem_singleton.mp mem]
      exact .inr (by decide)
    · rw [filled none] at mem
      exact mem_normalize mem
  · have loud := (spoiled_iff.mp spoiled).2
    rw [filled some_bins]
    exact ⟨isNaN_normalize loud, reaches_one loud⟩
  · rw [playable, parts, spoiled_quarters_iff]
    simp [two]

/-- One harmonic is safe to play. Where one of its parts is not a number, two samples of four are
none, and the others reach one. -/
theorem playable_unless_spoiled_parts :
    Playable (ofHarmonics Transform.inverse #[0.0, 3.0] #[0.0, -4.0]).table ∧
      (ofHarmonics Transform.inverse #[0.0, 0.0 / 0.0] #[0.0, -4.0]).table.map Float32.isNaN =
        #[true, false, true, false] ∧
      ∃ sample ∈ (ofHarmonics Transform.inverse #[0.0, 0.0 / 0.0] #[0.0, -4.0]).table,
        sample.abs = 1.0 := by
  have safe := playable_unless_spoiled Transform.inverse #[0.0, 3.0] #[0.0, -4.0]
  have spoiled := playable_unless_spoiled Transform.inverse #[0.0, 0.0 / 0.0] #[0.0, -4.0]
  obtain ⟨flags, reached⟩ := spoiled.2.2.2.1 (by decide) (by decide +kernel)
  exact ⟨safe.1.mpr (by decide +kernel), flags.trans (by decide +kernel), reached⟩

/-- A bin that is not a number beside one that is: the table is not silent, and two of its samples
are not numbers. -/
theorem table_beside_nan :
    ¬ Playable (ofHarmonics Transform.inverse #[0.0, 0.0 / 0.0] #[0.0, 1.0]).table := by
  decide +kernel

end Wave

end Patchbay
