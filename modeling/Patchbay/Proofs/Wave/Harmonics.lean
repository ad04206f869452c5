import Mathlib.Analysis.Complex.Trigonometric
import Mathlib.Analysis.SpecialFunctions.Trigonometric.Basic
import Patchbay.Wave.Synthesis

/-!
# Waves as sums of harmonics

In exact arithmetic a wave made from two coefficient arrays is the sum of its cosines and sines,
divided by the greatest magnitude of that sum. The spectrum goes up through the harmonics and comes
down through their conjugates, so the two terms of one harmonic add up to twice a real part, and
the imaginary parts cancel.
-/
namespace Patchbay

open Complex

/-! ### Exact samples -/

/-- Real numbers as samples. Each of them is finite. -/
noncomputable instance Sample.exact : Sample ℝ where
  half := 1 / 2
  abs sample := |sample|
  isFinite _ := true
  decLT := inferInstance

namespace Phasor

/-- The complex number at a point of the plane. -/
def value (phasor : Phasor ℝ) : ℂ :=
  ⟨phasor.re, phasor.im⟩

/-- The point on the other side of the real line. -/
def conj (phasor : Phasor ℝ) : Phasor ℝ :=
  ⟨phasor.re, -phasor.im⟩

@[simp] theorem value_zero : (⟨0, 0⟩ : Phasor ℝ).value = 0 := rfl

@[simp] theorem value_conj (phasor : Phasor ℝ) :
    phasor.conj.value = starRingEnd ℂ phasor.value := rfl

@[simp] theorem conj_zero : (⟨0, 0⟩ : Phasor ℝ).conj = ⟨0, 0⟩ := by
  simp [conj]

@[simp] theorem conj_conj (phasor : Phasor ℝ) : phasor.conj.conj = phasor := by
  simp [conj]

end Phasor

/-! ### The exact transform -/

namespace Transform

/-- How far entry `k` of a spectrum of `size` entries is turned in value `j`. -/
noncomputable def turned (size j k : ℕ) : ℂ :=
  exp ((2 * Real.pi * k * j / size : ℝ) * I)

/-- A transform that takes each spectrum to the sums of its turned entries, without a factor in
front of the sum. -/
def Inverts (inverse : Transform ℝ) : Prop :=
  ∀ spectrum : Array (Phasor ℝ), (inverse spectrum).map Phasor.value =
    Array.ofFn fun j : Fin spectrum.size =>
      ∑ k : Fin spectrum.size, spectrum[k].value * turned spectrum.size j k

/-- The sums themselves as a transform. -/
noncomputable def sums (spectrum : Array (Phasor ℝ)) : Array (Phasor ℝ) :=
  Array.ofFn fun j : Fin spectrum.size =>
    let sum := ∑ k : Fin spectrum.size, spectrum[k].value * turned spectrum.size j k
    ⟨sum.re, sum.im⟩

theorem inverts_sums : Inverts sums := by
  intro spectrum
  simp only [sums, Array.map_ofFn]
  rfl

theorem Inverts.size {inverse : Transform ℝ} (inverts : Inverts inverse)
    (spectrum : Array (Phasor ℝ)) : (inverse spectrum).size = spectrum.size := by
  simpa using congrArg Array.size (inverts spectrum)

theorem turned_re (size j k : ℕ) : (turned size j k).re = Real.cos (2 * Real.pi * k * j / size) :=
  exp_ofReal_mul_I_re _

theorem turned_im (size j k : ℕ) : (turned size j k).im = Real.sin (2 * Real.pi * k * j / size) :=
  exp_ofReal_mul_I_im _

/-- Opposite entries are turned in opposite directions. -/
theorem turned_opposite {size k : ℕ} (j : ℕ) (positive : 0 < size) (le : k ≤ size) :
    turned size j (size - k) = starRingEnd ℂ (turned size j k) := by
  have size_ne : (size : ℝ) ≠ 0 := Nat.cast_ne_zero.mpr positive.ne'
  have opposite : 2 * Real.pi * ((size - k : ℕ) : ℝ) * j / size =
      j * (2 * Real.pi) - 2 * Real.pi * k * j / size := by
    rw [Nat.cast_sub le]
    field_simp
  apply Complex.ext
  · rw [conj_re, turned_re, turned_re, opposite, Real.cos_nat_mul_two_pi_sub]
  · rw [conj_im, turned_im, turned_im, opposite, Real.sin_nat_mul_two_pi_sub]

end Transform

namespace Wave

open Transform

variable (real imag : Array ℝ)

/-! ### The spectrum -/

/-- Entry `k` of the spectrum, zero from its end on. -/
noncomputable def entry (bins k : ℕ) : Phasor ℝ :=
  (spectrum bins real imag)[k]?.getD ⟨0, 0⟩

variable {bins : ℕ}

theorem getElem?_spectrum {k : ℕ} (lt : k < 2 * bins) :
    (spectrum bins real imag)[k]? = some (entry real imag bins k) := by
  simp [entry, lt]

theorem entry_eq {k : ℕ} (lt : k < 2 * bins) : entry real imag bins k =
    if k = 0 ∨ k = bins then ⟨0, 0⟩
    else if k < bins then harmonic real imag k
    else (harmonic real imag (2 * bins - k)).conj := by
  simp [entry, spectrum, lt, Phasor.conj]

theorem entry_first : entry real imag bins 0 = ⟨0, 0⟩ := by
  by_cases some_bins : 0 < 2 * bins
  · simp [entry_eq real imag some_bins]
  · simp [entry, spectrum, some_bins]

theorem entry_middle (some_bins : 1 ≤ bins) : entry real imag bins bins = ⟨0, 0⟩ := by
  rw [entry_eq real imag (by omega), if_pos (Or.inr rfl)]

theorem entry_harmonic {n : ℕ} (after : 1 ≤ n) (before : n < bins) :
    entry real imag bins n = harmonic real imag n := by
  rw [entry_eq real imag (by omega), if_neg (by omega), if_pos before]

theorem entry_opposite {n : ℕ} (after : 1 ≤ n) (before : n < bins) :
    entry real imag bins (2 * bins - n) = (harmonic real imag n).conj := by
  rw [entry_eq real imag (by omega), if_neg (by omega), if_neg (by omega),
    show 2 * bins - (2 * bins - n) = n by omega]

/-- The spectrum is its own conjugate read backwards. -/
theorem entry_mirrored {k : ℕ} (lt : k < 2 * bins) :
    entry real imag bins ((2 * bins - k) % (2 * bins)) = (entry real imag bins k).conj := by
  rcases Nat.eq_zero_or_pos k with rfl | positive
  · rw [Nat.sub_zero, Nat.mod_self, entry_first, Phasor.conj_zero]
  rw [Nat.mod_eq_of_lt (by omega)]
  rcases lt_trichotomy k bins with below | rfl | above
  · rw [entry_opposite real imag positive below, entry_harmonic real imag positive below]
  · rw [show 2 * k - k = k by omega, entry_middle real imag positive, Phasor.conj_zero]
  · have opposite : entry real imag bins (2 * bins - (2 * bins - k)) =
        (harmonic real imag (2 * bins - k)).conj :=
      entry_opposite real imag (by omega) (by omega)
    rw [show 2 * bins - (2 * bins - k) = k by omega] at opposite
    rw [opposite, Phasor.conj_conj, entry_harmonic real imag (by omega) (by omega)]

/-! ### The sum of the harmonics -/

/-- The sum of all harmonics at sample `j` of `2 * bins`. A coefficient that is missing counts as
zero. -/
noncomputable def harmonicSum (bins j : ℕ) : ℝ :=
  ∑ n ∈ Finset.Ico 1 bins,
    (real[n]?.getD 0 * Real.cos (2 * Real.pi * n * j / (2 * bins)) +
      imag[n]?.getD 0 * Real.sin (2 * Real.pi * n * j / (2 * bins)))

/-- A harmonic and its conjugate, turned in opposite directions, add up to a real number. -/
theorem harmonic_add_opposite {n : ℕ} (j : ℕ) (after : 1 ≤ n) (before : n < bins) :
    (entry real imag bins n).value * turned (2 * bins) j n +
        (entry real imag bins (2 * bins - n)).value * turned (2 * bins) j (2 * bins - n) =
      (real[n]?.getD 0 * Real.cos (2 * Real.pi * n * j / (2 * bins)) +
        imag[n]?.getD 0 * Real.sin (2 * Real.pi * n * j / (2 * bins)) : ℝ) := by
  rw [entry_harmonic real imag after before, entry_opposite real imag after before,
    turned_opposite j (by omega) (by omega), Phasor.value_conj, ← map_mul, add_conj]
  congr 1
  rw [mul_re, turned_re, turned_im]
  simp only [harmonic, Phasor.value, Sample.half, Nat.cast_mul, Nat.cast_ofNat]
  ring

/-- Each value of the transform of a spectrum is the sum of the harmonics. -/
theorem sum_entries (some_bins : 1 ≤ bins) (j : ℕ) :
    ∑ k ∈ Finset.range (2 * bins), (entry real imag bins k).value * turned (2 * bins) j k =
      (harmonicSum real imag bins j : ℝ) := by
  set term := fun k => (entry real imag bins k).value * turned (2 * bins) j k with term_eq
  have first : term 0 = 0 := by
    rw [term_eq]
    simp only [entry_first, Phasor.value_zero, zero_mul]
  have middle : term bins = 0 := by
    rw [term_eq]
    simp only [entry_middle real imag some_bins, Phasor.value_zero, zero_mul]
  have coming_down : ∑ n ∈ Finset.Ico 1 bins, term (2 * bins - n) =
      ∑ k ∈ Finset.Ico (bins + 1) (2 * bins), term k := by
    rw [Finset.sum_Ico_reflect term 1 (by omega), show 2 * bins + 1 - bins = bins + 1 by omega,
      Nat.add_sub_cancel]
  calc ∑ k ∈ Finset.range (2 * bins), term k
    _ = term 0 + (∑ k ∈ Finset.Ico 1 bins, term k +
          (term bins + ∑ k ∈ Finset.Ico (bins + 1) (2 * bins), term k)) := by
        rw [← Finset.sum_eq_sum_Ico_succ_bot (by omega), Finset.sum_Ico_consecutive _ some_bins
          (by omega), ← Finset.sum_eq_sum_Ico_succ_bot (by omega), Finset.range_eq_Ico]
    _ = ∑ n ∈ Finset.Ico 1 bins, (term n + term (2 * bins - n)) := by
        rw [first, middle, zero_add, zero_add, ← coming_down, Finset.sum_add_distrib]
    _ = (harmonicSum real imag bins j : ℝ) := by
        rw [harmonicSum, ofReal_sum]
        refine Finset.sum_congr rfl fun n mem => ?_
        obtain ⟨after, before⟩ := Finset.mem_Ico.mp mem
        exact harmonic_add_opposite real imag j after before

variable {inverse : Transform ℝ}

theorem value_inverse (inverts : Inverts inverse) (some_bins : 1 ≤ bins) {j : ℕ}
    (lt : j < (inverse (spectrum bins real imag)).size) :
    (inverse (spectrum bins real imag))[j].value = (harmonicSum real imag bins j : ℝ) := by
  have inside : j < 2 * bins := by simpa [inverts.size] using lt
  have values := congrArg (·[j]?) (inverts (spectrum bins real imag))
  simp only [Array.getElem?_map, Array.getElem?_eq_getElem lt, Option.map_some, Array.getElem?_ofFn,
    size_spectrum, inside, dite_true, Option.some.injEq] at values
  rw [values, ← sum_entries real imag some_bins j, Finset.sum_range]
  refine Fintype.sum_equiv (finCongr (size_spectrum bins real imag)) _ _ fun k => ?_
  have inside_k : k.val < 2 * bins := by simpa using k.isLt
  have entry_k := getElem?_spectrum real imag inside_k
  rw [Array.getElem?_eq_getElem k.isLt, Option.some.injEq] at entry_k
  simp only [Fin.getElem_fin, entry_k, finCongr_apply_coe]

/-! ### The peak -/

/-- The greatest magnitude among samples, or zero where there are none. -/
structure Loudest (samples : List ℝ) (top : ℝ) : Prop where
  nonneg : 0 ≤ top
  bounds : ∀ sample ∈ samples, |sample| ≤ top
  reached : top = 0 ∨ ∃ sample ∈ samples, |sample| = top

theorem Loudest.append {samples : List ℝ} {top : ℝ} (loudest : Loudest samples top)
    (sample : ℝ) : Loudest (samples ++ [sample]) (if top < |sample| then |sample| else top) := by
  obtain ⟨nonneg, bounds, reached⟩ := loudest
  split
  case isTrue louder =>
    refine ⟨abs_nonneg sample, fun one mem => ?_, Or.inr ⟨sample, by simp, rfl⟩⟩
    rcases List.mem_append.mp mem with before | last
    · exact (bounds one before).trans louder.le
    · rw [List.mem_singleton.mp last]
  case isFalse quieter =>
    refine ⟨nonneg, fun one mem => ?_, reached.imp_right fun ⟨one, mem, same⟩ =>
      ⟨one, List.mem_append_left _ mem, same⟩⟩
    rcases List.mem_append.mp mem with before | last
    · exact bounds one before
    · rw [List.mem_singleton.mp last]
      exact not_lt.mp quieter

theorem loudest_peak (table : Array ℝ) : Loudest table.toList (peak table) :=
  peak_induction ⟨le_refl 0, by simp, Or.inl rfl⟩ (fun _ _ sample loudest => loudest.append sample)
    table

/-- A table with a peak above zero is divided by it, and the peak is the greatest magnitude. -/
theorem normalize_of_pos {table : Array ℝ} (loud : 0 < peak table) :
    normalize table = table.map (· / peak table) := by
  simp [normalize, loud, Sample.isFinite]

theorem normalize_of_silent {table : Array ℝ} (silent : ∀ sample ∈ table, sample = 0) :
    normalize table = table.map fun _ => 0 := by
  have still : ¬ 0 < peak table := by
    rcases (loudest_peak table).reached with zero | ⟨sample, mem, same⟩
    · exact zero.not_gt
    · rw [← same, silent sample (Array.mem_toList_iff.mp mem), abs_zero]
      exact lt_irrefl 0
  simp only [normalize, still, false_and, if_false]

/-! ### The table -/

/-- The sums of the harmonics over one period. -/
noncomputable def harmonicSums (bins : ℕ) : Array ℝ :=
  Array.ofFn fun j : Fin (2 * bins) => harmonicSum real imag bins j

theorem getElem?_harmonicSums {j : ℕ} (lt : j < 2 * bins) :
    (harmonicSums real imag bins)[j]? = some (harmonicSum real imag bins j) := by
  rw [harmonicSums, Array.getElem?_ofFn, dif_pos lt]

theorem mem_harmonicSums {sample : ℝ} : sample ∈ harmonicSums real imag bins ↔
    ∃ j < 2 * bins, harmonicSum real imag bins j = sample := by
  rw [harmonicSums, Array.mem_ofFn]
  exact ⟨fun ⟨j, same⟩ => ⟨j, j.isLt, same⟩, fun ⟨j, lt, same⟩ => ⟨⟨j, lt⟩, same⟩⟩

/-- The peak of the sums is the greatest of their magnitudes, once one of them is not zero. -/
theorem isGreatest_peak {j : ℕ} (lt : j < 2 * bins) (not_zero : harmonicSum real imag bins j ≠ 0) :
    0 < peak (harmonicSums real imag bins) ∧
      IsGreatest ((fun j => |harmonicSum real imag bins j|) '' Set.Iio (2 * bins))
        (peak (harmonicSums real imag bins)) := by
  have loudest := loudest_peak (harmonicSums real imag bins)
  have bounds (k : ℕ) (lt : k < 2 * bins) :
      |harmonicSum real imag bins k| ≤ peak (harmonicSums real imag bins) :=
    loudest.bounds _ (Array.mem_toList_iff.mpr ((mem_harmonicSums real imag).mpr ⟨k, lt, rfl⟩))
  have loud := (abs_pos.mpr not_zero).trans_le (bounds j lt)
  obtain ⟨sample, mem, same⟩ := loudest.reached.resolve_left loud.ne'
  obtain ⟨k, lt_k, rfl⟩ := (mem_harmonicSums real imag).mp (Array.mem_toList_iff.mp mem)
  refine ⟨loud, ⟨k, lt_k, same⟩, ?_⟩
  rintro _ ⟨other, lt_other, rfl⟩
  exact bounds other lt_other

/-- The real parts of the values are the sums of the harmonics. -/
theorem map_re_inverse (inverts : Inverts inverse) (some_bins : 1 ≤ bins) :
    (inverse (spectrum bins real imag)).map (·.re) = harmonicSums real imag bins := by
  refine Array.ext (by simp [inverts.size, harmonicSums]) fun j lt _ => ?_
  rw [Array.size_map] at lt
  simp only [Array.getElem_map, harmonicSums, Array.getElem_ofFn]
  exact congrArg Complex.re (value_inverse real imag inverts some_bins lt)

theorem table_ofHarmonics (inverts : Inverts inverse) (some_bins : 1 ≤ bins)
    (count : bins = max real.size imag.size) :
    (ofHarmonics inverse real imag).table = normalize (harmonicSums real imag bins) := by
  have not_zero : ¬ max real.size imag.size = 0 := by omega
  rw [ofHarmonics, if_neg not_zero, ← count, map_re_inverse real imag inverts some_bins]

/-- In exact arithmetic the spectrum of a wave is its own conjugate read backwards, with zero at
both ends of the way, its transform is real, and the table is the sum of the harmonics divided by
the greatest magnitude of that sum, or silence where the sum is zero everywhere. -/
theorem ofHarmonics_exact (inverts : Inverts inverse) (some_bins : 1 ≤ bins)
    (count : bins = max real.size imag.size) :
    (∀ k < 2 * bins, (spectrum bins real imag)[(2 * bins - k) % (2 * bins)]? =
        (spectrum bins real imag)[k]?.map Phasor.conj) ∧
      (spectrum bins real imag)[0]? = some ⟨0, 0⟩ ∧
      (spectrum bins real imag)[bins]? = some ⟨0, 0⟩ ∧
      (∀ value ∈ inverse (spectrum bins real imag), value.im = 0) ∧
      (ofHarmonics inverse real imag).table.size = 2 * bins ∧
      ((∃ j < 2 * bins, harmonicSum real imag bins j ≠ 0) →
        ∃ top, IsGreatest ((fun j => |harmonicSum real imag bins j|) '' Set.Iio (2 * bins)) top ∧
          ∀ j < 2 * bins, (ofHarmonics inverse real imag).table[j]? =
            some (harmonicSum real imag bins j / top)) ∧
      ((∀ j < 2 * bins, harmonicSum real imag bins j = 0) →
        ∀ j < 2 * bins, (ofHarmonics inverse real imag).table[j]? = some 0) := by
  have positive : 0 < 2 * bins := by omega
  have table := table_ofHarmonics real imag inverts some_bins count
  refine ⟨fun k lt => ?mirrored, ?first, ?middle, fun value mem => ?imaginary, ?size, ?loud, ?still⟩
  case mirrored =>
    rw [getElem?_spectrum real imag (Nat.mod_lt _ positive), getElem?_spectrum real imag lt,
      entry_mirrored real imag lt, Option.map_some]
  case first => rw [getElem?_spectrum real imag positive, entry_first]
  case middle => rw [getElem?_spectrum real imag (by omega), entry_middle real imag some_bins]
  case imaginary =>
    obtain ⟨j, lt, rfl⟩ := Array.mem_iff_getElem.mp mem
    exact congrArg Complex.im (value_inverse real imag inverts some_bins lt)
  case size => rw [table, size_normalize, harmonicSums, Array.size_ofFn]
  case loud =>
    rintro ⟨j, lt, not_zero⟩
    obtain ⟨loud, greatest⟩ := isGreatest_peak real imag lt not_zero
    refine ⟨_, greatest, fun k lt_k => ?_⟩
    rw [table, normalize_of_pos loud, Array.getElem?_map, getElem?_harmonicSums real imag lt_k,
      Option.map_some]
  case still =>
    intro zero k lt_k
    have silent : ∀ sample ∈ harmonicSums real imag bins, sample = 0 := by
      intro sample mem
      obtain ⟨j, lt, rfl⟩ := (mem_harmonicSums real imag).mp mem
      exact zero j lt
    rw [table, normalize_of_silent silent, Array.getElem?_map, getElem?_harmonicSums real imag lt_k,
      Option.map_some]

/-- One sine beside a constant offset, which is left out. -/
theorem ofHarmonics_sine : Inverts sums ∧
    (ofHarmonics sums #[7] #[0, 5]).table = #[0, 1, 0, -1] := by
  refine ⟨inverts_sums, ?_⟩
  obtain ⟨-, -, -, -, size, loud, -⟩ :=
    ofHarmonics_exact #[7] #[0, 5] inverts_sums (by decide : 1 ≤ 2) rfl
  have value (j : ℕ) : harmonicSum #[7] #[0, 5] 2 j = 5 * Real.sin (j * (Real.pi / 2)) := by
    rw [harmonicSum, show Finset.Ico 1 2 = {1} from rfl, Finset.sum_singleton]
    simp only [List.getElem?_toArray, List.getElem?_cons_succ, List.getElem?_nil, Option.getD_none,
      List.getElem?_cons_zero, Option.getD_some, zero_mul, zero_add]
    congr 2
    push_cast
    ring
  have first : harmonicSum #[7] #[0, 5] 2 0 = 0 := by simp [value]
  have second : harmonicSum #[7] #[0, 5] 2 1 = 5 := by simp [value]
  have third : harmonicSum #[7] #[0, 5] 2 2 = 0 := by
    rw [value, show ((2 : ℕ) : ℝ) * (Real.pi / 2) = Real.pi by push_cast; ring, Real.sin_pi,
      mul_zero]
  have fourth : harmonicSum #[7] #[0, 5] 2 3 = -5 := by
    rw [value, show ((3 : ℕ) : ℝ) * (Real.pi / 2) = Real.pi / 2 + Real.pi by push_cast; ring,
      Real.sin_add_pi, Real.sin_pi_div_two, mul_neg_one]
  obtain ⟨top, greatest, samples⟩ := loud ⟨1, by decide, by rw [second]; norm_num⟩
  have five : IsGreatest ((fun j => |harmonicSum #[7] #[0, 5] 2 j|) '' Set.Iio (2 * 2)) 5 := by
    refine ⟨⟨1, by decide, by simp [second]⟩, ?_⟩
    rintro _ ⟨j, -, rfl⟩
    simp only [value, abs_mul, Nat.abs_ofNat]
    exact mul_le_of_le_one_right (by norm_num) (Real.abs_sin_le_one _)
  rw [greatest.unique five] at samples
  refine Array.ext (by rw [size]; rfl) fun j lt _ => ?_
  have sample := samples j (size ▸ lt)
  rw [Array.getElem?_eq_getElem lt, Option.some.injEq] at sample
  rw [sample]
  match j, size ▸ lt with
  | 0, _ => simp [first]
  | 1, _ => simp [second]
  | 2, _ => simp [third]
  | 3, _ => simp [fourth]

end Wave

end Patchbay
