import Mathlib.Data.List.Nodup
import Mathlib.Data.List.Perm.Subperm
import Patchbay.Proofs.Number.Zeros
import Patchbay.Proofs.Wave.Memos
import Patchbay.Wave.Transform

/-!
# Timbres that count as equal

Timbres are compared without a look at the order of their partials. The bins of a spectrum are
filled in this order, and of two partials in one bin the later one stays. So timbres that count as
equal have the same wave where no two of their partials share a bin.
-/
namespace Patchbay

namespace Partials

/-! ### Indices that stand once -/

/-- Every partial stands under an index of its own, and none under `-0`. -/
structure Keyed (partials : Partials) : Prop where
  once : (partials.entries.map (·.index.toBits)).Nodup
  fixed : ∀ entry ∈ partials.entries, key entry.index = entry.index

theorem key_key (index : Float32) : key (key index) = key index := by
  unfold key
  split
  · rfl
  · rfl

theorem keyed_empty : empty.Keyed :=
  ⟨List.nodup_nil, fun _ mem => absurd mem List.not_mem_nil⟩

/-- An index that is set keeps its place or goes to the end. -/
theorem map_index_put (key amplitude : Float32) (entries : List Partial) :
    (put key amplitude entries).map (·.index.toBits) =
      if key.toBits ∈ entries.map (·.index.toBits) then entries.map (·.index.toBits)
      else entries.map (·.index.toBits) ++ [key.toBits] := by
  induction entries with
  | nil => rfl
  | cons entry rest ih =>
    by_cases here : entry.index.toBits = key.toBits
    · simp [put, named, here]
    · have apart : ¬ key.toBits = entry.index.toBits := fun same => here same.symm
      simp only [put, named, here, beq_iff_eq, if_false, List.map_cons, ih, List.mem_cons, apart,
        false_or]
      split <;> rfl

theorem index_of_mem_put {key amplitude : Float32} {entries : List Partial} {entry : Partial}
    (mem : entry ∈ put key amplitude entries) :
    entry.index = key ∨ ∃ old ∈ entries, old.index = entry.index := by
  induction entries with
  | nil =>
    rw [put, List.mem_singleton] at mem
    exact .inl (mem ▸ rfl)
  | cons first rest ih =>
    unfold put at mem
    split at mem
    · rcases List.mem_cons.mp mem with rfl | later
      · exact .inr ⟨first, List.mem_cons_self, rfl⟩
      · exact .inr ⟨entry, List.mem_cons_of_mem _ later, rfl⟩
    · rcases List.mem_cons.mp mem with rfl | later
      · exact .inr ⟨entry, List.mem_cons_self, rfl⟩
      · refine (ih later).imp_right ?_
        rintro ⟨old, mem, same⟩
        exact ⟨old, List.mem_cons_of_mem _ mem, same⟩

variable {partials : Partials}

theorem Keyed.set (keyed : partials.Keyed) (index amplitude : Float32) :
    (partials.set index amplitude).Keyed where
  once := by
    rw [Partials.set, map_index_put]
    split
    · exact keyed.once
    · rename_i absent
      refine List.nodup_append.mpr ⟨keyed.once, List.nodup_singleton _, ?_⟩
      intro bits old other new same
      rw [List.mem_singleton.mp new] at same
      exact absent (same ▸ old)
  fixed := by
    intro entry mem
    rcases index_of_mem_put mem with same | ⟨old, listed, same⟩
    · rw [same, key_key]
    · rw [← same, keyed.fixed old listed]

theorem Keyed.erase (keyed : partials.Keyed) (index : Float32) : (partials.erase index).Keyed where
  once := keyed.once.sublist ((List.eraseP_sublist ..).map _)
  fixed := fun entry mem => keyed.fixed entry (List.eraseP_subset mem)

/-- Whatever is set one after another, every index stands once. -/
theorem keyed_ofList (pairs : List (Float32 × Float32)) : (ofList pairs).Keyed := by
  unfold ofList
  generalize empty = partials, keyed_empty = keyed
  induction pairs generalizing partials with
  | nil => exact keyed
  | cons pair rest ih => exact ih _ (keyed.set pair.1 pair.2)

/-! ### Partials that match -/

theorem mem_of_get? {index amplitude : Float32} (found : partials.get? index = some amplitude) :
    ∃ entry ∈ partials.entries, entry.index = key index ∧ entry.amplitude = amplitude := by
  obtain ⟨entry, first, rfl⟩ := Option.map_eq_some_iff.mp found
  have named := List.find?_some first
  simp only [Partials.named, beq_iff_eq] at named
  exact ⟨entry, List.mem_of_find?_eq_some first, Float32.toBits_inj.mp named, rfl⟩

theorem Keyed.eq_of_index (keyed : partials.Keyed) {entry other : Partial}
    (mem : entry ∈ partials.entries) (mem' : other ∈ partials.entries)
    (same : other.index = entry.index) : other = entry :=
  List.inj_on_of_nodup_map keyed.once mem' mem (by rw [same])

variable {asked other : Partials}

/-- Where timbres count as equal, each partial of the first is one of the second. -/
theorem Keyed.match_right (keyed : partials.Keyed) (same : (partials == asked) = true)
    {entry : Partial} (mem : entry ∈ partials.entries) :
    ∃ other ∈ asked.entries, other.index = entry.index ∧
      (other.amplitude == entry.amplitude) = true := by
  have same : agrees partials asked = true := same
  simp only [agrees, Bool.and_eq_true, List.all_eq_true] at same
  have found := same.2 entry mem
  cases here : asked.get? entry.index with
  | none => simp [here] at found
  | some amplitude =>
    rw [here] at found
    obtain ⟨other, listed, index, rfl⟩ := mem_of_get? here
    exact ⟨other, listed, index.trans (keyed.fixed entry mem), found⟩

/-- And each partial of the second is one of the first, since there are as many. -/
theorem Keyed.match_left (keyed : partials.Keyed) (keyed' : asked.Keyed)
    (same : (partials == asked) = true) {other : Partial} (mem : other ∈ asked.entries) :
    ∃ entry ∈ partials.entries, entry.index = other.index ∧
      (other.amplitude == entry.amplitude) = true := by
  have size : partials.entries.length = asked.entries.length := by
    have same : agrees partials asked = true := same
    simp only [agrees, Bool.and_eq_true, beq_iff_eq] at same
    exact same.1
  have within : partials.entries.map (·.index.toBits) ⊆ asked.entries.map (·.index.toBits) := by
    intro bits listed
    obtain ⟨entry, mem, rfl⟩ := List.mem_map.mp listed
    obtain ⟨other, mem', index, -⟩ := keyed.match_right same mem
    exact List.mem_map.mpr ⟨other, mem', by rw [index]⟩
  have all := (keyed.once.subperm within).perm_of_length_le (by simp [size])
  obtain ⟨entry, listed, index⟩ := List.mem_map.mp
    (all.mem_iff.mpr (List.mem_map_of_mem (f := fun p : Partial => p.index.toBits) mem))
  have index := Float32.toBits_inj.mp index
  obtain ⟨twin, listed', index', amplitude⟩ := keyed.match_right same listed
  rw [keyed'.eq_of_index mem listed' (index'.trans index)] at amplitude
  exact ⟨entry, listed, index, amplitude⟩

theorem Keyed.get?_of_mem (keyed : partials.Keyed) {entry : Partial}
    (mem : entry ∈ partials.entries) : partials.get? entry.index = some entry.amplitude := by
  rw [get?, keyed.fixed entry mem]
  cases found : partials.entries.find? (named entry.index) with
  | none => exact absurd (List.find?_eq_none.mp found entry mem) (by simp [named])
  | some first =>
    have bits : first.index.toBits = entry.index.toBits := by
      simpa [named] using List.find?_some found
    rw [keyed.eq_of_index mem (List.mem_of_find?_eq_some found) (Float32.toBits_inj.mp bits)]
    rfl

/-- Timbres of one size count as equal if each partial of the first has its match. -/
theorem Keyed.beq_of_match (keyed : asked.Keyed) (size : partials.size = asked.size)
    (matched : ∀ entry ∈ partials.entries, ∃ other ∈ asked.entries, other.index = entry.index ∧
      (other.amplitude == entry.amplitude) = true) : (partials == asked) = true := by
  show agrees partials asked = true
  rw [agrees, Bool.and_eq_true, beq_iff_eq, List.all_eq_true]
  refine ⟨size, fun entry mem => ?_⟩
  obtain ⟨other, listed, index, amplitude⟩ := matched entry mem
  rw [← index, keyed.get?_of_mem listed]
  exact amplitude

theorem size_of_beq (same : (partials == asked) = true) : partials.size = asked.size := by
  have same : agrees partials asked = true := same
  rw [agrees, Bool.and_eq_true, beq_iff_eq] at same
  exact same.1

theorem Keyed.beq_symm (keyed : partials.Keyed) (keyed' : asked.Keyed)
    (same : (partials == asked) = true) : (asked == partials) = true := by
  refine keyed.beq_of_match (size_of_beq same).symm fun entry mem => ?_
  obtain ⟨other, listed, index, amplitude⟩ := keyed.match_left keyed' same mem
  exact ⟨other, listed, index, Number.beq_symm amplitude⟩

theorem Keyed.beq_trans (keyed : partials.Keyed) (keyed' : asked.Keyed) (keyed'' : other.Keyed)
    (same : (partials == asked) = true) (same' : (asked == other) = true) :
    (partials == other) = true := by
  refine keyed''.beq_of_match ((size_of_beq same).trans (size_of_beq same')) fun entry mem => ?_
  obtain ⟨middle, listed, index, amplitude⟩ := keyed.match_right same mem
  obtain ⟨last, found, index', amplitude'⟩ := keyed'.match_right same' listed
  exact ⟨last, found, index'.trans index, Number.beq_trans amplitude' amplitude⟩

/-! ### The bins of a spectrum -/

/-- At a sample rate, no two partials fall into one bin. -/
def Resolved (partials : Partials) (rate : Float32) : Prop :=
  ∀ entry ∈ partials.entries, ∀ other ∈ partials.entries, (bin? entry.index rate).isSome →
    bin? other.index rate = bin? entry.index rate → other.index.toBits = entry.index.toBits

instance (partials : Partials) (rate : Float32) : Decidable (partials.Resolved rate) :=
  inferInstanceAs (Decidable (∀ entry ∈ partials.entries, ∀ other ∈ partials.entries, _ → _ → _))

variable {rate : Float32}

/-- The second partial stays out of the bin of the first. -/
def Apart (rate : Float32) (entry other : Partial) : Prop :=
  ∀ bin, bin? entry.index rate = some bin → bin? other.index rate ≠ some bin

theorem Keyed.pairwise_apart (keyed : partials.Keyed) (resolved : partials.Resolved rate) :
    partials.entries.Pairwise (Apart rate) := by
  have once := List.pairwise_map.mp keyed.once
  refine List.Pairwise.imp_of_mem (fun {entry other} mem mem' differs bin here there => ?_) once
  exact differs (resolved entry mem other mem' (by rw [here]; rfl) (there.trans here.symm)).symm

theorem write_of_absent {entries : List Partial} {n : Nat}
    (absent : ∀ entry ∈ entries, bin? entry.index rate ≠ some n) (bins : Array Float32) :
    (write rate bins entries)[n]? = bins[n]? := by
  induction entries generalizing bins with
  | nil => rfl
  | cons entry rest ih =>
    have later := ih (fun other mem => absent other (List.mem_cons_of_mem _ mem))
    have here := absent entry List.mem_cons_self
    cases placed : bin? entry.index rate with
    | none =>
      have step : write rate bins (entry :: rest) = write rate bins rest := by
        simp only [write, List.foldl_cons, placed]
      rw [step, later]
    | some bin =>
      have step : write rate bins (entry :: rest) =
          write rate (bins.setIfInBounds bin entry.amplitude) rest := by
        simp only [write, List.foldl_cons, placed]
      have differs : bin ≠ n := fun same => here (placed.trans (congrArg some same))
      rw [step, later, Array.getElem?_setIfInBounds_ne differs]

theorem write_of_mem {entries : List Partial} (apart : entries.Pairwise (Apart rate))
    {entry : Partial} (mem : entry ∈ entries) {n : Nat} (placed : bin? entry.index rate = some n)
    (bins : Array Float32) (within : n < bins.size) :
    (write rate bins entries)[n]? = some entry.amplitude := by
  induction entries generalizing bins with
  | nil => cases mem
  | cons first rest ih =>
    obtain ⟨alone, apart⟩ := List.pairwise_cons.mp apart
    rcases List.mem_cons.mp mem with rfl | later
    · have step : write rate bins (entry :: rest) =
          write rate (bins.setIfInBounds n entry.amplitude) rest := by
        simp only [write, List.foldl_cons, placed]
      rw [step, write_of_absent fun other listed => alone other listed n placed,
        Array.getElem?_setIfInBounds_self_of_lt within]
    · have step : ∃ bins' : Array Float32, bins'.size = bins.size ∧
          write rate bins (first :: rest) = write rate bins' rest := by
        cases here : bin? first.index rate with
        | none => exact ⟨bins, rfl, by simp only [write, List.foldl_cons, here]⟩
        | some bin => exact ⟨bins.setIfInBounds bin first.amplitude, by simp,
            by simp only [write, List.foldl_cons, here]⟩
      obtain ⟨bins', size, step⟩ := step
      rw [step]
      exact ih apart later bins' (size ▸ within)

/-- Where timbres count as equal and one of them is resolved, so is the other. -/
theorem Keyed.resolved_of_beq (keyed : partials.Keyed) (same : (partials == asked) = true)
    (resolved : asked.Resolved rate) : partials.Resolved rate := by
  intro entry mem other mem' placed shared
  obtain ⟨twin, listed, index, -⟩ := keyed.match_right same mem
  obtain ⟨twin', listed', index', -⟩ := keyed.match_right same mem'
  rw [← index, ← index'] at shared ⊢
  exact resolved twin listed twin' listed' (index ▸ placed) shared

end Partials

/-! ### Waves -/

open Number

/-- An entry of a spectrum that counts as zero. -/
def Phasor.Null (phasor : Phasor Float32) : Prop :=
  Number.Null phasor.re ∧ Number.Null phasor.im

/-- Entries are the same, or count as zero. -/
def Phasor.SameValue (phasor other : Phasor Float32) : Prop :=
  phasor = other ∨ phasor.Null ∧ other.Null

/-- The values of a transform are sums over the entries, and a zero of either sign adds nothing
to a sum. -/
class LawfulFourier [Fourier] : Prop where
  inverse_congr : ∀ {spectrum other : Array (Phasor Float32)},
    List.Forall₂ Phasor.SameValue spectrum.toList other.toList →
      Fourier.inverse spectrum = Fourier.inverse other

namespace Transform

theorem terms_congr {spectrum other : Array (Phasor Float32)}
    (same : List.Forall₂ Phasor.SameValue spectrum.toList other.toList) :
    terms spectrum = terms other := by
  unfold terms
  generalize spectrum.toList = entries at same
  generalize other.toList = others at same
  generalize 0 = base
  induction same generalizing base with
  | nil => rfl
  | @cons phasor phasor' entries others first _ ih =>
    simp only [List.zipIdx_cons]
    rcases first with rfl | ⟨null, null'⟩
    · simp only [List.filter_cons]
      split
      · rw [List.map_cons, List.map_cons, ih]
      · exact ih _
    · rw [List.filter_cons_of_neg, List.filter_cons_of_neg]
      · exact ih _
      · simp [null'.1.beq_zero, null'.2.beq_zero]
      · simp [null.1.beq_zero, null.2.beq_zero]

instance : LawfulFourier where
  inverse_congr {spectrum other} same := by
    have size : spectrum.size = other.size := by simpa using same.length_eq
    show inverse spectrum = inverse other
    unfold inverse
    rw [terms_congr same, size]

end Transform

section Spectrum

variable {real imag other : Array Float32}
  (zeros : ∀ n : Nat, Null (real[n]?.getD 0))
  (same : ∀ n : Nat, SameValue (imag[n]?.getD 0) (other[n]?.getD 0))

include zeros same

theorem Wave.harmonic_congr (n : Nat) :
    (harmonic real imag n).SameValue (harmonic real other n) := by
  have re : Null ((real[n]?.getD 0) * Sample.half) := (zeros n).mul rfl
  rcases same n with equal | ⟨null, null'⟩
  · exact .inl (congrArg (fun x : Float32 => Phasor.mk ((real[n]?.getD 0) * Sample.half)
      (-x * Sample.half)) equal)
  · exact .inr ⟨⟨re, null.half_neg⟩, re, null'.half_neg⟩

theorem Wave.spectrum_congr (bins : Nat) : List.Forall₂ Phasor.SameValue
    (spectrum bins real imag).toList (spectrum bins real other).toList := by
  refine List.forall₂_iff_get.mpr ⟨by simp, fun k lt lt' => ?_⟩
  simp only [spectrum, List.get_eq_getElem, Array.getElem_toList, Array.getElem_ofFn]
  split
  · exact .inl rfl
  · split
    · exact harmonic_congr zeros same k
    · rcases harmonic_congr zeros same (2 * bins - k) with equal | ⟨null, null'⟩
      · exact .inl (by rw [equal])
      · exact .inr ⟨⟨null.1, null.2.neg⟩, null'.1, null'.2.neg⟩

end Spectrum

namespace Partials

variable {made asked : Partials} {rate : Float32}

/-- Timbres that count as equal fill the bins of a spectrum with the same values. -/
theorem Keyed.sameValue_write (keyed : made.Keyed) (keyed' : asked.Keyed)
    (same : (made == asked) = true) (resolved : asked.Resolved rate) (bins : Array Float32)
    (n : Nat) : SameValue ((write rate bins made.entries)[n]?.getD 0)
      ((write rate bins asked.entries)[n]?.getD 0) := by
  by_cases within : n < bins.size
  · by_cases placed : ∃ entry ∈ made.entries, bin? entry.index rate = some n
    · obtain ⟨entry, mem, bin⟩ := placed
      obtain ⟨other, mem', index, amplitude⟩ := keyed.match_right same mem
      have made_apart := keyed.pairwise_apart (keyed.resolved_of_beq same resolved)
      rw [write_of_mem made_apart mem bin bins within,
        write_of_mem (keyed'.pairwise_apart resolved) mem' (index ▸ bin) bins within]
      exact (eq_or_null_of_beq amplitude).imp Eq.symm And.symm
    · have absent (entry : Partial) (mem : entry ∈ made.entries) : bin? entry.index rate ≠ some n :=
        fun bin => placed ⟨entry, mem, bin⟩
      have absent' (other : Partial) (mem : other ∈ asked.entries) :
          bin? other.index rate ≠ some n := by
        obtain ⟨entry, listed, index, -⟩ := keyed.match_left keyed' same mem
        exact index ▸ absent entry listed
      rw [write_of_absent absent, write_of_absent absent']
      exact .inl rfl
  · have outside (entries : List Partial) : (write rate bins entries)[n]? = none :=
      Array.getElem?_eq_none (by rw [size_write]; omega)
    rw [outside, outside]
    exact .inl rfl

variable [Fourier]

/-- Timbres that count as equal have the same wave at a rate at which they are resolved. -/
theorem Keyed.waveAt_eq [LawfulFourier] (keyed : made.Keyed) (keyed' : asked.Keyed)
    (same : (made == asked) = true) (resolved : asked.Resolved rate) :
    made.waveAt rate = asked.waveAt rate := by
  by_cases large : maxBins < binCount rate
  · simp only [waveAt, place_eq_error large, bind, Except.bind]
  · have zeros (n : Nat) : Null ((write rate (Array.replicate (binCount rate) 0.0)
        empty.entries)[n]?.getD 0) := by
      rw [write_of_absent (by simp [empty])]
      by_cases within : n < binCount rate <;> simp [within] <;> exact null_zero
    simp only [waveAt, place, if_neg large, bind, Except.bind, Wave.ofHarmonics, size_write]
    rw [LawfulFourier.inverse_congr (Wave.spectrum_congr zeros
      (keyed.sameValue_write keyed' same resolved _) _)]

/-- Rates that count as equal make no difference. -/
theorem waveAt_of_beq {rate' : Float32} (same : (rate' == rate) = true) (partials : Partials) :
    partials.waveAt rate' = partials.waveAt rate := by
  have none_at_zero {zero : Float32} (null : Null zero) :
      partials.waveAt zero = .ok Wave.silent := by
    have no_bins : binCount zero = 0 := by
      rcases null_iff.mp null with rfl | rfl <;> decide
    have nothing (entries : List Partial) :
        (write zero (Array.replicate (binCount zero) 0.0) entries).size = 0 := by
      rw [size_write, no_bins]
      rfl
    have fits : ¬ maxBins < binCount zero := by
      rw [no_bins]
      exact Nat.not_lt_zero _
    simp only [waveAt, place, if_neg fits, bind, Except.bind, Wave.ofHarmonics, nothing,
      Nat.max_self, if_true]
  rcases eq_or_null_of_beq same with rfl | ⟨null, null'⟩
  · rfl
  · rw [none_at_zero null, none_at_zero null']

end Partials

end Patchbay
