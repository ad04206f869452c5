import Patchbay.Spectrum
import Patchbay.Proofs.Number.Rounding

/-!
# Partials in their bins

A partial goes to a bin of the spectrum or is dropped. Whether there is such a bin is decided in
doubles, where the number of bins may have been rounded. Rounding keeps the order, so a position
below the rounded number is cut to a bin below the number itself, and nothing is stored outside of
the spectrum. Of the partials that go to one bin the last one stays.
-/
namespace Patchbay

namespace Number

open Float.Model

variable {format : Format}

/-! ### Whole parts -/

theorem toNat_ofNatClamp_le (n : Nat) : (UInt64.ofNatClamp n).toNat ≤ n := by
  unfold UInt64.ofNatClamp
  split
  · exact le_refl n
  · exact (UInt64.toNat_lt _).le.trans (not_lt.mp ‹_›)

/-- What is cut to a whole number becomes no larger. -/
theorem roundToInt_le (mantissa : Nat) (exponent : Int) :
    ((UnpackedFloat.roundToInt .positive mantissa exponent).toNat : ℚ) ≤
      mantissa * 2 ^ exponent := by
  -- zeros are put behind the mantissa, or places are cut off
  obtain ⟨zeros, is_zeros⟩ : ∃ zeros : Nat, zeros = (exponent - 0).toNat := ⟨_, rfl⟩
  obtain ⟨places, is_places⟩ : ∃ places : Nat, places = (0 - (exponent - zeros)).toNat := ⟨_, rfl⟩
  have whole : (UnpackedFloat.roundToInt .positive mantissa exponent).toNat =
      mantissa * 2 ^ zeros / 2 ^ places := by
    simp only [UnpackedFloat.roundToInt, UnpackedFloat.decreaseExponent,
      UnpackedFloat.shiftToExponent, ← is_zeros, ← is_places, UnpackedFloat.Sign.apply,
      mantissa_shiftRight, ofMantissaAndAccuracy_mantissa, Nat.shiftLeft_eq, Int.toNat_natCast]
  have power : exponent = zeros - places := by omega
  calc ((UnpackedFloat.roundToInt .positive mantissa exponent).toNat : ℚ)
      = (mantissa * 2 ^ zeros / 2 ^ places : Nat) := by rw [whole]
    _ ≤ (mantissa * 2 ^ zeros : Nat) / (2 ^ places : Nat) := Nat.cast_div_le
    _ = mantissa * 2 ^ exponent := by
        rw [power, zpow_sub₀ two_ne_zero, zpow_natCast, zpow_natCast]
        push_cast
        ring

theorem wholePart_le {x : Float} {mantissa : Nat} {exponent : Int} {pos}
    (finite : x.toModel.unpack = .finite .positive mantissa exponent pos) :
    (wholePart x : ℚ) ≤ mantissa * 2 ^ exponent := by
  have whole : wholePart x = (UInt64.ofNatClamp
      (UnpackedFloat.roundToInt .positive mantissa exponent).toNat).toNat := by
    show x.toModel.unpack.toUInt64.toNat = _
    rw [finite]
    rfl
  rw [whole]
  exact le_trans (by exact_mod_cast toNat_ofNatClamp_le _) (roundToInt_le mantissa exponent)

theorem unpack_ne_of_number {x : Float} (number : x.isNaN = false) :
    x.toModel.unpack ≠ .notANumber := by
  intro nan
  have none : x.toModel.unpack.isNaN = false := number
  rw [nan] at none
  cases none

theorem number_of_unpack {x : Float} (number : x.toModel.unpack ≠ .notANumber) :
    x.isNaN = false := by
  show x.toModel.unpack.isNaN = false
  cases unpacked : x.toModel.unpack with
  | notANumber => exact absurd unpacked number
  | _ => rfl

theorem number_of_isFinite {x : Float} (finite : x.isFinite = true) : x.isNaN = false := by
  have finite : x.toModel.unpack.isFinite = true := finite
  refine number_of_unpack fun nan => ?_
  rw [nan] at finite
  cases finite

/-- A count that is not above the whole part of a double is rounded to nothing above the double. -/
theorem toFloat_le {x : Float} {count : UInt64} (number : x.isNaN = false) (above : ¬ x < 0.0)
    (le : count.toNat ≤ wholePart x) : count.toFloat ≤ x := by
  have rounds := rounds_toFloat count
  have below (less : x.toModel.unpack.lt (.zero .positive) = true) : False :=
    above (decide_eq_true less)
  cases unpacked : x.toModel.unpack with
  | notANumber => exact absurd unpacked (unpack_ne_of_number number)
  | infinity sign =>
    cases sign with
    | negative => exact (below (by rw [unpacked]; rfl)).elim
    | positive =>
      refine le_of_unpack ?_
      rw [unpacked]
      obtain ⟨_, _, -, keeps⟩ := rounds
      exact keeps.atLeastZero.le_infinity
  | zero sign =>
    have whole : wholePart x = 0 := by
      show x.toModel.unpack.toUInt64.toNat = 0
      rw [unpacked]
      rfl
    have zero : count.toNat = 0 := by omega
    refine le_of_unpack ?_
    rw [unpacked, unpack_toFloat (by omega), zero, scaled_zero]
    cases sign <;> rfl
  | finite sign mantissa exponent pos =>
    cases sign with
    | negative => exact (below (by rw [unpacked]; rfl)).elim
    | positive =>
      have keeps : Keeps .binary64 x.toModel.unpack (mantissa * 2 ^ exponent) :=
        keeps_unpack unpacked
      have ordered : (count.toNat : ℚ) ≤ mantissa * 2 ^ exponent :=
        le_trans (by exact_mod_cast le) (wholePart_le unpacked)
      have rounded := rounds.le (by decide) keeps.rounds ordered
      rw [unpack_pack_double, unpack_pack_double] at rounded
      exact le_of_unpack rounded

/-! ### Numbers that stay numbers -/

theorem normalize_ne (mantissa exponent : Int) (sign : UnpackedFloat.Sign) :
    UnpackedFloat.normalize format mantissa exponent sign ≠ .notANumber := by
  have rounded (sign : UnpackedFloat.Sign) (size : Nat) :
      UnpackedFloat.round format sign size exponent ≠ .notANumber := by
    unfold UnpackedFloat.round UnpackedFloat.roundWithAccuracy
    dsimp only
    split <;> exact UnpackedFloat.noConfusion
  unfold UnpackedFloat.normalize
  split
  · exact rounded _ _
  · exact UnpackedFloat.noConfusion
  · exact rounded _ _

section Finite

variable {x : UnpackedFloat} (number : x ≠ .notANumber) (sign : UnpackedFloat.Sign)
  {mantissa : Nat} (exponent : Int) (pos : 0 < mantissa)

include number

theorem add_finite_ne : UnpackedFloat.add format x (.finite sign mantissa exponent pos) ≠
    .notANumber := by
  cases x with
  | notANumber => exact absurd rfl number
  | finite => exact normalize_ne _ _ _
  | _ => exact UnpackedFloat.noConfusion

theorem sub_finite_ne : UnpackedFloat.sub format x (.finite sign mantissa exponent pos) ≠
    .notANumber := by
  cases x with
  | notANumber => exact absurd rfl number
  | finite => exact normalize_ne _ _ _
  | _ => exact UnpackedFloat.noConfusion

end Finite

theorem number_add_half {x : Float} (number : x.isNaN = false) : (x + 0.5).isNaN = false := by
  refine number_of_unpack ?_
  rw [unpack_add_double]
  exact unpack_pack_ne (add_finite_ne (unpack_ne_of_number number) _ _ _)

/-- To go down to a whole number leaves a number. -/
theorem number_floor {x : Float} (number : x.isNaN = false) : (floor x).isNaN = false := by
  have magnitude (count : UInt64) : count.toFloat.toModel.unpack ≠ .notANumber := by
    rcases exists_toFloat count with zero | ⟨_, _, _, finite⟩
    · rw [zero]
      exact UnpackedFloat.noConfusion
    · rw [finite]
      exact UnpackedFloat.noConfusion
  unfold floor
  dsimp only
  split
  · split
    · exact number
    · split
      · refine number_of_unpack ?_
        have negated : (-x.abs.toUInt64.toFloat).toModel.unpack ≠ .notANumber := by
          refine unpack_pack_ne ?_
          have number := magnitude x.abs.toUInt64
          cases unpacked : x.abs.toUInt64.toFloat.toModel.unpack with
          | notANumber => exact absurd unpacked number
          | _ => exact UnpackedFloat.noConfusion
        exact unpack_pack_ne (sub_finite_ne negated _ _ _)
      · exact number_of_unpack (magnitude _)
  · exact number

end Number

/-! ### The range of the bins -/

theorem toNat_binCount (rate : Float32) : (binCount rate).toUInt64.toNat = binCount rate :=
  UInt64.toNat_ofNat_of_lt' (Number.wholePartSingle_lt _)

/-- A partial has no bin outside of the spectrum. -/
theorem bin?_lt {index rate : Float32} {bin : Nat} (placed : bin? index rate = some bin) :
    bin < binCount rate := by
  unfold bin? at placed
  dsimp only at placed
  split at placed
  · rename_i finite
    split at placed
    · cases placed
    · rename_i inside
      cases placed
      obtain ⟨above, below⟩ := not_or.mp inside
      have number := Number.number_floor (Number.number_add_half (Number.number_of_isFinite finite))
      by_contra outside
      refine below (Number.toFloat_le number above ?_)
      rw [toNat_binCount]
      exact not_lt.mp outside
  · cases placed

deriving instance DecidableEq for Partial

namespace Partials

variable {rate : Float32}

/-- Does an entry go to this bin? -/
def goesTo (rate : Float32) (bin : Nat) (entry : Partial) : Bool :=
  bin? entry.index rate == some bin

/-- The last entry that goes to a bin. -/
def lastIn (partials : Partials) (rate : Float32) (bin : Nat) : Option Partial :=
  partials.entries.reverse.find? (goesTo rate bin)

/-- The entries that go to some bin, in their order. -/
def placed (partials : Partials) (rate : Float32) : List Partial :=
  partials.entries.filter fun entry => (bin? entry.index rate).isSome

/-- Write one entry over an array of bins, which fails if there is no such bin. -/
def store? (rate : Float32) (bins : Array Float32) (entry : Partial) : Option (Array Float32) :=
  match bin? entry.index rate with
  | some bin => if within : bin < bins.size then some (bins.set bin entry.amplitude) else none
  | none => some bins

/-! ### What is written -/

theorem write_append_singleton (bins : Array Float32) (entries : List Partial) (last : Partial) :
    write rate bins (entries ++ [last]) =
      match bin? last.index rate with
      | some bin => (write rate bins entries).setIfInBounds bin last.amplitude
      | none => write rate bins entries := by
  rw [write, List.foldl_append]
  rfl

/-- A bin holds the amplitude of the last entry that goes to it, or what it held before. -/
theorem getElem?_write (bins : Array Float32) (entries : List Partial) {bin : Nat}
    (within : bin < bins.size) :
    (write rate bins entries)[bin]? =
      some (((entries.reverse.find? (goesTo rate bin)).map (·.amplitude)).getD bins[bin]) := by
  induction entries using List.reverseRecOn with
  | nil => exact Array.getElem?_eq_getElem within
  | append_singleton entries last ih =>
    rw [write_append_singleton, List.reverse_concat, List.find?_cons]
    cases here : bin? last.index rate with
    | none =>
      have elsewhere : goesTo rate bin last = false := by simp [goesTo, here]
      rw [elsewhere]
      exact ih
    | some target =>
      by_cases same : target = bin
      · subst same
        have hit : goesTo rate target last = true := by simp [goesTo, here]
        rw [hit]
        exact Array.getElem?_setIfInBounds_self_of_lt (by simpa using within)
      · have elsewhere : goesTo rate bin last = false := by simp [goesTo, here, same]
        rw [elsewhere]
        exact (Array.getElem?_setIfInBounds_ne same).trans ih

/-- Entries without a bin write nothing. -/
theorem write_placed (partials : Partials) (bins : Array Float32) :
    write rate bins (partials.placed rate) = write rate bins partials.entries := by
  unfold placed
  induction partials.entries using List.reverseRecOn with
  | nil => rfl
  | append_singleton entries last ih =>
    rw [List.filter_append, write_append_singleton]
    cases here : bin? last.index rate with
    | none =>
      have dropped : [last].filter (fun entry => (bin? entry.index rate).isSome) = [] := by
        simp [here]
      rw [dropped, List.append_nil]
      exact ih
    | some bin =>
      have stays : [last].filter (fun entry => (bin? entry.index rate).isSome) = [last] := by
        simp [here]
      rw [stays, write_append_singleton, here, ih]

/-- Into the bins of a spectrum every entry can be written. -/
theorem foldlM_store? (entries : List Partial) {bins : Array Float32}
    (size : bins.size = binCount rate) :
    entries.foldlM (store? rate) bins = some (write rate bins entries) := by
  induction entries generalizing bins with
  | nil => rfl
  | cons entry rest ih =>
    rw [List.foldlM_cons]
    cases here : bin? entry.index rate with
    | none =>
      have stored : store? rate bins entry = some bins := by simp only [store?, here]
      have step : write rate bins (entry :: rest) = write rate bins rest := by
        simp only [write, List.foldl_cons, here]
      rw [stored, step]
      exact ih size
    | some bin =>
      have within : bin < bins.size := size ▸ bin?_lt here
      have stored : store? rate bins entry = some (bins.setIfInBounds bin entry.amplitude) := by
        simp only [store?, here, dif_pos within, Array.setIfInBounds]
      have step : write rate bins (entry :: rest) =
          write rate (bins.setIfInBounds bin entry.amplitude) rest := by
        simp only [write, List.foldl_cons, here]
      rw [stored, step]
      exact ih (by simpa using size)

/-! ### Spectra -/

/-- At a sample rate whose buffer can be allocated, placing partials succeeds. No partial has a bin
outside of the spectrum, so each of them can be written. A bin holds the amplitude of the last
partial that goes to it, or zero if there is none, and the partials without a bin could as well be
left out or be others. -/
theorem place_fills (partials : Partials) {rate : Float32} (fits : binCount rate ≤ maxBins) :
    (∀ index bin, bin? index rate = some bin → bin < binCount rate) ∧
      ∃ placement, partials.place rate = .ok placement ∧
        placement.bins.size = binCount rate ∧
        partials.entries.foldlM (store? rate) (Array.replicate (binCount rate) 0.0) =
          some placement.bins ∧
        (∀ bin < binCount rate, placement.bins[bin]? =
          some (((partials.lastIn rate bin).map (·.amplitude)).getD 0.0)) ∧
        ∀ other : Partials, other.placed rate = partials.placed rate →
          ∃ placement', other.place rate = .ok placement' ∧ placement'.bins = placement.bins := by
  have zeros : (Array.replicate (binCount rate) (0.0 : Float32)).size = binCount rate :=
    Array.size_replicate
  have ok (partials : Partials) : partials.place rate = .ok _ := if_neg (Nat.not_lt.mpr fits)
  refine ⟨fun _ _ => bin?_lt, _, ok partials, ?size, foldlM_store? _ zeros, fun bin lt => ?holds,
    fun other same => ⟨_, ok other, ?others⟩⟩
  case size => rw [size_write, zeros]
  case holds =>
    rw [getElem?_write _ _ (zeros.symm ▸ lt), Array.getElem_replicate]
    rfl
  case others => rw [← write_placed other, same, write_placed]

/-- Two partials share a bin, and others are dropped. -/
theorem place_fills_shared :
    let partials := ofList [(2.0, 1.0), (7.0, 0.5), (2.25, -1.0), (0.0 / 0.0, 3.0), (-4.0, 2.0)]
    let other := ofList [(2.0, 1.0), (9.0, 5.0), (7.0, 0.5), (2.25, -1.0)]
    binCount 10.0 ≤ maxBins ∧ ∃ placement, partials.place 10.0 = .ok placement ∧
      placement.bins.size = 5 ∧ placement.bins[0]? = some (0.0 : Float32) ∧
      placement.bins[1]? = some (-1.0 : Float32) ∧ placement.bins[4]? = some (0.5 : Float32) ∧
      other.placed 10.0 = partials.placed 10.0 ∧
      ∃ placement', other.place 10.0 = .ok placement' ∧ placement'.bins = placement.bins := by
  intro partials other
  have fits : binCount 10.0 ≤ maxBins := by decide
  have bins : binCount 10.0 = 5 := by decide
  obtain ⟨-, placement, ok, size, -, holds, others⟩ := place_fills partials fits
  have same : other.placed 10.0 = partials.placed 10.0 := by decide +kernel
  have last (bin : Nat) (amplitude : Float32) (lt : bin < 5)
      (found : ((partials.lastIn 10.0 bin).map (·.amplitude)).getD 0.0 = amplitude) :
      placement.bins[bin]? = some amplitude := found ▸ holds bin (bins ▸ lt)
  exact ⟨fits, placement, ok, size.trans bins, last 0 _ (by decide) (by decide +kernel),
    last 1 _ (by decide) (by decide +kernel), last 4 _ (by decide) (by decide +kernel), same,
    others other same⟩

end Partials

end Patchbay
