import Patchbay.Proofs.Number.Widening
import Patchbay.Wave.Player

/-!
# Waves that are read at any frequency

In exact arithmetic the phase of a player is the fractional part of the turns it has made, however
long it runs, and whatever frequencies and waves it is given on the way. Every sample lies on the
straight line between two neighbours in the table, which goes on with its first sample after the
last one.
-/
namespace Patchbay

/-! ### Exact phases -/

/-- Exact numbers as samples. Each of them is finite. -/
instance Sample.rational : Sample ℚ where
  half := 1 / 2
  abs sample := |sample|
  isFinite _ := true
  decLT := inferInstance

namespace Number

theorem beq_zero_iff (x : Float32) : (x == 0.0) = true ↔ Null x := by
  have zero : Null (0.0 : Float32) := ⟨.positive, rfl⟩
  refine ⟨fun same => ?_, fun null => null.beq zero⟩
  rcases eq_or_null_of_beq same with rfl | ⟨null, _⟩
  · exact zero
  · exact null

/-- The quotient of two singles as an exact number, if the first one is finite and the second one is
a number other than zero. What is divided by an infinity is zero. -/
def ratio? (x y : Float32) : Option ℚ :=
  if x.isFinite ∧ ¬ y.isNaN ∧ ¬ y == 0.0 then some (exact x / exact y) else none

end Number

/-- Phases as exact numbers of turns. -/
instance PhaseAxis.rational : PhaseAxis ℚ ℚ where
  one := 1
  ofNat n := n
  floor phase := ⌊phase⌋
  wholePart phase := ⌊phase⌋.toNat
  toSample := id
  turns? := Number.ratio?
  decLE := inferInstance

/-- A frame moves exact phases just if it moves those in doubles. -/
theorem PhaseAxis.turns?_rational (frequency rate : Float32) :
    (PhaseAxis.turns? frequency rate : Option ℚ) =
      if (Number.widen frequency / Number.widen rate).isFinite then
        some (Number.exact frequency / Number.exact rate) else none := by
  refine if_congr ?_ rfl rfl
  rw [Number.isFinite_ratio_iff, ← Number.beq_zero_iff, Bool.not_eq_true]

/-! ### Tables -/

namespace Wave

variable {table : Array ℚ}

/-- A table read on and on. -/
def extended (table : Array ℚ) (index : ℤ) : ℚ :=
  table.getD (index % table.size).toNat 0

/-- The straight line between the two samples around a position. -/
def interpolated (table : Array ℚ) (position : ℚ) : ℚ :=
  extended table ⌊position⌋ +
    (extended table (⌊position⌋ + 1) - extended table ⌊position⌋) * Int.fract position

/-- A sample is read at a position: between two samples that follow each other in the table, its
first one following the last one. -/
def ReadAt (table : Array ℚ) (position sample : ℚ) : Prop :=
  ∃ before after : Fin table.size, (before.val : ℤ) = ⌊position⌋ ∧
    after.val = (before.val + 1) % table.size ∧
    sample = table[before] + (table[after] - table[before]) * Int.fract position ∧
    min table[before] table[after] ≤ sample ∧ sample ≤ max table[before] table[after]

/-- A part of the way from one number to another one lies between the two. -/
theorem between_of_part {a b part : ℚ} (low : 0 ≤ part) (high : part ≤ 1) :
    min a b ≤ a + (b - a) * part ∧ a + (b - a) * part ≤ max a b := by
  rcases le_total a b with up | down
  · rw [min_eq_left up, max_eq_right up]
    have rise := mul_nonneg (sub_nonneg.mpr up) low
    have rest := mul_nonneg (sub_nonneg.mpr up) (sub_nonneg.mpr high)
    constructor <;> linarith
  · rw [min_eq_right down, max_eq_left down]
    have fall := mul_nonneg (sub_nonneg.mpr down) low
    have rest := mul_nonneg (sub_nonneg.mpr down) (sub_nonneg.mpr high)
    constructor <;> linarith

/-- After each period the same line is read again. -/
theorem interpolated_add_period (position : ℚ) (periods : ℤ) :
    interpolated table (position + periods * table.size) = interpolated table position := by
  have whole : (periods * table.size : ℚ) = ((periods * table.size : ℤ) : ℚ) := by push_cast; rfl
  have again (index : ℤ) : extended table (index + periods * table.size) =
      extended table index := by
    rw [extended, extended, Int.add_mul_emod_self_right]
  have next : ⌊position⌋ + periods * table.size + 1 = ⌊position⌋ + 1 + periods * table.size :=
    add_right_comm ..
  rw [interpolated, interpolated, whole, Int.floor_add_intCast, Int.fract_add_intCast, next, again,
    again]

theorem interpolated_fract (turns : ℚ) : interpolated table (Int.fract turns * table.size) =
    interpolated table (turns * table.size) := by
  rw [← interpolated_add_period (Int.fract turns * table.size) ⌊turns⌋, ← add_mul,
    Int.fract_add_floor]

theorem extended_of_lt {index : ℕ} (lt : index < table.size) :
    extended table index = table[index] := by
  rw [extended, ← Int.natCast_mod, Int.toNat_natCast, Nat.mod_eq_of_lt lt]
  simp [Array.getD, lt]

theorem extended_succ {index : ℕ} (lt : (index + 1) % table.size < table.size) :
    extended table (index + 1) = table[(index + 1) % table.size] := by
  have cast : (index : ℤ) + 1 = ((index + 1 : ℕ) : ℤ) := rfl
  rw [extended, cast, ← Int.natCast_mod, Int.toNat_natCast]
  simp [Array.getD, lt]

end Wave

namespace Player

/-! ### One sample -/

theorem turn_eq_fract (phase turns : ℚ) : turn phase turns = Int.fract (phase + turns) := by
  have below : ¬ (1 : ℚ) ≤ Int.fract (phase + turns) := not_le.mpr (Int.fract_lt_one _)
  exact if_neg below

section Read

variable {table : Array ℚ} (filled : table.size ≠ 0) {phase : ℚ} (low : 0 ≤ phase)
  (high : phase < 1)

include filled low high

/-- Inside its period a player reads the straight line between two samples of the table. -/
theorem read_eq : ∃ before after : Fin table.size, (before.val : ℤ) = ⌊phase * table.size⌋ ∧
    after.val = (before.val + 1) % table.size ∧ read table phase =
      table[before] + (table[after] - table[before]) * Int.fract (phase * table.size) := by
  have size_pos : (0 : ℚ) < table.size := by exact_mod_cast Nat.pos_of_ne_zero filled
  have nonneg : 0 ≤ phase * table.size := mul_nonneg low size_pos.le
  have floor : ((⌊phase * table.size⌋.toNat : ℕ) : ℤ) = ⌊phase * table.size⌋ :=
    Int.toNat_of_nonneg (Int.floor_nonneg.mpr nonneg)
  have lt : ⌊phase * table.size⌋.toNat < table.size := by
    have below : ⌊phase * table.size⌋ < table.size := by
      rw [Int.floor_lt]
      exact mul_lt_of_lt_one_left size_pos high
    omega
  have next_lt : (⌊phase * table.size⌋.toNat + 1) % table.size < table.size :=
    Nat.mod_lt _ (Nat.pos_of_ne_zero filled)
  refine ⟨⟨_, lt⟩, ⟨_, next_lt⟩, floor, rfl, ?_⟩
  have index : PhaseAxis.wholePart (phase * PhaseAxis.ofNat table.size) % table.size =
      ⌊phase * table.size⌋.toNat := Nat.mod_eq_of_lt lt
  rw [read, dif_neg filled]
  simp only [index]
  rfl

theorem read_eq_interpolated :
    read table phase = Wave.interpolated table (phase * table.size) := by
  obtain ⟨before, after, floor, next, same⟩ := read_eq filled low high
  have inside : (before.val + 1) % table.size < table.size := next ▸ after.isLt
  rw [same, Wave.interpolated, ← floor, Wave.extended_of_lt before.isLt,
    Wave.extended_succ inside]
  simp only [← next]
  rfl

theorem readAt_read : Wave.ReadAt table (phase * table.size) (read table phase) := by
  obtain ⟨before, after, floor, next, same⟩ := read_eq filled low high
  refine ⟨before, after, floor, next, same, ?_⟩
  rw [same]
  exact Wave.between_of_part (Int.fract_nonneg _) (Int.fract_lt_one _).le

end Read

/-! ### Calls -/

/-- What can be asked of a player. -/
inductive Call (α : Type) where
  | next (frequency rate : Float32)
  | render (frequency rate : Float32) (count : Nat)
  | swap (wave : Wave α)

section Calls

variable {φ α : Type} [PhaseAxis φ α] [Sample α]

/-- The samples of a call, and the player after it. -/
def answer (player : Player φ α) : Call α → List α × Player φ α
  | .next frequency rate =>
    let (sample, moved) := player.next frequency rate
    ([sample], moved)
  | .render frequency rate count => player.render frequency rate count
  | .swap wave => ([], player.swap wave)

/-- The samples of a list of calls, one call after another. -/
def play (player : Player φ α) : List (Call α) → List α × Player φ α
  | [] => ([], player)
  | call :: rest =>
    let (samples, moved) := player.answer call
    let (others, last) := play moved rest
    (samples ++ others, last)

end Calls

/-- The table that a frame is read from, and the turns that it makes, if that is a number. -/
structure Frame where
  table : Array ℚ
  turns : Option ℚ

/-- The frames of a call while a wave is played. -/
def Call.frames (wave : Wave ℚ) : Call ℚ → List Frame
  | .next frequency rate => [⟨wave.table, PhaseAxis.turns? frequency rate⟩]
  | .render frequency rate count =>
    List.replicate count ⟨wave.table, PhaseAxis.turns? frequency rate⟩
  | .swap _ => []

/-- The wave that is played after a call. -/
def Call.wave (wave : Wave ℚ) : Call ℚ → Wave ℚ
  | .swap other => other
  | _ => wave

/-- The frames of a list of calls: a wave stays until another one is set. -/
def frames (wave : Wave ℚ) : List (Call ℚ) → List Frame
  | [] => []
  | call :: rest => call.frames wave ++ frames (call.wave wave) rest

/-- The turns of all frames for which they are a number. -/
def travelled (frames : List Frame) : ℚ :=
  (frames.filterMap Frame.turns).sum

@[simp] theorem travelled_nil : travelled [] = 0 := rfl

@[simp] theorem travelled_cons (frame : Frame) (rest : List Frame) :
    travelled (frame :: rest) = frame.turns.getD 0 + travelled rest := by
  cases turns : frame.turns <;> simp [travelled, turns]

theorem travelled_append (first second : List Frame) :
    travelled (first ++ second) = travelled first + travelled second := by
  simp [travelled]

/-- The samples of frames that are read one after another, from a number of turns on. -/
def heard (turns : ℚ) : List Frame → List ℚ
  | [] => []
  | frame :: rest => Wave.interpolated frame.table (Int.fract turns * frame.table.size) ::
      heard (turns + frame.turns.getD 0) rest

theorem heard_append (turns : ℚ) (first second : List Frame) :
    heard turns (first ++ second) =
      heard turns first ++ heard (turns + travelled first) second := by
  induction first generalizing turns with
  | nil => simp [heard]
  | cons frame rest ih => simp [heard, ih, add_assoc]

theorem getElem?_heard (turns : ℚ) (frames : List Frame) (k : ℕ) :
    (heard turns frames)[k]? = frames[k]?.map fun frame =>
      Wave.interpolated frame.table
        (Int.fract (turns + travelled (frames.take k)) * frame.table.size) := by
  induction frames generalizing turns k with
  | nil => rfl
  | cons frame rest ih =>
    cases k with
    | zero => simp [heard]
    | succ k => simp [heard, ih, add_assoc]

/-! ### Runs -/

section Runs

variable {player : Player ℚ ℚ} {turns : ℚ}

theorem fract_fract_add (a b : ℚ) : Int.fract (Int.fract a + b) = Int.fract (a + b) := by
  refine Int.fract_eq_fract.mpr ⟨-⌊a⌋, ?_⟩
  rw [Int.fract]
  push_cast
  ring

/-- A player that stands at a number of turns. -/
theorem with_phase (at_turns : player.phase = Int.fract turns) :
    { player with phase := Int.fract turns } = player := by
  rw [← at_turns]

/-- A frame adds its turns, and those that are whole drop out. -/
theorem next_eq (filled : player.wave.size ≠ 0) (at_turns : player.phase = Int.fract turns)
    (frequency rate : Float32) :
    let frame : Frame := ⟨player.wave.table, PhaseAxis.turns? frequency rate⟩
    player.next frequency rate =
      (Wave.interpolated frame.table (Int.fract turns * frame.table.size),
        { player with phase := Int.fract (turns + frame.turns.getD 0) }) := by
  have not_empty : player.wave.isEmpty = false := by
    rw [← Bool.not_eq_true, Wave.isEmpty, Array.isEmpty_iff_size_eq_zero]
    exact filled
  have sample := read_eq_interpolated filled (Int.fract_nonneg turns) (Int.fract_lt_one turns)
  simp only [next, not_empty, at_turns]
  rw [if_neg Bool.false_ne_true]
  refine Prod.ext sample ?_
  dsimp only
  cases (PhaseAxis.turns? frequency rate : Option ℚ) with
  | none => rw [Option.getD_none, add_zero, with_phase at_turns]
  | some more =>
    show { player with phase := turn (Int.fract turns) more } = _
    rw [Option.getD_some, turn_eq_fract, fract_fract_add]

theorem render_eq (filled : player.wave.size ≠ 0) (at_turns : player.phase = Int.fract turns)
    (frequency rate : Float32) (count : ℕ) :
    let frames := List.replicate count
      (⟨player.wave.table, PhaseAxis.turns? frequency rate⟩ : Frame)
    player.render frequency rate count =
      (heard turns frames, { player with phase := Int.fract (turns + travelled frames) }) := by
  induction count generalizing player turns with
  | zero =>
    show ([], player) = ([], { player with phase := Int.fract (turns + 0) })
    rw [add_zero, with_phase at_turns]
  | succ count ih =>
    have first := next_eq filled at_turns frequency rate
    simp only [render, first, List.replicate_succ, heard, travelled_cons]
    rw [ih (by exact filled) rfl]
    simp only [add_assoc]

/-- A call is heard as its frames. -/
theorem answer_eq (filled : player.wave.size ≠ 0) (at_turns : player.phase = Int.fract turns)
    (call : Call ℚ) : player.answer call = (heard turns (call.frames player.wave),
      ⟨call.wave player.wave, Int.fract (turns + travelled (call.frames player.wave))⟩) := by
  cases call with
  | next frequency rate =>
    simp only [answer, next_eq filled at_turns, Call.frames, Call.wave, heard, travelled_cons,
      travelled_nil, add_zero]
  | render frequency rate count => exact render_eq filled at_turns frequency rate count
  | swap wave =>
    simp only [answer, swap, at_turns, Call.frames, Call.wave, heard, travelled_nil, add_zero]

/-- A run of calls is heard as the frames of the calls, and the turns of all of them add up. -/
theorem play_eq {calls : List (Call ℚ)} (filled : player.wave.size ≠ 0)
    (others : ∀ wave : Wave ℚ, .swap wave ∈ calls → wave.size ≠ 0)
    (at_turns : player.phase = Int.fract turns) :
    (player.play calls).1 = heard turns (frames player.wave calls) ∧
      (player.play calls).2.phase = Int.fract (turns + travelled (frames player.wave calls)) := by
  induction calls generalizing player turns with
  | nil =>
    show [] = [] ∧ player.phase = Int.fract (turns + 0)
    exact ⟨rfl, by rw [add_zero, at_turns]⟩
  | cons call rest ih =>
    have later (wave : Wave ℚ) (mem : .swap wave ∈ rest) : wave.size ≠ 0 :=
      others wave (List.mem_cons_of_mem _ mem)
    have filled' : (call.wave player.wave).size ≠ 0 := by
      cases call with
      | swap wave => exact others wave List.mem_cons_self
      | _ => exact filled
    simp only [play, answer_eq filled at_turns, frames, heard_append, travelled_append, ← add_assoc]
    obtain ⟨samples, phase⟩ := @ih ⟨call.wave player.wave,
      Int.fract (turns + travelled (call.frames player.wave))⟩ _ filled' later rfl
    exact ⟨congrArg _ samples, phase⟩

end Runs

theorem length_heard (turns : ℚ) (frames : List Frame) :
    (heard turns frames).length = frames.length := by
  induction frames generalizing turns with
  | nil => rfl
  | cons frame rest ih => simp [heard, ih]

/-- All tables of the frames of calls have samples, where all waves have. -/
theorem filled_of_mem_frames {wave : Wave ℚ} {calls : List (Call ℚ)} (filled : wave.size ≠ 0)
    (others : ∀ wave : Wave ℚ, .swap wave ∈ calls → wave.size ≠ 0) {frame : Frame}
    (mem : frame ∈ frames wave calls) : frame.table.size ≠ 0 := by
  induction calls generalizing wave with
  | nil => cases mem
  | cons call rest ih =>
    rcases List.mem_append.mp mem with here | later
    · cases call with
      | next => rw [List.mem_singleton.mp here]; exact filled
      | render => rw [List.eq_of_mem_replicate here]; exact filled
      | swap => cases here
    · refine ih ?_ (fun wave mem => others wave (List.mem_cons_of_mem _ mem)) later
      cases call with
      | swap other => exact others other List.mem_cons_self
      | _ => exact filled

/-- After a reset the phase of a player is the fractional part of all turns that it has made, and
each sample is read from the table that is current there, at that part of its length. In doubles
the same frames move the phase. -/
theorem play_interpolates (player : Player ℚ ℚ) (calls : List (Call ℚ))
    (filled : player.wave.size ≠ 0)
    (others : ∀ wave : Wave ℚ, .swap wave ∈ calls → wave.size ≠ 0) :
    let frames := frames player.wave calls
    let samples := (player.rewind.play calls).1
    let phase := (player.rewind.play calls).2.phase
    phase = Int.fract (travelled frames) ∧ 0 ≤ phase ∧ phase < 1 ∧
      samples.length = frames.length ∧
      (∀ k frame, frames[k]? = some frame → ∃ sample, samples[k]? = some sample ∧
        let turns := travelled (frames.take k)
        let position := Int.fract turns * frame.table.size
        Wave.ReadAt frame.table position sample ∧
          sample = Wave.interpolated frame.table position ∧
          sample = Wave.interpolated frame.table (turns * frame.table.size)) ∧
      ∀ frequency rate : Float32, (PhaseAxis.turns? frequency rate : Option ℚ) =
        if (Number.widen frequency / Number.widen rate).isFinite then
          some (Number.exact frequency / Number.exact rate) else none := by
  obtain ⟨heard_samples, last⟩ := @play_eq player.rewind 0 calls filled others Int.fract_zero.symm
  rw [zero_add] at last
  refine ⟨last, ?_, ?_, ?_, fun k frame here => ?_, PhaseAxis.turns?_rational⟩
  · rw [last]
    exact Int.fract_nonneg _
  · rw [last]
    exact Int.fract_lt_one _
  · rw [heard_samples]
    exact length_heard _ _
  · have table_filled := filled_of_mem_frames filled others (List.mem_of_getElem? here)
    obtain ⟨turns, is_turns⟩ : ∃ turns, turns = travelled ((frames player.wave calls).take k) :=
      ⟨_, rfl⟩
    have line := read_eq_interpolated table_filled (Int.fract_nonneg turns) (Int.fract_lt_one turns)
    simp only [← is_turns]
    refine ⟨_, ?_, readAt_read table_filled (Int.fract_nonneg turns) (Int.fract_lt_one turns), line,
      line.trans (Wave.interpolated_fract turns)⟩
    have here : (frames player.rewind.wave calls)[k]? = some frame := here
    rw [heard_samples, getElem?_heard, here, Option.map_some, zero_add, line, is_turns]
    rfl

/-- Calls that go back and forth over whole periods, with one that does not move and with a second
wave. -/
def detour : List (Call ℚ) :=
  [.next 3.0 4.0, .render (-5.0) 4.0 2, .swap ⟨#[1, 3]⟩, .next (1.0 / 0.0) 4.0, .render 10.0 4.0 2]

/-- The last one of its six samples lies between the last sample of the second table and the
first. -/
theorem play_interpolates_detour :
    let player : Player ℚ ℚ := ⟨⟨#[0, 1, 0, -1]⟩, 1 / 3⟩
    player.wave.size ≠ 0 ∧ (∀ wave : Wave ℚ, .swap wave ∈ detour → wave.size ≠ 0) ∧
      (player.rewind.play detour).1 = [0, -1, 0, 2, 2, 2] ∧
      (player.rewind.play detour).2.phase = 1 / 4 := by
  intro player
  have others (wave : Wave ℚ) (mem : .swap wave ∈ detour) : wave.size ≠ 0 := by
    obtain rfl : wave = ⟨#[1, 3]⟩ := by simpa [detour] using mem
    decide
  have played := play_interpolates player detour (by decide) others
  exact ⟨by decide, others, by decide +kernel, played.1.trans (by decide +kernel)⟩

end Player

end Patchbay
