import Patchbay.Number.Floor
import Patchbay.Number.Width
import Patchbay.Wave.Basic

/-!
# Playing a wave

A player reads a wave at any frequency. Its phase is the part of the period that has
passed, from zero up to but not including one. Between two samples of the table it reads
the straight line, and the last sample is followed by the first.
-/
namespace Patchbay

/-- Numbers that can measure the phase of a wave with samples in `α`. -/
class PhaseAxis (φ : Type) (α : outParam Type) extends Zero φ, Add φ, Sub φ, Mul φ, LE φ where
  one : φ
  ofNat : Nat → φ
  floor : φ → φ
  wholePart : φ → Nat
  toSample : φ → α
  /-- How many turns one frame takes at a frequency and a sample rate, if that is a number. -/
  turns? : Float32 → Float32 → Option φ
  decLE : DecidableLE φ

instance PhaseAxis.decidableLE {φ α : Type} [PhaseAxis φ α] : DecidableLE φ := PhaseAxis.decLE

instance PhaseAxis.double : PhaseAxis Float Float32 where
  zero := 0.0
  one := 1.0
  ofNat n := n.toUInt64.toFloat
  floor := Number.floor
  wholePart := Number.wholePart
  toSample := Number.narrow
  turns? frequency rate :=
    let turns := Number.widen frequency / Number.widen rate
    if turns.isFinite then some turns else none
  decLE := inferInstance

/-- A wave with the phase at which it is read next. -/
structure Player (φ α : Type) where
  wave : Wave α
  phase : φ
  deriving Repr

namespace Player

variable {φ α : Type} [PhaseAxis φ α]

/-- A player at the beginning of a wave. -/
def start (wave : Wave α) : Player φ α :=
  ⟨wave, 0⟩

/-- Go back to the beginning of the wave. -/
def rewind (player : Player φ α) : Player φ α :=
  { player with phase := 0 }

/-- Go on with another wave at the same phase. -/
def swap (player : Player φ α) (wave : Wave α) : Player φ α :=
  { player with wave }

/-- The phase after a turn. A sum that rounds up to a whole turn starts a new period. -/
def turn (phase turns : φ) : φ :=
  let moved := phase + turns
  let wrapped := moved - PhaseAxis.floor moved
  if (PhaseAxis.one : φ) ≤ wrapped then 0 else wrapped

variable [Sample α]

/-- The value of a table at a phase. An empty table reads as zero. -/
def read (table : Array α) (phase : φ) : α :=
  if h : table.size = 0 then 0
  else
    have size_pos : 0 < table.size := Nat.pos_of_ne_zero h
    let position := phase * PhaseAxis.ofNat table.size
    let index := PhaseAxis.wholePart position % table.size
    have index_lt : index < table.size := Nat.mod_lt _ size_pos
    let after := (index + 1) % table.size
    have after_lt : after < table.size := Nat.mod_lt _ size_pos
    let rest : α := PhaseAxis.toSample (position - PhaseAxis.floor position)
    table[index] + (table[after] - table[index]) * rest

/-- Read one sample and move on by one frame at a frequency. A frequency that is no number
of turns leaves the phase where it is, and so does an empty wave. -/
def next (player : Player φ α) (frequency rate : Float32) : α × Player φ α :=
  if player.wave.isEmpty then (0, player)
  else
    (read player.wave.table player.phase,
      match (PhaseAxis.turns? frequency rate : Option φ) with
      | some turns => { player with phase := turn player.phase turns }
      | none => player)

/-- Read a number of samples at one frequency. -/
def render (player : Player φ α) (frequency rate : Float32) : Nat → List α × Player φ α
  | 0 => ([], player)
  | n + 1 =>
    let (sample, moved) := player.next frequency rate
    let (rest, last) := render moved frequency rate n
    (sample :: rest, last)

@[simp] theorem wave_next (player : Player φ α) (frequency rate : Float32) :
    (player.next frequency rate).2.wave = player.wave := by
  simp only [next]
  split
  · rfl
  · split <;> rfl

@[simp] theorem length_render (player : Player φ α) (frequency rate : Float32) (n : Nat) :
    (player.render frequency rate n).1.length = n := by
  induction n generalizing player with
  | zero => rfl
  | succ n ih => simp [render, ih]

end Player

end Patchbay
