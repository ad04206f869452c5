import Patchbay.Time

/-!
# The clock

Time is counted in rendered frames and stands still while the clock is suspended. A new
clock is suspended.
-/
namespace Patchbay

/-- A count of rendered frames. -/
structure Clock where
  rate : Float32
  frames : UInt64
  running : Bool
  deriving Repr

namespace Clock

/-- A suspended clock at frame zero. -/
def atRate (rate : Float32) : Clock :=
  ⟨rate, 0, false⟩

/-- The time of the frame this many frames ahead. -/
def timeAt {τ : Type} [TimeAxis τ] (clock : Clock) (ahead : UInt64) : τ :=
  TimeAxis.ofFrames (clock.frames + ahead) clock.rate

/-- The time of the current frame. -/
def now {τ : Type} [TimeAxis τ] (clock : Clock) : τ :=
  clock.timeAt 0

/-- Let the time run. -/
def resume (clock : Clock) : Clock :=
  { clock with running := true }

/-- Let the time stand still. -/
def suspend (clock : Clock) : Clock :=
  { clock with running := false }

/-- Count frames that were rendered. A suspended clock does not count. -/
def advance (clock : Clock) (frames : UInt64) : Clock :=
  if clock.running then { clock with frames := clock.frames + frames } else clock

@[simp] theorem rate_advance (clock : Clock) (frames : UInt64) :
    (clock.advance frames).rate = clock.rate := by
  simp only [advance]
  split <;> rfl

@[simp] theorem running_advance (clock : Clock) (frames : UInt64) :
    (clock.advance frames).running = clock.running := by
  simp only [advance]
  split <;> rfl

theorem now_eq {τ : Type} [TimeAxis τ] (clock : Clock) :
    (clock.now : τ) = TimeAxis.ofFrames clock.frames clock.rate := by
  rw [now, timeAt, UInt64.add_zero]

@[simp] theorem advance_zero (clock : Clock) : clock.advance (0 : Nat).toUInt64 = clock := by
  have nothing : (0 : Nat).toUInt64 = 0 := rfl
  simp [advance, nothing]

/-- To count frames twice is to count all of them. -/
theorem advance_advance (clock : Clock) (m n : Nat) :
    (clock.advance m.toUInt64).advance n.toUInt64 = clock.advance (m + n).toUInt64 := by
  have sum : (m + n).toUInt64 = m.toUInt64 + n.toUInt64 := UInt64.ofNat_add m n
  unfold advance
  cases running : clock.running with
  | false => simp [running]
  | true => simp [sum, UInt64.add_assoc]

end Clock

end Patchbay
