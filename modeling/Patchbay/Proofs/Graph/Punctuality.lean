import Patchbay.Proofs.Graph.Division
import Patchbay.Proofs.Number.Dyadic
import Patchbay.Wave.Transform

/-!
# Frames that are on time

The clock divides the number of all frames by the sample rate. In a chunk, the time of a frame is
the time at which the chunk begins plus that of its place in the chunk. Both times are rounded, and
they are the same where one of the two parts is zero or the sample rate is a power of two. There the
windows of generators do not hang on how frames are divided into chunks.
-/
namespace Patchbay

open Number

/-- Two times are the same to all generators if they have reached the same edges of windows. -/
theorem Generator.agree_iff {τ : Type} [TimeAxis τ] {time other : τ} :
    (∀ g : Generator τ, g.isSounding time = g.isSounding other) ↔
      ∀ edge : τ, edge ≤ time ↔ edge ≤ other := by
  constructor
  · intro agree edge
    -- a generator that never stops tells its start
    have sounding (at_time : τ) : Generator.isSounding
        { Generator.playing ⟨0, Wave.silent⟩ with starts := some edge } at_time =
          decide (edge ≤ at_time) := Bool.and_true _
    rw [← decide_eq_decide, ← sounding, ← sounding]
    exact agree _
  · intro same g
    simp only [isSounding, hasFinished, same]

namespace Clock

/-- The frame at a place in a chunk that begins now is taken at its clock time: it is the first
frame of the chunk, the chunk is the first one, or frames are counted exactly at a rate that is a
power of two. -/
def Punctual (clock : Clock) (place : Nat) : Prop :=
  0.0 < widen clock.rate ∧ (clock.frames = 0 ∨ place = 0) ∨
    (∃ power, clock.rate = powerOfTwo power) ∧ clock.frames.toNat + place < 2 ^ 53

variable {clock : Clock} {place : Nat}

theorem toNat_toUInt64 {count : Nat} (fits : count < 2 ^ 53) : count.toUInt64.toNat = count :=
  Nat.mod_eq_of_lt (by omega)

theorem Punctual.timeAt (punctual : clock.Punctual place) :
    Block.timeAt ⟨clock.rate, clock.now⟩ place = (clock.timeAt place.toUInt64 : Float) := by
  rw [Block.timeAt, Clock.now_eq, Clock.timeAt]
  rcases punctual with ⟨positive, zero | rfl⟩ | ⟨⟨power, rate⟩, fits⟩
  · rw [zero, UInt64.zero_add]
    exact (ofFrames_add_zero positive _).2
  · rw [show (0 : Nat).toUInt64 = 0 from rfl, UInt64.add_zero]
    exact (ofFrames_add_zero positive _).1
  · rw [rate]
    exact (ofFrames_add power (by rwa [toNat_toUInt64 (by omega)])).symm

end Clock

namespace Graph

variable {graph : Graph Float} {power : Fin 254}

/-- At a rate that is a power of two, chunks are in step as long as frames can be counted. -/
theorem keepsStep_of_powerOfTwo (rate : graph.rate = powerOfTwo power) {start : Nat}
    {sizes : List Nat} (fits : graph.clock.frames.toNat + (start + sizes.sum) ≤ 2 ^ 53) :
    graph.KeepsStep start sizes := by
  induction sizes generalizing start with
  | nil => trivial
  | cons n rest ih =>
    rw [List.sum_cons] at fits
    refine ⟨fun i lt key g _ time _ => ?_, ih (by omega)⟩
    -- the clock as it stands when the chunk begins
    have counted : (graph.clock.frames + start.toUInt64).toNat =
        graph.clock.frames.toNat + start := by
      rw [UInt64.toNat_add, Clock.toNat_toUInt64 (by omega)]
      omega
    obtain ⟨clock, is_clock⟩ : ∃ clock : Clock, clock =
        { graph.clock with frames := graph.clock.frames + start.toUInt64 } := ⟨_, rfl⟩
    have punctual : clock.Punctual i := by
      refine .inr ⟨⟨power, by rw [is_clock]; exact rate⟩, ?_⟩
      simp only [is_clock, counted]
      omega
    have same := punctual.timeAt
    have sum : (start + i).toUInt64 = start.toUInt64 + i.toUInt64 := UInt64.ofNat_add start i
    simp only [is_clock, Clock.now_eq, Clock.timeAt, UInt64.add_assoc] at same
    rw [Clock.timeAt, Clock.timeAt, sum]
    exact iff_of_eq (congrArg (time ≤ ·) same)

/-- Generators cannot tell a frame's time in its chunk from its clock time just if no window can
begin or end in between. This is so for every frame that is on time. At a rate that is a power of
two, frames can be rendered in calls of any lengths: all divisions give the same samples and lead to
the same graph, but for what is in its buffers. -/
theorem windows_decided_by_frame [Fourier] (graph : Graph Float) :
    (∀ place : Nat, (∀ g : Generator Float,
        g.isSounding (Block.timeAt ⟨graph.rate, graph.clock.now⟩ place) =
          g.isSounding (graph.clock.timeAt place.toUInt64)) ↔
      ∀ edge : Float, edge ≤ Block.timeAt ⟨graph.rate, graph.clock.now⟩ place ↔
        edge ≤ (graph.clock.timeAt place.toUInt64 : Float)) ∧
    (∀ place : Nat, graph.clock.Punctual place → ∀ g : Generator Float,
      g.isSounding (Block.timeAt ⟨graph.rate, graph.clock.now⟩ place) =
        g.isSounding (graph.clock.timeAt place.toUInt64)) ∧
    ∀ lengths others : List Nat, graph.Reachable → graph.clock.running = true →
      (∃ power, graph.rate = powerOfTwo power) → lengths.sum = others.sum →
      graph.clock.frames.toNat + lengths.sum ≤ 2 ^ 53 →
      ∃ samples divided other, graph.renderEach lengths = .ok (samples, divided) ∧
        graph.renderEach others = .ok (samples, other) ∧ other.SameButBuffers divided := by
  refine ⟨fun place => Generator.agree_iff, fun place punctual g => ?_, ?_⟩
  · exact congrArg g.isSounding punctual.timeAt
  · intro lengths others reachable running ⟨power, rate⟩ same fits
    rw [renderEach_eq running, renderEach_eq running]
    refine reachable.wellFormed.renderChunks_congr running (fun n mem => ?_) ?_
      (keepsStep_of_powerOfTwo rate ?_) (keepsStep_of_powerOfTwo rate ?_)
    · rw [← List.flatMap_append] at mem
      obtain ⟨length, -, mem⟩ := List.mem_flatMap.mp mem
      exact ⟨pos_of_mem_chunks mem, le_of_mem_chunks mem⟩
    · rw [sum_flatMap_chunks, sum_flatMap_chunks, same]
    · rw [sum_flatMap_chunks]
      omega
    · rw [sum_flatMap_chunks]
      omega

/-- A running graph at a sample rate, with a generator that sounds from a start on. -/
def tone [Fourier] (rate : Float32) (start : Float) : Graph Float :=
  [.addGenerator ⟨0, ⟨#[1.0, -1.0]⟩⟩, .connect 1 0 .audio, .armStart 1 start, .resume].foldl perform
    (atRate rate)

theorem windows_decided_by_frame_demo :
    let early := tone 44100.0 0.01
    let graph := tone 32768.0 0.01
    let g : Generator Float := { Generator.playing ⟨0, Wave.silent⟩ with starts := some 0.01 }
    early.clock.Punctual 2047 ∧
      g.isSounding (Block.timeAt ⟨early.rate, early.clock.now⟩ 2047) =
        g.isSounding (early.clock.timeAt 2047) ∧
      graph.Reachable ∧ graph.clock.running = true ∧ graph.rate = powerOfTwo 141 ∧
      [327, 1, 0, 4000].sum = [4328].sum ∧
      graph.clock.frames.toNat + [327, 1, 0, 4000].sum ≤ 2 ^ 53 ∧
      ∃ samples divided other, graph.renderEach [327, 1, 0, 4000] = .ok (samples, divided) ∧
        graph.renderEach [4328] = .ok (samples, other) ∧ other.SameButBuffers divided := by
  intro early graph g
  have punctual : early.clock.Punctual 2047 := .inl ⟨by decide +kernel, .inl rfl⟩
  have reachable : graph.Reachable := Reachable.run (.create _) _
  have rate : graph.rate = powerOfTwo 141 := by decide +kernel
  have fits : graph.clock.frames.toNat + [327, 1, 0, 4000].sum ≤ 2 ^ 53 := by decide +kernel
  obtain ⟨-, windows, -⟩ := windows_decided_by_frame early
  obtain ⟨-, -, divisions⟩ := windows_decided_by_frame graph
  exact ⟨punctual, windows 2047 punctual g, reachable, rfl, rate, rfl, fits,
    divisions _ _ reachable rfl ⟨141, rate⟩ rfl fits⟩

/-- Seven frames and one more at ten frames a second do not add up to eight frames: a generator that
is to sound from then on begins a frame late, if a call ends after the seventh frame. -/
theorem window_one_frame_late :
    let clock : Clock := ⟨10.0, 7, true⟩
    let g : Generator Float := { Generator.playing ⟨0, Wave.silent⟩ with starts := some 0.8 }
    g.isSounding (Block.timeAt ⟨clock.rate, clock.now⟩ 1) ≠ g.isSounding (clock.timeAt 1) ∧
      ((tone 10.0 0.8).renderEach [7, 3]).toOption.map (·.1.map (·.toBits)) ≠
        ((tone 10.0 0.8).renderEach [10]).toOption.map (·.1.map (·.toBits)) := by
  decide +kernel

end Graph

end Patchbay
