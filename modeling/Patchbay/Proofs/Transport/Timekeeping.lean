import Patchbay.Project.Demo
import Patchbay.Proofs.Graph.Chunks
import Patchbay.Proofs.Transport.History

/-!
# Keeping time

A transport plays in two places: its state says so, and the clock of its graph runs. The two stay
together through every history. The clock counts the frames that are rendered while it runs, so the
position moves with these frames and by nothing else but a reset or a move.
-/
namespace Patchbay

variable {τ : Type} [TimeAxis τ]

namespace Transport

variable {transport : Transport τ}

/-- Does an operation put the beginning of the project to another time? -/
def Operation.relocates : Operation τ → Bool
  | .reset => true
  | .seek _ => true
  | _ => false

/-- How many frames an operation plays. -/
def played (transport : Transport τ) : Operation τ → Nat
  | .render frames => if transport.isPlaying then frames else 0
  | _ => 0

/-- How many frames operations play. -/
def playedIn [Fourier] (transport : Transport τ) : List (Operation τ) → Nat
  | [] => 0
  | operation :: rest =>
    transport.played operation + (transport.perform operation).playedIn rest

/-- The clock runs just while the transport plays. -/
def InStep (transport : Transport τ) : Prop :=
  transport.graph.clock.running = transport.isPlaying

/-- A transport stands where another one does. Their graphs and racks may be different. -/
structure Stands (before after : Transport τ) : Prop where
  state : after.state = before.state
  location : after.location = before.location
  clock : after.graph.clock = before.graph.clock

omit [TimeAxis τ] in
theorem Stands.trans {before middle after : Transport τ} (first : Stands before middle)
    (second : Stands middle after) : Stands before after :=
  ⟨second.state.trans first.state, second.location.trans first.location,
    second.clock.trans first.clock⟩

omit [TimeAxis τ] in
theorem Stands.inStep {before after : Transport τ} (stands : Stands before after)
    (inStep : before.InStep) : after.InStep := by
  rw [InStep, stands.clock, isPlaying, stands.state]
  exact inStep

theorem Sound.stands_cleared [Fourier] (sound : transport.Sound) (project : Project τ) :
    Stands transport (transport.cleared project) := by
  have cleared := sound.clear project
  exact ⟨by rw [cleared.rest], by rw [cleared.rest], cleared.clock⟩

omit [TimeAxis τ] in
theorem InStep.clock_eq (inStep : transport.InStep) :
    { transport.graph.clock with running := transport.isPlaying } = transport.graph.clock := by
  rw [← inStep]

/-- To play lets the clock run, and moves nothing. -/
theorem InStep.clock_play (inStep : transport.InStep) :
    transport.play.isPlaying = true ∧ transport.play.location = transport.location ∧
      transport.play.graph.clock = { transport.graph.clock with running := true } := by
  unfold play
  cases state : transport.state with
  | stopped => exact ⟨rfl, rfl, rfl⟩
  | playing =>
    have plays : transport.isPlaying = true := by rw [isPlaying, state]; rfl
    refine ⟨plays, rfl, ?_⟩
    rw [← plays, inStep.clock_eq]

/-- To pause lets the clock stand, and moves nothing. -/
theorem InStep.clock_pause (inStep : transport.InStep) :
    transport.pause.isPlaying = false ∧ transport.pause.location = transport.location ∧
      transport.pause.graph.clock = { transport.graph.clock with running := false } := by
  unfold pause
  cases state : transport.state with
  | playing => exact ⟨rfl, rfl, rfl⟩
  | stopped =>
    have stopped : transport.isPlaying = false := by rw [isPlaying, state]; rfl
    refine ⟨stopped, rfl, ?_⟩
    rw [← stopped, inStep.clock_eq]

section Histories

variable [Fourier]

/-- To take over a state lets the clock run or stand with it. -/
theorem Sound.clock_followState (sound : transport.Sound) (inStep : transport.InStep)
    (playing : Bool) :
    (transport.followState playing).isPlaying = playing ∧
      (transport.followState playing).location = transport.location ∧
      (transport.followState playing).graph.clock =
        { transport.graph.clock with running := playing } := by
  cases state : transport.state <;> cases playing
  case stopped.true =>
    have starts : transport.followState true = transport.play := by
      unfold Transport.followState
      rw [state]
    rw [starts]
    exact inStep.clock_play
  case playing.false =>
    have stops : transport.followState false = transport.pause.freeWhere fun _ => true := by
      unfold Transport.followState
      rw [state]
    obtain ⟨-, clock, -⟩ := sound.pause.freeWhere fun _ => true
    rw [stops, clock]
    exact inStep.clock_pause
  case stopped.false =>
    have stays : transport.pause = transport := by rw [Transport.pause, state]
    rw [followState_of_stopped state]
    simpa only [stays] using inStep.clock_pause
  case playing.true =>
    have stays : transport.play = transport := by rw [Transport.play, state]
    rw [followState_of_playing state]
    simpa only [stays] using inStep.clock_play

/-- To reconcile comes to where the state of the project is taken over by a transport that stands
where this one does, unless waves cannot be made. -/
theorem Sound.reconcile_stands (sound : transport.Sound) (project : Project τ) :
    ∃ middle : Transport τ, middle.Sound ∧ Stands transport middle ∧
      (transport.reconcile project = .done (middle.followState project.playing) ∨
        ¬ binCount transport.graph.rate ≤ Partials.maxBins ∧
          (transport.reconcile project).state = middle) := by
  have stands := sound.stands_cleared project
  have cleared_sound := (sound.clear project).sound
  cases playing : project.playing with
  | false =>
    refine ⟨transport.cleared project, cleared_sound, stands, .inl ?_⟩
    rw [reconcile_eq, playing, if_neg Bool.false_ne_true, Attempt.done_andThen]
  | true =>
    obtain ⟨scheduled, run, same, turned⟩ := cleared_sound.scheduleProject project
    have still : Stands transport scheduled :=
      stands.trans ⟨by rw [same], by rw [same], turned.clock⟩
    refine ⟨scheduled, turned.sound, still, ?_⟩
    rw [reconcile_eq, playing, if_pos rfl, run]
    by_cases fits : binCount transport.graph.rate ≤ Partials.maxBins
    · left
      have rate : (transport.cleared project).graph.rate = transport.graph.rate :=
        congrArg Clock.rate stands.clock
      rw [Racks.faultOf, if_pos (.inl (rate ▸ fits))]
      rfl
    · cases Racks.faultOf (transport.cleared project).graph.rate _ with
      | none => exact .inl rfl
      | some fault => exact .inr ⟨fits, rfl⟩

/-- To render takes over the graph that was rendered, and nothing else. -/
theorem Sound.perform_render (sound : transport.Sound) (n : Nat) :
    ∃ samples graph, transport.graph.render n = .ok (samples, graph) ∧
      transport.perform (.render n) = { transport with graph } := by
  obtain ⟨samples, graph, rendered⟩ := sound.wellFormed.exists_render n
  refine ⟨samples, graph, rendered, ?_⟩
  simp only [Transport.perform, Transport.render, rendered]
  rfl

/-- What an operation does to the clock: it counts the frames that are played, and it runs just
while the transport plays. The project stays where it is unless the operation says so. -/
theorem Sound.clock_perform (sound : transport.Sound) (inStep : transport.InStep)
    (operation : Operation τ) :
    (transport.perform operation).graph.clock = { transport.graph.clock with
        frames := transport.graph.clock.frames + (transport.played operation).toUInt64
        running := (transport.perform operation).isPlaying } ∧
      (operation.relocates = false →
        (transport.perform operation).location = transport.location) := by
  -- most operations play nothing
  have still (after : Transport τ) (clock : after.graph.clock =
      { transport.graph.clock with running := after.isPlaying }) :
      after.graph.clock = { transport.graph.clock with
        frames := transport.graph.clock.frames + (0 : Nat).toUInt64
        running := after.isPlaying } := by
    have nothing : transport.graph.clock.frames + (0 : Nat).toUInt64 =
        transport.graph.clock.frames := UInt64.add_zero _
    rw [nothing]
    exact clock
  cases operation with
  | play =>
    obtain ⟨playing, location, clock⟩ := inStep.clock_play
    exact ⟨still transport.play (playing ▸ clock), fun _ => location⟩
  | pause =>
    obtain ⟨stopped, location, clock⟩ := inStep.clock_pause
    exact ⟨still transport.pause (stopped ▸ clock), fun _ => location⟩
  | reset =>
    exact ⟨still transport.reset ((graph_reset transport).1.trans inStep.clock_eq.symm), nofun⟩
  | seek position =>
    exact ⟨still (transport.seek position) inStep.clock_eq.symm, nofun⟩
  | reconcile project =>
    obtain ⟨middle, middle_sound, stands, comes⟩ := sound.reconcile_stands project
    have middle_inStep : middle.InStep := stands.inStep inStep
    rcases comes with done | ⟨-, stays⟩
    · obtain ⟨playing, location, clock⟩ :=
        middle_sound.clock_followState middle_inStep project.playing
      have is_after : (transport.reconcile project).state = middle.followState project.playing := by
        rw [done]
        rfl
      refine ⟨still (transport.reconcile project).state ?_, fun _ => ?_⟩
      · rw [is_after, clock, playing, stands.clock]
      · show (transport.reconcile project).state.location = _
        rw [is_after, location, stands.location]
    · refine ⟨still (transport.reconcile project).state ?_, fun _ => ?_⟩
      · rw [stays, ← stands.clock, middle_inStep.clock_eq]
      · show (transport.reconcile project).state.location = _
        rw [stays, stands.location]
  | render frames =>
    obtain ⟨samples, graph, rendered, after⟩ := sound.perform_render frames
    have clock := (Graph.elapsed_render rendered).clock
    rw [after]
    refine ⟨?_, fun _ => rfl⟩
    show graph.clock = { transport.graph.clock with
      frames := transport.graph.clock.frames +
        (if transport.isPlaying then frames else 0).toUInt64
      running := transport.isPlaying }
    rw [clock, Clock.advance, ← inStep]
    obtain ⟨rate, counted, _ | _⟩ := transport.graph.clock <;> simp

theorem Sound.inStep_perform (sound : transport.Sound) (inStep : transport.InStep)
    (operation : Operation τ) : (transport.perform operation).InStep :=
  congrArg Clock.running (sound.clock_perform inStep operation).1

/-- Through every history the clock runs just while the transport plays, and counts what is
played. -/
theorem Sound.clock_foldl (sound : transport.Sound) (inStep : transport.InStep)
    (operations : List (Operation τ)) :
    (operations.foldl Transport.perform transport).InStep ∧
      (operations.foldl Transport.perform transport).graph.clock.frames =
        transport.graph.clock.frames + (transport.playedIn operations).toUInt64 := by
  induction operations generalizing transport with
  | nil => exact ⟨inStep, (UInt64.add_zero _).symm⟩
  | cons operation rest ih =>
    obtain ⟨last, frames⟩ := ih (sound.perform operation) (sound.inStep_perform inStep operation)
    refine ⟨last, ?_⟩
    have counted : (transport.perform operation).graph.clock.frames =
        transport.graph.clock.frames + (transport.played operation).toUInt64 :=
      congrArg Clock.frames (sound.clock_perform inStep operation).1
    have sum : (transport.playedIn (operation :: rest)).toUInt64 =
        (transport.played operation).toUInt64 +
          ((transport.perform operation).playedIn rest).toUInt64 := UInt64.ofNat_add ..
    rw [List.foldl_cons, frames, counted, sum, UInt64.add_assoc]

/-- The position moves by what is played, by a reset and by a move alone. -/
theorem Sound.position_perform (sound : transport.Sound) (inStep : transport.InStep)
    {operation : Operation τ} (stays : operation.relocates = false)
    (silent : transport.played operation = 0) :
    (transport.perform operation).position = transport.position := by
  obtain ⟨clock, location⟩ := sound.clock_perform inStep operation
  have nothing : transport.graph.clock.frames + (0 : Nat).toUInt64 =
      transport.graph.clock.frames := UInt64.add_zero _
  rw [silent, nothing] at clock
  have now : (transport.perform operation).now = transport.now := by
    simp only [Transport.now, Graph.now, clock]
    rfl
  rw [Transport.position, now, location stays]
  rfl

/-- Whatever was done to a transport, it plays just while the clock runs, and the clock has counted
the frames that were played. The project begins at the same time until a reset or a move, and the
position stays until one of them or until something is played. While the transport is stopped, all
frames are zero and nothing moves. To reconcile takes over the state of the project. -/
theorem clock_in_step (settings : Settings) (operations : List (Operation τ)) :
    let transport : Transport τ := after settings operations
    (transport.isPlaying = true ↔ transport.graph.clock.running = true) ∧
      transport.graph.clock.frames =
        ((create settings : Transport τ).playedIn operations).toUInt64 ∧
      (∀ operation : Operation τ, operation.relocates = false →
        (transport.perform operation).location = transport.location) ∧
      (∀ operation : Operation τ, operation.relocates = false → transport.played operation = 0 →
        (transport.perform operation).position = transport.position) ∧
      (transport.isPlaying = false → ∀ n,
        transport.render n = .ok (List.replicate n 0.0, transport)) ∧
      (binCount settings.sampleRate ≤ Partials.maxBins → ∀ project, ∃ next,
        transport.reconcile project = .done next ∧ next.isPlaying = project.playing) := by
  intro transport
  obtain ⟨sound, rate⟩ : transport.Sound ∧ transport.graph.rate = settings.sampleRate :=
    sound_after settings operations
  obtain ⟨inStep, frames⟩ := (sound_create settings).clock_foldl rfl operations
  have inStep : transport.InStep := inStep
  refine ⟨by rw [← inStep], frames.trans (UInt64.zero_add _),
    fun operation => (sound.clock_perform inStep operation).2,
    fun operation => sound.position_perform inStep, fun stopped n => ?_, fun fits project => ?_⟩
  · have suspended : transport.graph.render n = .ok (List.replicate n 0.0, transport.graph) := by
      rw [Graph.render, inStep, stopped, if_neg Bool.false_ne_true]
    rw [Transport.render, suspended]
    rfl
  · obtain ⟨middle, middle_sound, stands, comes⟩ := sound.reconcile_stands project
    rcases comes with done | ⟨unfit, -⟩
    · exact ⟨_, done, (middle_sound.clock_followState (stands.inStep inStep) project.playing).1⟩
    · exact absurd (rate ▸ fits) unfit

end Histories

theorem clock_in_step_demo :
    let operations : List (Operation Float) := [.play, .render 300, .pause, .render 40]
    let transport := after {} operations
    binCount ({} : Settings).sampleRate ≤ Partials.maxBins ∧
      transport.graph.clock.frames = ((create {}).playedIn operations).toUInt64 ∧
      ∃ next, transport.reconcile Project.demo = .done next ∧
        next.isPlaying = Project.demo.playing :=
  have ⟨_, frames, _, _, _, reconciles⟩ := clock_in_step {} _
  ⟨by decide, frames, reconciles (by decide) Project.demo⟩

-- what is rendered while the transport is stopped is not counted
example : (create {} : Transport Float).playedIn
    [.render 5, .play, .render 3, .pause, .render 4, .play, .render 2] = 5 := by
  decide +kernel

end Transport

end Patchbay
