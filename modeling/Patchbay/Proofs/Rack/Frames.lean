import Patchbay.Proofs.Rack.Equipment

/-!
# Racks with the same parts

Racks may differ in their voices and in how their oscillators are set and still have the same parts
at the same nodes. Then the same cables make the same connections of them.
-/
namespace Patchbay

namespace Rack

/-- A rack but for its oscillators. -/
def fittings (rack : Rack) : Rack :=
  { rack with oscillators := .empty }

/-- The racks have the same parts at the same nodes, which may differ in their voices and in how
oscillators are set. -/
structure SameFrame (rack other : Rack) : Prop where
  ports : ∀ id, (other.oscillators.find? id).map (fun ring =>
      (ring.oscillator.output, ring.oscillator.control)) =
    (rack.oscillators.find? id).map fun ring => (ring.oscillator.output, ring.oscillator.control)
  fittings : other.fittings = rack.fittings

variable {rack other : Rack}

theorem SameFrame.refl (rack : Rack) : rack.SameFrame rack := ⟨fun _ => rfl, rfl⟩

theorem SameFrame.trans {middle : Rack} (first : rack.SameFrame middle)
    (second : middle.SameFrame other) : rack.SameFrame other :=
  ⟨fun id => (second.ports id).trans (first.ports id), second.fittings.trans first.fittings⟩

theorem SameFrame.gains (same : rack.SameFrame other) : other.gains = rack.gains :=
  congrArg (·.gains) same.fittings

theorem SameFrame.contains (same : rack.SameFrame other) (id : String) :
    other.oscillators.contains id = rack.oscillators.contains id := by
  have both := congrArg Option.isSome (same.ports id)
  simpa [Roster.contains] using both

/-- The same cables make the same board. -/
theorem SameFrame.board (same : rack.SameFrame other) (cables : List Cable) :
    other.board cables = rack.board cables :=
  board_congr same.contains (fun id => by rw [same.gains]) (congrArg (·.numbers) same.fittings)
    (congrArg (·.sources) same.fittings) (congrArg (·.sinks) same.fittings) cables

/-- The same connections are pulled out with them. -/
theorem SameFrame.spares (same : rack.SameFrame other) : other.spares = rack.spares := by
  funext c
  rw [Bool.eq_iff_iff, spares_iff, spares_iff, same.gains]
  refine and_congr_left fun _ => forall_congr' fun id => ?_
  have both := same.ports id
  cases found : rack.oscillators.find? id <;> cases found' : other.oscillators.find? id <;>
    simp only [found, found', Option.map_none, Option.map_some, reduceCtorEq, Option.some.injEq,
      Prod.mk.injEq] at both
  · simp
  · simp [both.1, both.2]

theorem SameParts.sameFrame (same : rack.SameParts other) : rack.SameFrame other where
  ports := by
    intro id
    have both := congrArg (Option.map fun ring : RingOscillator =>
      (ring.oscillator.output, ring.oscillator.control)) (same.oscillators id)
    rw [Option.map_map, Option.map_map] at both
    exact both
  fittings := by
    rw [same.rest]
    rfl

end Rack

/-- Racks with the same frame have the same sites. -/
theorem Racks.keyAt_sameFrame {racks racks' : Racks} {name : String} {rack rack' : Rack}
    (found : racks name = some rack) (found' : racks' name = some rack')
    (same : rack.SameFrame rack') : racks'.keyAt name = racks.keyAt name := by
  have ring (id : String) (f : NodeKey × NodeKey → NodeKey) :
      (rack'.oscillators.find? id).elim Graph.destination
          (fun ring => f (ring.oscillator.output, ring.oscillator.control)) =
        (rack.oscillators.find? id).elim Graph.destination
          (fun ring => f (ring.oscillator.output, ring.oscillator.control)) := by
    have both := same.ports id
    cases here : rack.oscillators.find? id <;> cases there : rack'.oscillators.find? id <;>
      simp only [here, there, Option.map_none, Option.map_some, reduceCtorEq,
        Option.some.injEq] at both
    · rfl
    · exact congrArg f both
  funext site
  cases site with
  | output id =>
    simp only [keyAt, Racks.output, ring?, found, found', Option.bind_some]
    exact ring id Prod.fst
  | control id =>
    simp only [keyAt, Racks.control, ring?, found, found', Option.bind_some]
    exact ring id Prod.snd
  | stage id => simp only [keyAt, stage?, found, found', Option.bind_some, same.gains]
  | destination => rfl

end Patchbay
