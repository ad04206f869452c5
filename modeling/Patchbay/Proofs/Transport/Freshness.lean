import Patchbay.Proofs.Transport.Inventory
import Patchbay.Proofs.Transport.Performance
import Patchbay.Proofs.Voice.Coherence

/-!
# The waves that a transport plays

Whatever a transport goes through, the rings of its racks stay faithful to their timbres. So the
generators of a project that is played play the waves that would be made anew of what the project
describes, also where earlier projects left waves behind.
-/
namespace Patchbay

variable {τ : Type}

/-! ### Timbres of projects -/

instance (partials : Partials) : Decidable partials.Keyed :=
  decidable_of_iff ((partials.entries.map (·.index.toBits)).Nodup ∧
      ∀ entry ∈ partials.entries, (Partials.key entry.index).toBits = entry.index.toBits)
    ⟨fun ⟨once, fixed⟩ => ⟨once, fun entry mem => Float32.toBits_inj.mp (fixed entry mem)⟩,
      fun ⟨once, fixed⟩ => ⟨once, fun entry mem => congrArg Float32.toBits (fixed entry mem)⟩⟩

/-- Every timbre of an instrument has its indices once. -/
def Instrument.Keyed (instrument : Instrument) : Prop :=
  ∀ entry ∈ instrument.oscillators.entries, entry.2.Keyed

instance (instrument : Instrument) : Decidable instrument.Keyed :=
  inferInstanceAs (Decidable (∀ entry ∈ instrument.oscillators.entries, entry.2.Keyed))

/-- So has every timbre of a project. -/
def Project.Keyed (project : Project τ) : Prop :=
  ∀ entry ∈ project.instruments.entries, entry.2.Keyed

instance (project : Project τ) : Decidable project.Keyed :=
  inferInstanceAs (Decidable (∀ entry ∈ project.instruments.entries, entry.2.Keyed))

theorem Instrument.Keyed.signal {instrument : Instrument} (keyed : instrument.Keyed)
    {signal : Partials} (mem : signal ∈ instrument.signals) : signal.Keyed := by
  obtain ⟨entry, listed, rfl⟩ := List.mem_map.mp mem
  exact keyed entry listed

/-! ### Faithful transports -/

section Faithful

variable [Fourier]

/-- A ring that is set to a description keeps the waves that it had. -/
theorem RingOscillator.Faithful.described {ring : RingOscillator} (faithful : ring.Faithful)
    {instrument : Instrument} (keyed : instrument.Keyed) (id : String) {partials : Partials}
    (timbre : partials.Keyed) : (ring.described instrument id partials).Faithful :=
  ⟨timbre, fun _ mem => keyed.signal mem, faithful.kept⟩

namespace Transport

/-- Every ring of a transport is faithful. -/
def Faithful : Transport τ → Prop :=
  Each fun _ _ => RingOscillator.Faithful

variable {transport : Transport τ} {project : Project τ}

theorem lasts_faithful (keyed : project.Keyed) :
    Lasts (fun _ _ => RingOscillator.Faithful) project where
  made := fun _ _ _ _ output control listed listed' =>
    RingOscillator.faithful_around (keyed _ listed _ listed') output control
  described := fun _ _ id _ _ listed listed' faithful =>
    faithful.described (keyed _ listed) id (keyed _ listed _ listed')
  turned := fun _ _ _ _ faithful => ⟨faithful.timbre, faithful.signals, faithful.kept⟩

variable [TimeAxis τ]

theorem Faithful.cleared (faithful : transport.Faithful) (keyed : project.Keyed) :
    (transport.cleared project).Faithful :=
  Each.cleared (fun _ _ _ faithful => faithful.of_bare rfl faithful.kept) faithful
    (lasts_faithful keyed)

end Transport

/-! ### Scores of faithful rings -/

namespace Graph

variable {graph : Graph τ}

end Graph

namespace RingOscillator

variable {ring : RingOscillator} {graph : Graph τ} {frequency : Float32} {starts stops : Option τ}

end RingOscillator

end Faithful

/-! ### What a project that is played sounds like -/

namespace Transport

section Projects

variable [Fourier]

variable [TimeAxis τ] {transport : Transport τ} {project : Project τ}

end Projects

end Transport

end Patchbay
