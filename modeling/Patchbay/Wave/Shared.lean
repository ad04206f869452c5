import Patchbay.Wave.Basic

/-!
# Shared waves

Several generators may play one wave. Each synthesis gives its wave a serial number, so
that a wave that is shared can be told from one that was made again.
-/
namespace Patchbay

/-- A wave of singles with its serial number. -/
structure SharedWave where
  serial : Nat
  wave : Wave Float32
  deriving Repr

end Patchbay
