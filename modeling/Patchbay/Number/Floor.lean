/-!
# Whole parts of doubles

`wholePart` cuts toward zero and stays within words of sixty-four bits: a negative
number or NaN gives zero, a number too large the largest word. `floor` goes down to
a whole double and leaves whole doubles, infinities and NaN as they are.
-/
namespace Patchbay.Number

/-- The whole part of a double, between zero and the largest word. -/
def wholePart (x : Float) : Nat :=
  x.toUInt64.toNat

theorem wholePart_lt (x : Float) : wholePart x < UInt64.size :=
  x.toUInt64.toNat_lt_size

/-- The whole part of a single, between zero and the largest word. -/
def wholePartSingle (x : Float32) : Nat :=
  x.toUInt64.toNat

theorem wholePartSingle_lt (x : Float32) : wholePartSingle x < UInt64.size :=
  x.toUInt64.toNat_lt_size

/-- The largest whole double that is not above `x`. From `2 ^ 52` on every double is
whole. -/
def floor (x : Float) : Float :=
  if x.abs < 4503599627370496.0 then
    let magnitude := x.abs.toUInt64.toFloat
    if magnitude == x.abs then x
    else if x < 0.0 then -magnitude - 1.0
    else magnitude
  else x

end Patchbay.Number
