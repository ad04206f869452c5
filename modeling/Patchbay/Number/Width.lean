/-!
# Two widths of binary numbers

Samples, levels and frequencies are single width, times and phases double width.
`widen` is exact; `narrow` goes to the nearest single, a tie to the even one.
Both act on the encoding, so that they compute wherever `toBits` does.
-/
namespace Patchbay.Number

/-- The word `m / 2 ^ s` rounded to the nearest whole number, a tie to the even one,
for shifts from one to sixty-three places. -/
def roundShift (m s : UInt64) : UInt64 :=
  let quotient := m >>> s
  let remainder := m - (quotient <<< s)
  let half := (1 : UInt64) <<< (s - 1)
  if half < remainder ∨ (remainder = half ∧ quotient % 2 = 1) then quotient + 1 else quotient

/-- The double with the value of a single. A subnormal single has a fraction of
units of `2 ^ (-149)` and is a normal double. -/
def widen (x : Float32) : Float :=
  let word := x.toBits
  let sign := (word >>> 31).toUInt64 <<< 63
  let exponent := ((word >>> 23) &&& 0xff).toUInt64
  let fraction := (word &&& 0x7fffff).toUInt64
  if exponent = 0xff then
    Float.ofBits (sign ||| (0x7ff0000000000000 : UInt64) ||| (fraction <<< 29))
  else if exponent = 0 then
    let size := fraction.toFloat * Float.ofBits 0x36a0000000000000
    if sign = 0 then size else -size
  else
    Float.ofBits (sign ||| ((exponent + 896) <<< 52) ||| (fraction <<< 29))

/-- The magnitude bits of the single nearest to a finite double with the given exponent
and fraction fields. Rounding up may carry into the exponent, and past the largest finite
single it carries into infinity. -/
def narrowMagnitude (exponent fraction : UInt64) : UInt64 :=
  if 1151 ≤ exponent then 0x7f800000
  else if 897 ≤ exponent then roundShift (((exponent - 896) <<< 52) ||| fraction) 29
  else if 872 ≤ exponent then roundShift (0x10000000000000 ||| fraction) (926 - exponent)
  else 0

/-- The single nearest to a double, a tie to the even one. What is too large becomes
infinite, what is too small becomes zero, and the sign stays. -/
def narrow (x : Float) : Float32 :=
  let word := x.toBits
  let sign := (word >>> 63) <<< 31
  let exponent := (word >>> 52) &&& 0x7ff
  let fraction := word &&& 0xfffffffffffff
  if exponent = 0x7ff then
    if fraction = 0 then Float32.ofBits (sign ||| 0x7f800000).toUInt32
    else Float32.ofBits 0x7fc00000
  else Float32.ofBits (sign ||| narrowMagnitude exponent fraction).toUInt32

end Patchbay.Number
