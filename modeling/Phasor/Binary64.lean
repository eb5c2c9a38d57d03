import Phasor.Dyadic.Rounding

/-!
Bit patterns of the 64-bit binary interchange format, computed in integers. A pattern without its
sign bit is a number below `2 ^ 63`; patterns are ordered as the magnitudes that they encode, and
the one after the largest finite magnitude is that of infinity.
-/

namespace Phasor.Binary64

open Dyadic

def infinity : Nat := 2047 <<< 52

def shiftEven (m s : Nat) : Nat :=
  let q := m >>> s
  let r := m - q <<< s
  if 1 <<< s < 2 * r ∨ (2 * r = 1 <<< s ∧ q % 2 = 1) then q + 1 else q

/-- The pattern nearest to `m * 2 ^ e`, a half going to the even one. The last place of the result
is `2 ^ unit`; a quotient that carries into one digit more runs over into the exponent field, which
gives the next pattern. -/
def ofScaled (m : Nat) (e : Int) : Nat :=
  let top := e + bitLength m
  if m = 0 ∨ top < -1074 then 0
  else if 1024 < top then infinity
  else
    let unit := max (top - 53) (-1074)
    let q := if e ≤ unit then shiftEven m (unit - e).toNat else m <<< (e - unit).toNat
    (unit + 1074).toNat <<< 52 + q

/-- The pattern nearest to `n / d * 2 ^ e`. The integer quotient has more digits than any result,
and its last digit records whether a remainder was dropped. -/
def ofQuotient (n d : Nat) (e : Int) : Nat :=
  let s := 66 + bitLength d - bitLength n
  let q := (n <<< s) / d
  let sticky := if (n <<< s) % d = 0 then 0 else 1
  ofScaled (2 * q + sticky) (e - s - 1)

def ofSqrt (n : Nat) (e : Int) : Nat :=
  let s := 132 - bitLength n
  let s := if (e - s) % 2 = 0 then s else s + 1
  let r := Nat.sqrt (n <<< s)
  let sticky := if r * r = n <<< s then 0 else 1
  ofScaled (2 * r + sticky) ((e - s) / 2 - 1)

def magnitude (pattern : Nat) : Dyadic :=
  let field := pattern >>> 52
  let fraction := pattern % 1 <<< 52
  if field = 0 then scaled fraction (-1074)
  else scaled (fraction + 1 <<< 52 : Nat) (field - 1075)

def withSign (negative : Bool) (pattern : Nat) : UInt64 :=
  (if negative then 1 <<< 63 + pattern else pattern).toUInt64

def toDyadic? (bits : UInt64) : Option Dyadic :=
  let pattern := bits.toNat % 1 <<< 63
  if pattern < infinity then
    some (if bits.toNat < 1 <<< 63 then magnitude pattern else -magnitude pattern)
  else none

/-- The bits for `x`. Its mantissa is cut to 64 digits, these are rounded to the format, and the
result is rounded once more if its exponent is too small or too large for the format. -/
def ofDyadic (x : Dyadic) : UInt64 :=
  let m := x.mantissa.natAbs
  let cut := bitLength m - 64
  let lead := magnitude (ofScaled (m >>> cut) 0)
  withSign (x.mantissa < 0)
    (ofScaled lead.mantissa.natAbs (lead.exponent + x.exponent + cut))

def estimate? (x : Dyadic) : Option Dyadic :=
  toDyadic? (ofDyadic x)

def nearest (x : Dyadic) : Dyadic :=
  let m := magnitude (ofScaled x.mantissa.natAbs x.exponent)
  if x.mantissa < 0 then -m else m

def roundedQuotient (x y : Dyadic) : Int :=
  let pattern := ofQuotient x.mantissa.natAbs y.mantissa.natAbs (x.exponent - y.exponent)
  (x.mantissa * y.mantissa).sign * (magnitude pattern).nearestInt

end Phasor.Binary64
