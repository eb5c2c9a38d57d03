
namespace Dyadic

def bitLength (n : Nat) : Nat :=
  if n = 0 then 0 else n.log2 + 1

/-- `n / 2 ^ s` to the nearest integer, a half going away from zero. No power of two is formed, so
`s` may be huge. -/
def shiftRound (n : Int) : (s : Nat) → Int
  | 0 => n
  | s + 1 => n.sign * ((n.natAbs >>> s + 1) >>> 1 : Nat)

def scaled (m e : Int) : Dyadic :=
  .ofIntWithPrec m (-e)

def roundScaled (p : Nat) (m e : Int) : Dyadic :=
  let s := bitLength m.natAbs - p
  scaled (shiftRound m s) (e + s)

/-- `n / d * 2 ^ e` to the nearest number with a mantissa of at most `p` binary digits. The integer
quotient keeps two digits more than the result, so dropping its remainder cannot move a half. -/
def roundQuotient (p : Nat) (n d e : Int) : Dyadic :=
  let s := p + 2 + bitLength d.natAbs - bitLength n.natAbs
  roundScaled p ((n <<< s).tdiv d) (e - s)

def mantissa : Dyadic → Int
  | .zero => 0
  | .ofOdd n _ _ => n

def exponent : Dyadic → Int
  | .zero => 0
  | .ofOdd _ k _ => -k

/-- The exponent just above the leading binary digit: `2 ^ (x.top - 1) ≤ |x| < 2 ^ x.top` unless `x`
is zero. -/
def top (x : Dyadic) : Int :=
  x.exponent + bitLength x.mantissa.natAbs

def abs (x : Dyadic) : Dyadic :=
  if x.mantissa < 0 then -x else x

def roundTo (p : Nat) (x : Dyadic) : Dyadic :=
  roundScaled p x.mantissa x.exponent

def roundAt (f : Int) (x : Dyadic) : Dyadic :=
  if f ≤ x.exponent then x
  else scaled (shiftRound x.mantissa (f - x.exponent).toNat) f

def nearestInt (x : Dyadic) : Int :=
  if 0 ≤ x.exponent then x.mantissa <<< x.exponent.toNat
  else shiftRound x.mantissa (-x.exponent).toNat

def floorInt (x : Dyadic) : Int :=
  if 0 ≤ x.exponent then x.mantissa <<< x.exponent.toNat
  else x.mantissa >>> (-x.exponent).toNat

/-- Sum at precision `p`. Both operands are first cut to a window of `p + 64` digits below the
larger one, which bounds the work however far apart they are. -/
def addTo (p : Nat) (x y : Dyadic) : Dyadic :=
  if x = 0 then y.roundTo p
  else if y = 0 then x.roundTo p
  else
    let f := max x.top y.top - (p + 64)
    (x.roundAt f + y.roundAt f).roundTo p

def subTo (p : Nat) (x y : Dyadic) : Dyadic :=
  x.addTo p (-y)

def mulTo (p : Nat) (x y : Dyadic) : Dyadic :=
  (x * y).roundTo p

def divTo (p : Nat) (x y : Dyadic) : Dyadic :=
  if y = 0 then 0 else roundQuotient p x.mantissa y.mantissa (x.exponent - y.exponent)

/-- Square root of a non-negative number at precision `p`. The mantissa is widened to `2 * (p + 2)`
digits and to an even exponent before the integer root is taken. -/
def sqrtTo (p : Nat) (x : Dyadic) : Dyadic :=
  let s := 2 * (p + 2) - bitLength x.mantissa.natAbs
  let s := if (x.exponent - s) % 2 = 0 then s else s + 1
  roundScaled p (Nat.sqrt (x.mantissa.toNat <<< s)) ((x.exponent - s) / 2)

end Dyadic
