import Phasor.BigFloat.Basic
import Phasor.BigFloat.Series

namespace Phasor.BigFloat

open Dyadic

def guardDigits : Nat := 32

def constantPrecision : Nat := 256

def piWide : Dyadic :=
  let w := constantPrecision
  let fifth := (Series.atan w (Dyadic.divTo w 1 5)).value
  let rest := (Series.atan w (Dyadic.divTo w 1 239)).value
  ((fifth <<< (2 : Int)).subTo w rest) <<< (2 : Int)

def logTwoWide : Dyadic := (Series.logTwo constantPrecision).value

def piTo (p : Nat) : Dyadic := piWide.roundTo p

def logTwoTo (p : Nat) : Dyadic := logTwoWide.roundTo p

def logTwo64 : Dyadic := scaled 0x162e42fefa39ef (-53)

def halfPi64 : Dyadic := scaled 0x1921fb54442d18 (-52)

def estimateWithin? (bound : Dyadic) (x : Dyadic) : Option Dyadic :=
  (Binary64.estimate? x).filter (fun v => v.abs ≤ bound)

def expShift (estimate : Dyadic) : Int :=
  Binary64.roundedQuotient estimate logTwo64

def expReduced (w : Nat) (x : Dyadic) (k : Int) : Dyadic :=
  (x.subTo w ((logTwoTo w).mulTo w (.ofInt k))) <<< (-10 : Int)

def squareTimes (w : Nat) : Nat → Dyadic → Dyadic
  | 0, x => x
  | n + 1, x => squareTimes w n (x.mulTo w x)

def expBound : Dyadic := .ofInt 1000000000000

def expTo (p : Nat) (x : Dyadic) : BigFloat :=
  if x = 0 then 1
  else
    match estimateWithin? expBound x with
    | none => if x.mantissa < 0 then 0 else nan
    | some v =>
      let w := p + guardDigits
      let k := expShift v
      let root := (Series.exp w (expReduced w x k)).value
      num ((squareTimes w 10 root <<< k).roundTo p)

def exp : BigFloat → BigFloat
  | nan => nan
  | num x => expTo precision x

/-- With `x = m * 2 ^ e` and `1/2 ≤ m < 1`, the logarithm is
`e * log 2 + 2 * artanh ((m - 1) / (m + 1))`. -/
def logTo (p : Nat) (x : Dyadic) : BigFloat :=
  if x.mantissa ≤ 0 then nan
  else if x = 1 then 0
  else
    let w := p + guardDigits
    let e := x.top
    let m := x <<< (-e)
    let z := (m.subTo w 1).divTo w (m.addTo w 1)
    let sum := (Series.artanh w z).value
    num ((((logTwoTo w).mulTo w (.ofInt e)).addTo w (sum <<< (1 : Int))).roundTo p)

def log : BigFloat → BigFloat
  | nan => nan
  | num x => logTo precision x

def quadrant (estimate : Dyadic) : Int :=
  Binary64.roundedQuotient estimate halfPi64

def quarterTurns (q : Int) (sin cos : Dyadic) : Dyadic × Dyadic :=
  match q % 4 with
  | 0 => (sin, cos)
  | 1 => (cos, -sin)
  | 2 => (-sin, -cos)
  | _ => (-cos, sin)

def quadrantReduced (w : Nat) (x : Dyadic) (q : Int) : Dyadic :=
  x.subTo w ((piTo w >>> (1 : Int)).mulTo w (.ofInt q))

def angleBound : Dyadic := .ofInt 1000000000000000

def sinCosTo (p : Nat) (x : Dyadic) : BigFloat × BigFloat :=
  if x = 0 then (0, 1)
  else
    match estimateWithin? angleBound x with
    | none => (nan, nan)
    | some v =>
      let w := p + guardDigits
      let q := quadrant v
      let r := quadrantReduced w x q
      let (s, c) := quarterTurns q (Series.sin w r).value (Series.cos w r).value
      (num (s.roundTo p), num (c.roundTo p))

def sinCos : BigFloat → BigFloat × BigFloat
  | nan => (nan, nan)
  | num x => sinCosTo precision x

/-- Hyperbolic sine and cosine. Near zero the sine is summed as a series, since the difference of
the two exponentials would cancel. -/
def sinhCoshTo (p : Nat) (x : Dyadic) : BigFloat × BigFloat :=
  if x = 0 then (0, 1)
  else
    let w := p + guardDigits
    let up := expTo w x
    let down := BigFloat.divTo w 1 up
    let cosh := (up.addTo w down).scale (-1)
    let sinh :=
      if x.top < -3 then num (Series.sinh w x).value
      else (up.subTo w down).scale (-1)
    (sinh.roundTo p, cosh.roundTo p)

def sinhCosh : BigFloat → BigFloat × BigFloat
  | nan => (nan, nan)
  | num x => sinhCoshTo precision x

/-- One step of `atan y = 2 * atan (y / (1 + sqrt (1 + y^2)))`. -/
def halveAngle (w : Nat) (y : Dyadic) : Dyadic :=
  let root := (Dyadic.addTo w 1 (y.mulTo w y)).sqrtTo w
  y.divTo w (Dyadic.addTo w 1 root)

def exceedsOne (x : Dyadic) : Bool :=
  match Binary64.estimate? x with
  | none => true
  | some v => 1 < v

def atanTo (p : Nat) (x : Dyadic) : Dyadic :=
  if x = 0 then 0
  else
    let w := p + guardDigits
    let reflect := exceedsOne x.abs
    let y := if reflect then Dyadic.divTo w 1 x.abs else x.abs
    let angle := (Series.atan w (halveAngle w (halveAngle w y))).value <<< (2 : Int)
    let angle := if reflect then (piTo w >>> (1 : Int)).subTo w angle else angle
    (if x.mantissa < 0 then -angle else angle).roundTo p

def atan2To (p : Nat) (y x : Dyadic) : Dyadic :=
  if x = 0 then
    if y = 0 then 0
    else if y.mantissa < 0 then -(piTo p >>> (1 : Int))
    else piTo p >>> (1 : Int)
  else
    let w := p + guardDigits
    let angle := atanTo w (y.divTo w x)
    let angle :=
      if 0 < x.mantissa then angle
      else if y.mantissa < 0 then angle.subTo w (piTo w)
      else angle.addTo w (piTo w)
    angle.roundTo p

def atan2 : BigFloat → BigFloat → BigFloat := map₂ (atan2To precision)

def pi : BigFloat := num (piTo precision)

def e : BigFloat := exp 1

end Phasor.BigFloat
