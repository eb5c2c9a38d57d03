import Phasor.BigFloat.Basic
import Phasor.Decimal
import Phasor.Text.Blank

namespace Phasor.BigFloat

open Dyadic
open Decimal (tenTo)

/-- Why a text is no literal. The exponent of a literal is a 64-bit integer whose magnitude is taken
before its range is checked; the one integer without a magnitude is a fault of its own. -/
inductive LiteralError where
  | malformed
  | exponentOverflow
deriving DecidableEq

def maxScale : Nat := 100000

def int64Bound : Int := 0x8000000000000000

def fitsInt64 (n : Int) : Bool := -int64Bound ≤ n && n < int64Bound

def ofDecimal (d : Decimal) : Except LiteralError BigFloat :=
  if !fitsInt64 d.exponent || !fitsInt64 d.scale then .error .malformed
  else if d.scale = -int64Bound then .error .exponentOverflow
  else if maxScale < d.scale.natAbs then .error .malformed
  else
    let n : Int := if d.negative then -d.coefficient else d.coefficient
    .ok (num (
      if 0 ≤ d.scale then roundScaled precision (n * tenTo d.scale) 0
      else roundQuotient precision n (tenTo (-d.scale)) 0))

def ofText (text : String) : Except LiteralError BigFloat :=
  match Decimal.scan? (Text.trim text.toList) with
  | none => .error .malformed
  | some d => ofDecimal d

def logTenTwo64 : Dyadic := scaled 0x134413509f79ff (-54)

def decimalEstimate (x : Dyadic) : Int :=
  (Binary64.nearest (Binary64.nearest (.ofInt (x.top - 1)) * logTenTwo64)).floorInt

def decimalScaled (x : Dyadic) (p : Int) : Nat :=
  let n := (x.mantissa.natAbs * tenTo p) <<< x.exponent.toNat
  let d := tenTo (-p) <<< (-x.exponent).toNat
  (2 * n + d) / (2 * d)

def settleExponent (x : Dyadic) : (fuel : Nat) → (k : Int) → (last : Nat) → Nat × Int
  | 0, k, last => (last, k)
  | fuel + 1, k, _ =>
    let n := decimalScaled x (digits - 1 - k)
    if 10 ^ digits ≤ n then settleExponent x fuel (k + 1) n
    else if n < 10 ^ (digits - 1) then settleExponent x fuel (k - 1) n
    else (n, k)

def significant (n : Nat) : List Char :=
  match ((Nat.toDigits 10 n).reverse.dropWhile (· == '0')).reverse with
  | [] => ['0']
  | ds => ds

def integerText (n : Int) : List Char :=
  if n < 0 then '-' :: Nat.toDigits 10 n.natAbs else Nat.toDigits 10 n.natAbs

def layout (ds : List Char) (k : Int) : List Char :=
  if -5 ≤ k ∧ k < digits then
    if 0 ≤ k then
      let width := k.toNat + 1
      if ds.length ≤ width then ds ++ List.replicate (width - ds.length) '0'
      else ds.take width ++ '.' :: ds.drop width
    else '0' :: '.' :: List.replicate (-k - 1).toNat '0' ++ ds
  else if 1 < ds.length then ds.take 1 ++ '.' :: ds.drop 1 ++ 'e' :: integerText k
  else ds ++ 'e' :: integerText k

def toText : BigFloat → String
  | nan => "NaN"
  | num x =>
    if x = 0 then "0"
    else
      let (n, k) := settleExponent x 4 (decimalEstimate x) 0
      let body := layout (significant n) k
      String.ofList (if x.mantissa < 0 then '-' :: body else body)

end Phasor.BigFloat
