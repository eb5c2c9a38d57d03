import Phasor.Binary64

namespace Phasor

/-- A decimal numeral as it is written: `-12.50e3` has the digits `12` and `50` and the exponent
`3`. -/
structure Decimal where
  negative : Bool
  whole : List Char
  fraction : List Char
  exponent : Int
deriving DecidableEq

namespace Decimal

def splitSign : List Char → Bool × List Char
  | '-' :: cs => (true, cs)
  | '+' :: cs => (false, cs)
  | cs => (false, cs)

def integer? (cs : List Char) : Option Int :=
  let (negative, ds) := splitSign cs
  if ds ≠ [] ∧ ds.all Char.isDigit then
    let n : Int := Nat.ofDigitChars 10 ds 0
    some (if negative then -n else n)
  else none

def isMark (c : Char) : Bool := c == 'e' || c == 'E'

def scan? (cs : List Char) : Option Decimal := do
  let (negative, body) := splitSign cs
  let mantissa := body.takeWhile (fun c => !isMark c)
  let whole := mantissa.takeWhile (· ≠ '.')
  let fraction := (mantissa.dropWhile (· ≠ '.')).drop 1
  let exponent ←
    match body.dropWhile (fun c => !isMark c) with
    | [] => some 0
    | _ :: rest => integer? rest
  if whole ++ fraction ≠ [] ∧ (whole ++ fraction).all Char.isDigit then
    some ⟨negative, whole, fraction, exponent⟩
  else none

def coefficient (d : Decimal) : Nat :=
  Nat.ofDigitChars 10 (d.whole ++ d.fraction) 0

def scale (d : Decimal) : Int :=
  d.exponent - d.fraction.length

/-- `10 ^ k`, and one for negative `k`. -/
def tenTo (k : Int) : Nat := Nat.pow 10 k.toNat

/-- The pattern of the nearest 64-bit float. Scales far outside the format's range are settled by
the number of digits, before any power of ten is formed. -/
def pattern (d : Decimal) : Nat :=
  let n := d.coefficient
  let size := (d.whole ++ d.fraction).length
  if n = 0 ∨ d.scale + size < -330 then 0
  else if 400 < d.scale then Binary64.infinity
  else Binary64.ofQuotient (n * tenTo d.scale) (tenTo (-d.scale)) 0

def toBits? (d : Decimal) : Option UInt64 :=
  if d.pattern < Binary64.infinity then some (Binary64.withSign d.negative d.pattern) else none

end Decimal

end Phasor
