import Phasor.Binary64

namespace Phasor

inductive BigFloat where
  | nan
  | num (x : Dyadic)
deriving DecidableEq

namespace BigFloat

def precision : Nat := 96

def digits : Nat := 25

def ofInt (n : Int) : BigFloat := num (.ofInt n)

instance : Inhabited BigFloat := ⟨num 0⟩
instance (n : Nat) : OfNat BigFloat n := ⟨ofInt n⟩

def isNaN : BigFloat → Bool
  | nan => true
  | num _ => false

def isZero (x : BigFloat) : Bool := x == 0

def isNegative : BigFloat → Bool
  | nan => false
  | num x => x.mantissa < 0

def isPositive : BigFloat → Bool
  | nan => false
  | num x => 0 < x.mantissa

def map (f : Dyadic → Dyadic) : BigFloat → BigFloat
  | nan => nan
  | num x => num (f x)

def map₂ (f : Dyadic → Dyadic → Dyadic) : BigFloat → BigFloat → BigFloat
  | num x, num y => num (f x y)
  | _, _ => nan

def roundTo (p : Nat) : BigFloat → BigFloat := map (Dyadic.roundTo p)

def scale (x : BigFloat) (k : Int) : BigFloat := x.map (· <<< k)

def abs : BigFloat → BigFloat := map Dyadic.abs

def addTo (p : Nat) : BigFloat → BigFloat → BigFloat := map₂ (Dyadic.addTo p)

def subTo (p : Nat) : BigFloat → BigFloat → BigFloat := map₂ (Dyadic.subTo p)

def mulTo (p : Nat) : BigFloat → BigFloat → BigFloat := map₂ (Dyadic.mulTo p)

def divTo (p : Nat) (x y : BigFloat) : BigFloat :=
  if y = 0 then nan else map₂ (Dyadic.divTo p) x y

def sqrtTo (p : Nat) (x : BigFloat) : BigFloat :=
  if x.isNegative then nan else x.map (Dyadic.sqrtTo p)

instance : Neg BigFloat := ⟨map (-·)⟩
instance : Add BigFloat := ⟨addTo precision⟩
instance : Sub BigFloat := ⟨subTo precision⟩
instance : Mul BigFloat := ⟨mulTo precision⟩
instance : Div BigFloat := ⟨divTo precision⟩

def sqrt : BigFloat → BigFloat := sqrtTo precision

def ofBits (bits : UInt64) : BigFloat :=
  match Binary64.toDyadic? bits with
  | some x => num x
  | none => nan

def toBits : BigFloat → UInt64
  | nan => 0x7ff8000000000000
  | num x => Binary64.ofDyadic x

def ofFloat (x : Float) : BigFloat := ofBits x.toBits

def toFloat (x : BigFloat) : Float := Float.ofBits x.toBits

end BigFloat

end Phasor
