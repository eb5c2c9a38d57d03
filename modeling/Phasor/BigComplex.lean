import Phasor.BigFloat.Elementary
import Phasor.BigFloat.Text

namespace Phasor

structure BigComplex where
  re : BigFloat
  im : BigFloat
deriving DecidableEq

namespace BigComplex

def real (x : BigFloat) : BigComplex := ⟨x, 0⟩

def i : BigComplex := ⟨0, 1⟩

def nan : BigComplex := ⟨.nan, .nan⟩

instance : Inhabited BigComplex := ⟨real 0⟩
instance (n : Nat) : OfNat BigComplex n := ⟨real (OfNat.ofNat n)⟩

def isNaN (z : BigComplex) : Bool := z.re.isNaN || z.im.isNaN

def isZero (z : BigComplex) : Bool := z.re.isZero && z.im.isZero

instance : Add BigComplex := ⟨fun z w => ⟨z.re + w.re, z.im + w.im⟩⟩
instance : Sub BigComplex := ⟨fun z w => ⟨z.re - w.re, z.im - w.im⟩⟩
instance : Mul BigComplex :=
  ⟨fun z w => ⟨z.re * w.re - z.im * w.im, z.re * w.im + z.im * w.re⟩⟩

def div (z w : BigComplex) : BigComplex :=
  let d := w.re * w.re + w.im * w.im
  if d.isZero then nan
  else ⟨(z.re * w.re + z.im * w.im) / d, (z.im * w.re - z.re * w.im) / d⟩

instance : Div BigComplex := ⟨div⟩

def conj (z : BigComplex) : BigComplex := ⟨z.re, -z.im⟩

def exp (z : BigComplex) : BigComplex :=
  let r := z.re.exp
  let (s, c) := z.im.sinCos
  ⟨r * c, r * s⟩

def log (z : BigComplex) : BigComplex :=
  ⟨(z.re * z.re + z.im * z.im).log.scale (-1), z.im.atan2 z.re⟩

def pow (z w : BigComplex) : BigComplex :=
  if z.isZero then
    if w.isZero then 1 else if w.re.isPositive then 0 else nan
  else (w * z.log).exp

def sin (z : BigComplex) : BigComplex :=
  let (s, c) := z.re.sinCos
  let (sh, ch) := z.im.sinhCosh
  ⟨s * ch, c * sh⟩

def cos (z : BigComplex) : BigComplex :=
  let (s, c) := z.re.sinCos
  let (sh, ch) := z.im.sinhCosh
  ⟨c * ch, -(s * sh)⟩

def tan (z : BigComplex) : BigComplex := z.sin / z.cos

def sinh (z : BigComplex) : BigComplex :=
  let (sh, ch) := z.re.sinhCosh
  let (s, c) := z.im.sinCos
  ⟨sh * c, ch * s⟩

def cosh (z : BigComplex) : BigComplex :=
  let (sh, ch) := z.re.sinhCosh
  let (s, c) := z.im.sinCos
  ⟨ch * c, sh * s⟩

def tanh (z : BigComplex) : BigComplex := z.sinh / z.cosh

def toText (z : BigComplex) : String :=
  if z.im.isNegative then z.re.toText ++ "-" ++ (-z.im).toText ++ "i"
  else z.re.toText ++ "+" ++ z.im.toText ++ "i"

end BigComplex

end Phasor
