import Phasor.BigComplex

namespace Phasor

structure FloatComplex where
  re : Float
  im : Float

namespace FloatComplex

def real (x : Float) : FloatComplex := ⟨x, 0⟩

def i : FloatComplex := ⟨0, 1⟩

def undefined : FloatComplex := ⟨0 / 0, 0 / 0⟩

instance : Inhabited FloatComplex := ⟨real 0⟩

def isZero (z : FloatComplex) : Bool := z.re == 0 && z.im == 0

instance : Add FloatComplex := ⟨fun z w => ⟨z.re + w.re, z.im + w.im⟩⟩
instance : Sub FloatComplex := ⟨fun z w => ⟨z.re - w.re, z.im - w.im⟩⟩
instance : Mul FloatComplex :=
  ⟨fun z w => ⟨z.re * w.re - z.im * w.im, z.re * w.im + z.im * w.re⟩⟩

def div (z w : FloatComplex) : FloatComplex :=
  let d := w.re * w.re + w.im * w.im
  ⟨(z.re * w.re + z.im * w.im) / d, (z.im * w.re - z.re * w.im) / d⟩

instance : Div FloatComplex := ⟨div⟩

def unscale (z : FloatComplex) (d : Float) : FloatComplex := ⟨z.re / d, z.im / d⟩

def conj (z : FloatComplex) : FloatComplex := ⟨z.re, -z.im⟩

/-- The distance from zero, correctly rounded. An infinite part decides even beside an undefined
one. -/
def norm (z : FloatComplex) : Float :=
  if z.re.isInf || z.im.isInf then 1 / 0
  else
    match Binary64.toDyadic? z.re.toBits, Binary64.toDyadic? z.im.toBits with
    | some x, some y =>
      let s := x * x + y * y
      .ofBits (Binary64.withSign false (Binary64.ofSqrt s.mantissa.natAbs s.exponent))
    | _, _ => 0 / 0

def exp (z : FloatComplex) : FloatComplex :=
  if z.re.isInf && z.re < 0 && !z.im.isFinite then real 0
  else if z.re.isInf && 0 < z.re && (z.im == 0 || !z.im.isFinite) then
    ⟨z.re, if z.im.isInf then 0 / 0 else z.im⟩
  else if z.re.isNaN && z.im == 0 then z
  else
    let r := z.re.exp
    ⟨r * z.im.cos, r * z.im.sin⟩

def log (z : FloatComplex) : FloatComplex := ⟨z.norm.log, z.im.atan2 z.re⟩

def pow (z w : FloatComplex) : FloatComplex :=
  if w.isZero then real 1
  else if z.isZero then if 0 < w.re then real 0 else undefined
  else (w * z.log).exp

def sin (z : FloatComplex) : FloatComplex :=
  ⟨z.re.sin * z.im.cosh, z.re.cos * z.im.sinh⟩

def cos (z : FloatComplex) : FloatComplex :=
  ⟨z.re.cos * z.im.cosh, -z.re.sin * z.im.sinh⟩

def tan (z : FloatComplex) : FloatComplex :=
  let a := z.re + z.re
  let b := z.im + z.im
  unscale ⟨a.sin, b.sinh⟩ (a.cos + b.cosh)

def sinh (z : FloatComplex) : FloatComplex :=
  ⟨z.re.sinh * z.im.cos, z.re.cosh * z.im.sin⟩

def cosh (z : FloatComplex) : FloatComplex :=
  ⟨z.re.cosh * z.im.cos, z.re.sinh * z.im.sin⟩

def tanh (z : FloatComplex) : FloatComplex :=
  let a := z.re + z.re
  let b := z.im + z.im
  unscale ⟨a.sinh, b.sin⟩ (a.cosh + b.cos)

def widen (z : FloatComplex) : BigComplex := ⟨.ofFloat z.re, .ofFloat z.im⟩

def ofBig (z : BigComplex) : FloatComplex := ⟨z.re.toFloat, z.im.toFloat⟩

end FloatComplex

/-- The bit patterns of the two parts of a complex float. Unlike the value, they tell apart the
patterns that encode no number. -/
structure FloatPattern where
  re : UInt64
  im : UInt64
deriving DecidableEq

namespace FloatPattern

def real (bits : UInt64) : FloatPattern := ⟨bits, 0⟩

def i : FloatPattern := ⟨0, 0x3ff0000000000000⟩

def value (z : FloatPattern) : FloatComplex := ⟨.ofBits z.re, .ofBits z.im⟩

end FloatPattern

end Phasor
