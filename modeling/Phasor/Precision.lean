import Phasor.FloatComplex
import Phasor.Operator

namespace Phasor

namespace FloatComplex

def binary : BinaryOp → FloatComplex → FloatComplex → FloatComplex
  | .add, z, w => z + w
  | .sub, z, w => z - w
  | .mul, z, w => z * w
  | .div, z, w => z / w
  | .pow, z, w => z.pow w

def unary : UnaryOp → FloatComplex → FloatComplex
  | .sin => sin
  | .cos => cos
  | .tan => tan
  | .sinh => sinh
  | .cosh => cosh
  | .tanh => tanh
  | .conj => conj

end FloatComplex

namespace BigComplex

def binary : BinaryOp → BigComplex → BigComplex → BigComplex
  | .add, z, w => z + w
  | .sub, z, w => z - w
  | .mul, z, w => z * w
  | .div, z, w => z / w
  | .pow, z, w => z.pow w

def unary : UnaryOp → BigComplex → BigComplex
  | .sin => sin
  | .cos => cos
  | .tan => tan
  | .sinh => sinh
  | .cosh => cosh
  | .tanh => tanh
  | .conj => conj

end BigComplex

inductive Precision where
  | double
  | high
deriving DecidableEq

namespace Precision

abbrev Value : Precision → Type
  | double => FloatComplex
  | high => BigComplex

def zero : (p : Precision) → p.Value
  | double => .real 0
  | high => .real 0

instance (p : Precision) : Inhabited p.Value := ⟨p.zero⟩

abbrev Literal : Precision → Type
  | double => FloatPattern
  | high => BigComplex

def value : (p : Precision) → p.Literal → p.Value
  | double, z => z.value
  | high, z => z

def name : Precision → String
  | double => "double"
  | high => "high"

def title : Precision → String
  | double => "Double"
  | high => "High"

def tag : Precision → String
  | double => "f64"
  | high => "mp"

open BigFloat (LiteralError)

def literal : (p : Precision) → String → Except LiteralError p.Literal
  | double, text =>
    match (Decimal.scan? text.toList).bind Decimal.toBits? with
    | some bits => .ok (.real bits)
    | none => .error .malformed
  | high, text => (BigFloat.ofText text).map BigComplex.real

def binary : (p : Precision) → BinaryOp → p.Value → p.Value → p.Value
  | double => FloatComplex.binary
  | high => BigComplex.binary

def unary : (p : Precision) → UnaryOp → p.Value → p.Value
  | double => FloatComplex.unary
  | high => BigComplex.unary

end Precision

structure Constant where
  double : FloatPattern
  high : BigComplex

def Constant.at (c : Constant) : (p : Precision) → p.Literal
  | .double => c.double
  | .high => c.high

end Phasor
