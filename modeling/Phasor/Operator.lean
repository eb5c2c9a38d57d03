namespace Phasor

inductive BinaryOp where
  | add
  | sub
  | mul
  | div
  | pow
deriving DecidableEq

namespace BinaryOp

def all : List BinaryOp := [add, sub, mul, div, pow]

def symbol : BinaryOp → String
  | add => "+"
  | sub => "-"
  | mul => "*"
  | div => "/"
  | pow => "^"

def name : BinaryOp → String
  | add => "add"
  | sub => "sub"
  | mul => "mul"
  | div => "div"
  | pow => "pow"

def ofSymbol? (symbol : String) : Option BinaryOp :=
  all.find? (·.symbol = symbol)

end BinaryOp

inductive UnaryOp where
  | sin
  | cos
  | tan
  | sinh
  | cosh
  | tanh
  | conj
deriving DecidableEq

namespace UnaryOp

def all : List UnaryOp := [sin, cos, tan, sinh, cosh, tanh, conj]

def symbol : UnaryOp → String
  | sin => "sin"
  | cos => "cos"
  | tan => "tan"
  | sinh => "sinh"
  | cosh => "cosh"
  | tanh => "tanh"
  | conj => "conj"

def ofSymbol? (extended : Bool) (symbol : String) : Option UnaryOp :=
  all.find? (fun op => op.symbol = symbol && (extended || op ≠ conj))

end UnaryOp

inductive Operator where
  | binary (op : BinaryOp)
  | unary (op : UnaryOp)
deriving DecidableEq

namespace Operator

def symbol : Operator → String
  | binary op => op.symbol
  | unary op => op.symbol

def arity : Operator → Nat
  | binary _ => 2
  | unary _ => 1

def ofSymbol? (extended : Bool) (symbol : String) : Option Operator :=
  match BinaryOp.ofSymbol? symbol with
  | some op => some (binary op)
  | none => (UnaryOp.ofSymbol? extended symbol).map unary

end Operator

end Phasor
