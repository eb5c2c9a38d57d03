import Phasor.Arena
import Phasor.Precision

namespace Phasor

/-- How a routine takes its operands: as two floats each, or by address. The arena for the result
comes last. -/
inductive Convention where
  | floatUnary
  | floatBinary
  | bigUnary
  | bigBinary
deriving DecidableEq

inductive Routine where
  | binary (op : BinaryOp)
  | unary (op : UnaryOp)
  | wrap
  | copy
deriving DecidableEq

namespace Routine

def name : Routine → String
  | binary op => op.name
  | unary op => op.symbol
  | wrap => "wrap"
  | copy => "copy"

def symbol (r : Routine) (p : Precision) : String :=
  "glam_" ++ p.tag ++ "_" ++ r.name

def arity : Routine → Nat
  | binary _ => 2
  | unary _ | wrap | copy => 1

def convention (r : Routine) (p : Precision) : Convention :=
  match p, r.arity with
  | .double, 2 => .floatBinary
  | .double, _ => .floatUnary
  | .high, 2 => .bigBinary
  | .high, _ => .bigUnary

def catalog (p : Precision) : List Routine :=
  BinaryOp.all.map binary ++ UnaryOp.all.map unary
    ++ match p with
      | .double => [wrap]
      | .high => [copy]

def result? (r : Routine) (p : Precision) : List p.Value → Option p.Value
  | [z, w] =>
    match r with
    | binary op => some (p.binary op z w)
    | _ => none
  | [z] =>
    match r with
    | unary op => some (p.unary op z)
    | wrap | copy => some z
    | binary _ => none
  | _ => none

/-- Stores the result in the next slot of an arena. The operands are read before, so one may lie in
that slot. -/
def call? (r : Routine) (p : Precision) (zs : List p.Value) (a : Arena p.Value) :
    Option (Nat × Arena p.Value) :=
  (r.result? p zs).bind a.store?

end Routine

end Phasor
