import Phasor.Registry

/-!
Straight-line code: one block of instructions, each of which defines one value from earlier ones,
ended by a return. Values are numbered in the order of their definition, the parameters first.
-/

namespace Phasor

inductive ValueType where
  | float
  | address
deriving DecidableEq

inductive Address where
  | arena
  | pinned (index : Nat)
  | entry (id : Nat)
deriving DecidableEq

inductive Part where
  | re
  | im
deriving DecidableEq

inductive FloatOp where
  | add
  | sub
  | mul
deriving DecidableEq

def FloatOp.apply : FloatOp → Float → Float → Float
  | add, x, y => x + y
  | sub, x, y => x - y
  | mul, x, y => x * y

inductive Instr where
  | address (a : Address)
  | const (bits : UInt64)
  | arith (op : FloatOp) (a b : Nat)
  | load (part : Part) (base : Nat)
  | call (function : Nat) (args : List Nat)
  | callEntry (signature : Nat) (target : Nat) (args : List Nat)
  | ret (value : Nat)
deriving DecidableEq

structure Import where
  symbol : String
  routine : Routine
  signature : Nat

structure Code where
  signatures : List (List ValueType) := []
  imports : List Import := []
  body : List Instr := []

def Convention.parameters : Convention → List ValueType
  | floatUnary => [.float, .float, .address]
  | floatBinary => [.float, .float, .float, .float, .address]
  | bigUnary => [.address, .address]
  | bigBinary => [.address, .address, .address]

def Precision.parameters : Precision → List ValueType
  | double => [.float, .float]
  | high => [.address]

end Phasor
