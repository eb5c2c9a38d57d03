import Phasor.Routine

namespace Phasor

inductive Capability where
  | routine (convention : Convention)
  | entryCall
deriving DecidableEq

namespace Capability

def all : List Capability :=
  [routine .floatUnary, routine .floatBinary, routine .bigUnary, routine .bigBinary, entryCall]

def name : Capability → String
  | routine .floatUnary => "f64-unary"
  | routine .floatBinary => "f64-binary"
  | routine .bigUnary => "mp-unary"
  | routine .bigBinary => "mp-binary"
  | entryCall => "entry-call"

end Capability

structure Capabilities where
  members : List Capability := []

namespace Capabilities

def contains (s : Capabilities) (c : Capability) : Bool := c ∈ s.members

def insert (s : Capabilities) (c : Capability) : Capabilities := ⟨s.members.insert c⟩

def isEmpty (s : Capabilities) : Bool := s.members.isEmpty

def toText (s : Capabilities) : String :=
  if s.isEmpty then "none"
  else " ".intercalate ((Capability.all.filter s.contains).map Capability.name)

def bits (s : Capabilities) : Nat :=
  Capability.all.foldr (fun c n => 2 * n + if s.contains c then 1 else 0) 0

end Capabilities

end Phasor
