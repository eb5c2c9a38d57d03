import Phasor.SymbolTable

namespace Phasor

/-- The entry of an installed function: its precision and its number among the functions of that
precision. -/
structure EntryRef where
  precision : Precision
  id : Nat
deriving DecidableEq

structure Scope where
  constant? : String → Option Constant
  entry? : String → Option EntryRef

def SymbolTable.scope (t : SymbolTable EntryRef) (live : EntryRef → Bool) : Scope :=
  ⟨t.constant?, t.lookup? live⟩

namespace Scope

def constant (s : Scope) (p : Precision) (name : String) : Except Error p.Literal :=
  match s.constant? name with
  | some c => .ok (c.at p)
  | none => .error (.unknownSymbol name)

def entry (s : Scope) (p : Precision) (name : String) : Except Error Nat :=
  match s.entry? name with
  | some e =>
    if e.precision = p then .ok e.id else .error (.precisionMismatch name p e.precision)
  | none => .error (.unknownFunction name)

end Scope

def Precision.number (p : Precision) (text : String) : Except Error p.Literal :=
  match p.literal text with
  | .ok z => .ok z
  | .error .malformed => .error (.invalidNumber text)
  | .error .exponentOverflow => .error .exponentOverflow

end Phasor
