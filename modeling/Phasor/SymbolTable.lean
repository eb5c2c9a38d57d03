import Phasor.Dictionary
import Phasor.Error

namespace Phasor

/-- The names that expressions may use: constants, and entries of compiled functions. The table does
not keep an entry alive; whether one still counts is for the outside to say, by `live`. -/
structure SymbolTable (ε : Type) where
  constants : Dictionary String Constant
  functions : Dictionary String ε

namespace SymbolTable

variable {ε : Type}

def empty : SymbolTable ε := ⟨.empty, .empty⟩

def define (t : SymbolTable ε) (name : String) (c : Constant) : SymbolTable ε :=
  { t with constants := t.constants.insert name c }

def standard : SymbolTable ε :=
  ((empty.define "e" ⟨.real 0x4005bf0a8b145769, .real .e⟩).define
    "pi" ⟨.real 0x400921fb54442d18, .real .pi⟩).define
    "i" ⟨.i, .i⟩

def constant? (t : SymbolTable ε) (name : String) : Option Constant :=
  t.constants.get? name

def lookup? (t : SymbolTable ε) (live : ε → Bool) (name : String) : Option ε :=
  (t.functions.get? name).filter live

def register (t : SymbolTable ε) (live : ε → Bool) (name : String) (entry : ε) :
    Except Error (SymbolTable ε) :=
  if (t.lookup? live name).isSome then .error (.duplicateFunction name)
  else .ok { t with functions := t.functions.insert name entry }

def functionCount (t : SymbolTable ε) : Nat := t.functions.size

def namesText (names : List String) : String :=
  "[" ++ ", ".intercalate (names.map Text.quoted) ++ "]"

def toText (t : SymbolTable ε) : String :=
  "SymbolTable \x7b constants: " ++ namesText t.constants.keys ++ ", functions: "
    ++ namesText t.functions.keys ++ " \x7d"

end SymbolTable

end Phasor
