namespace Phasor

inductive Token where
  | number (literal : String)
  | identifier (name : String)
  | operator (symbol : String)
  | call (name : String)
deriving DecidableEq

namespace Token

inductive Kind where
  | number
  | identifier
  | operator
  | call
deriving DecidableEq

namespace Kind

def all : List Kind := [number, identifier, operator, call]

def name : Kind → String
  | number => "Number"
  | identifier => "Identifier"
  | operator => "Operator"
  | call => "Call"

def ofName? (name : String) : Option Kind :=
  all.find? (·.name = name)

end Kind

def ofKind : Kind → String → Token
  | .number => number
  | .identifier => identifier
  | .operator => operator
  | .call => call

def kind : Token → Kind
  | number _ => .number
  | identifier _ => .identifier
  | operator _ => .operator
  | call _ => .call

def value : Token → String
  | number s | identifier s | operator s | call s => s

def toText : Token → String
  | call name => name ++ "()"
  | t => t.value

end Token

end Phasor
