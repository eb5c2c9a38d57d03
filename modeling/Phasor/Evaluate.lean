import Phasor.Code.Machine
import Phasor.Scope
import Phasor.Token

namespace Phasor

abbrev Eval (p : Precision) := ExceptT Error (StateM (Memory p))

namespace Eval

variable {p : Precision}

def enter (functions : List Installed) (id : Nat) (z : p.Value) : Eval p p.Value := do
  match Machine.enter functions id z (← get) with
  | some (w, m) =>
    set m
    return w
  | none => throw .fault

def token (scope : Scope) (functions : List Installed) (parameter : String) (x : p.Value)
    (stack : List p.Value) : Token → Eval p (List p.Value)
  | .number text => return p.value (← p.number text) :: stack
  | .identifier name =>
    if name = parameter then return x :: stack
    else return p.value (← scope.constant p name) :: stack
  | .operator symbol =>
    match Operator.ofSymbol? true symbol, stack with
    | some (.binary op), w :: z :: rest => return p.binary op z w :: rest
    | some (.unary op), z :: rest => return p.unary op z :: rest
    | some _, _ => throw (.stackUnderflow symbol)
    | none, _ => throw (.unknownOperator symbol)
  | .call name => do
    let id ← scope.entry p name
    match stack with
    | z :: rest => return (← enter functions id z) :: rest
    | [] => throw (.stackUnderflow name)

def expression (scope : Scope) (functions : List Installed) (parameter : String) (x : p.Value)
    (tokens : List Token) : Eval p p.Value := do
  if tokens.isEmpty then throw .emptyExpression
  match ← tokens.foldlM (token scope functions parameter x) [] with
  | [z] => return z
  | stack => throw (.unbalancedExpression stack.length)

end Eval

end Phasor
