import Phasor.Code.Builder
import Phasor.Code.Listing
import Phasor.Settings
import Phasor.Scope
import Phasor.Token

namespace Phasor

variable {p : Precision}

def Build.token (scope : Scope) (settings : Settings) (parameter : String) : Token → Build p Unit
  | .number text => do pushConstant (← p.number text)
  | .identifier name => do
    if name = parameter then pushParameter else pushConstant (← scope.constant p name)
  | .operator symbol => do
    match Operator.ofSymbol? settings.extended symbol with
    | some op => applyOperator op
    | none => throw (.unknownOperator symbol)
  | .call name => do applyEntry name (← scope.entry p name)

def Build.expression (scope : Scope) (settings : Settings) (parameter : String) (tokens : List Token) :
    Build p Nat := do
  if tokens.isEmpty then throw .emptyExpression
  tokens.forM (token scope settings parameter)
  finish

def Artifact.ofTokens (scope : Scope) (settings : Settings) (parameter : String) (tokens : List Token) :
    Except Error (Artifact p) :=
  match (Build.expression scope settings parameter tokens).run.run {} with
  | (.ok _, b) => Artifact.ofBuilder b
  | (.error e, _) => .error e

end Phasor
