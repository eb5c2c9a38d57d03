import Phasor.Precision
import Phasor.Text.Quoted

namespace Phasor

inductive BackendError where
  | missingRoutine (symbol : String)
  | splitOperand
  | unfinished
deriving DecidableEq

inductive InstallError where
  | refused (message : String)
  | wasReleased (name : String)
  | wasRefused (name : String)
  | notReady (name : String)
deriving DecidableEq

/-- Why an expression was not compiled or not evaluated. The last cause stands for code that cannot
run, which no compiled function is. -/
inductive Error where
  | unknownSymbol (name : String)
  | unknownOperator (symbol : String)
  | unknownFunction (name : String)
  | precisionMismatch (name : String) (expected found : Precision)
  | emptyExpression
  | invalidNumber (literal : String)
  | exponentOverflow
  | stackUnderflow (operator : String)
  | unbalancedExpression (remaining : Nat)
  | duplicateFunction (name : String)
  | installRejected (cause : InstallError)
  | backend (cause : BackendError)
  | fault
deriving DecidableEq

def BackendError.message : BackendError → String
  | missingRoutine symbol => "no routine " ++ symbol
  | splitOperand => "split operand in a high precision function"
  | unfinished => "entry function was never finished"

def InstallError.message : InstallError → String
  | refused message => message
  | wasReleased name => name ++ " was released"
  | wasRefused name => name ++ " was already rejected by a loader"
  | notReady name => name ++ " is not ready after install"

def Error.message : Error → String
  | unknownSymbol name => "unknown symbol: " ++ name
  | unknownOperator symbol => "unknown operator: " ++ symbol
  | unknownFunction name => "unknown function: " ++ name
  | precisionMismatch name expected found =>
    s!"cannot call {name}: expected a {expected.name} function, found {found.name}"
  | emptyExpression => "empty expression"
  | invalidNumber literal => "invalid number literal: " ++ Text.quoted literal
  | exponentOverflow => "attempt to negate with overflow"
  | stackUnderflow operator => "not enough operands for " ++ operator
  | unbalancedExpression remaining => s!"expression leaves {remaining} values on the stack"
  | duplicateFunction name => s!"function {name} is already defined"
  | installRejected cause => "install rejected: " ++ cause.message
  | backend cause => "code generation failed: " ++ cause.message
  | fault => "the code cannot run"

end Phasor
