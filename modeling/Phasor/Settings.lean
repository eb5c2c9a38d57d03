import Phasor.Text.Blank

namespace Phasor

inductive Optimization where
  | none
  | speed
  | speedAndSize
deriving DecidableEq

namespace Optimization

def name : Optimization → String
  | none => "none"
  | speed => "speed"
  | speedAndSize => "speed_and_size"

end Optimization

/-- Settings of a compilation. The optimization level and the verifier concern the machine code
alone; `extended` admits conjugation as an operator. -/
structure Settings where
  optimization : Optimization := .speed
  verify : Bool := true
  extended : Bool := false
deriving DecidableEq

namespace Settings

def normalized (text : String) : String :=
  String.ofList ((Text.trim text.toList).map Char.toLower)

def optimization? (text : String) : Option Optimization :=
  [Optimization.none, .speed, .speedAndSize].find? (·.name = normalized text)

def flag? (text : String) : Option Bool :=
  if normalized text ∈ ["1", "true", "yes", "on"] then some true
  else if normalized text ∈ ["0", "false", "no", "off"] then some false
  else none

def ofVariables (lookup : String → Option String) : Settings :=
  let level := (lookup "GLAM_OPT_LEVEL").bind optimization?
  let verify := (lookup "GLAM_VERIFY").bind flag?
  { optimization := level.getD .speed, verify := verify.getD true }

end Settings

end Phasor
