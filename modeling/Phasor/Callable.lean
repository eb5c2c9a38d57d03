import Phasor.Compile

namespace Phasor

abbrev Loader (p : Precision) := Artifact p → Except String Unit

namespace Loader

def accepting (p : Precision) : Loader p := fun _ => .ok ()

def refusing (p : Precision) (message : String) : Loader p := fun _ => .error message

end Loader

/-- The life of a compiled function. It is built, becomes ready when a loader accepts its artifact,
and ends released. An artifact that a loader refused is spent. -/
inductive Stage (p : Precision) where
  | built (artifact : Artifact p)
  | spent
  | ready (id : Nat)
  | released

def Stage.name {p : Precision} : Stage p → String
  | built _ | spent => "unbuilt"
  | ready _ => "ready"
  | released => "released"

structure Compiled (p : Precision) where
  name : String
  key : String
  parameter : String
  header : String
  code : Code
  arenaSize : Nat
  stage : Stage p

namespace Compiled

variable {p : Precision}

def ofArtifact (name key parameter : String) (a : Artifact p) : Compiled p :=
  ⟨name, key, parameter, a.header name key parameter, a.code, a.arenaSize, .built a⟩

def entry? (f : Compiled p) : Option Nat :=
  match f.stage with
  | .ready id => some id
  | _ => none

def isReady (f : Compiled p) : Bool := f.entry?.isSome

/-- Hands the artifact to a loader. On success the artifact comes back if it is to be installed now,
under the number `id`, and nothing if the function was ready before. -/
def install (f : Compiled p) (loader : Loader p) (id : Nat) :
    Except Error (Option (Artifact p)) × Compiled p :=
  match f.stage with
  | .ready _ => (.ok none, f)
  | .released => (.error (.installRejected (.wasReleased f.key)), f)
  | .spent => (.error (.installRejected (.wasRefused f.key)), f)
  | .built a =>
    match loader a with
    | .ok () => (.ok (some a), { f with stage := .ready id })
    | .error message => (.error (.installRejected (.refused message)), { f with stage := .spent })

def release (f : Compiled p) : Compiled p :=
  { f with stage := .released }

/-- The installed functions that this one keeps: itself while it is ready, and its callees while it
waits for a loader. -/
def held (f : Compiled p) : List Nat :=
  match f.stage with
  | .built a => a.callees
  | .ready id => [id]
  | .spent | .released => []

def listing (f : Compiled p) : String := f.code.toText p.parameters

def toText (f : Compiled p) : String :=
  s!"CompiledFunction \x7b fxn_name: {Text.quoted f.key}, precision: {p.title}, "
    ++ s!"state: {Text.quoted f.stage.name}, arena_size: {f.arenaSize} \x7d"

end Compiled

structure Builtin (p : Precision) where
  name : String
  run : p.Value → p.Value

def Builtin.header {p : Precision} (f : Builtin p) : String :=
  "; builtin " ++ f.name

def Builtin.toText {p : Precision} (f : Builtin p) : String :=
  s!"BuiltinFunction \x7b name: {Text.quoted f.name}, precision: {p.title} \x7d"

inductive Callable (p : Precision) where
  | compiled (f : Compiled p)
  | builtin (f : Builtin p)

namespace Callable

variable {p : Precision}

def name : Callable p → String
  | compiled f => f.name
  | builtin f => f.name

def isReady : Callable p → Bool
  | compiled f => f.isReady
  | builtin _ => true

def header : Callable p → String
  | compiled f => f.header
  | builtin f => f.header

def entry? : Callable p → Option Nat
  | compiled f => f.entry?
  | builtin _ => none

def held : Callable p → List Nat
  | compiled f => f.held
  | builtin _ => []

def toText : Callable p → String
  | compiled f => "Compiled(" ++ f.toText ++ ")"
  | builtin f => "Builtin(" ++ f.toText ++ ")"

end Callable

end Phasor
