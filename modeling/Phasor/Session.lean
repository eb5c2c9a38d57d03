import Phasor.Evaluate
import Phasor.Callable

/-!
A session owns functions of both precisions and one symbol table. An installed function lasts as
long as something holds it: the ready function that it belongs to, an installed function that
calls it, or a built function that will.
-/

namespace Phasor

structure Realm (p : Precision) where
  functions : Dictionary String (Callable p) := .empty
  installed : List Installed := []
  memory : Memory p := .initial p
  nextId : Nat := 0

namespace Realm

variable {p : Precision}

def find? (r : Realm p) (id : Nat) : Option Installed :=
  r.installed.find? (·.id = id)

def isLive (r : Realm p) (id : Nat) : Bool :=
  (r.find? id).any (fun f => !f.released)

/-- Keeps what is held, directly or by a later function that is kept. -/
def kept : (held : List Nat) → List Installed → List Installed
  | _, [] => []
  | held, f :: earlier =>
    if f.id ∈ held then f :: kept (f.callees ++ held) earlier else kept held earlier

def sweep (r : Realm p) : Realm p :=
  let installed := kept (r.functions.values.flatMap Callable.held) r.installed
  let arenas := r.memory.arenas.entries.filter (fun e => installed.any (·.id = e.1))
  { r with installed := installed, memory := { r.memory with arenas := ⟨arenas⟩ } }

def put (r : Realm p) (id : String) (f : Callable p) : Realm p :=
  ({ r with functions := r.functions.insert id f } : Realm p).sweep

def drop (r : Realm p) (id : String) : Realm p :=
  ({ r with functions := r.functions.erase id } : Realm p).sweep

def load (r : Realm p) (a : Artifact p) : Realm p :=
  { r with
    installed := ⟨r.nextId, a.code, a.callees, false⟩ :: r.installed
    memory := { r.memory with arenas := r.memory.arenas.insert r.nextId a.arena }
    nextId := r.nextId + 1 }

def install (r : Realm p) (f : Compiled p) (loader : Loader p) :
    Except Error Unit × Compiled p × Realm p :=
  match f.install loader r.nextId with
  | (.ok (some a), f) => (.ok (), f, r.load a)
  | (.ok none, f) => (.ok (), f, r)
  | (.error e, f) => (.error e, f, r)

def release (r : Realm p) (id : Nat) : Realm p :=
  { r with installed := r.installed.map (fun f => if f.id = id then { f with released := true } else f) }

end Realm

inductive InvokeError where
  | beforeInstall (key : String)
  | afterRelease (key : String)
  | fault
deriving DecidableEq

def InvokeError.message : InvokeError → String
  | beforeInstall key => key ++ " invoked before install"
  | afterRelease key => key ++ " invoked after release"
  | fault => "the code cannot run"

namespace Realm

variable {p : Precision}

def invoke (r : Realm p) (f : Callable p) (x : p.Value) : Except InvokeError p.Value × Realm p :=
  match f with
  | .builtin f => (.ok (f.run x), r)
  | .compiled f =>
    match f.stage with
    | .built _ | .spent => (.error (.beforeInstall f.key), r)
    | .released => (.error (.afterRelease f.key), r)
    | .ready id =>
      match Machine.enter r.installed id x (r.memory.resetCursor id) with
      | some (z, m) => (.ok z, { r with memory := m })
      | none => (.error .fault, r)

def invokeAll (r : Realm p) (f : Callable p) : List p.Value → List (Except InvokeError p.Value) × Realm p
  | [] => ([], r)
  | x :: xs =>
    let (y, r) := r.invoke f x
    let (ys, r) := r.invokeAll f xs
    (y :: ys, r)

end Realm

structure Session where
  table : SymbolTable EntryRef := .standard
  double : Realm .double := {}
  high : Realm .high := {}

inductive SessionError where
  | unknownId
  | notCompiled
  | noEntry
  | failed (e : Error)

structure Request where
  name : String
  key : String
  parameter : String
  tokens : List Token
  settings : Settings := {}

namespace Session

def realm (s : Session) : (p : Precision) → Realm p
  | .double => s.double
  | .high => s.high

def setRealm (s : Session) : {p : Precision} → Realm p → Session
  | .double, r => { s with double := r }
  | .high, r => { s with high := r }

def isLive (s : Session) (e : EntryRef) : Bool :=
  (s.realm e.precision).isLive e.id

def scope (s : Session) : Scope := s.table.scope s.isLive

def lookup? (s : Session) (name : String) : Option EntryRef := s.table.lookup? s.isLive name

def function? (s : Session) (p : Precision) (id : String) : Option (Callable p) :=
  (s.realm p).functions.get? id

def define (s : Session) (name : String) (c : Constant) : Session :=
  { s with table := s.table.define name c }

def compiledOf (s : Session) (p : Precision) (q : Request) : Except Error (Compiled p) := do
  let a ← Artifact.ofTokens (p := p) s.scope q.settings q.parameter q.tokens
  return .ofArtifact q.name q.key q.parameter a

def build (s : Session) (p : Precision) (id : String) (q : Request) : Except Error (Compiled p) × Session :=
  match s.compiledOf p q with
  | .ok f => (.ok f, s.setRealm ((s.realm p).put id (.compiled f)))
  | .error e => (.error e, s)

/-- Builds a function, installs it and registers it under its key. What was done before an error
stays done. -/
def publish (s : Session) (p : Precision) (q : Request) (loader : Loader p) : Except Error (Compiled p) × Session :=
  if (s.lookup? q.key).isSome then (.error (.duplicateFunction q.key), s)
  else
    match s.compiledOf p q with
    | .error e => (.error e, s)
    | .ok f =>
      match (s.realm p).install f loader with
      | (.error e, _, r) => (.error e, s.setRealm r)
      | (.ok (), f, r) =>
        let s := s.setRealm r
        match f.entry? with
        | none => (.error (.installRejected (.notReady q.key)), s)
        | some entry =>
          match s.table.register s.isLive q.key ⟨p, entry⟩ with
          | .error e => (.error e, s)
          | .ok table => (.ok f, { s with table := table })

def compileWith (s : Session) (p : Precision) (q : Request) (loader : Loader p) :
    Except Error (Compiled p) × Session :=
  match s.publish p q loader with
  | (.ok f, s) => (.ok f, s)
  | (.error e, s) => (.error e, s.setRealm (s.realm p).sweep)

def compile (s : Session) (p : Precision) (id : String) (q : Request) (loader : Loader p) :
    Except Error (Compiled p) × Session :=
  match s.compileWith p q loader with
  | (.ok f, s) => (.ok f, s.setRealm ((s.realm p).put id (.compiled f)))
  | (.error e, s) => (.error e, s)

def install (s : Session) (p : Precision) (id : String) (loader : Loader p) :
    Except SessionError Unit × Session :=
  match s.function? p id with
  | none => (.error .unknownId, s)
  | some (.builtin _) => (.error .notCompiled, s)
  | some (.compiled f) =>
    let (outcome, f, r) := (s.realm p).install f loader
    (outcome.mapError .failed, s.setRealm (r.put id (.compiled f)))

def register (s : Session) (p : Precision) (id key : String) : Except SessionError Unit × Session :=
  match s.function? p id with
  | none => (.error .unknownId, s)
  | some f =>
    match f.entry? with
    | none => (.error .noEntry, s)
    | some entry =>
      match s.table.register s.isLive key ⟨p, entry⟩ with
      | .ok table => (.ok (), { s with table := table })
      | .error e => (.error (.failed e), s)

def invoke (s : Session) (p : Precision) (id : String) (xs : List p.Value) :
    Except SessionError (List (Except InvokeError p.Value)) × Session :=
  match s.function? p id with
  | none => (.error .unknownId, s)
  | some f =>
    let (ys, r) := (s.realm p).invokeAll f xs
    (.ok ys, s.setRealm r)

def release (s : Session) (p : Precision) (id : String) : Except SessionError Bool × Session :=
  match s.function? p id with
  | none => (.error .unknownId, s)
  | some (.builtin _) => (.ok true, s)
  | some (.compiled f) =>
    let r := s.realm p
    let r := match f.entry? with
      | some entry => r.release entry
      | none => r
    (.ok false, s.setRealm (r.put id (.compiled f.release)))

def drop (s : Session) (p : Precision) (id : String) : Bool × Session :=
  ((s.function? p id).isSome, s.setRealm ((s.realm p).drop id))

def putBuiltin (s : Session) (p : Precision) (id : String) (f : Builtin p) : Session :=
  s.setRealm ((s.realm p).put id (.builtin f))

def evaluate (s : Session) (p : Precision) (parameter : String) (x : p.Value) (tokens : List Token) :
    Except Error p.Value × Session :=
  let r := s.realm p
  let (y, m) := (Eval.expression s.scope r.installed parameter x tokens).run.run r.memory
  (y, s.setRealm { r with memory := m })

end Session

end Phasor
