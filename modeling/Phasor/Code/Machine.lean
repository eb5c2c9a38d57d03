import Phasor.Code.Basic

namespace Phasor

inductive Place where
  | argument
  | slot (owner index : Nat)
  | pinned (owner index : Nat)
deriving DecidableEq

inductive Word where
  | float (x : Float)
  | place (l : Place)
  | arena (owner : Nat)
  | entry (id : Nat)

structure Memory (p : Precision) where
  argument : p.Value
  arenas : Dictionary Nat (Arena p.Value)

namespace Memory

variable {p : Precision}

def initial (p : Precision) : Memory p := ⟨p.zero, .empty⟩

def read? (m : Memory p) : Place → Option p.Value
  | .argument => some m.argument
  | .slot owner i => (m.arenas.get? owner).bind (·.slots[i]?)
  | .pinned owner i => (m.arenas.get? owner).bind (·.pinned[i]?)

def store? (m : Memory p) (owner : Nat) (v : p.Value) : Option (Place × Memory p) := do
  let a ← m.arenas.get? owner
  let (i, a) ← a.store? v
  return (.slot owner i, { m with arenas := m.arenas.insert owner a })

def resetCursor (m : Memory p) (owner : Nat) : Memory p :=
  match m.arenas.get? owner with
  | some a => { m with arenas := m.arenas.insert owner a.reset }
  | none => m

def cursor? (m : Memory p) (owner : Nat) : Option Nat :=
  (m.arenas.get? owner).map (·.cursor)

end Memory

/-- An installed function: its code, the functions that it calls, and whether it was released by its
owner. Its arena lies in memory under the same number. -/
structure Installed where
  id : Nat
  code : Code
  callees : List Nat
  released : Bool

namespace Machine

variable {p : Precision}

def resolve (owner : Nat) : Address → Word
  | .arena => .arena owner
  | .pinned i => .place (.pinned owner i)
  | .entry id => .entry id

def words (values : Array Word) (vs : List Nat) : Option (List Word) :=
  vs.mapM (values[·]?)

def operands : (p : Precision) → Memory p → List Word → Option (List p.Value)
  | .double, _, ws => pairs ws
  | .high, m, ws => ws.mapM (fun
    | .place l => m.read? l
    | _ => none)
where
  pairs : List Word → Option (List FloatComplex)
    | [] => some []
    | .float x :: .float y :: rest => (pairs rest).map (⟨x, y⟩ :: ·)
    | _ => none

def part? : (p : Precision) → Part → p.Value → Option Float
  | .double, .re, z => some z.re
  | .double, .im, z => some z.im
  | .high, _, _ => none

def load? (m : Memory p) (part : Part) : Word → Option Float
  | .place l => (m.read? l).bind (part? p part)
  | _ => none

def callRoutine? (m : Memory p) (r : Routine) (ws : List Word) : Option (Place × Memory p) := do
  let .arena owner ← ws.getLast? | none
  let zs ← operands p m ws.dropLast
  m.store? owner (← r.result? p zs)

abbrev Caller (p : Precision) := Nat → List Word → Memory p → Option (Place × Memory p)

def step? (call : Caller p) (code : Code) (owner : Nat) (values : Array Word) (m : Memory p) :
    Instr → Option (Word × Memory p)
  | .address a => some (resolve owner a, m)
  | .const bits => some (.float (.ofBits bits), m)
  | .arith op a b => do
    let .float x ← values[a]? | none
    let .float y ← values[b]? | none
    return (.float (op.apply x y), m)
  | .load part base => do
    return (.float (← load? m part (← values[base]?)), m)
  | .call f args => do
    let i ← code.imports[f]?
    let (l, m) ← callRoutine? m i.routine (← words values args)
    return (.place l, m)
  | .callEntry _ target args => do
    let .entry id ← values[target]? | none
    let (l, m) ← call id (← words values args) m
    return (.place l, m)
  | .ret _ => none

def runBlock (call : Caller p) (code : Code) (owner : Nat) :
    List Instr → Array Word → Memory p → Option (Place × Memory p)
  | [], _, _ => none
  | .ret v :: _, values, m => do
    let .place l ← values[v]? | none
    return (l, m)
  | i :: rest, values, m => do
    let (w, m) ← step? call code owner values m i
    runBlock call code owner rest (values.push w) m

/-- Runs an installed function. The functions are listed with the latest first, and each calls
earlier ones only, so a nested call finds its function further down the list. -/
def call : List Installed → Caller p
  | [], _, _, _ => none
  | f :: earlier, id, args, m =>
    if f.id = id then runBlock (call earlier) f.code id f.code.body args.toArray m
    else call earlier id args m

def passArgument : (p : Precision) → p.Value → Memory p → List Word × Memory p
  | .double, z, m => ([.float z.re, .float z.im], m)
  | .high, z, m => ([.place .argument], { m with argument := z })

/-- Enters a function from outside and reads its result. The cursor of its arena is left where it
is. -/
def enter (functions : List Installed) (id : Nat) (z : p.Value) (m : Memory p) :
    Option (p.Value × Memory p) := do
  let (args, m) := passArgument p z m
  let (l, m) ← call functions id args m
  return (← m.read? l, m)

end Machine

end Phasor
