import Phasor.Capability
import Phasor.Code.Basic
import Phasor.Error

namespace Phasor

inductive Operand where
  | split (re im : Nat)
  | pointer (value : Nat)
deriving DecidableEq

structure Builder (p : Precision) where
  registry : Registry Routine := .standard
  code : Code := {}
  stack : List Operand := []
  arenaValue : Option Nat := none
  arenaSize : Nat := 0
  pinned : List p.Value := []
  callees : List Nat := []
  capabilities : Capabilities := {}
  finished : Bool := false

/-- Steps of a construction. What a failed step did before its error stays done. -/
abbrev Build (p : Precision) := ExceptT Error (StateM (Builder p))

namespace Build

variable {p : Precision}

def emit (i : Instr) : Build p Nat := do
  let b ← get
  set { b with code.body := b.code.body ++ [i] }
  return p.parameters.length + b.code.body.length

def declareSignature (parameters : List ValueType) : Build p Nat := do
  let b ← get
  set { b with code.signatures := b.code.signatures ++ [parameters] }
  return b.code.signatures.length

def push (o : Operand) : Build p Unit :=
  modify (fun b => { b with stack := o :: b.stack })

def pop (name : String) : Build p Operand := do
  match (← get).stack with
  | [] => throw (.stackUnderflow name)
  | o :: rest =>
    modify ({ · with stack := rest })
    return o

def arena : Build p Nat := do
  match (← get).arenaValue with
  | some v => return v
  | none =>
    let v ← emit (.address .arena)
    modify ({ · with arenaValue := some v })
    return v

def importRoutine (r : Routine) : Build p Nat := do
  let symbol := r.symbol p
  let b ← get
  match b.registry.find? symbol with
  | none => throw (.backend (.missingRoutine symbol))
  | some entry =>
    match b.code.imports.findIdx? (·.symbol = symbol) with
    | some k => return k
    | none =>
      let s ← declareSignature entry.convention.parameters
      modify (fun b => { b with
        code.imports := b.code.imports ++ [⟨symbol, entry.target, s⟩]
        capabilities := b.capabilities.insert (.routine entry.convention) })
      return b.code.imports.length

def callRoutine (r : Routine) (args : List Nat) : Build p Nat := do
  let f ← importRoutine r
  let a ← arena
  let v ← emit (.call f (args ++ [a]))
  modify (fun b => { b with arenaSize := b.arenaSize + 1 })
  return v

def callEntry (id : Nat) (args : List Nat) : Build p Nat := do
  let s ← declareSignature p.parameters
  let target ← emit (.address (.entry id))
  let v ← emit (.callEntry s target args)
  modify (fun b => { b with
    capabilities := b.capabilities.insert .entryCall
    callees := if id ∈ b.callees then b.callees else b.callees ++ [id] })
  return v

def unwrap : Operand → Build p (Nat × Nat)
  | .split re im => return (re, im)
  | .pointer v => return (← emit (.load .re v), ← emit (.load .im v))

def address : Operand → Build p Nat
  | .pointer v => return v
  | .split _ _ => throw (.backend .splitOperand)

def arith (op : FloatOp) (a b : Nat) : Build p Nat := emit (.arith op a b)

def parameter : (p : Precision) → Operand
  | .double => .split 0 1
  | .high => .pointer 0

def constant : (p : Precision) → p.Literal → Build p Operand
  | .double, z => return .split (← emit (.const z.re)) (← emit (.const z.im))
  | .high, z => do
    let b ← get
    set { b with pinned := b.pinned ++ [z] }
    return .pointer (← emit (.address (.pinned b.pinned.length)))

def binary : (p : Precision) → BinaryOp → Operand → Operand → Build p Operand
  | .double, op, z, w => do
    let (a, b) ← unwrap z
    let (c, d) ← unwrap w
    match op with
    | .add => return .split (← arith .add a c) (← arith .add b d)
    | .sub => return .split (← arith .sub a c) (← arith .sub b d)
    | .mul =>
      let ac ← arith .mul a c
      let bd ← arith .mul b d
      let ad ← arith .mul a d
      let bc ← arith .mul b c
      return .split (← arith .sub ac bd) (← arith .add ad bc)
    | .div | .pow => return .pointer (← callRoutine (.binary op) [a, b, c, d])
  | .high, op, z, w => do
    let a ← address z
    let b ← address w
    return .pointer (← callRoutine (.binary op) [a, b])

def unary : (p : Precision) → UnaryOp → Operand → Build p Operand
  | .double, op, z => do
    let (a, b) ← unwrap z
    return .pointer (← callRoutine (.unary op) [a, b])
  | .high, op, z => do
    return .pointer (← callRoutine (.unary op) [← address z])

/-- Calls a compiled function. Its result lies in an arena that the next call of the same function
overwrites, so it is taken out at once. -/
def enter : (p : Precision) → Nat → Operand → Build p Operand
  | .double, id, z => do
    let (a, b) ← unwrap z
    let (c, d) ← unwrap (.pointer (← callEntry id [a, b]))
    return .split c d
  | .high, id, z => do
    let v ← callEntry id [← address z]
    return .pointer (← callRoutine .copy [v])

def result : (p : Precision) → Operand → Build p Nat
  | .double, .pointer v => return v
  | .double, .split re im => callRoutine .wrap [re, im]
  | .high, z => address z

def pushParameter : Build p Unit := push (parameter p)

def pushConstant (z : p.Literal) : Build p Unit := do push (← constant p z)

def applyOperator : Operator → Build p Unit
  | .binary op => do
    let w ← pop op.symbol
    let z ← pop op.symbol
    push (← binary p op z w)
  | .unary op => do
    push (← unary p op (← pop op.symbol))

def applyEntry (name : String) (id : Nat) : Build p Unit := do
  push (← enter p id (← pop name))

def finish : Build p Nat := do
  match (← get).stack with
  | [] => throw .emptyExpression
  | [z] =>
    let v ← result p z
    let _ ← emit (.ret v)
    modify ({ · with finished := true })
    return (← get).arenaSize
  | stack => throw (.unbalancedExpression stack.length)

end Build

structure Artifact (p : Precision) where
  code : Code
  arenaSize : Nat
  pinned : List p.Value
  callees : List Nat
  capabilities : Capabilities

namespace Artifact

variable {p : Precision}

def ofBuilder (b : Builder p) : Except Error (Artifact p) :=
  if b.finished then .ok ⟨b.code, b.arenaSize, b.pinned, b.callees, b.capabilities⟩
  else .error (.backend .unfinished)

def arena (a : Artifact p) : Arena p.Value :=
  Arena.provision { pinned := a.pinned } a.arenaSize

def header (a : Artifact p) (name key parameter : String) : String :=
  let imports := a.code.imports.map Import.symbol
  let importText := if imports.isEmpty then "none" else " ".intercalate imports
  s!"; {p.name} precision function {key} ({name}) of {parameter}\n"
    ++ s!"; arena: {a.arenaSize} slots, {a.pinned.length} pinned\n"
    ++ s!"; imports: {importText}\n"
    ++ s!"; capabilities: {a.capabilities.toText}\n"

end Artifact

end Phasor
