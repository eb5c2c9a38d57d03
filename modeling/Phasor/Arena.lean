namespace Phasor

structure Arena (α : Type) where
  slots : List α := []
  cursor : Nat := 0
  pinned : List α := []

namespace Arena

variable {α : Type}

def capacity (a : Arena α) : Nat := a.slots.length

def provision [Inhabited α] (a : Arena α) (n : Nat) : Arena α :=
  { a with slots := List.replicate n default, cursor := 0 }

def withCapacity [Inhabited α] (n : Nat) : Arena α :=
  provision {} n

def alloc? (a : Arena α) : Option (Nat × Arena α) :=
  if a.slots.isEmpty then none
  else some (a.cursor, { a with cursor := if a.cursor + 1 = a.capacity then 0 else a.cursor + 1 })

def store? (a : Arena α) (v : α) : Option (Nat × Arena α) :=
  a.alloc?.map (fun (i, a) => (i, { a with slots := a.slots.set i v }))

def reset (a : Arena α) : Arena α :=
  { a with cursor := 0 }

def pin (a : Arena α) (v : α) : Arena α :=
  { a with pinned := a.pinned ++ [v] }

def release (_ : Arena α) : Arena α := {}

def noSlotsMessage : String := "alloc from an arena with no slots"

def toText (a : Arena α) : String :=
  s!"Arena \x7b capacity: {a.capacity}, cursor: {a.cursor}, pinned: {a.pinned.length} \x7d"

end Arena

end Phasor
