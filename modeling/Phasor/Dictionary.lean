namespace Phasor

structure Dictionary (κ α : Type) where
  entries : List (κ × α)

namespace Dictionary

variable {κ α : Type} [DecidableEq κ]

def empty : Dictionary κ α := ⟨[]⟩

def get? (d : Dictionary κ α) (k : κ) : Option α :=
  d.entries.lookup k

def contains (d : Dictionary κ α) (k : κ) : Bool :=
  (d.get? k).isSome

def insert (d : Dictionary κ α) (k : κ) (a : α) : Dictionary κ α :=
  if d.contains k then ⟨d.entries.map (fun e => if e.1 = k then (k, a) else e)⟩
  else ⟨d.entries ++ [(k, a)]⟩

def erase (d : Dictionary κ α) (k : κ) : Dictionary κ α :=
  ⟨d.entries.filter (fun e => e.1 ≠ k)⟩

def keys (d : Dictionary κ α) : List κ :=
  d.entries.map Prod.fst

def values (d : Dictionary κ α) : List α :=
  d.entries.map Prod.snd

def size (d : Dictionary κ α) : Nat :=
  d.entries.length

end Dictionary

end Phasor
