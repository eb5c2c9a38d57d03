import Phasor.Dictionary
import Phasor.Routine

namespace Phasor

structure RegistryEntry (α : Type) where
  name : String
  convention : Convention
  target : α

structure Registry (α : Type) where
  entries : List (RegistryEntry α)
  slots : Dictionary String Nat

namespace Registry

variable {α : Type}

def empty : Registry α := ⟨[], .empty⟩

def size (r : Registry α) : Nat := r.entries.length

def slot? (r : Registry α) (name : String) : Option Nat := r.slots.get? name

def get? (r : Registry α) (slot : Nat) : Option (RegistryEntry α) := r.entries[slot]?

def find? (r : Registry α) (name : String) : Option (RegistryEntry α) :=
  (r.slot? name).bind r.get?

def register (r : Registry α) (name : String) (convention : Convention) (target : α) :
    Nat × Registry α :=
  let entry : RegistryEntry α := ⟨name, convention, target⟩
  match r.slot? name with
  | some i => (i, { r with entries := r.entries.set i entry })
  | none => (r.size, ⟨r.entries ++ [entry], r.slots.insert name r.size⟩)

def ofCatalog (target : Routine → α) (keep : String → Bool) : Registry α :=
  [Precision.double, .high].foldl (fun reg p =>
    (Routine.catalog p).foldl (fun reg r =>
      if keep (r.symbol p) then (reg.register (r.symbol p) (r.convention p) (target r)).2 else reg)
      reg) empty

end Registry

def Registry.standard : Registry Routine := .ofCatalog id (fun _ => true)

end Phasor
