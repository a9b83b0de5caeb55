import Vetting.Fields
import Vetting.Error

/-!
# Registries

Named entries in the order of their registration. A name is registered once; a second
registration is refused and changes nothing. That names are distinct is part of the type.
-/

set_option autoImplicit false

namespace Vetting

/-- Entries under distinct names, in order of registration. -/
structure Registry (α : Type) where
  entries : Fields α
  distinct : entries.Distinct

namespace Registry

variable {α : Type}

/-- A registry without entries. -/
def empty : Registry α := ⟨[], List.nodup_nil⟩

/-- A registry of these entries; a repeated name keeps its first place and its last entry. -/
def ofPairs (pairs : List (String × α)) : Registry α :=
  ⟨Fields.ofPairs pairs, Fields.distinct_ofPairs pairs⟩

/-- The entry of a name. -/
def get? (registry : Registry α) (name : String) : Option α := registry.entries.get? name

/-- Whether a name is registered. -/
def contains (registry : Registry α) (name : String) : Bool := registry.entries.has name

/-- The registered names, in order. -/
def names (registry : Registry α) : List String := registry.entries.keys

/-- How many names are registered. -/
def size (registry : Registry α) : Nat := registry.entries.length

/-- Whether no name is registered. -/
def isEmpty (registry : Registry α) : Bool := registry.entries.isEmpty

/-- Registers an entry under a new name; a name that is taken gives the error `taken`. -/
def register (registry : Registry α) (name : String) (entry : α) (taken : SetupError) :
    Except SetupError (Registry α) :=
  if registry.contains name then .error taken
  else .ok ⟨registry.entries.put name entry, registry.distinct.put name entry⟩

/-- What is registered under a name is one of the pairs that a registry is made of. -/
theorem mem_of_get?_ofPairs {pairs : List (String × α)} {name : String} {entry : α}
    (h : (ofPairs pairs).get? name = some entry) : (name, entry) ∈ pairs := by
  rcases Fields.mem_merge (Fields.mem_of_get? h) with hnil | hmem
  · cases hnil
  · exact hmem

/-- A registry contains a name if looking it up gives an entry. -/
theorem contains_eq_isSome (registry : Registry α) (name : String) :
    registry.contains name = (registry.get? name).isSome := rfl

/-- A registry contains every name that has an entry. -/
theorem contains_of_get? {registry : Registry α} {name : String} {entry : α}
    (h : registry.get? name = some entry) : registry.contains name = true := by
  rw [contains_eq_isSome, h]
  rfl

end Registry

end Vetting
