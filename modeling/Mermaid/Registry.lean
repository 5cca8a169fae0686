/-!
A registry holds values under their names, in the order in which the names first came up.
-/
namespace Mermaid

structure Registry (α : Type) where
  entries : List (String × α)
  deriving DecidableEq, Repr

namespace Registry
variable {α : Type}

def empty : Registry α := ⟨[]⟩

def keys (r : Registry α) : List String := r.entries.map (·.1)

def values (r : Registry α) : List α := r.entries.map (·.2)

def find? (r : Registry α) (key : String) : Option α := r.entries.lookup key

/-- Enters a value under a name that is not taken; a name that is taken keeps its value. -/
def ensure (r : Registry α) (key : String) (fresh : α) : Registry α :=
  if key ∈ r.keys then r else ⟨r.entries ++ [(key, fresh)]⟩

/-- Changes the value under a name, if the name is taken. -/
def update (r : Registry α) (key : String) (change : α → α) : Registry α :=
  ⟨r.entries.map fun (k, a) => if k = key then (k, change a) else (k, a)⟩

end Registry

/-- A name under which nothing is registered, though something refers to it. -/
structure Unresolved where
  name : String
  deriving DecidableEq, Repr

/-- The value under a name that has to be there. -/
def Registry.resolve {α : Type} (r : Registry α) (key : String) : Except Unresolved α :=
  match r.find? key with
  | some a => .ok a
  | none => .error ⟨key⟩

end Mermaid
