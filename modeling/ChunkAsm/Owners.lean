/-!
# Owners of subroutines

A subroutine is stored inside the function that refers to it, so only one function may refer to it.
The first function that does becomes its **owner**; functions are told apart by the order of their
declaration.
-/

namespace ChunkAsm

/-- Which function owns each subroutine. -/
structure Owners where
  /-- the owner of each subroutine that has one -/
  entries : List (String × Nat) := []
  deriving DecidableEq, Repr, Inhabited

/-- A second function refers to a subroutine. -/
structure OwnerConflict where
  /-- the subroutine -/
  name : String
  /-- the function that owns it -/
  owner : Nat
  /-- the function that refers to it as well -/
  user : Nat
  deriving DecidableEq, Repr

/-- The text of an ownership conflict. -/
def OwnerConflict.message (e : OwnerConflict) : String :=
  s!"subroutine '{e.name}' is already a proto of function #{e.owner}, " ++
    s!"cannot also be used by function #{e.user}"

namespace Owners

/-- The owner of a subroutine. -/
def owner? (o : Owners) (name : String) : Option Nat := o.entries.lookup name

/-- Whether a use of a subroutine is its first. A use by another function than the owner is a
conflict. -/
def isFirstUse (o : Owners) (name : String) (user : Nat) : Except OwnerConflict Bool :=
  match o.owner? name with
  | none => .ok true
  | some owner => if owner = user then .ok false else .error ⟨name, owner, user⟩

/-- Give a subroutine to a function, unless it has an owner. -/
def claim (o : Owners) (name : String) (user : Nat) : Owners :=
  match o.owner? name with
  | none => ⟨(name, user) :: o.entries⟩
  | some _ => o

end Owners

end ChunkAsm
