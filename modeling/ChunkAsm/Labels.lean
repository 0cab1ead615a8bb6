import ChunkAsm.Patches

/-!
# Jump labels

The labels of the function that is being assembled. A label may be used before it is declared: such
uses wait in `pending` until the declaration resolves them. A label may be declared again; that
changes its target for later uses only.
-/

namespace ChunkAsm

/-- The distance stored in a jump at `site` that goes to `target`. Jumps count from the instruction
after the jump. -/
def jumpDelta (target site : Nat) : Int := (target : Int) - site - 1

/-- The labels of a function. -/
structure Labels where
  /-- the targets of the declared labels, the latest declaration first -/
  targets : List (String × Nat) := []
  /-- the jumps to labels that are not declared yet -/
  pending : Patches := {}
  deriving DecidableEq, Repr, Inhabited

namespace Labels

/-- The distance stored in a jump to a label while the label is not declared. -/
def unresolvedDelta : Int := -1

/-- The distance from `site` to a label, if the label is declared. -/
def resolved? (l : Labels) (name : String) (site : Nat) : Option Int :=
  (l.targets.lookup name).map (jumpDelta · site)

/-- Let the jump at `site` wait for a label. -/
def defer (l : Labels) (name : String) (site : Nat) : Labels :=
  { l with pending := l.pending.defer name site }

/-- The jumps that wait for a label. -/
def sites (l : Labels) (name : String) : List Nat := l.pending.sites name

/-- The jumps that a declaration of a label at `target` resolves, each with its distance. -/
def resolutions (l : Labels) (name : String) (target : Nat) : List (Nat × Int) :=
  (l.sites name).map fun site => (site, jumpDelta target site)

/-- Declare a label. Nothing waits for it any more. -/
def declare (l : Labels) (name : String) (target : Nat) : Labels :=
  { targets := (name, target) :: l.targets, pending := l.pending.erase name }

/-- The labels that are used but not declared, in order of first use. -/
def unresolved (l : Labels) : List String := l.pending.names

end Labels

end ChunkAsm
