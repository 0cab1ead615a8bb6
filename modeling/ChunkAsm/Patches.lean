/-!
# Patches

Instructions that wait for a name, in one bucket per name. The buckets stand in the order in which
their names were first deferred, so that what is still waiting can be reported in source order.
-/

namespace ChunkAsm

/-- The instructions that wait for one name. -/
structure Bucket where
  /-- the name they wait for -/
  name : String
  /-- the indices of the instructions, in order of deferral -/
  sites : Array Nat
  deriving DecidableEq, Repr

/-- Instructions that wait for names. -/
structure Patches where
  /-- the buckets, in order of first deferral -/
  buckets : List Bucket := []
  deriving DecidableEq, Repr, Inhabited

namespace Patches

/-- Put a site into the bucket of a name, which is added at the end if there is none. -/
def deferIn (name : String) (site : Nat) : List Bucket → List Bucket
  | [] => [⟨name, #[site]⟩]
  | ⟨n, sites⟩ :: rest =>
    if n = name then ⟨n, sites.push site⟩ :: rest else ⟨n, sites⟩ :: deferIn name site rest

/-- Let the instruction at `site` wait for `name`. -/
def defer (p : Patches) (name : String) (site : Nat) : Patches :=
  ⟨deferIn name site p.buckets⟩

/-- The instructions that wait for a name, in order of deferral. -/
def sites (p : Patches) (name : String) : List Nat :=
  match p.buckets.find? (·.name == name) with
  | some b => b.sites.toList
  | none => []

/-- The patches without those that wait for a name. -/
def erase (p : Patches) (name : String) : Patches :=
  ⟨p.buckets.filter fun b => b.name != name⟩

/-- The instructions that wait for a name, and the patches without them. -/
def take (p : Patches) (name : String) : List Nat × Patches := (p.sites name, p.erase name)

/-- The names that something waits for, in order of first deferral. -/
def names (p : Patches) : List String := p.buckets.map Bucket.name

/-- Whether nothing waits. -/
def isEmpty (p : Patches) : Bool := p.buckets.isEmpty

end Patches

end ChunkAsm
