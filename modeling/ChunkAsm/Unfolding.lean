import ChunkAsm.Link

/-!
# The unfolding of a program

From the main function every proto is visited, depth first and in order. A visit reaches a function,
enters it once it is linked, and leaves it after its protos. Writing and listing both follow this
walk; it stops at the first function that contains itself or cannot be linked.

No name occurs twice on the path from the main function, so no path is longer than the table of
functions. That bounds the depth of the walk.
-/

namespace ChunkAsm

/-- One step of the walk. -/
inductive Visit where
  /-- a function that does not contain itself is reached -/
  | reached (f : Function)
  /-- the function is linked and its protos follow; `depth` functions enclose it -/
  | entered (depth : Nat) (l : Linked)
  /-- the protos of the function are done -/
  | left (f : Function)
  deriving DecidableEq, Repr

/-- A walk, and why it stopped early, if it did. -/
structure Unfolding where
  /-- the steps -/
  visits : Array Visit := #[]
  /-- why the walk stopped -/
  failure : Option LinkError := none
  deriving DecidableEq, Repr

namespace Unfolding

/-- Take a step. -/
def push (u : Unfolding) (v : Visit) : Unfolding := { u with visits := u.visits.push v }

/-- Stop. -/
def fail (u : Unfolding) (e : LinkError) : Unfolding := { u with failure := some e }

/-- Go on, unless the walk has stopped. -/
def andThen (u : Unfolding) (next : Unfolding → Unfolding) : Unfolding :=
  match u.failure with
  | none => next u
  | some _ => u

end Unfolding

namespace Program

/-- Visit a function and its protos. The names of the functions around it are in `path`, the
innermost first; `room` bounds how much deeper the walk can get. -/
def unfoldFrom (p : Program) (room : Nat) (path : List String) (f : Function) (u : Unfolding) :
    Unfolding :=
  let cycle := LinkError.recursiveSubroutine (path.reverse ++ [f.name])
  if f.name ∈ path then u.fail cycle
  else
    match room with
    | 0 => u.fail cycle
    | room + 1 =>
      let u := u.push (.reached f)
      match p.link f with
      | .error e => u.fail e
      | .ok l =>
        let inner := l.protos.foldl
          (fun u g => u.andThen (p.unfoldFrom room (f.name :: path) g))
          (u.push (.entered path.length l))
        inner.andThen (·.push (.left f))

/-- The walk through a program. -/
def unfolding (p : Program) : Unfolding :=
  match p.main? with
  | none => { failure := some .noMain }
  | some f => p.unfoldFrom p.functions.length [] f {}

end Program

end ChunkAsm
