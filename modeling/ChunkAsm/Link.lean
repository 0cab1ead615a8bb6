import ChunkAsm.Log
import ChunkAsm.Program

/-!
# Linking

The functions that a function refers to become its **protos**, numbered in order of first use. To
link a function is to look up its protos and to store the number of each in the instructions that
refer to it.
-/

namespace ChunkAsm

/-- Why the functions of a program cannot be put together. -/
inductive LinkError where
  /-- the program has no function to start from -/
  | noMain
  /-- a function refers to one that is not there -/
  | missingSubroutine (caller name : String)
  /-- a function contains itself; the chain goes from the start to the repetition -/
  | recursiveSubroutine (chain : List String)
  /-- a function has too many protos -/
  | field (function : String) (e : FieldOverflow)
  deriving DecidableEq, Repr

/-- The text of a link error. -/
def LinkError.message : LinkError → String
  | noMain => s!"no {Program.mainName} function"
  | missingSubroutine caller name => s!"no such function: {name} (used by '{caller}')"
  | recursiveSubroutine chain =>
    "function cannot contain itself as a subroutine: " ++ " -> ".intercalate chain
  | field function e => s!"in function '{function}': {e.message}"

/-- A function with its protos. -/
structure Linked where
  /-- the function -/
  function : Function
  /-- its instructions, with the numbers of the protos stored -/
  words : Array Word
  /-- the functions that it refers to, in order of first use -/
  protos : Array Function
  deriving DecidableEq, Repr

namespace Program

/-- Store the number of a proto in one instruction. -/
def setProto (index : Nat) (words : Array Word) (site : Nat) : Except FieldOverflow (Array Word) :=
  match words[site]? with
  | some w => do .ok (words.setIfInBounds site (← w.set .bx index))
  | none => .ok words

/-- Link the remaining subroutines of a function, of which the first has the number `index`. -/
def linkFrom (p : Program) (caller : String) (index : Nat) (sites : Patches) (words : Array Word)
    (protos : Array Function) : List String → Except LinkError (Array Word × Array Function)
  | [] => .ok (words, protos)
  | name :: rest =>
    match p.function? name with
    | none => .error (.missingSubroutine caller name)
    | some sub =>
      match (sites.sites name).foldlM (setProto index) words with
      | .error e => .error (.field caller e)
      | .ok words => p.linkFrom caller (index + 1) (sites.erase name) words (protos.push sub) rest

/-- Link a function. -/
def link (p : Program) (f : Function) : Except LinkError Linked := do
  let (words, protos) ← p.linkFrom f.name 0 f.protoSites f.words #[] f.subroutines.toList
  .ok ⟨f, words, protos⟩

/-- What linking the remaining subroutines of a function tells the log, up to the first one that
is missing or has no room for its number. -/
def linkLogFrom (p : Program) (caller : String) (index : Nat) (sites : Patches) :
    List String → List Log.Event
  | [] => []
  | name :: rest =>
    match p.function? name with
    | none => []
    | some _ =>
      let here := (sites.sites name).map fun site => Log.Event.linked caller index name site
      if here.isEmpty ∨ Field.bx.Fits index then
        here ++ p.linkLogFrom caller (index + 1) (sites.erase name) rest
      else here.take 1

/-- What linking a function tells the log. -/
def linkLog (p : Program) (f : Function) : List Log.Event :=
  p.linkLogFrom f.name 0 f.protoSites f.subroutines.toList

end Program

end ChunkAsm
