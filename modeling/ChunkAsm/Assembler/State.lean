import ChunkAsm.Assembler.Draft
import ChunkAsm.Assembler.Segment

/-!
# The state of the assembler

What is known between two lines: the segment that is open, the functions that are finished, the
draft of the one that is not, and who owns which subroutine. A line changes the state by a list of
**edits**. An edit cannot fail; whether a line is good is decided before its edits are made.
-/

namespace ChunkAsm

/-- The state between two lines. -/
structure Assembler where
  /-- the segment that the next line stands in -/
  segment : Segment := .topLevel
  /-- the number of upvalues of the chunk, once it is declared -/
  upvalueCount : Option UInt8 := none
  /-- the finished functions, the latest first -/
  finished : List (String × Function) := []
  /-- the owners of the subroutines that are referred to -/
  owners : Owners := {}
  /-- the number of the next function -/
  nextId : Nat := 0
  /-- the function that is being assembled -/
  draft : Option Draft := none
  deriving DecidableEq, Repr, Inhabited

/-- One change of the state. -/
inductive Edit where
  /-- note the number of upvalues -/
  | setUpvalueCount (n : UInt8)
  /-- go to another segment -/
  | enter (s : Segment)
  /-- move the draft to the finished functions, or drop it if it has no instructions -/
  | close
  /-- drop the draft -/
  | abandon
  /-- start the draft of a new function -/
  | begin (name : String) (header : FunctionHeader)
  /-- declare a label in the draft -/
  | declareLabel (name : String)
  /-- add a constant to the draft -/
  | addConstant (c : Constant)
  /-- add a captured variable to the draft -/
  | addUpvalue (u : Upvalue)
  /-- add an instruction line to the draft -/
  | emit (m : Emission)
  deriving DecidableEq, Repr

namespace Assembler

/-- Change the draft, if there is one. -/
def modifyDraft : Assembler → (Draft → Draft) → Assembler
  | ⟨segment, upvalueCount, finished, owners, nextId, some d⟩, f =>
    ⟨segment, upvalueCount, finished, owners, nextId, some (f d)⟩
  | a, _ => a

/-- Add an instruction line to the draft. Subroutines without an owner are given to the function
and become its subroutines. -/
def emit : Assembler → Emission → Assembler
  | ⟨segment, upvalueCount, finished, owners, nextId, some d⟩, m =>
    let fresh := m.subroutines.filter fun name => (owners.owner? name).isNone
    let owners := m.subroutines.foldl (fun o name => o.claim name d.id) owners
    ⟨segment, upvalueCount, finished, owners, nextId, some (d.emit m fresh)⟩
  | a, _ => a

/-- Move the draft to the finished functions, or drop it if it has no instructions. -/
def close (a : Assembler) : Assembler :=
  match a.draft with
  | none => a
  | some d =>
    if d.words.isEmpty then { a with draft := none }
    else { a with draft := none, finished := (d.name, d.toFunction) :: a.finished }

/-- Make one change. -/
def apply (a : Assembler) : Edit → Assembler
  | .setUpvalueCount n => { a with upvalueCount := some n }
  | .enter s => { a with segment := s }
  | .close => a.close
  | .abandon => { a with draft := none }
  | .begin name header =>
    { a with
      segment := .function
      nextId := a.nextId + 1
      draft := some { id := a.nextId, name, header } }
  | .declareLabel name => a.modifyDraft (·.declareLabel name)
  | .addConstant c => a.modifyDraft (·.addConstant c)
  | .addUpvalue u => a.modifyDraft (·.addUpvalue u)
  | .emit m => a.emit m

/-- Make changes in order. -/
def applyAll (a : Assembler) (edits : List Edit) : Assembler := edits.foldl apply a

/-- Whether a function with this name is finished. -/
def isFinished (a : Assembler) (name : String) : Bool := (a.finished.lookup name).isSome

end Assembler

end ChunkAsm
