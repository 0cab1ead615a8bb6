import ChunkAsm.Labels
import ChunkAsm.Owners
import ChunkAsm.Program

/-!
# The function being assembled

A **draft** collects what the lines of one function add to it. Everything it takes in has been
checked before, so the operations on a draft do not fail.
-/

namespace ChunkAsm

/-- What one instruction line adds to its function. -/
structure Emission where
  /-- the instruction -/
  word : Word
  /-- the extra word behind it -/
  extra : Option Word := none
  /-- the source line that the line marks -/
  line : Option Nat := none
  /-- the constants that are new to the pool, in order -/
  constants : List Constant := []
  /-- the labels that the instruction waits for -/
  labels : List String := []
  /-- the functions that the instruction refers to -/
  subroutines : List String := []
  deriving DecidableEq, Repr

/-- A function that is being assembled. -/
structure Draft where
  /-- the number of the function in order of declaration -/
  id : Nat
  /-- the name -/
  name : String
  /-- the declaration -/
  header : FunctionHeader
  /-- the instructions so far -/
  words : Array Word := #[]
  /-- the constants so far -/
  constants : Pool := {}
  /-- the captured variables so far -/
  upvalues : Array Upvalue := #[]
  /-- the labels -/
  labels : Labels := {}
  /-- the functions that are referred to, in order of first use -/
  subroutines : Array String := #[]
  /-- the instructions that refer to functions -/
  protoSites : Patches := {}
  /-- the marked source lines so far -/
  lines : Array Int := #[]
  deriving DecidableEq, Repr

namespace Draft

/-- The finished function. -/
def toFunction (d : Draft) : Function where
  name := d.name
  header := d.header
  words := d.words
  constants := d.constants
  upvalues := d.upvalues
  subroutines := d.subroutines
  protoSites := d.protoSites
  lines := d.lines

/-- Add a constant to the pool. -/
def addConstant (d : Draft) (c : Constant) : Draft :=
  { d with constants := d.constants.insert c }

/-- Add a captured variable. -/
def addUpvalue (d : Draft) (u : Upvalue) : Draft :=
  { d with upvalues := d.upvalues.push u }

/-- The jumps that a declaration of a label at the current place resolves, with their distances. -/
def resolutions (d : Draft) (label : String) : List (Nat × Int) :=
  d.labels.resolutions label d.words.size

/-- Store the distance of a jump. The distance is one that fits. -/
def setJump (words : Array Word) (site : Nat) (delta : Int) : Array Word :=
  match words[site]? with
  | some w => words.setIfInBounds site (w.store .sbx (delta + Field.sbx.bias).toNat)
  | none => words

/-- Declare a label at the current place and resolve the jumps that wait for it. -/
def declareLabel (d : Draft) (label : String) : Draft :=
  let found := d.resolutions label
  let target := d.words.size
  { d with
    words := found.foldl (fun words r => setJump words r.1 r.2) d.words
    labels := d.labels.declare label target }

/-- Append an instruction line, of whose subroutines `fresh` are referred to for the first time. -/
def emit (d : Draft) (m : Emission) (fresh : List String) : Draft :=
  let site := d.words.size
  { d with
    words :=
      match m.extra with
      | none => d.words.push m.word
      | some x => (d.words.push m.word).push x
    constants := m.constants.foldl Pool.insert d.constants
    labels := m.labels.foldl (fun l label => l.defer label site) d.labels
    subroutines := fresh.foldl Array.push d.subroutines
    protoSites := m.subroutines.foldl (fun p name => p.defer name site) d.protoSites
    lines :=
      match m.line with
      | none => d.lines
      | some n => d.lines.push n }

end Draft

end ChunkAsm
