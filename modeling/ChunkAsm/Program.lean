import ChunkAsm.Constant
import ChunkAsm.Patches
import ChunkAsm.Word

/-!
# Functions and programs

A finished function is a record of words, constants and descriptors. Its references to other
functions are still names: they become indices only when the function is linked. A program is the
table of the finished functions and the number of upvalues of the whole chunk.
-/

namespace ChunkAsm

/-- How a function treats surplus arguments. -/
inductive VarargMode where
  | fixed
  | vararg
  | needsArg
  deriving DecidableEq, Repr

namespace VarargMode

/-- The byte that stands for a mode. -/
def toByte : VarargMode → UInt8
  | fixed => 0
  | vararg => 1
  | needsArg => 2

/-- The mode that a number stands for. -/
def ofNumber? : Int → Option VarargMode
  | 0 => some fixed
  | 1 => some vararg
  | 2 => some needsArg
  | _ => none

/-- The name of a mode in listings. -/
def text : VarargMode → String
  | fixed => "fixed"
  | vararg => "vararg"
  | needsArg => "needs-arg"

end VarargMode

/-- What the declaration of a function says about it, apart from its name. -/
structure FunctionHeader where
  /-- the number of registers -/
  maxStack : UInt8
  /-- the number of parameters -/
  params : UInt8
  /-- the treatment of surplus arguments -/
  vararg : VarargMode
  deriving DecidableEq, Repr

/-- Where a captured variable comes from. -/
structure Upvalue where
  /-- whether it is a register of the enclosing function -/
  inStack : UInt8
  /-- its index there -/
  index : UInt8
  deriving DecidableEq, Repr

/-- A finished function. -/
structure Function where
  /-- the name -/
  name : String
  /-- the declaration -/
  header : FunctionHeader
  /-- the instructions -/
  words : Array Word := #[]
  /-- the constants that the instructions refer to -/
  constants : Pool := {}
  /-- the captured variables -/
  upvalues : Array Upvalue := #[]
  /-- the functions that are referred to, in order of first use -/
  subroutines : Array String := #[]
  /-- the instructions whose `Bx` waits for the index of a subroutine -/
  protoSites : Patches := {}
  /-- the marked source lines -/
  lines : Array Int := #[]
  deriving DecidableEq, Repr

/-- A table of functions and the number of upvalues of the chunk. -/
structure Program where
  /-- the number of upvalues -/
  upvalueCount : UInt8
  /-- the functions under their keys; of two entries with one key the first counts -/
  functions : List (String × Function)
  deriving DecidableEq, Repr

namespace Program

/-- The function with a given key. -/
def function? (p : Program) (key : String) : Option Function := p.functions.lookup key

/-- The key of the function that a chunk starts from. -/
def mainName : String := "main"

/-- The function that a chunk starts from. -/
def main? (p : Program) : Option Function := p.function? mainName

end Program

end ChunkAsm
