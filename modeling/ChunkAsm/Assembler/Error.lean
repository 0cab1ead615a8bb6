import ChunkAsm.Assembler.Segment
import ChunkAsm.Operand
import ChunkAsm.Owners

/-!
# Errors of a line

Why a line is rejected, or why the input may not end where it does.
-/

namespace ChunkAsm

/-- The numbers of source text that must fit in a byte. -/
inductive ByteRole where
  | upvalueAmount
  | maxStack
  | paramCount
  | upvalueInStack
  | upvalueIndex
  deriving DecidableEq, Repr

/-- The name of such a number in messages. -/
def ByteRole.text : ByteRole → String
  | upvalueAmount => "amount of upvalues"
  | maxStack => "max stack size"
  | paramCount => "parameter count"
  | upvalueInStack => "upvalue in_stack"
  | upvalueIndex => "upvalue index"

/-- Why a line is rejected, or why the input may not end. -/
inductive LineError where
  /-- a token is badly written -/
  | lex (e : LexError)
  /-- an operand is missing, out of place or badly written -/
  | operand (e : OperandError)
  /-- the value of an operand does not fit in the instruction -/
  | field (e : FieldOverflow)
  /-- a subroutine already belongs to another function -/
  | owner (e : OwnerConflict)
  /-- there is no such directive -/
  | unknownDirective (name : String)
  /-- the directive may not stand in this segment -/
  | misplacedDirective (d : Directive) (s : Segment)
  /-- the number of upvalues is declared twice -/
  | upvaluesRedeclared
  /-- a number does not fit in a byte -/
  | byteOutOfRange (what : ByteRole) (value : Int)
  /-- there is no such treatment of surplus arguments -/
  | invalidVarargMode (value : Int)
  /-- a function with this name is finished already -/
  | duplicateFunction (name : String)
  /-- there is no such mnemonic -/
  | unknownOpcode (name : String)
  /-- the line has no meaning in this segment -/
  | outsideSegment (s : Segment)
  /-- a function ends while jumps wait for labels -/
  | undeclaredLocations (names : List String)
  /-- the input ends without the number of upvalues -/
  | missingUpvalueCount
  /-- the input ends in an open segment -/
  | unterminatedSegment (s : Segment)
  deriving DecidableEq, Repr

/-- The text of a line error. -/
def LineError.message : LineError → String
  | lex e => e.message
  | operand e => e.message
  | field e => s!"operand out of range: {e.message}"
  | owner e => e.message
  | unknownDirective name => s!"unknown directive '.{name}'"
  | misplacedDirective d s => s!".{d.name} is not allowed in a {s.text}, expected {d.expected}"
  | upvaluesRedeclared => "amount of upvalues already declared"
  | byteOutOfRange what value => s!"{what.text} must be between 0 and 255, got {value}"
  | invalidVarargMode value => s!"vararg mode must be 0, 1 or 2, got {value}"
  | duplicateFunction name => s!"duplicate function '{name}'"
  | unknownOpcode name => s!"invalid opcode '{name}'"
  | outsideSegment s =>
    s!"unimplemented: no code, const or upvalue segment is open ({s.text})"
  | undeclaredLocations names =>
    s!"undeclared locations: " ++ ", ".intercalate names
  | missingUpvalueCount => "amount of upvalues never declared"
  | unterminatedSegment s => s!"end of input inside an unterminated {s.text}"

end ChunkAsm
