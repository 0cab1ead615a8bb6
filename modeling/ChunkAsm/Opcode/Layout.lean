import ChunkAsm.Opcode

/-!
# Operand layouts

What an instruction line may say after its mnemonic. Each opcode has a list of **slots**, in the
order in which operands are written. A slot accepts a set of operand **kinds** and has a
**destination**: a field of the word, the extra word that follows it, or whichever of the two the
value needs.
-/

namespace ChunkAsm

/-- The shapes of operands in source text. -/
inductive OperandKind where
  /-- a register, written `%n` -/
  | stack
  /-- an upvalue, written `@n` -/
  | upvalue
  /-- a jump label, written `$name` -/
  | location
  /-- a constant, written `const literal` -/
  | constant
  /-- an integer or a truth value that is stored as it is -/
  | embedded
  /-- the bare name of a function -/
  | proto
  deriving DecidableEq, Repr

namespace OperandKind

/-- Every kind, in the order in which sets of kinds are written. -/
def all : List OperandKind := [stack, upvalue, location, constant, embedded, proto]

/-- How a kind is written in messages. -/
def label : OperandKind → String
  | stack => "%stack"
  | upvalue => "@upvalue"
  | location => "$label"
  | constant => "const"
  | embedded => "literal"
  | proto => "function"

end OperandKind

/-- A set of operand kinds. -/
structure Kinds where
  /-- registers are in the set -/
  stack : Bool := false
  /-- upvalues are in the set -/
  upvalue : Bool := false
  /-- labels are in the set -/
  location : Bool := false
  /-- constants are in the set -/
  constant : Bool := false
  /-- embedded values are in the set -/
  embedded : Bool := false
  /-- function names are in the set -/
  proto : Bool := false
  deriving DecidableEq, Repr, Inhabited

namespace Kinds

/-- Whether a kind is in the set. -/
def has (ks : Kinds) : OperandKind → Bool
  | .stack => ks.stack
  | .upvalue => ks.upvalue
  | .location => ks.location
  | .constant => ks.constant
  | .embedded => ks.embedded
  | .proto => ks.proto

/-- Add a kind to the set. -/
def insert (ks : Kinds) : OperandKind → Kinds
  | .stack => { ks with stack := true }
  | .upvalue => { ks with upvalue := true }
  | .location => { ks with location := true }
  | .constant => { ks with constant := true }
  | .embedded => { ks with embedded := true }
  | .proto => { ks with proto := true }

/-- The set of the given kinds. -/
def ofList (ks : List OperandKind) : Kinds := ks.foldl insert {}

/-- The set with one kind. -/
def only (k : OperandKind) : Kinds := insert {} k

/-- A register or a constant: the two share one 9-bit field and are told apart by a flag. -/
def rk : Kinds := { stack := true, constant := true }

/-- A set as it is written in messages. -/
def text (ks : Kinds) : String :=
  "|".intercalate ((OperandKind.all.filter ks.has).map OperandKind.label)

end Kinds

/-- Where the value of an operand goes. -/
inductive Destination where
  /-- a field of the instruction word -/
  | field (f : Field)
  /-- the extra word that follows the instruction -/
  | extra
  /-- the field `C` if the value fits there, and otherwise the extra word -/
  | cOrExtra
  deriving DecidableEq, Repr

/-- The name of a destination. -/
def Destination.name : Destination → String
  | .field f => f.name
  | .extra => "Extra"
  | .cOrExtra => "COrExtra"

/-- One operand of an opcode: what may be written, and where its value goes. -/
structure Slot where
  /-- where the value goes -/
  dest : Destination
  /-- what may be written -/
  kinds : Kinds
  deriving DecidableEq, Repr

namespace Opcode

/-- A slot whose value goes to a field and that accepts one kind. -/
def fieldSlot (f : Field) (k : OperandKind) : Slot := ⟨.field f, .only k⟩

/-- A slot whose value goes to a field and that accepts registers and constants. -/
def rkSlot (f : Field) : Slot := ⟨.field f, .rk⟩

/-- The slots of an opcode, in the order in which its operands are written. -/
def slots : Opcode → List Slot
  | move => [fieldSlot .a .stack, fieldSlot .b .stack]
  | loadK => [fieldSlot .a .stack, fieldSlot .bx .constant]
  | loadKX => [fieldSlot .a .stack, ⟨.extra, .only .constant⟩]
  | loadBool => [fieldSlot .a .stack, fieldSlot .b .embedded, fieldSlot .c .embedded]
  | loadNil => [fieldSlot .a .stack, fieldSlot .b .embedded]
  | getUpval => [fieldSlot .a .stack, fieldSlot .b .upvalue]
  | getTabUp => [fieldSlot .a .stack, fieldSlot .b .upvalue, rkSlot .c]
  | getTable => [fieldSlot .a .stack, fieldSlot .b .stack, rkSlot .c]
  | setTabUp => [fieldSlot .a .upvalue, rkSlot .b, rkSlot .c]
  | setUpval => [fieldSlot .b .upvalue, fieldSlot .a .stack]
  | setTable => [fieldSlot .a .stack, rkSlot .b, rkSlot .c]
  | newTable => [fieldSlot .a .stack, fieldSlot .b .embedded, fieldSlot .c .embedded]
  | self => [fieldSlot .a .stack, fieldSlot .b .stack, rkSlot .c]
  | add | sub | mul | mod | pow | div | idiv | band | bor | bxor | shl | shr =>
    [fieldSlot .a .stack, rkSlot .b, rkSlot .c]
  | unm | bnot | not | len => [fieldSlot .a .stack, fieldSlot .b .stack]
  | concat => [fieldSlot .a .stack, fieldSlot .b .stack, fieldSlot .c .stack]
  | jmp => [fieldSlot .a .embedded, fieldSlot .sbx .location]
  | eq | lt | le => [fieldSlot .a .embedded, rkSlot .b, rkSlot .c]
  | test => [fieldSlot .a .stack, fieldSlot .c .embedded]
  | testSet => [fieldSlot .a .stack, fieldSlot .b .stack, fieldSlot .c .embedded]
  | call | tailCall => [fieldSlot .a .stack, fieldSlot .b .embedded, fieldSlot .c .embedded]
  | ret => [fieldSlot .a .stack, fieldSlot .b .embedded]
  | forLoop | forPrep | tforLoop => [fieldSlot .a .stack, fieldSlot .sbx .location]
  | tforCall => [fieldSlot .a .stack, fieldSlot .c .embedded]
  | setList => [fieldSlot .a .stack, fieldSlot .b .embedded, ⟨.cOrExtra, .only .embedded⟩]
  | closure => [fieldSlot .a .stack, fieldSlot .bx .proto]
  | vararg => [fieldSlot .a .stack, fieldSlot .b .embedded]
  | extraArg => [fieldSlot .ax .embedded]

end Opcode

end ChunkAsm
