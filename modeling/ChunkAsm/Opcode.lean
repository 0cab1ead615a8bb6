import ChunkAsm.Keyword
import ChunkAsm.Word

/-!
# Opcodes

The 47 opcodes of the Lua 5.3 machine, in the order of their numbers. A word names its opcode
in its low six bits (`Word.opcode?`); source text names it by mnemonic, in any letter case
(`Opcode.lookup`).
-/

namespace ChunkAsm

/-- The operation that an instruction performs. Constructors stand in numeric order. -/
inductive Opcode where
  | move
  | loadK
  | loadKX
  | loadBool
  | loadNil
  | getUpval
  | getTabUp
  | getTable
  | setTabUp
  | setUpval
  | setTable
  | newTable
  | self
  | add
  | sub
  | mul
  | mod
  | pow
  | div
  | idiv
  | band
  | bor
  | bxor
  | shl
  | shr
  | unm
  | bnot
  | not
  | len
  | concat
  | jmp
  | eq
  | lt
  | le
  | test
  | testSet
  | call
  | tailCall
  | ret
  | forLoop
  | forPrep
  | tforCall
  | tforLoop
  | setList
  | closure
  | vararg
  | extraArg
  deriving DecidableEq, Repr

namespace Opcode

/-- Every opcode, in numeric order. -/
def all : List Opcode :=
  [move, loadK, loadKX, loadBool, loadNil, getUpval, getTabUp, getTable, setTabUp, setUpval,
    setTable, newTable, self, add, sub, mul, mod, pow, div, idiv, band, bor, bxor, shl, shr, unm,
    bnot, not, len, concat, jmp, eq, lt, le, test, testSet, call, tailCall, ret, forLoop, forPrep,
    tforCall, tforLoop, setList, closure, vararg, extraArg]

/-- The number of an opcode. -/
def number (op : Opcode) : Nat := op.ctorIdx

/-- The opcode with a given number. -/
def ofNumber? (n : Nat) : Option Opcode := all[n]?

theorem ofNumber?_number (op : Opcode) : ofNumber? op.number = some op := by
  cases op <;> rfl

/-- The mnemonic of an opcode in source text. -/
def mnemonic : Opcode → String
  | move => "move"
  | loadK => "loadk"
  | loadKX => "loadkx"
  | loadBool => "loadbool"
  | loadNil => "loadnil"
  | getUpval => "getupval"
  | getTabUp => "gettabup"
  | getTable => "gettable"
  | setTabUp => "settabup"
  | setUpval => "setupval"
  | setTable => "settable"
  | newTable => "newtable"
  | self => "self"
  | add => "add"
  | sub => "sub"
  | mul => "mul"
  | mod => "mod"
  | pow => "pow"
  | div => "div"
  | idiv => "idiv"
  | band => "band"
  | bor => "bor"
  | bxor => "bxor"
  | shl => "shl"
  | shr => "shr"
  | unm => "unm"
  | bnot => "bnot"
  | not => "not"
  | len => "len"
  | concat => "concat"
  | jmp => "jmp"
  | eq => "eq"
  | lt => "lt"
  | le => "le"
  | test => "test"
  | testSet => "testset"
  | call => "call"
  | tailCall => "tailcall"
  | ret => "return"
  | forLoop => "forloop"
  | forPrep => "forprep"
  | tforCall => "tforcall"
  | tforLoop => "tforloop"
  | setList => "setlist"
  | closure => "closure"
  | vararg => "vararg"
  | extraArg => "extraarg"

/-- The name of an opcode in listings: its mnemonic in capitals. -/
def name (op : Opcode) : String := op.mnemonic.toUpper

/-- The opcode that a word of source text names, in any letter case. -/
def lookup (word : String) : Option Opcode := Keyword.find? mnemonic all word

end Opcode

namespace Word

/-- The opcode of a word. Numbers from 47 to 63 name none. -/
def opcode? (w : Word) : Option Opcode := Opcode.ofNumber? w.opcodeNumber

/-- The word of an opcode whose fields are all zero. -/
def ofOpcode (op : Opcode) : Word := ⟨UInt32.ofNat op.number⟩

/-- The word that carries an operand too large for the instruction before it. -/
def extraArg (v : Int) : Except FieldOverflow Word := (ofOpcode .extraArg).set .ax v

end Word

end ChunkAsm
