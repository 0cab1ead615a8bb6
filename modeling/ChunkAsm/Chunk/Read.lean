import ChunkAsm.Chunk.Format

/-!
# Reading chunks

A chunk read back as a machine loads it: the header, the number of upvalues, and the tree of function
records. A reader takes bytes to a value and the bytes behind it; it fails where the bytes do not
have the form of the format.
-/

namespace ChunkAsm.Chunk

/-- A reader takes bytes to a value and the bytes that are left. -/
abbrev ByteReader (α : Type) : Type := List UInt8 → Option (α × List UInt8)

/-- The first bytes of a chunk. -/
structure Header where
  /-- the four bytes that mark a chunk -/
  signature : List UInt8
  /-- the version of the language -/
  version : UInt8
  /-- the version of the format -/
  format : UInt8
  /-- six bytes that show damage by a change of line ends -/
  data : List UInt8
  /-- the widths of integer, size, instruction, Lua integer and Lua number -/
  widths : List UInt8
  /-- a known integer -/
  intCheck : Int
  /-- a known number -/
  numCheck : Binary64
  deriving DecidableEq, Repr

/-- The record of a function with the records of its protos. -/
structure Proto where
  /-- the name of the function -/
  source : List UInt8
  /-- the first line of its definition -/
  firstLine : Int
  /-- the last line of its definition -/
  lastLine : Int
  /-- the number of parameters -/
  params : UInt8
  /-- the treatment of surplus arguments -/
  vararg : UInt8
  /-- the number of registers -/
  maxStack : UInt8
  /-- the instructions -/
  words : List Word
  /-- the constants -/
  constants : List Constant
  /-- the captured variables -/
  upvalues : List Upvalue
  /-- the records of the functions inside -/
  protos : List Proto
  /-- the marked source lines -/
  lines : List Int
  /-- how many local variables have names -/
  locals : Nat
  /-- how many captured variables have names -/
  upvalueNames : Nat
  deriving Repr

/-! ## Scalars -/

/-- The number that bytes denote, the least significant first. -/
def ofLittleEndian : List UInt8 → Nat
  | [] => 0
  | b :: rest => b.toNat + 256 * ofLittleEndian rest

/-- The integer that a number of `width` bytes denotes in two's complement. -/
def toSigned (width n : Nat) : Int :=
  let size := Nat.pow 256 width
  if 2 * n < size then n else (n : Int) - size

/-- A given number of bytes. -/
def readBytes (n : Nat) : ByteReader (List UInt8) := fun bs =>
  if n ≤ bs.length then some (bs.take n, bs.drop n) else none

/-- One byte. -/
def readByte : ByteReader UInt8
  | [] => none
  | b :: rest => some (b, rest)

/-- An unsigned number of a given width. -/
def readNat (width : Nat) : ByteReader Nat := fun bs => do
  let (raw, rest) ← readBytes width bs
  some (ofLittleEndian raw, rest)

/-- A signed integer of a given width. -/
def readInt (width : Nat) : ByteReader Int := fun bs => do
  let (n, rest) ← readNat width bs
  some (toSigned width n, rest)

/-- The length of a table, which is not negative. -/
def readCount : ByteReader Nat := fun bs => do
  let (n, rest) ← readInt 4 bs
  if 0 ≤ n then some (n.toNat, rest) else none

/-! ## Tables and records -/

/-- A given number of values of one form. -/
def readMany {α : Type} (read : ByteReader α) : Nat → ByteReader (List α)
  | 0, bs => some ([], bs)
  | n + 1, bs => do
    let (x, rest) ← read bs
    let (xs, rest) ← readMany read n rest
    some (x :: xs, rest)

/-- A table: its length and its entries. -/
def readTable {α : Type} (read : ByteReader α) : ByteReader (List α) := fun bs => do
  let (n, rest) ← readCount bs
  readMany read n rest

/-- A string: its length plus one, in one byte or behind a mark, and its bytes. -/
def readString : ByteReader (List UInt8) := fun bs => do
  let (short, rest) ← readByte bs
  let (n, rest) ← if short = 0xff then readNat 8 rest else some (short.toNat, rest)
  if n = 0 then none else readBytes (n - 1) rest

/-- A constant. -/
def readConstant : ByteReader Constant := fun bs => do
  let (tag, rest) ← readByte bs
  if tag = 0 then some (.nil, rest)
  else if tag = 1 then do
    let (b, rest) ← readByte rest
    some (.bool (b != 0), rest)
  else if tag = 3 then do
    let (n, rest) ← readNat 8 rest
    some (.number ⟨UInt64.ofNat n⟩, rest)
  else if tag = 4 then do
    let (bytes, rest) ← readString rest
    some (.string bytes, rest)
  else none

/-- An instruction. -/
def readWord : ByteReader Word := fun bs => do
  let (n, rest) ← readNat 4 bs
  some (⟨UInt32.ofNat n⟩, rest)

/-- A captured variable. -/
def readUpvalue : ByteReader Upvalue := fun bs => do
  let (inStack, rest) ← readByte bs
  let (index, rest) ← readByte rest
  some (⟨inStack, index⟩, rest)

/-- The record of a function whose protos are nested less than `depth` deep. -/
def readProto : Nat → ByteReader Proto
  | 0, _ => none
  | depth + 1, bs => do
    let (source, rest) ← readString bs
    let (firstLine, rest) ← readInt 4 rest
    let (lastLine, rest) ← readInt 4 rest
    let (params, rest) ← readByte rest
    let (vararg, rest) ← readByte rest
    let (maxStack, rest) ← readByte rest
    let (words, rest) ← readTable readWord rest
    let (constants, rest) ← readTable readConstant rest
    let (upvalues, rest) ← readTable readUpvalue rest
    let (protos, rest) ← readTable (readProto depth) rest
    let (lines, rest) ← readTable (readInt 4) rest
    let (locals, rest) ← readCount rest
    let (upvalueNames, rest) ← readCount rest
    some ({ source, firstLine, lastLine, params, vararg, maxStack, words, constants, upvalues,
            protos, lines, locals, upvalueNames }, rest)

/-- The header. -/
def readHeader : ByteReader Header := fun bs => do
  let (signature, rest) ← readBytes 4 bs
  let (version, rest) ← readByte rest
  let (format, rest) ← readByte rest
  let (data, rest) ← readBytes 6 rest
  let (widths, rest) ← readBytes 5 rest
  let (intCheck, rest) ← readInt 8 rest
  let (num, rest) ← readNat 8 rest
  some (⟨signature, version, format, data, widths, intCheck, ⟨UInt64.ofNat num⟩⟩, rest)

/-- A whole chunk: its header, the number of upvalues and the main function. Nothing may follow. A
record takes at least one byte, so the length of the chunk bounds how deep records are nested. -/
def read (bs : List UInt8) : Option (Header × UInt8 × Proto) := do
  let (header, rest) ← readHeader bs
  let (upvalueCount, rest) ← readByte rest
  let (main, rest) ← readProto bs.length rest
  if rest = [] then some (header, upvalueCount, main) else none

end ChunkAsm.Chunk
