import ChunkAsm.Bytes.Scalar
import ChunkAsm.Program

/-!
# The binary chunk format

The Lua 5.3 chunk format, for a machine with 4-byte integers and instructions, 8-byte sizes, and
8-byte Lua integers and numbers, all with the least significant byte first. Everything is given as a
list of **pieces**, each of which is written by itself. The lengths of tables are 32-bit integers
with a sign, so a record has **parts**: pieces, and lengths that may turn out too large.
-/

namespace ChunkAsm.Chunk

open Bytes

/-- A sequence of bytes that is written by itself. -/
abbrev Piece := List UInt8

/-- The widths that a header announces: integer, size, instruction, Lua integer, Lua number. -/
def widths : List UInt8 := [4, 8, 4, 8, 8]

/-- The header: signature, version 5.3, format 0, check bytes, widths, and one Lua integer and one
Lua number from which a reader sees that it understands them. -/
def header : List Piece :=
  [[0x1b, 0x4c, 0x75, 0x61], [0x53], [0], [0x19, 0x93, 0x0d, 0x0a, 0x1a, 0x0a], widths,
    int64 0x5678, uint64 0x4077280000000000]

/-- A string: its length plus one, in one byte or, from 254 bytes on, in eight bytes after a mark,
and then its bytes. -/
def string (bytes : List UInt8) : List Piece :=
  let n := bytes.length + 1
  if bytes.length < 0xfe then [littleEndian 1 n, bytes] else [[0xff], uint64 n, bytes]

/-- A constant: its type and its value. -/
def constant (c : Constant) : List Piece :=
  [c.tag] ::
    match c with
    | .nil => []
    | .bool b => [bool b]
    | .number x => [uint64 x.bits.toNat]
    | .string bytes => string bytes

/-- The length of a table. -/
def count (n : Nat) : Piece := int32 n

/-- A table that is too long for the format. -/
structure Oversize where
  /-- what is in the table -/
  table : String
  /-- how long it is -/
  length : Nat
  deriving DecidableEq, Repr

/-- The text of what is wrong with a table that is too long. -/
def Oversize.message (e : Oversize) : String := s!"too many {e.table} ({e.length})"

/-- A part of a record. -/
inductive Part where
  /-- bytes that are written in any case -/
  | piece (bytes : Piece)
  /-- the length of a table, which is written if it is a 32-bit integer -/
  | count (table : String) (n : Nat)
  deriving DecidableEq, Repr

namespace Part

/-- The bytes of a part. -/
def bytes : Part → Piece
  | piece bs => bs
  | count _ n => Chunk.count n

/-- The table that a part is the length of, if it is too long. -/
def oversize? : Part → Option Oversize
  | piece _ => none
  | count table n => if n < 2147483648 then none else some ⟨table, n⟩

end Part

/-- A table: its length and its entries. -/
def table (name : String) (n : Nat) (entries : List Piece) : List Part :=
  .count name n :: entries.map .piece

/-- The record of a function up to and including the number of its protos. The lines in which it
is defined are not known and are given as zero. -/
def functionHead (f : Function) (words : Array Word) (protos : Nat) : List Part :=
  (string (utf8 f.name) ++
    [int32 0, int32 0, [f.header.params], [f.header.vararg.toByte], [f.header.maxStack]]).map
      .piece ++
    table "instructions" words.size (words.toList.map fun w => uint32 w.bits.toNat) ++
    table "constants" f.constants.size (f.constants.entries.toList.flatMap constant) ++
    table "upvalues" f.upvalues.size
      (f.upvalues.toList.flatMap fun u => [[u.inStack], [u.index]]) ++
    [.count "protos" protos]

/-- The record of a function after its protos: the marked lines, and two empty tables for the names
of local variables and of captured variables. -/
def functionTail (f : Function) : List Part :=
  table "line info entries" f.lines.size (f.lines.toList.map int32) ++
    [.piece (int32 0), .piece (int32 0)]

/-! ## What is written of parts -/

/-- The bytes of parts. -/
def bytes (parts : List Part) : List UInt8 := parts.flatMap Part.bytes

/-- The first table that is too long. -/
def oversize? (parts : List Part) : Option Oversize := parts.findSome? Part.oversize?

/-- The pieces that come before the length of a table that is too long. -/
def pieces (parts : List Part) : List Piece :=
  (parts.takeWhile fun part => part.oversize?.isNone).map Part.bytes

@[simp] theorem bytes_nil : bytes [] = [] := rfl

@[simp] theorem bytes_cons (part : Part) (rest : List Part) :
    bytes (part :: rest) = part.bytes ++ bytes rest :=
  List.flatMap_cons

@[simp] theorem bytes_append (xs ys : List Part) : bytes (xs ++ ys) = bytes xs ++ bytes ys :=
  List.flatMap_append

@[simp] theorem bytes_map_piece (ps : List Piece) : bytes (ps.map .piece) = ps.flatten := by
  induction ps with
  | nil => rfl
  | cons p ps ih => exact congrArg (p ++ ·) ih

@[simp] theorem bytes_table (name : String) (n : Nat) (entries : List Piece) :
    bytes (table name n entries) = count n ++ entries.flatten := by
  rw [table, bytes_cons, bytes_map_piece, Part.bytes]

theorem oversize?_cons_eq_none {part : Part} {rest : List Part} :
    oversize? (part :: rest) = none ↔ part.oversize? = none ∧ oversize? rest = none := by
  simp [oversize?]

@[simp] theorem oversize?_append (xs ys : List Part) :
    oversize? (xs ++ ys) = (oversize? xs).or (oversize? ys) :=
  List.findSome?_append

@[simp] theorem oversize?_map_piece (ps : List Piece) : oversize? (ps.map .piece) = none := by
  simp [oversize?, Part.oversize?]

@[simp] theorem oversize?_table (name : String) (n : Nat) (entries : List Piece) :
    oversize? (table name n entries) = (Part.count name n).oversize? := by
  rw [table, oversize?, List.findSome?_cons, ← oversize?, oversize?_map_piece]
  cases (Part.count name n).oversize? <;> rfl

/-- The head of a record can be written if none of its tables is too long. -/
theorem oversize?_functionHead {f : Function} {words : Array Word} {protos : Nat}
    (hwords : words.size < 2147483648) (hconstants : f.constants.size < 2147483648)
    (hupvalues : f.upvalues.size < 2147483648) (hprotos : protos < 2147483648) :
    oversize? (functionHead f words protos) = none := by
  simp only [functionHead, oversize?_append, oversize?_map_piece, oversize?_table, Part.oversize?,
    if_pos hwords, if_pos hconstants, if_pos hupvalues, Option.none_or]
  simp [oversize?, Part.oversize?, hprotos]

/-- So can the tail. -/
theorem oversize?_functionTail {f : Function} (hlines : f.lines.size < 2147483648) :
    oversize? (functionTail f) = none := by
  rw [functionTail, oversize?_append, oversize?_table, Part.oversize?, if_pos hlines]
  rfl

/-- If no table is too long, all bytes are written. -/
theorem flatten_pieces {parts : List Part} (h : oversize? parts = none) :
    (pieces parts).flatten = bytes parts := by
  induction parts with
  | nil => rfl
  | cons part rest ih =>
    obtain ⟨hpart, hrest⟩ := oversize?_cons_eq_none.mp h
    rw [pieces, List.takeWhile_cons, hpart, bytes_cons]
    exact congrArg (part.bytes ++ ·) (ih hrest)

/-- A table that is too long is found, and nothing is written from its length on, if none before it
is too long. -/
theorem oversize?_split {before : List Part} {n : Nat} (h : oversize? before = none)
    (hn : 2147483648 ≤ n) (name : String) (after : List Part) :
    oversize? (before ++ .count name n :: after) = some ⟨name, n⟩ ∧
      (pieces (before ++ .count name n :: after)).flatten = bytes before := by
  have hlong : (Part.count name n).oversize? = some ⟨name, n⟩ := if_neg (Nat.not_lt.mpr hn)
  constructor
  · rw [oversize?_append, h, Option.none_or, oversize?, List.findSome?_cons, hlong]
  · rw [← flatten_pieces h, pieces, pieces]
    induction before with
    | nil => rw [List.nil_append, List.takeWhile_cons, hlong]; rfl
    | cons part rest ih =>
      obtain ⟨hpart, hrest⟩ := oversize?_cons_eq_none.mp h
      rw [List.cons_append, List.takeWhile_cons, List.takeWhile_cons, hpart]
      exact congrArg (part.bytes ++ ·) (ih hrest)

end ChunkAsm.Chunk
