import ChunkAsm.Assembler.Draft
import ChunkAsm.Assembler.Error
import ChunkAsm.Scan.LineMarker

/-!
# Instruction lines

An instruction line is a mnemonic, its operands and possibly a comment. It is read in three steps:
the operands are read slot by slot, each is **bound** to a value in the function at hand, and the
values are **placed** in the instruction word. What the line adds to the function besides the word
(new constants, jumps that wait for labels, references to functions) is only collected; the
function itself changes when the whole line has been found good.
-/

namespace ChunkAsm

/-- An instruction whose operands are being placed. -/
structure Encoding where
  /-- the word so far -/
  word : Word
  /-- the value of the extra word, if there will be one -/
  extra : Option Int := none
  /-- the constants of the line that are new to the pool -/
  constants : List Constant := []
  /-- the labels of the line that are not declared yet -/
  labels : List String := []
  /-- the functions that the line refers to -/
  subroutines : List String := []
  deriving DecidableEq, Repr

namespace Encoding

/-- The index that a constant has once the new constants of the line are in the pool. -/
def constantIndex (e : Encoding) (pool : Pool) (c : Constant) : Nat × Encoding :=
  match pool.position? c with
  | some i => (i, e)
  | none =>
    match e.constants.findIdx? (·.same c) with
    | some i => (pool.size + i, e)
    | none => (pool.size + e.constants.length, { e with constants := e.constants ++ [c] })

/-- Put a value where it belongs. -/
def place (e : Encoding) (v : Int) : Destination → Except FieldOverflow Encoding
  | .field f => do .ok { e with word := ← e.word.set f v }
  | .extra => .ok { e with extra := some v }
  | .cOrExtra =>
    if Field.c.hi < v then do .ok { e with word := ← e.word.set .c 0, extra := some v }
    else do .ok { e with word := ← e.word.set .c v }

end Encoding

namespace Draft

/-- The value of an operand in a function, for a slot that accepts the given kinds. A constant that
shares its slot with registers is flagged. A label that is not declared yet and the index of a
function have provisional values. -/
def bind (d : Draft) (owners : Owners) (kinds : Kinds) (e : Encoding) :
    Operand → Except LineError (Int × Encoding)
  | .stack n | .upvalue n | .embedded n => .ok (n, e)
  | .location label =>
    match d.labels.resolved? label d.words.size with
    | some delta => .ok (delta, e)
    | none => .ok (Labels.unresolvedDelta, { e with labels := e.labels ++ [label] })
  | .constant c =>
    let (i, e) := e.constantIndex d.constants c
    .ok (if kinds.stack then ((i ||| rkFlag : Nat) : Int) else i, e)
  | .proto name =>
    match owners.isFirstUse name d.id with
    | .ok _ => .ok (0, { e with subroutines := e.subroutines ++ [name] })
    | .error conflict => .error (.owner conflict)

/-- Bind and place the operands of the given slots, one after the other. -/
def encode (d : Draft) (owners : Owners) :
    List (Slot × Operand) → Encoding → Except LineError Encoding
  | [], e => .ok e
  | (slot, operand) :: rest, e => do
    let (v, e) ← d.bind owners slot.kinds e operand
    let e ← (e.place v slot.dest).mapError .field
    d.encode owners rest e

/-- The source line that a comment marks, if there is a comment. -/
def markedLine : Option String → Except LexError (Option Nat)
  | some comment => Scan.lineMarker comment.toList
  | none => .ok none

/-- What an instruction line with the given mnemonic adds to the function. -/
def instruction (d : Draft) (owners : Owners) (mnemonic : String) (cs : List Char) :
    Except LineError Emission :=
  match Opcode.lookup mnemonic with
  | none => .error (.unknownOpcode mnemonic)
  | some op => do
    let (operands, rest) ← (Operand.readAll op.slots cs).mapError .operand
    let comment ← (Operand.noMore rest).1.mapError .operand
    let line ← (markedLine comment).mapError .lex
    let e ← d.encode owners (op.slots.zip operands) { word := Word.ofOpcode op }
    let extra ←
      match e.extra with
      | none => .ok none
      | some v => ((Word.extraArg v).map some).mapError .field
    .ok { word := e.word, extra, line, constants := e.constants, labels := e.labels,
          subroutines := e.subroutines }

/-- The first jump that a declaration of a label at the current place cannot resolve, because its
distance does not fit. -/
def labelOverflow? (d : Draft) (label : String) : Option FieldOverflow :=
  (d.resolutions label).findSome? fun r =>
    if Field.sbx.Fits r.2 then none else some ⟨.sbx, r.2⟩

end Draft

end ChunkAsm
