import ChunkAsm.Opcode.Layout
import ChunkAsm.Scan.Literal

/-!
# Operands

An operand as it is written, before it means anything for a particular function. A sigil tells the
kinds apart: `%n` is a register, `@n` an upvalue, `$name` a label. Without a sigil stand
`const literal`, the names of functions, and integers or truth values that are stored as they are.

`Operand.read` reads the next operand of a slot that accepts the given kinds. In a slot for
constants a bare integer is read as a position in the pool.
-/

namespace ChunkAsm

/-- An operand as written. -/
inductive Operand where
  /-- a register -/
  | stack (n : Int)
  /-- an upvalue -/
  | upvalue (n : Int)
  /-- a jump label -/
  | location (label : String)
  /-- a constant -/
  | constant (c : Constant)
  /-- a value that is stored as it is -/
  | embedded (n : Int)
  /-- a function -/
  | proto (name : String)
  deriving DecidableEq, Repr

/-- What can be wrong with an operand. -/
inductive OperandError where
  /-- the line ends where an operand should stand -/
  | missing (accepted : Kinds)
  /-- the slot does not accept this kind of operand -/
  | illegal (found : OperandKind) (accepted : Kinds)
  /-- the operand is badly written -/
  | lex (e : LexError)
  /-- something follows the last operand -/
  | tooMany (rest : String)
  deriving DecidableEq, Repr

/-- The text of an operand error. -/
def OperandError.message : OperandError → String
  | missing accepted => s!"missing operand, expected {accepted.text}"
  | illegal found accepted =>
    s!"invalid operand: {found.label} is not allowed here, expected {accepted.text}"
  | lex e => s!"invalid operand: {e.message}"
  | tooMany rest => s!"too many operands in instruction: '{rest}'"

namespace Operand

open Scan

/-- The kind of an operand. -/
def kind : Operand → OperandKind
  | stack _ => .stack
  | upvalue _ => .upvalue
  | location _ => .location
  | constant _ => .constant
  | embedded _ => .embedded
  | proto _ => .proto

/-- Go on only if the slot accepts a kind. -/
def permit (found : OperandKind) (accepted : Kinds) : Except OperandError Unit :=
  if accepted.has found then .ok () else .error (.illegal found accepted)

/-- A reader of tokens as a reader of operands. -/
def token {α : Type} (read : Reader LexError α) : Reader OperandError α := fun cs =>
  (read cs).mapError .lex

/-- The truth value that a word of letters is, as a number. -/
def flag? (w : String) : Option Int :=
  if Keyword.Matches w "true" then some 1
  else if Keyword.Matches w "false" then some 0
  else none

/-- The rest after the word `const`, if it stands here with a blank behind it. -/
def afterConst? (cs : List Char) : Option (List Char) :=
  let (w, rest) := word cs
  match rest with
  | c :: _ => if Keyword.Matches w "const" ∧ isBlank c then some rest else none
  | [] => none

/-- An integer or a truth value. -/
def embeddedValue : Reader OperandError Int := fun cs =>
  let (w, rest) := word cs
  match flag? w with
  | some n => .ok (n, rest)
  | none => token integer cs

/-- An operand without a sigil. -/
def bare (accepted : Kinds) : Reader OperandError Operand := fun cs =>
  match afterConst? cs with
  | some rest => do
    permit .constant accepted
    let (c, rest) ← token literal rest
    .ok (.constant c, rest)
  | none =>
    if accepted.proto then do
      let (n, rest) ← token name cs
      .ok (.proto n, rest)
    else if accepted.embedded ∨ accepted.constant then do
      let (n, rest) ← embeddedValue cs
      if atDelimiter rest then .ok (.embedded n, rest)
      else .error (.lex (.trailingCharacters (String.ofList rest)))
    else .error (.illegal .embedded accepted)

/-- The next operand of a slot that accepts the given kinds. -/
def read (accepted : Kinds) : Reader OperandError Operand := fun cs =>
  match skipBlanks cs with
  | [] => .error (.missing accepted)
  | ';' :: _ => .error (.missing accepted)
  | '%' :: rest => do
    permit .stack accepted
    let (n, rest) ← token integer rest
    .ok (.stack n, rest)
  | '@' :: rest => do
    permit .upvalue accepted
    let (n, rest) ← token integer rest
    .ok (.upvalue n, rest)
  | '$' :: rest => do
    permit .location accepted
    let (label, rest) ← token name rest
    .ok (.location label, rest)
  | start => bare accepted start

/-- The operands of consecutive slots. -/
def readAll : List Slot → Reader OperandError (List Operand)
  | [], cs => .ok ([], cs)
  | slot :: slots, cs => do
    let (operand, rest) ← read slot.kinds cs
    let (operands, rest) ← readAll slots rest
    .ok (operand :: operands, rest)

/-- The end of an instruction line, and what is unread afterwards. -/
def noMore (cs : List Char) : Except OperandError (Option String) × List Char :=
  match endOfLine cs with
  | (.ok comment, rest) => (.ok comment, rest)
  | (.error (.trailingCharacters found), rest) => (.error (.tooMany found), rest)
  | (.error e, rest) => (.error (.lex e), rest)

end Operand

end ChunkAsm
