import ChunkAsm.Operand

/-!
# Reading in place

A **cursor** stands somewhere in a line and is given by what is still unread. A **method** moves it
along. It takes the characters in turn, and if it fails in the middle of a token the cursor stays
where it has got to. A method that is to leave no trace of a failure works on a copy of the cursor,
which takes its place only if all goes well (`onCopy`). Other copies serve to look ahead, and are
thrown away (`ahead`).

The tokens of a line, and its operands, are read by methods with the same values and errors as by
readers. A reader that fails gives no rest; a method says where the cursor is then. Every token is
read on a copy, except for the end of the line (`lineEnd`).
-/

namespace ChunkAsm.Cursor

open Scan

/-- A method moves a cursor, also when it fails. -/
abbrev Method (ε α : Type) : Type := EStateM ε (List Char) α

/-- Where a result leaves the cursor. -/
def place {ε α : Type} : EStateM.Result ε (List Char) α → List Char
  | .ok _ there => there
  | .error _ there => there

section

variable {ε α : Type}

/-! ## Copies -/

/-- Work on a copy of the cursor, which takes its place on success. -/
def onCopy (m : Method ε α) : Method ε α := fun here =>
  match m here with
  | .ok x there => .ok x there
  | .error e _ => .error e here

/-- Work on a copy of the cursor, which is thrown away. -/
def ahead (m : Method ε α) : Method ε α := fun here =>
  match m here with
  | .ok x _ => .ok x here
  | .error e _ => .error e here

/-! ## Characters -/

/-- The next character. -/
def peek : Method ε (Option Char) := fun here => .ok here.head? here

/-- Take the next character. -/
def bump : Method ε (Option Char) := fun here => .ok here.head? here.tail

/-- Take the next character if it is the given one, and say whether it is. -/
def eat (expected : Char) : Method ε Bool := do
  if (← peek) = some expected then
    let _ ← bump
    return true
  else return false

/-- Take characters of a class, as many as there are. -/
def takeWhile (p : Char → Bool) : Method ε (List Char) := fun here =>
  .ok (here.takeWhile p) (here.dropWhile p)

/-- Pass over blanks. -/
def skipBlanks : Method ε Unit := do
  let _ ← takeWhile isBlank

/-- Go to the end of the line. -/
def toEnd : Method ε Unit := fun _ => .ok () []

/-- What lies between an earlier place and the cursor. -/
def textSince (start : List Char) : Method ε String := do
  return String.ofList (start.take (start.length - (← get).length))

/-- Whether the end of the line or a comment is next. -/
def atComment : Method ε Bool := do
  match ← peek with
  | none => return true
  | some c => return c == ';'

/-- Whether a blank is next. -/
def atBlank : Method ε Bool := do
  return (← peek).any isBlank

/-- Whether nothing but blanks, and possibly a comment, is left. -/
def atEnd : Method ε Bool := ahead do
  skipBlanks
  atComment

/-- Whether a token ends here. -/
def atDelimiter : Method ε Bool := do
  return (← atComment) || (← atBlank)

/-- A run of ASCII letters, possibly empty, with no blanks skipped. -/
def word : Method ε String := do
  return String.ofList (← takeWhile Char.isAlpha)

/-- An optional sign: whether it is a minus. -/
def sign : Method ε Bool := do
  if ← eat '-' then return true
  else
    let _ ← eat '+'
    return false

end

/-! ## Tokens -/

/-- The end of the line: a comment, if there is one, with its semicolon. The blanks in front are
passed over by the cursor itself. -/
def lineEnd : Method LexError (Option String) := do
  skipBlanks
  let rest ← get
  match rest with
  | [] => return none
  | c :: _ =>
    if c = ';' then
      toEnd
      return some (String.ofList rest)
    else throw (.trailingCharacters (String.ofList rest))

/-- A name. -/
def name : Method LexError String := onCopy do
  skipBlanks
  let found ← takeWhile isNameChar
  if found.isEmpty then throw .expectedName
  else return String.ofList found

/-- A decimal integer with an optional sign, which must end at a delimiter. -/
def integer : Method LexError Int := onCopy do
  skipBlanks
  let start ← get
  let negative ← sign
  let digits ← takeWhile Char.isDigit
  if digits.isEmpty || !(← atDelimiter) then throw .expectedInteger
  else
    match decimal64? digits with
    | none => throw (.integerOverflow (← textSince start))
    | some n => return (if negative then -n else n).toInt

/-- An integer between zero and `max`. -/
def unsigned (max : Int) : Method LexError Int := onCopy do
  let n ← integer
  if n < 0 ∨ max < n then throw (.integerOverflow (toString n)) else return n

/-- The characters of a string up to its closing quote, as bytes in UTF-8. The bytes read so far
are handed on in reverse. -/
def stringBody (quote : Char) (done : List UInt8) :
    List Char → EStateM.Result LexError (List Char) (List UInt8)
  | [] => .error .unterminatedString []
  | c :: rest =>
    if c = quote then .ok done.reverse rest
    else if c = '\\' then
      match rest with
      | [] => .error .unterminatedString []
      | e :: rest =>
        match escape? e with
        | some b => stringBody quote (b :: done) rest
        | none => .error (.unknownEscape e) rest
    else stringBody quote ((String.utf8EncodeChar c).reverse ++ done) rest

/-- The mark in front of hexadecimal digits: whether it is there. -/
def hexMark {ε : Type} : Method ε Bool := fun here =>
  match here with
  | '0' :: 'x' :: rest => .ok true rest
  | '0' :: 'X' :: rest => .ok true rest
  | _ => .ok false here

/-- The digits after the mark of a hexadecimal number that begins at `start`. -/
def hexNumber (start : List Char) : Method LexError Binary64 := do
  let digits ← takeWhile isHexDigit
  if digits.isEmpty then throw (.malformedNumber (← textSince start))
  else return Binary64.ofHex (digits.map digitValue)

/-- The digits behind a point, if there is one. -/
def fraction {ε : Type} : Method ε (List Char) := do
  if ← eat '.' then takeWhile Char.isDigit else return []

/-- The digits of a decimal number that begins at `start`, with an optional point. -/
def decimalNumber (start : List Char) : Method LexError Binary64 := do
  let int ← takeWhile Char.isDigit
  let frac ← fraction
  if int.isEmpty && frac.isEmpty then throw (.malformedNumber (← textSince start))
  else return Binary64.ofDecimal (int.map digitValue) (frac.map digitValue)

/-- What stands behind the sign of a number that begins at `start`. -/
def magnitude (start : List Char) : Method LexError Binary64 := do
  if ← hexMark then hexNumber start else decimalNumber start

/-- A number with an optional sign. -/
def number : Method LexError Binary64 := do
  let start ← get
  let negative ← sign
  let x ← magnitude start
  return if negative then x.neg else x

/-- A literal, without a look at what follows it. -/
def literalToken : Method LexError Constant := do
  match ← peek with
  | none => throw (.expectedLiteral (String.ofList (← get)))
  | some c =>
    if c = '"' ∨ c = '\'' then
      let _ ← bump
      return .string (← stringBody c [])
    else if c.isDigit ∨ c = '-' ∨ c = '+' ∨ c = '.' then
      return .number (← number)
    else if c.isAlpha then
      let w ← word
      match literalWord? w with
      | some k => return k
      | none => throw (.expectedLiteral w)
    else throw (.expectedLiteral (String.ofList (← get)))

/-- A literal. -/
def literal : Method LexError Constant := onCopy do
  skipBlanks
  let k ← literalToken
  if ← atDelimiter then return k
  else throw (.trailingCharacters (String.ofList (← get)))

/-! ## Operands -/

/-- Go on only if the slot accepts a kind. -/
def permit (found : OperandKind) (accepted : Kinds) : Method OperandError Unit :=
  if accepted.has found then pure () else throw (.illegal found accepted)

/-- A method that reads a token, where an operand is read. -/
def token {α : Type} (m : Method LexError α) : Method OperandError α := m.adaptExcept .lex

/-- The word `const` with a blank behind it: whether it is there. -/
def constKeyword {ε : Type} : Method ε Bool := do
  let w ← word
  return decide (Keyword.Matches w "const") && (← atBlank)

/-- An integer or a truth value. -/
def embeddedValue : Method OperandError Int := do
  match Operand.flag? (← ahead word) with
  | some n =>
    let _ ← word
    return n
  | none => token integer

/-- An operand without a sigil. -/
def bare (accepted : Kinds) : Method OperandError Operand := do
  if ← ahead constKeyword then
    onCopy do
      let _ ← word
      permit .constant accepted
      return .constant (← token literal)
  else if accepted.proto then
    return .proto (← token name)
  else if accepted.embedded ∨ accepted.constant then
    let n ← embeddedValue
    if (← atEnd) || (← atBlank) then return .embedded n
    else throw (.lex (.trailingCharacters (String.ofList (← get))))
  else throw (.illegal .embedded accepted)

/-- An operand that begins with the given character: what a sigil announces, or one without. -/
def operandAt (accepted : Kinds) : Option Char → Method OperandError Operand
  | some '%' => do
    permit .stack accepted
    let _ ← bump
    return .stack (← token integer)
  | some '@' => do
    permit .upvalue accepted
    let _ ← bump
    return .upvalue (← token integer)
  | some '$' => do
    permit .location accepted
    let _ ← bump
    return .location (← token name)
  | _ => bare accepted

/-- The next operand of a slot that accepts the given kinds. -/
def operand (accepted : Kinds) : Method OperandError Operand := onCopy do
  skipBlanks
  if ← atEnd then throw (.missing accepted)
  else operandAt accepted (← peek)

/-- The error of a line that does not end behind its last operand. -/
def noMoreError : LexError → OperandError
  | .trailingCharacters rest => .tooMany rest
  | e => .lex e

/-- The end of an instruction line. -/
def noMore : Method OperandError (Option String) := lineEnd.adaptExcept noMoreError

/-! ## Calls -/

/-- What can be read with a cursor. -/
inductive Token where
  /-- a name -/
  | name
  /-- an integer -/
  | integer
  /-- an integer between zero and a bound -/
  | unsigned (max : Int)
  /-- a literal -/
  | literal
  /-- the end of the line -/
  | lineEnd
  /-- an operand of a slot -/
  | operand (accepted : Kinds)
  deriving DecidableEq, Repr

namespace Token

/-- What a token can fail with. -/
@[reducible] def Error : Token → Type
  | name | integer | unsigned _ | literal | lineEnd => LexError
  | operand _ => OperandError

/-- The values of a token. -/
@[reducible] def Value : Token → Type
  | name => String
  | integer | unsigned _ => Int
  | literal => Constant
  | lineEnd => Option String
  | operand _ => Operand

/-- The method that reads a token. -/
def read : (t : Token) → Method t.Error t.Value
  | name => Cursor.name
  | integer => Cursor.integer
  | unsigned max => Cursor.unsigned max
  | literal => Cursor.literal
  | lineEnd => Cursor.lineEnd
  | operand accepted => Cursor.operand accepted

end Token

/-- Whatever a cursor can be called for. -/
inductive Call where
  /-- look at the next character -/
  | peek
  /-- take the next character -/
  | bump
  /-- take the next character if it is the given one -/
  | eat (expected : Char)
  /-- pass over blanks -/
  | skipBlanks
  /-- see whether the line ends -/
  | atEnd
  /-- take letters -/
  | word
  /-- read a token -/
  | read (t : Token)
  /-- read the end of an instruction line -/
  | noMore
  deriving DecidableEq, Repr

/-- The cursor after a call, whether it fails or not. -/
def Call.move : Call → List Char → List Char
  | peek, here => place ((Cursor.peek : Method LexError _) here)
  | bump, here => place ((Cursor.bump : Method LexError _) here)
  | eat expected, here => place ((Cursor.eat expected : Method LexError _) here)
  | skipBlanks, here => place ((Cursor.skipBlanks : Method LexError _) here)
  | atEnd, here => place ((Cursor.atEnd : Method LexError _) here)
  | word, here => place ((Cursor.word : Method LexError _) here)
  | read t, here => place (t.read here)
  | noMore, here => place (Cursor.noMore here)

/-- The cursor after calls, one after another, from the beginning of a line. -/
def after (calls : List Call) (line : List Char) : List Char :=
  calls.foldl (fun here call => call.move here) line

end ChunkAsm.Cursor
