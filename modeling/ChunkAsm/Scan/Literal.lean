import ChunkAsm.Binary64.Rounding
import ChunkAsm.Scan

/-!
# Literals

The written forms of constants: quoted strings with escapes, decimal and hexadecimal numbers, and
the words `true`, `false` and `nil` in any letter case. A literal must end at a delimiter.
-/

namespace ChunkAsm.Scan

/-- The byte that a backslash and a character stand for. -/
def escape? : Char → Option UInt8
  | 'a' => some 7
  | 'b' => some 8
  | 'f' => some 12
  | 'n' => some 10
  | 'r' => some 13
  | 't' => some 9
  | 'v' => some 11
  | '\\' => some 92
  | '"' => some 34
  | '\'' => some 39
  | '[' => some 91
  | ']' => some 93
  | _ => none

/-- The characters of a string up to its closing quote, as bytes in UTF-8. The bytes read so far
are handed on in reverse. -/
def stringBody (quote : Char) (done : List UInt8) : Reader LexError (List UInt8)
  | [] => .error .unterminatedString
  | c :: rest =>
    if c = quote then .ok (done.reverse, rest)
    else if c = '\\' then
      match rest with
      | [] => .error .unterminatedString
      | e :: rest =>
        match escape? e with
        | some b => stringBody quote (b :: done) rest
        | none => .error (.unknownEscape e)
    else stringBody quote ((String.utf8EncodeChar c).reverse ++ done) rest

/-- The digits after `0x`. The characters before them, which an error shows, are `shown`. -/
def hexNumber (shown : List Char) : Reader LexError Binary64 := fun cs =>
  match cs.takeWhile isHexDigit with
  | [] => .error (.malformedNumber (String.ofList shown))
  | digits => .ok (Binary64.ofHex (digits.map digitValue), cs.dropWhile isHexDigit)

/-- Decimal digits with an optional point. There must be a digit on one side of the point; the
characters before the number, which an error shows, are `shown`. -/
def decimalNumber (shown : List Char) : Reader LexError Binary64 := fun cs =>
  let int := cs.takeWhile Char.isDigit
  let (point, frac, rest) : List Char × List Char × List Char :=
    match cs.dropWhile Char.isDigit with
    | '.' :: rest => (['.'], rest.takeWhile Char.isDigit, rest.dropWhile Char.isDigit)
    | rest => ([], [], rest)
  if int.isEmpty && frac.isEmpty then .error (.malformedNumber (String.ofList (shown ++ point)))
  else .ok (Binary64.ofDecimal (int.map digitValue) (frac.map digitValue), rest)

/-- A number with an optional sign. -/
def number : Reader LexError Binary64 := fun cs => do
  let (signChars, negative, start) := sign cs
  let (x, rest) ←
    match start with
    | '0' :: 'x' :: digits => hexNumber (signChars ++ ['0', 'x']) digits
    | '0' :: 'X' :: digits => hexNumber (signChars ++ ['0', 'X']) digits
    | _ => decimalNumber signChars start
  .ok (if negative then x.neg else x, rest)

/-- The literal that a word of letters is, in any letter case. -/
def literalWord? (w : String) : Option Constant :=
  if Keyword.Matches w "true" then some (.bool true)
  else if Keyword.Matches w "false" then some (.bool false)
  else if Keyword.Matches w "nil" then some .nil
  else none

/-- A literal, without a look at what follows it. -/
def literalToken : Reader LexError Constant
  | [] => .error (.expectedLiteral "")
  | c :: rest =>
    if c = '"' ∨ c = '\'' then do
      let (bytes, rest) ← stringBody c [] rest
      .ok (.string bytes, rest)
    else if c.isDigit ∨ c = '-' ∨ c = '+' ∨ c = '.' then do
      let (x, rest) ← number (c :: rest)
      .ok (.number x, rest)
    else if c.isAlpha then
      let (w, rest) := word (c :: rest)
      match literalWord? w with
      | some k => .ok (k, rest)
      | none => .error (.expectedLiteral w)
    else .error (.expectedLiteral (String.ofList (c :: rest)))

/-- A literal. -/
def literal : Reader LexError Constant := fun cs => do
  let (k, rest) ← literalToken (skipBlanks cs)
  if atDelimiter rest then .ok (k, rest)
  else .error (.trailingCharacters (String.ofList rest))

end ChunkAsm.Scan
