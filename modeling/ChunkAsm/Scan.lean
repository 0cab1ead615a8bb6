import ChunkAsm.Constant
import ChunkAsm.Keyword

/-!
# Reading a line

A line is read from left to right. What is still unread is a list of characters, and a **reader**
takes it to a value and the rest, or to an error. Tokens skip the blanks before them; blanks are
spaces and tabs. A semicolon starts a comment that runs to the end of the line.

A reader that fails gives no rest: whoever called it still has the characters it started from
(`attempt`). Only `endOfLine` is different. It passes over the blanks before it looks, and stays
behind them when something else follows.
-/

namespace ChunkAsm

/-- What can be wrong with the characters of a token. -/
inductive LexError where
  /-- there is no name here -/
  | expectedName
  /-- there is no integer here -/
  | expectedInteger
  /-- the integer is outside the range of its place -/
  | integerOverflow (digits : String)
  /-- no literal starts here -/
  | expectedLiteral (found : String)
  /-- a number has no digits -/
  | malformedNumber (found : String)
  /-- the closing quote is missing -/
  | unterminatedString
  /-- a backslash stands before a character that it cannot escape -/
  | unknownEscape (c : Char)
  /-- something follows where the line or the token should end -/
  | trailingCharacters (rest : String)
  deriving DecidableEq, Repr

/-- The text of a lexical error. -/
def LexError.message : LexError → String
  | expectedName => "expected a name"
  | expectedInteger => "expected an integer"
  | integerOverflow digits => s!"integer '{digits}' is too large"
  | expectedLiteral found => s!"expected a constant literal, found '{found}'"
  | malformedNumber found => s!"malformed number '{found}'"
  | unterminatedString => "unterminated string literal"
  | unknownEscape c => s!"unknown escape sequence '\\{c}'"
  | trailingCharacters rest => s!"unexpected trailing '{rest}'"

namespace Scan

/-- A reader takes the unread characters of a line to a value and what is left of them. -/
abbrev Reader (ε α : Type) : Type := List Char → Except ε (α × List Char)

/-- The result of a reader, and what is unread afterwards: a reader that fails leaves everything
in place. -/
def attempt {ε α : Type} (read : Reader ε α) (cs : List Char) : Except ε α × List Char :=
  match read cs with
  | .ok (x, rest) => (.ok x, rest)
  | .error e => (.error e, cs)

/-! ## Characters -/

/-- Blanks separate tokens. -/
def isBlank (c : Char) : Bool := c == ' ' || c == '\t'

/-- Names consist of ASCII letters, ASCII digits and underscores. -/
def isNameChar (c : Char) : Bool := c.isAlphanum || c == '_'

/-- The digits of hexadecimal numbers. -/
def isHexDigit (c : Char) : Bool :=
  c.isDigit || ('a' ≤ c && c ≤ 'f') || ('A' ≤ c && c ≤ 'F')

/-- The value of a decimal or hexadecimal digit. -/
def digitValue (c : Char) : Nat :=
  if c.isDigit then c.toNat - '0'.toNat
  else if 'a' ≤ c then c.toNat - 'a'.toNat + 10
  else c.toNat - 'A'.toNat + 10

/-! ## The shape of the rest -/

/-- The rest of a line without the blanks in front. -/
def skipBlanks (cs : List Char) : List Char := cs.dropWhile isBlank

/-- Whether a token ends here: at a blank, at a comment or at the end of the line. -/
def atDelimiter : List Char → Bool
  | [] => true
  | c :: _ => c == ';' || isBlank c

/-- Whether nothing but blanks, and possibly a comment, is left. -/
def atEnd (cs : List Char) : Bool :=
  match skipBlanks cs with
  | [] => true
  | c :: _ => c == ';'

/-- The end of the line, and what is unread afterwards. The value is the comment, if there is one,
with its semicolon. -/
def endOfLine (cs : List Char) : Except LexError (Option String) × List Char :=
  match skipBlanks cs with
  | [] => (.ok none, [])
  | c :: rest =>
    if c = ';' then (.ok (some (String.ofList (c :: rest))), [])
    else (.error (.trailingCharacters (String.ofList (c :: rest))), c :: rest)

/-! ## Names and integers -/

/-- A run of ASCII letters, possibly empty, with no blanks skipped. -/
def word (cs : List Char) : String × List Char :=
  (String.ofList (cs.takeWhile Char.isAlpha), cs.dropWhile Char.isAlpha)

/-- A name. -/
def name : Reader LexError String := fun cs =>
  let start := skipBlanks cs
  match start.takeWhile isNameChar with
  | [] => .error .expectedName
  | found => .ok (String.ofList found, start.dropWhile isNameChar)

/-- An optional sign: its characters, whether it is a minus, and the rest. -/
def sign : List Char → List Char × Bool × List Char
  | '-' :: rest => (['-'], true, rest)
  | '+' :: rest => (['+'], false, rest)
  | rest => ([], false, rest)

/-- The number that decimal digits denote. -/
def decimalValue (digits : List Char) : Nat :=
  digits.foldl (fun n c => 10 * n + digitValue c) 0

/-- The greatest integer that can be written. -/
def maxInteger : Nat := 9223372036854775807

/-- The product of two 64-bit integers, unless it overflows. -/
def checkedMul (a b : Int64) : Option Int64 :=
  if a.toBitVec.smulOverflow b.toBitVec then none else some (a * b)

/-- The sum of two 64-bit integers, unless it overflows. -/
def checkedAdd (a b : Int64) : Option Int64 :=
  if a.toBitVec.saddOverflow b.toBitVec then none else some (a + b)

/-- A 64-bit integer with one more decimal digit behind it, unless that overflows. -/
def appendDigit? (n : Int64) (c : Char) : Option Int64 := do
  checkedAdd (← checkedMul n 10) (Int64.ofNat (digitValue c))

/-- The 64-bit integer that decimal digits denote, taken in from left to right, unless one of the
steps overflows. -/
def decimal64? (digits : List Char) : Option Int64 := digits.foldlM appendDigit? 0

/-- A decimal integer with an optional sign, which must end at a delimiter. Its magnitude is
bounded by `maxInteger` for either sign, since the sign is applied last. -/
def integer : Reader LexError Int := fun cs =>
  let (signChars, negative, start) := sign (skipBlanks cs)
  let digits := start.takeWhile Char.isDigit
  let rest := start.dropWhile Char.isDigit
  if digits.isEmpty || !atDelimiter rest then .error .expectedInteger
  else
    match decimal64? digits with
    | none => .error (.integerOverflow (String.ofList (signChars ++ digits)))
    | some n => .ok ((if negative then -n else n).toInt, rest)

/-- An integer between zero and `max`. -/
def unsigned (max : Int) : Reader LexError Int := fun cs => do
  let (n, rest) ← integer cs
  if n < 0 ∨ max < n then .error (.integerOverflow (toString n)) else .ok (n, rest)

end Scan

end ChunkAsm
