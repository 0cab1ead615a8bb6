import ChunkAsm.Bytes.Scalar

/-!
# Source text

Source text is a sequence of bytes, cut into lines at line feeds. A carriage return right before
the line feed belongs to the line's end; the last line need not have an end. Each line is UTF-8 on
its own account, so one that is not leaves its neighbours readable.
-/

namespace ChunkAsm

/-- Why a line of a source cannot be read. -/
inductive ReadError where
  /-- the line is not UTF-8 -/
  | notUtf8
  /-- the source is a directory -/
  | isDirectory
  deriving DecidableEq, Repr

/-- The text of a read error. -/
def ReadError.message : ReadError → String
  | notUtf8 => "stream did not contain valid UTF-8"
  | isDirectory => "Is a directory (os error 21)"

namespace Source

/-- A finished line, given in reverse, without the carriage return at its end. -/
def withoutReturn : List UInt8 → List UInt8
  | 13 :: line => line.reverse
  | line => line.reverse

/-- Cut bytes into lines. The lines found so far and the line at hand are handed on in reverse. -/
def splitFrom (done : List (List UInt8)) (line : List UInt8) : List UInt8 → List (List UInt8)
  | [] => (if line.isEmpty then done else line.reverse :: done).reverse
  | b :: rest =>
    if b = 10 then splitFrom (withoutReturn line :: done) [] rest
    else splitFrom done (b :: line) rest

/-- The lines of a source, without their ends. -/
def split (bytes : List UInt8) : List (List UInt8) := splitFrom [] [] bytes

/-- The text of a line. -/
def decode (line : List UInt8) : Except ReadError String :=
  match String.fromUTF8? line.toByteArray with
  | some text => .ok text
  | none => .error .notUtf8

/-- A text of whole lines. -/
def ofLines (lines : List String) : String := String.join (lines.map (· ++ "\n"))

/-- The lines of a source. -/
def lines (bytes : List UInt8) : List (Except ReadError String) := (split bytes).map decode

end Source

end ChunkAsm
