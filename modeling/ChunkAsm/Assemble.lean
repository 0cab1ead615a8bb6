import ChunkAsm.Assembler.Line
import ChunkAsm.Source

/-!
# Assembling a source

A source is assembled line by line. The first line that cannot be read or is rejected ends the
assembly, with its number; if there is none, the end of the input may still be at fault.
-/

namespace ChunkAsm

/-- Why a source does not give a program. -/
inductive SourceError where
  /-- a line is rejected, or the input may not end where it does -/
  | parse (line : Option Nat) (e : LineError)
  /-- a line cannot be read -/
  | read (e : ReadError)
  deriving DecidableEq, Repr

/-- The text of a source error. -/
def SourceError.message : SourceError → String
  | parse (some n) e => s!"error parsing line {n}: {e.message}"
  | parse none e => s!"error at end of input: {e.message}"
  | read e => s!"failed to read source: {e.message}"

/-- The number of the line that a source error is about. -/
def SourceError.line? : SourceError → Option Nat
  | parse n _ => n
  | read _ => none

/-- The result of assembling a source. -/
structure Assembly where
  /-- what the log says -/
  log : List Log.Event
  /-- the program, or why there is none -/
  result : Except SourceError Program
  deriving Repr

namespace Assembly

/-- Assemble the remaining lines, of which the first has the number `n`. The log so far is handed
on in reverse. -/
def run (strict : Bool) (log : List Log.Event) (n : Nat) (a : Assembler) :
    List (Except ReadError String) → Assembly
  | [] =>
    let (final, result) := a.finish strict
    ⟨log.reverse ++ final, result.mapError (.parse none)⟩
  | .error e :: _ => ⟨log.reverse, .error (.read e)⟩
  | .ok line :: rest =>
    let r := a.react line.toList
    let log := r.log.reverse ++ log
    match r.refusal with
    | some e => ⟨log.reverse, .error (.parse (some n) e)⟩
    | none => run strict log (n + 1) (a.applyAll r.edits) rest

/-- Assemble lines. With `strict` set the input may not end in an open segment. -/
def ofLines (strict : Bool) (lines : List (Except ReadError String)) : Assembly :=
  run strict [] 1 {} lines

/-- Assemble the bytes of a source. -/
def ofBytes (strict : Bool) (bytes : List UInt8) : Assembly := ofLines strict (Source.lines bytes)

/-- Assemble a text. -/
def ofText (strict : Bool) (text : String) : Assembly := ofBytes strict (Bytes.utf8 text)

end Assembly

end ChunkAsm
