import ChunkAsm.Assemble
import ChunkAsm.Chunk.Write
import ChunkAsm.Command.Arguments
import ChunkAsm.Command.Directory
import ChunkAsm.Command.OutputPath
import ChunkAsm.Listing

/-!
# Running commands

A command reads one file. What it does next follows from the contents of that file alone: it writes
a file, prints a listing, or fails (`Command.task`). No output file is touched unless the whole
chunk could be put together.
-/

namespace ChunkAsm

/-- What a command does after it has read its input. -/
inductive Task where
  /-- write an output file -/
  | write (path : String) (bytes : ByteArray)
  /-- print a text -/
  | print (text : String)
  /-- report an error -/
  | fail (message : String)

/-- What a command leaves behind besides files. -/
structure Outcome where
  /-- whether everything went well -/
  success : Bool
  /-- what is printed -/
  output : String
  /-- what the log and the error report say -/
  errors : String
  deriving DecidableEq, Repr

namespace Command

/-- The options of a command. -/
def options : Command → Options
  | asm o .. => o
  | list o _ => o

/-- The input file of a command. -/
def input : Command → String
  | asm _ i _ => i
  | list _ i => i

/-- Which log events are shown: a setting from outside wins, then the verbose option counts. -/
def filter (c : Command) (setting : Option Log.Filter) : Log.Filter :=
  setting.getD (if c.options.verbose then .upTo .debug else .upTo .warn)

/-- The lines of an opened file. -/
def sourceLines : Opened → Except OsError (List (Except ReadError String))
  | .refused e => .error e
  | .directory => .ok [.error .isDirectory]
  | .file bytes => .ok (Source.lines bytes)

/-- What a command does with an assembled program, and what the log says of it. -/
def programTask (c : Command) (p : Program) : List Log.Event × Task :=
  match c with
  | asm _ input output =>
    match p.chunk with
    | .error e => (p.writeLog, .fail s!"could not assemble '{input}': {e.message}")
    | .ok bytes =>
      match output <|> OutputPath.default? input with
      | some path => (p.writeLog, .write path bytes.toByteArray)
      | none => (p.writeLog, .fail (OutputPath.noFileName input))
  | list _ input =>
    match p.listing with
    | .error e => (p.listLog, .fail s!"could not list '{input}': {e.message}")
    | .ok text => (p.listLog, .print text)

/-- What a command does once its input is opened, and what the log says until then. -/
def task (c : Command) (opened : Opened) : List Log.Event × Task :=
  match sourceLines opened with
  | .error e => ([], .fail s!"could not open '{c.input}': {e.message}")
  | .ok lines =>
    let assembly := Assembly.ofLines c.options.strict lines
    match assembly.result with
    | .error e => (assembly.log, .fail s!"could not assemble '{c.input}': {e.message}")
    | .ok p =>
      let (log, t) := c.programTask p
      (assembly.log ++ log, t)

/-- The report of an error, with its mark in bold red. -/
def report (message : String) : String := s!"\x1b[1;31merror:\x1b[0m {message}\n"

/-- The report of an output file that could not be written. -/
def writeFailure (path : String) (e : OsError) : String :=
  report s!"could not write '{path}': {e.message}"

/-- Run a command in a directory. -/
def run (c : Command) (setting : Option Log.Filter) (d : Directory) : Outcome × Directory :=
  let (log, t) := c.task (d.openFile c.input)
  let shown (events : List Log.Event) : String := Log.render (c.filter setting) events
  match t with
  | .fail message => (⟨false, "", shown log ++ report message⟩, d)
  | .print text => (⟨true, text, shown log⟩, d)
  | .write path bytes =>
    match d.writeFile path bytes with
    | .ok after => (⟨true, "", shown (log ++ [.wrote path])⟩, after)
    | .error e => (⟨false, "", shown log ++ writeFailure path e⟩, d)

end Command

end ChunkAsm
