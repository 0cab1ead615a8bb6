import ChunkAsm.Command.Run

/-!
# The command line

The program as it is run: it reads the input file, performs the task that the command has for it, and
reports. When its file is named `lasm` it is the assembler alone, and otherwise the tool with both
commands.
-/

namespace ChunkAsm.Cli

/-- An error of the operating system in the words of the command line. -/
def osError : IO.Error → OsError
  | .noFileOrDirectory .. => .notFound
  | .inappropriateType _ 20 _ => .notDirectory
  | .inappropriateType _ 21 _ => .isDirectory
  | .invalidArgument _ 36 _ => .nameTooLong
  | .permissionDenied _ code details => .other s!"{details} (os error {code})"
  | e => .other (toString e)

/-- Open a file for reading. -/
def openFile (path : String) : IO Opened := do
  match ← (IO.FS.readBinFile path).toBaseIO with
  | .ok bytes => return .file bytes.data.toList
  | .error e =>
    match osError e with
    | .isDirectory => return .directory
    | other => return .refused other

/-- What is said about arguments that are not accepted. -/
def usage : UsageError → String
  | .helpDisplayed => "usage: luasm asm [--strict] [-v] <in.lasm> [out.luac]\n" ++
      "       luasm list [--strict] [-v] <in.lasm>"
  | .versionDisplayed => "luasm 0.1.0"
  | .missingCommand => "error: a command is required: asm or list"
  | .missingRequiredArgument => "error: the input file is required"
  | .invalidCommand | .unrecognizedCommand => "error: there is no such command"
  | .repeatedOption => "error: an option is given twice"
  | .unknownArgument => "error: there is an argument that is not expected here"

/-- Perform a command. -/
def perform (c : Command) (setting : Option Log.Filter) : IO UInt32 := do
  let (log, task) := c.task (← openFile c.input)
  let shown (events : List Log.Event) : String := Log.render (c.filter setting) events
  match task with
  | .fail message =>
    IO.eprint (shown log ++ Command.report message)
    return 1
  | .print text =>
    IO.eprint (shown log)
    IO.print text
    return 0
  | .write path bytes =>
    match ← (IO.FS.writeBinFile path bytes).toBaseIO with
    | .ok _ =>
      IO.eprint (shown (log ++ [.wrote path]))
      return 0
    | .error e =>
      IO.eprint (shown log ++ Command.writeFailure path (osError e))
      return 1

end ChunkAsm.Cli

open ChunkAsm

/-- Run the program. -/
def main (args : List String) : IO UInt32 := do
  let alone := (← IO.appPath).fileStem == some "lasm"
  let setting := (← IO.getEnv "RUST_LOG").bind Log.Filter.ofName?
  match if alone then Arguments.asm args else Arguments.commands args with
  | .ok c => Cli.perform c setting
  | .error e =>
    if e = .helpDisplayed ∨ e = .versionDisplayed then
      IO.println (Cli.usage e)
      return 0
    else
      IO.eprintln (Cli.usage e)
      return 1
