import ChunkAsm.Command.Similarity

/-!
# Command-line arguments

The main program has the commands `asm` and `list`; a second program is `asm` by itself. Options
start with a hyphen, may stand anywhere, and several one-letter options may share a hyphen. After
`--` every argument stands for itself.
-/

namespace ChunkAsm

/-- Why arguments are not accepted, or are answered by something else than the work. -/
inductive UsageError where
  /-- an option that does not exist, or an argument too many -/
  | unknownArgument
  /-- the input file is not named -/
  | missingRequiredArgument
  /-- there is no command -/
  | missingCommand
  /-- what stands for a command is not one, but is similar to one -/
  | invalidCommand
  /-- help on a command that does not exist -/
  | unrecognizedCommand
  /-- an option is given twice -/
  | repeatedOption
  /-- help is asked for -/
  | helpDisplayed
  /-- the version is asked for -/
  | versionDisplayed
  deriving DecidableEq, Repr

/-- The options of both commands. -/
structure Options where
  /-- the input may not end in an open segment -/
  strict : Bool := false
  /-- the log tells more -/
  verbose : Bool := false
  deriving DecidableEq, Repr

/-- What is to be done. -/
inductive Command where
  /-- assemble a file into another one, whose name may be left open -/
  | asm (options : Options) (input : String) (output : Option String)
  /-- list a file -/
  | list (options : Options) (input : String)
  deriving DecidableEq, Repr

namespace Arguments

/-- The arguments of a command that are read so far. -/
structure Parsed where
  /-- how often `--strict` was given -/
  strict : Nat := 0
  /-- how often `-v` or `--verbose` was given -/
  verbose : Nat := 0
  /-- the other arguments, the last one first -/
  files : List String := []
  deriving DecidableEq, Repr

/-- The name of an option that starts with two hyphens. More hyphens and what follows an equals sign
do not count. -/
def longName (arg : List Char) : String :=
  String.ofList ((arg.dropWhile (· = '-')).takeWhile (· ≠ '='))

/-- The answer to a long option that every program and command knows, or to an unknown one. -/
def longInquiry (name : String) : UsageError :=
  if name = "help" then .helpDisplayed
  else if name = "version" then .versionDisplayed
  else .unknownArgument

/-- The answer to an option of one letter that every program and command knows, or to an unknown
one. -/
def shortInquiry : Char → UsageError
  | 'h' => .helpDisplayed
  | 'V' => .versionDisplayed
  | _ => .unknownArgument

/-- An argument that starts with two hyphens. -/
def longOption (p : Parsed) (arg : List Char) : Except UsageError Parsed :=
  let name := longName arg
  if name = "strict" then .ok { p with strict := p.strict + 1 }
  else if name = "verbose" then .ok { p with verbose := p.verbose + 1 }
  else .error (longInquiry name)

/-- The letters behind a single hyphen. -/
def shortOptions (p : Parsed) : List Char → Except UsageError Parsed
  | [] => .ok p
  | 'v' :: rest => shortOptions { p with verbose := p.verbose + 1 } rest
  | c :: _ => .error (shortInquiry c)

/-- An argument that stands for itself, of which there are at most `limit`. -/
def file (limit : Nat) (p : Parsed) (arg : String) : Except UsageError Parsed :=
  if p.files.length < limit then .ok { p with files := arg :: p.files }
  else .error .unknownArgument

/-- The arguments of a command that takes at most `limit` files. -/
def collect (limit : Nat) (p : Parsed) : List String → Except UsageError Parsed
  | [] => .ok p
  | arg :: rest =>
    match arg.toList with
    | ['-', '-'] => rest.foldlM (file limit) p
    | '-' :: '-' :: more => do collect limit (← longOption p ('-' :: '-' :: more)) rest
    | '-' :: c :: more => do collect limit (← shortOptions p (c :: more)) rest
    | _ => do collect limit (← file limit p arg) rest

/-- The options, if none is given twice. -/
def options (p : Parsed) : Except UsageError Options :=
  if 1 < p.strict ∨ 1 < p.verbose then .error .repeatedOption
  else .ok { strict := p.strict = 1, verbose := p.verbose = 1 }

/-- The arguments of `asm`. -/
def asm (args : List String) : Except UsageError Command := do
  let p ← collect 2 {} args
  match p.files.reverse with
  | [] => .error .missingRequiredArgument
  | input :: rest => do .ok (.asm (← options p) input rest.head?)

/-- The arguments of `list`. -/
def list (args : List String) : Except UsageError Command := do
  let p ← collect 1 {} args
  match p.files.reverse with
  | [] => .error .missingRequiredArgument
  | input :: _ => do .ok (.list (← options p) input)

/-- The commands of the main program. -/
def commandNames : List String := ["asm", "list", "help"]

/-- Help on the program or on one command. No command has commands of its own. -/
def help : List String → UsageError
  | [] => .helpDisplayed
  | [name] => if name ∈ commandNames then .helpDisplayed else .unrecognizedCommand
  | _ => .unrecognizedCommand

/-- The answer to an argument that stands for a command and cannot be taken for one. -/
def strayArgument (arg : String) : UsageError :=
  if commandNames.any (Similarity.isClose arg) then .invalidCommand else .unknownArgument

/-- The arguments of the main program. Behind `--` nothing is taken for a command. -/
def commands : List String → Except UsageError Command
  | [] => .error .missingCommand
  | "asm" :: rest => asm rest
  | "list" :: rest => list rest
  | "help" :: rest => .error (help rest)
  | ["--"] => .error .missingCommand
  | "--" :: arg :: _ => .error (strayArgument arg)
  | arg :: _ =>
    match arg.toList with
    | '-' :: '-' :: more => .error (longInquiry (longName more))
    | '-' :: c :: _ => .error (shortInquiry c)
    | _ => .error (strayArgument arg)

end Arguments

end ChunkAsm
