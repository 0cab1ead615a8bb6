/-!
# The default output file

When no output file is named, the output goes to the current directory, under the name of the input
file with its extension replaced by `.luac`.

A path is a sequence of components between slashes; empty components and single dots do not count.
The **file name** is the last component, unless that leads upwards. Its **stem** ends before the last
dot, where a dot at the very beginning does not count. Since the default name replaces the
extension of the stem, an input `a.b.asm` gives `a.luac`.
-/

namespace ChunkAsm.OutputPath

/-- The extension of output files. -/
def extension : String := "luac"

/-- The components of a path that count. -/
def components (path : String) : List String :=
  ((path.toList.splitOn '/').map String.ofList).filter fun part => part ≠ "" && part ≠ "."

/-- The file name of a path. -/
def fileName? (path : String) : Option String :=
  match (components path).getLast? with
  | none => none
  | some part => if part = ".." then none else some part

/-- The characters of a name up to its last dot, and behind it. A dot at the very beginning does not
count. -/
def splitLastDot? (name : List Char) : Option (List Char × List Char) :=
  let behind := (name.reverse.takeWhile (· ≠ '.')).reverse
  match name.take (name.length - behind.length - 1) with
  | [] => none
  | before => some (before, behind)

/-- The stem of the file name of a path. -/
def fileStem? (path : String) : Option String :=
  (fileName? path).map fun name =>
    match splitLastDot? name.toList with
    | some (before, _) => String.ofList before
    | none => name

/-- A file name with another extension. The old extension is cut off behind its dot first; if no
file name is left, nothing is added. -/
def withExtension (name ext : String) : String :=
  let cut :=
    match splitLastDot? name.toList with
    | some (before, _) => String.ofList (before ++ ['.'])
    | none => name
  match fileStem? cut with
  | some stem => stem ++ "." ++ ext
  | none => cut

/-- The default output file of an input file, if the input has a file name. -/
def default? (input : String) : Option String :=
  (fileStem? input).map (withExtension · extension)

/-- The text of the error that an input has no file name. -/
def noFileName (input : String) : String := s!"'{input}' has no file name"

end ChunkAsm.OutputPath
