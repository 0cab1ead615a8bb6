/-!
# Directories

A working directory as a value: the files below it with their contents, and the directories below it.
Of the outside only what every system has is known: the directories that lead to the working
directory, the root, `/dev` with the null device, and `/tmp`. Reading and writing fail as they do in
an operating system: the parts of a path are looked up one after the other, and the first part that
cannot be looked up decides.
-/

namespace ChunkAsm

/-- Why the operating system refuses to open or write a file. -/
inductive OsError where
  | notFound
  | notDirectory
  | isDirectory
  | nameTooLong
  | other (text : String)
  deriving DecidableEq, Repr

/-- The text of an operating system error. -/
def OsError.message : OsError → String
  | notFound => "No such file or directory (os error 2)"
  | notDirectory => "Not a directory (os error 20)"
  | isDirectory => "Is a directory (os error 21)"
  | nameTooLong => "File name too long (os error 36)"
  | other text => text

/-- What opening a file for reading gives. -/
inductive Opened where
  /-- it cannot be opened -/
  | refused (e : OsError)
  /-- it is a directory, which can be opened but not read -/
  | directory
  /-- its bytes -/
  | file (bytes : List UInt8)

/-! ## Places -/

/-- The directory that a place is given from. -/
inductive Anchor where
  /-- the working directory -/
  | working
  /-- a directory above the working directory; which one is not told, since they all look the same -/
  | above
  /-- the root of all directories -/
  | root
  deriving DecidableEq, Repr

/-- A place in the tree of directories. -/
structure Place where
  /-- where the names start from -/
  anchor : Anchor := .working
  /-- the names that lead there -/
  names : List String := []
  deriving DecidableEq, Repr

namespace Place

/-- The directory that a place is in. The root is in itself. -/
def parent (place : Place) : Place :=
  match place.anchor, place.names with
  | .root, [] => { anchor := .root }
  | _, [] => { anchor := .above }
  | anchor, names => { anchor, names := names.dropLast }

/-- The device that holds nothing and takes everything. -/
def nullDevice : Place := { anchor := .root, names := ["dev", "null"] }

/-- The directories of every system, apart from the root. -/
def standardFolders : List Place :=
  [{ anchor := .root, names := ["dev"] }, { anchor := .root, names := ["tmp"] }]

/-- The parts of a path, between its slashes. -/
def parts (path : String) : List String := path.splitOn "/"

/-- Where a path starts from. -/
def start (path : String) : Place :=
  if path.startsWith "/" then { anchor := .root } else {}

/-- The place of a plain path below the working directory. -/
def below (path : String) : Place :=
  { names := (parts path).filter fun part => part ≠ "" && part ≠ "." }

/-- One part of a path further. -/
def step (place : Place) (part : String) : Place :=
  if part = "" ∨ part = "." then place
  else if part = ".." then place.parent
  else { place with names := place.names ++ [part] }

end Place

/-! ## Contents -/

/-- A working directory. -/
structure Directory where
  /-- the contents of the files; of two at one place the first counts -/
  files : List (Place × ByteArray) := []
  /-- the directories -/
  folders : List Place := []

namespace Directory

/-- What stands at a place. -/
inductive Entry where
  | missing
  | folder
  | file (bytes : ByteArray)

/-- Add a file. -/
def addFile (d : Directory) (path : String) (bytes : ByteArray) : Directory :=
  { d with files := (.below path, bytes) :: d.files }

/-- Add a directory. -/
def addFolder (d : Directory) (path : String) : Directory :=
  { d with folders := .below path :: d.folders }

/-- Whether there is a directory at a place: one that places are given from, one of every system, one
that is listed, or one that something stands in. -/
def hasFolder (d : Directory) (place : Place) : Bool :=
  let leadsTo (other : Place) : Bool :=
    place.anchor == other.anchor && place.names.isPrefixOf other.names
  place.names.isEmpty || Place.standardFolders.contains place || d.folders.any leadsTo ||
    d.files.any fun f => leadsTo f.1 && place.names.length < f.1.names.length

/-- What stands at a place. -/
def entry (d : Directory) (place : Place) : Entry :=
  if place = .nullDevice then .file .empty
  else
    match d.files.lookup place with
    | some bytes => .file bytes
    | none => if d.hasFolder place then .folder else .missing

/-! ## Looking up paths -/

/-- The greatest number of bytes in a name. -/
def maxName : Nat := 255

/-- The greatest number of bytes in a path. -/
def maxPath : Nat := 4095

/-- Go from a place along the parts of a path. Every part must be looked up in a directory. -/
def walk (d : Directory) (place : Place) : List String → Except OsError Place
  | [] => .ok place
  | part :: rest =>
    match d.entry place with
    | .missing => .error .notFound
    | .file _ => .error .notDirectory
    | .folder =>
      if maxName < part.utf8ByteSize then .error .nameTooLong
      else d.walk (place.step part) rest

/-- Why a path is refused before it is looked up, if it is. -/
def refusal? (path : String) : Option OsError :=
  if path = "" then some .notFound
  else if maxPath < path.utf8ByteSize then some .nameTooLong
  else none

/-- Open a file for reading. -/
def openFile (d : Directory) (path : String) : Opened :=
  match refusal? path with
  | some e => .refused e
  | none =>
    match d.walk (.start path) (Place.parts path) with
    | .error e => .refused e
    | .ok place =>
      match d.entry place with
      | .missing => .refused .notFound
      | .folder => .directory
      | .file bytes => .file bytes.data.toList

/-- The parts of a path that ends in a slash, without its last name. -/
def beforeSlash (parts : List String) : List String :=
  (parts.reverse.dropWhile (· = "")).tail.reverse

/-- Write a file, which is created if it is missing. A path that ends in a slash can only be meant
for a directory, whatever its last name stands for. -/
def writeFile (d : Directory) (path : String) (bytes : ByteArray) : Except OsError Directory :=
  match refusal? path with
  | some e => .error e
  | none =>
    let parts := Place.parts path
    if parts.getLast? = some "" then
      match d.walk (.start path) (beforeSlash parts ++ ["."]) with
      | .error e => .error e
      | .ok _ => .error .isDirectory
    else
      match d.walk (.start path) parts with
      | .error e => .error e
      | .ok place =>
        match d.entry place with
        | .folder => .error .isDirectory
        | .file _ | .missing =>
          if place = .nullDevice then .ok d
          else .ok { d with files := (place, bytes) :: d.files }

/-- The files below the working directory that are new or different in a later state, under their
paths. -/
def changes (before after : Directory) : List (String × ByteArray) :=
  (after.files.map (·.1)).eraseDups.filterMap fun place =>
    let path := "/".intercalate place.names
    if place.anchor ≠ .working then none
    else
      match after.files.lookup place, before.files.lookup place with
      | some new, some old => if new.data = old.data then none else some (path, new)
      | some new, none => some (path, new)
      | none, _ => none

end Directory

end ChunkAsm
