import LpcInspect.Bytes.Basic

/-!
# Files and paths

A file system has entries at places, which are lists of names from the root down. A path is
followed part by part: every part but the last has to lead to a directory, and the last part is what
is read or created. `FileSystem.read` and `FileSystem.create` say where this fails, and why. A
created file is filled in a second step, `FileSystem.fill`, which only a device can refuse.
-/

namespace LpcInspect

/-- Why a file cannot be read or written. -/
inductive FileError where
  | noSuchFile
  /-- A device with nothing behind it. -/
  | noDevice
  /-- A path that goes on after something that is not a directory. -/
  | notDirectory
  /-- A directory where a file has to be. -/
  | isDirectory
  /-- A device that has no room. -/
  | noSpace
  | nameTooLong
  /-- A file whose bytes are not a text. -/
  | notText
  /-- Another reason, in the words of the system. -/
  | other (reason : String)
  deriving DecidableEq, Repr

/-- The text of an error. -/
def FileError.message : FileError → String
  | .noSuchFile => "No such file or directory (os error 2)"
  | .noDevice => "No such device or address (os error 6)"
  | .notDirectory => "Not a directory (os error 20)"
  | .isDirectory => "Is a directory (os error 21)"
  | .noSpace => "No space left on device (os error 28)"
  | .nameTooLong => "File name too long (os error 36)"
  | .notText => "stream did not contain valid UTF-8"
  | .other reason => reason

/-- A part of a path. -/
inductive PathPart where
  /-- Stay in the directory. -/
  | here
  /-- Go to the directory above. -/
  | up
  | name (text : String)
  deriving DecidableEq, Repr

/-- The part that a text between two slashes stands for. -/
def PathPart.ofString (text : String) : PathPart :=
  if text == "." then .here else if text == ".." then .up else .name text

/-- A path, with the slashes between its parts left out. -/
structure Path where
  /-- Whether it starts at the root. -/
  absolute : Bool
  parts : List PathPart
  /-- Whether a slash stands at its end, so that it can only be a directory. -/
  endsInSlash : Bool
  deriving DecidableEq, Repr

namespace Path

/-- The length in bytes that a path does not reach. -/
def lengthLimit : Nat := 4096

/-- The length in bytes that a name does not exceed. -/
def nameLimit : Nat := 255

/-- The names in a path; slashes can be repeated. -/
def pieces (text : String) : List String := (text.splitOn "/").filter fun piece => !piece.isEmpty

/-- Read a path. -/
def parse (text : String) : Except FileError Path :=
  if text.isEmpty then .error .noSuchFile
  else if lengthLimit ≤ text.utf8ByteSize then .error .nameTooLong
  else .ok {
    absolute := text.startsWith "/"
    parts := (pieces text).map PathPart.ofString
    endsInSlash := text.endsWith "/" }

end Path

/-- Where something is in a file system: the names from the root down. -/
abbrev Place := List String

/-- The directories that a place below the root is in. -/
def Place.ancestors : Place → List Place
  | [] | [_] => []
  | name :: rest => [name] :: (ancestors rest).map (name :: ·)

/-- What stands at a place. -/
inductive Entry where
  | directory
  | file (content : Bytes)
  /-- A device that is empty and forgets what is written to it. -/
  | sink
  /-- A device that prints what is written to it. -/
  | printer
  /-- A device that has no room for what is written to it. -/
  | full
  /-- A device with nothing behind it, which cannot be opened. -/
  | unattached
  deriving DecidableEq, Repr

/-- What a file, or a device in its place, holds. -/
def Entry.content : Entry → Bytes
  | .file content => content
  | _ => []

/-- The entries below the root, and the directory that relative paths start from. -/
structure FileSystem where
  entries : List (Place × Entry) := []
  workingDirectory : Place := []
  deriving DecidableEq, Repr

/-- A file system after some bytes were written, and those of them that were printed. -/
structure Written where
  files : FileSystem
  printed : Bytes := []
  deriving DecidableEq, Repr

namespace FileSystem

/-- The entry at a place; the root is a directory. -/
def entry? (fs : FileSystem) (place : Place) : Option Entry :=
  if place = [] then some .directory
  else (fs.entries.find? fun e => e.1 == place).map Prod.snd

/-- Put an entry at a place, in place of one that is there. -/
def put (fs : FileSystem) (place : Place) (entry : Entry) : FileSystem :=
  { fs with entries := (fs.entries.filter fun e => e.1 != place) ++ [(place, entry)] }

/-- Put an entry at a place, and directories on the way to it. -/
def putWithin (fs : FileSystem) (place : Place) (entry : Entry) : FileSystem :=
  (place.ancestors.foldl (fun fs above => fs.put above .directory) fs).put place entry

/-- The entry with a name in a directory. -/
def lookup (fs : FileSystem) (directory : Place) (name : String) :
    Except FileError (Option Entry) :=
  if Path.nameLimit < name.utf8ByteSize then .error .nameTooLong
  else .ok (fs.entry? (directory ++ [name]))

/-- The directory that a part of a path leads to. The root is above itself. -/
def enter (fs : FileSystem) (directory : Place) : PathPart → Except FileError Place
  | .here => .ok directory
  | .up => .ok directory.dropLast
  | .name name => do
    match ← fs.lookup directory name with
    | none => throw .noSuchFile
    | some .directory => return directory ++ [name]
    | some _ => throw .notDirectory

/-- The directory that the last part of a path is looked up in. -/
def parent (fs : FileSystem) (path : Path) : Except FileError Place :=
  path.parts.dropLast.foldlM fs.enter (if path.absolute then [] else fs.workingDirectory)

/-- The contents of the file at a path. -/
def read (fs : FileSystem) (text : String) : Except FileError Bytes := do
  let path ← Path.parse text
  let directory ← fs.parent path
  match path.parts.getLast? with
  | some (.name name) =>
    match ← fs.lookup directory name with
    | none => throw .noSuchFile
    | some .directory => throw .isDirectory
    | some .unattached => throw (if path.endsInSlash then .notDirectory else .noDevice)
    | some entry => if path.endsInSlash then throw .notDirectory else return entry.content
  | _ => throw .isDirectory

/-- Create an empty file at a path, in place of one that is there, and give its place; a device
stays as it is. A path that ends in a slash names no file, whatever is there. -/
def create (fs : FileSystem) (text : String) : Except FileError (FileSystem × Place) := do
  let path ← Path.parse text
  let directory ← fs.parent path
  match path.parts.getLast? with
  | some (.name name) =>
    if path.endsInSlash then throw .isDirectory
    let place := directory ++ [name]
    match ← fs.lookup directory name with
    | some .directory => throw .isDirectory
    | some .unattached => throw .noDevice
    | none | some (.file _) => return (fs.put place (.file []), place)
    | some .sink | some .printer | some .full => return (fs, place)
  | _ => throw .isDirectory

/-- Fill what was created at a place. A device without room refuses the first byte, so
that nothing at all can be written to it. -/
def fill (fs : FileSystem) (place : Place) (content : Bytes) : Except FileError Written :=
  match fs.entry? place with
  | none => .error .noSuchFile
  | some .directory => .error .isDirectory
  | some .unattached => .error .noDevice
  | some (.file _) => .ok { files := fs.put place (.file content) }
  | some .sink => .ok { files := fs }
  | some .printer => .ok { files := fs, printed := content }
  | some .full => if content.isEmpty then .ok { files := fs } else .error .noSpace

/-- The directories and devices that are always there. -/
def standard : FileSystem where
  entries :=
    (["bin", "boot", "dev", "etc", "home", "lib", "media", "mnt", "opt", "proc", "root", "run",
      "sbin", "srv", "sys", "tmp", "usr", "var"].map fun name => ([name], .directory)) ++ [
    (["dev", "null"], .sink), (["dev", "full"], .full), (["dev", "tty"], .unattached),
    (["dev", "stdin"], .sink), (["dev", "stdout"], .printer), (["dev", "stderr"], .sink),
    (["dev", "fd"], .directory), (["dev", "fd", "0"], .sink), (["dev", "fd", "1"], .printer),
    (["dev", "fd", "2"], .sink)]

/-- The standard file system with some files, whose names are relative to the working directory. -/
def holding (workingDirectory : Place) (files : List (String × Bytes)) : FileSystem :=
  let empty := { standard.putWithin workingDirectory .directory with workingDirectory }
  files.foldl (fun fs (name, content) =>
    fs.putWithin (workingDirectory ++ Path.pieces name) (.file content)) empty

/-- The files in and below the working directory, with names relative to it. -/
def files (fs : FileSystem) : List (String × Bytes) :=
  fs.entries.filterMap fun (place, entry) =>
    match entry with
    | .file content =>
      if fs.workingDirectory.isPrefixOf place then
        some ("/".intercalate (place.drop fs.workingDirectory.length), content)
      else none
    | _ => none

end FileSystem
end LpcInspect
