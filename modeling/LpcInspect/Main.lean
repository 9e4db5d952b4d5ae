import LpcInspect.CommandLine.Outcome

/-!
# The command line
-/

namespace LpcInspect

/-- The reason for a failure of the system. -/
def systemError : IO.Error → FileError
  | .noFileOrDirectory .. => .noSuchFile
  | .inappropriateType _ 20 _ => .notDirectory
  | .inappropriateType _ 21 _ => .isDirectory
  | .invalidArgument _ 36 _ => .nameTooLong
  | .resourceExhausted _ 28 _ => .noSpace
  | .noSuchThing _ 6 _ => .noDevice
  | error => .other (toString error)

/-- The result of an action, or why it fails. -/
def attempt {α : Type} (action : IO α) : IO (Except FileError α) := do
  try
    return .ok (← action)
  catch error => return .error (systemError error)

/-- The contents of a file, or why it cannot be read. -/
def readFile (path : String) : IO (Except FileError Bytes) :=
  attempt do return (← IO.FS.readBinFile path).toList

/-- The bytes as they are written. -/
def packed (content : Bytes) : ByteArray := ⟨content.toArray⟩

/-- The lines about causes, which are numbered if there are several. -/
def causeLines : List String → List String
  | [] => []
  | [cause] => ["", "Caused by:", "    " ++ cause]
  | causes => ["", "Caused by:"] ++ causes.zipIdx.map fun (cause, index) =>
    padLeft 5 (toString index) ++ ": " ++ cause

/-- Print a failure. -/
def report (failure : Failure) : IO UInt32 := do
  IO.eprintln ("Error: " ++ failure.message)
  for line in causeLines failure.causes do
    IO.eprintln line
  return 1

/-- Write all bytes of an output to a stream. -/
def send (output : Output) (stream : IO.FS.Stream) : IO UInt32 := do
  let written ← attempt do
    stream.write (packed output.content)
    stream.flush
  match written with
  | .ok () => return 0
  | .error error => report (.ofWrite output.title error)

/-- Write what a request gives. -/
def deliver (output : Output) : IO UInt32 := do
  match output.destination with
  | none => send output (← IO.getStdout)
  | some path =>
    match ← attempt (IO.FS.Handle.mk path .write) with
    | .ok file => send output (.ofHandle file)
    | .error error => report (.ofCreate path error)

end LpcInspect

open LpcInspect in
/-- Run with the arguments of the command line. -/
def main (args : List String) : IO UInt32 := do
  match Request.parse? args with
  | none =>
    IO.eprintln Request.helpText
    return 2
  | some request =>
    let contents ← request.files.mapM fun path => return (path, ← readFile path)
    let files : FileReader := fun path =>
      ((contents.find? fun f => f.1 == path).map Prod.snd).getD (.error .noSuchFile)
    match request.output files with
    | .error failure => report failure
    | .ok output => deliver output
