import LpcInspect.CommandLine.Outcome

/-!
# Running in a file system

The command line as a function: arguments and a file system give an exit code, what is printed, and
the file system afterwards.
-/

namespace LpcInspect

/-- How a run ends. -/
structure Run where
  exitCode : Nat
  printed : Bytes := []
  failure : Option Failure := none
  files : FileSystem
  deriving DecidableEq, Repr

/-- Write what a command gives to its file. The file stays if it cannot be filled. -/
def Output.writeTo (output : Output) (path : String) (files : FileSystem) : Run :=
  match files.create path with
  | .error error => { exitCode := 1, failure := some (.ofCreate path error), files }
  | .ok (files, place) =>
    match files.fill place output.content with
    | .error error => { exitCode := 1, failure := some (.ofWrite output.title error), files }
    | .ok { files, printed } => { exitCode := 0, printed, files }

/-- Run with some arguments in a file system. -/
def runIn (files : FileSystem) (args : List String) : Run :=
  match Request.parse? args with
  | none => { exitCode := 2, files }
  | some request =>
    match request.output files.read with
    | .error failure => { exitCode := 1, failure := some failure, files }
    | .ok output =>
      match output.destination with
      | none => { exitCode := 0, printed := output.content, files }
      | some path => output.writeTo path files

end LpcInspect
