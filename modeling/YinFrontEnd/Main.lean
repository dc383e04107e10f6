import YinFrontEnd.Command

/-!
# The program

The program gives a command its arguments and the file it asks for, and prints the
outcome.
-/
namespace YinFrontEnd.Program

/-- A system error in words and by number. The number may come in as its negative. -/
def systemError (details : String) (code : UInt32) : String :=
  s!"{details.capitalize} (os error {min code (-code)})"

/-- What the system says about a file that cannot be had. -/
def fileFault : IO.Error → Command.FileFault
  | .noFileOrDirectory .. => .notFound
  | .permissionDenied .. => .denied
  | .otherError code details | .resourceBusy code details | .hardwareFault code details
  | .illegalOperation code details | .inappropriateType _ code details
  | .invalidArgument _ code details | .resourceExhausted _ code details
  | .noSuchThing _ code details => .other (systemError details code)
  | e => .other (toString e)

def fetch (path : String) : IO (Except Command.FileFault String) := do
  try
    match String.fromUTF8? (← IO.FS.readBinFile path) with
    | some text => return .ok text
    | none => return .error .notText
  catch e => return .error (fileFault e)

def run (args : List String) : IO UInt32 := do
  let content ←
    match Command.file? args with
    | some path => fetch path
    | none => pure (.error .notFound)
  let terminal ← (← IO.getStderr).isTty
  let outcome := Command.run terminal (fun _ => content) args
  (← IO.getStdout).putStr outcome.output
  (← IO.getStderr).putStr outcome.errors
  return UInt32.ofNat outcome.status

end YinFrontEnd.Program

def main (args : List String) : IO UInt32 := YinFrontEnd.Program.run args
