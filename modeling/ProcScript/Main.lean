import ProcScript.Command.Run

/-!
# ProcScript — Main

The program.  Files are those of the system; what a run says goes to the standard streams, the
answer to the one and everything else to the other.
-/

namespace ProcScript

open Command

/-- The cause of a failure of the system. -/
def FileError.ofError : IO.Error → FileError
  | .noFileOrDirectory ..         => .notFound
  | .inappropriateType _ code _   => if code = 21 then .isDirectory else .notDirectory
  | .invalidArgument _ code text  => if code = 36 then .nameTooLong else .other code.toNat text
  | .permissionDenied _ code text => .other code.toNat text
  | e                             => .other 0 (toString e)

/-- An action, its failure as a value. -/
def attempt {α : Type} (action : IO α) : IO (Except FileError α) := do
  match ← action.toBaseIO with
  | .ok a    => return .ok a
  | .error e => return .error (.ofError e)

/-- The files of the system. -/
def systemFiles : Files IO where
  read path := do
    match ← attempt (IO.FS.readBinFile path) with
    | .error e => return .error e
    | .ok content =>
        match String.fromUTF8? content with
        | some text => return .ok text
        | none      => return .error .notText
  isFile path := do
    match ← attempt (do return (← (← IO.FS.realPath path).metadata).type) with
    | .ok .file => return true
    | _         => return false
  resolve path := attempt (do return (← IO.FS.realPath path).toString)
  write path text := attempt (IO.FS.writeFile path text)

/-- Says what a run says, and gives its exit code back. -/
def tell (t : Transcript) : IO UInt32 := do
  for note in t.notes do
    IO.eprintln note
  for line in t.log do
    IO.eprint ("[" ++ line.severity.name ++ "] " ++ line.written)
  for d in t.reports do
    IO.eprintln (d.label ++ ": " ++ d.message)
  IO.print t.stdout
  return t.exitCode.toUInt32

end ProcScript

def main (args : List String) : IO UInt32 := do
  ProcScript.tell (← ProcScript.Command.run ProcScript.systemFiles args)
