import ProcScript.Config
import ProcScript.FileTree

/-!
# ProcScript — Config — Search

Where settings are from.  They are looked for in a directory, then in the one above it, and so
on to the end of its path; the nearest file counts, whatever it says.
-/

namespace ProcScript

/-- Why there are no settings. -/
inductive ConfigError where
  /-- No directory has a file of settings. -/
  | notFound (start : String)
  /-- The file cannot be read. -/
  | unreadable (error : FileError)
  /-- The file does not state settings. -/
  | malformed
  deriving DecidableEq

/-- The wording; what is wrong inside a file is not told. -/
def ConfigError.message : ConfigError → String
  | .notFound start   => "no Piethon.toml found (searched from " ++ start ++ ")"
  | .unreadable error => "failed to read Piethon.toml: " ++ error.message
  | .malformed        => "invalid Piethon.toml: "

namespace Config

/-- The name of a file of settings. -/
def fileName : String := "Piethon.toml"

variable {m : Type → Type} [Monad m]

/-- The nearest file of settings from a directory upwards. -/
def find (files : Files m) (dir : Path) : m (Option String) :=
  (dir.ancestors.map fun d => d.join fileName).findM? files.isFile

/-- The settings in a file. -/
def load (files : Files m) (path : String) : m (Except ConfigError Config) := do
  match ← files.read path with
  | .error e => return .error (.unreadable e)
  | .ok text =>
      match ofText? text with
      | none   => return .error .malformed
      | some c =>
          let dir := (Path.ofString path).parent?.map Path.render
          return .ok { c with rootDir := some (dir.getD ".") }

/-- The directory of a script, in which the search for its settings starts. -/
def startOf (script : String) : Path := (Path.ofString script).parent?.getD ⟨.here, []⟩

/-- The settings for a script. -/
def findAndLoad (files : Files m) (script : String) : m (Except ConfigError Config) := do
  match ← find files (startOf script) with
  | some path => load files path
  | none      => return .error (.notFound (startOf script).render)

end Config

end ProcScript
