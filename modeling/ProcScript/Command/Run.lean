import ProcScript.Analyzer
import ProcScript.Command.Args
import ProcScript.Command.Log
import ProcScript.Config.Search

/-!
# ProcScript — Command — Run

What a command does.  The script is read, then the settings; then the script is analysed, which
takes no files (`Loaded.check`, `Loaded.graph`); last, a call graph is written to a file if one
was named.  Whatever goes wrong on the way ends the run, and nothing is written unless
everything before went well.  What a run says is its `Transcript`.
-/

namespace ProcScript.Command

/-- Why a run ends without success. -/
inductive RunError where
  | unreadable (path : String) (error : FileError)
  | unwritable (path : String) (error : FileError)
  | config (error : ConfigError)
  | misuse (misuse : Misuse)
  | scriptErrors (count : Nat)
  deriving DecidableEq

/-- The wording of a failure. -/
def RunError.message : RunError → String
  | .unreadable path error => "could not read '" ++ path ++ "': " ++ error.message
  | .unwritable path error => "could not write '" ++ path ++ "': " ++ error.message
  | .config error          => error.message
  | .misuse m               => m.message
  | .scriptErrors count    => toString count ++ " error(s) found"

/-- What a run says. -/
structure Transcript where
  exitCode : Nat
  /-- The answer. -/
  stdout : String
  /-- The lines of the log, whatever its filter. -/
  log : List LogLine
  /-- The diagnostics that are drawn. -/
  reports : List Diagnostic
  /-- What is said about the command line. -/
  notes : List String
  deriving DecidableEq

namespace Transcript

/-- Of a run that says nothing and ends with `exitCode`. -/
def silent (exitCode : Nat) : Transcript := ⟨exitCode, "", [], [], []⟩

/-- With one more line of the log. -/
def logging (t : Transcript) (severity : Severity) (text : String) : Transcript :=
  { t with log := t.log ++ [⟨severity, text⟩] }

/-- Ended by a failure. -/
def failed (t : Transcript) (e : RunError) : Transcript :=
  { t.logging .error e.message with exitCode := 1 }

/-- As it is shown under a log filter. -/
def shown (t : Transcript) (f : LogFilter) : Transcript :=
  { t with log := t.log.filter fun l => f.shows l.severity }

end Transcript

/-! ### A script and its settings -/

/-- A script that was read, with its settings. -/
structure Loaded where
  name : String
  text : String
  config : Config

section Load

variable {m : Type → Type} [Monad m]

/-- The settings that the command line names, or else those found for the script, or else none. -/
def loadConfig (files : Files m) (o : Options) : m (Except ConfigError Config) := do
  match o.config with
  | some path => Config.load files path
  | none =>
      let script ← files.resolve o.task.input
      match ← Config.findAndLoad files (script.toOption.getD o.task.input) with
      | .error (.notFound _) => return .ok Config.defaults
      | found                => return found

/-- The script of a command and its settings. -/
def load (files : Files m) (o : Options) : m (Except RunError Loaded) := do
  match ← files.read o.task.input with
  | .error e => return .error (.unreadable o.task.input e)
  | .ok text =>
      match ← loadConfig files o with
      | .error e   => return .error (.config e)
      | .ok config =>
          let name := (Path.ofString o.task.input).fileName?.getD ""
          return .ok ⟨name, text, config⟩

end Load

namespace Loaded

/-- The analysis of the script. -/
def analyzer (l : Loaded) (quiet : Bool) : Analyzer :=
  ⟨some ⟨l.name, l.text⟩, quiet || l.config.silent⟩

/-- What the analysis logs. -/
def analysisLog (l : Loaded) (quiet : Bool) : List LogLine :=
  ⟨.info, "checking " ++ l.name⟩ ::
    match (l.analyzer quiet).check with
    | .ok (.error found) =>
        if (l.analyzer quiet).silent then [] else found.map fun d => ⟨.error, d.message⟩
    | _ => []

/-- The checked script, or a transcript of why there is none. -/
def analyse (l : Loaded) (quiet json : Bool) : Except Transcript CheckedScript :=
  let t : Transcript := { Transcript.silent 0 with log := l.analysisLog quiet }
  match (l.analyzer quiet).check with
  | .ok (.ok checked)  => .ok checked
  | .ok (.error found) =>
      .error <| Transcript.failed { t with
        stdout := if json then (Json.array (found.map Diagnostic.toJson)).render 0 ++ "\n" else ""
        reports := if json || quiet then [] else found } (.scriptErrors found.length)
  | .error m => .error (t.failed (.misuse m))

/-- What `check` says. -/
def check (l : Loaded) (quiet json : Bool) : Transcript :=
  match l.analyse quiet json with
  | .error t => t
  | .ok _    =>
      { Transcript.silent 0 with
        stdout := if json then "[]\n" else "No errors found.\n"
        log := l.analysisLog quiet }

/-- The text of a call graph, under the title that is asked for or the one of the settings. -/
def dot (l : Loaded) (g : CallGraph) (title : Option String) : String :=
  g.dot (title.getD l.config.style.title) l.config.style

end Loaded

/-! ### Runs -/

section Run

variable {m : Type → Type} [Monad m]

/-- What `graph` says about a script; the call graph goes to the file `output` if there is one. -/
def writeGraph (files : Files m) (l : Loaded) (quiet : Bool) (output title : Option String) :
    m Transcript := do
  match l.analyse quiet false with
  | .error t    => return t
  | .ok checked =>
      let g := checked.script.callGraph
      let t : Transcript := { Transcript.silent 0 with log := l.analysisLog quiet }
      match output with
      | none      => return { t with stdout := l.dot g title }
      | some path =>
          match ← files.write path (l.dot g title) with
          | .error e => return t.failed (.unwritable path e)
          | .ok ()   =>
              return { t.logging .info ("wrote call graph (" ++ toString g.vertexCount
                  ++ " procedures, " ++ toString g.edgeCount ++ " calls) to " ++ path) with
                stdout := "Graph has been exported to: " ++ path ++ "\n" }

/-- What a command says, whatever the log filter. -/
def perform (files : Files m) (o : Options) : m Transcript := do
  match ← load files o with
  | .error e => return (Transcript.silent 0).failed e
  | .ok l    =>
      match o.task with
      | .check _ json         => return l.check o.quiet json
      | .graph _ output title => writeGraph files l o.quiet output title

/-- The name and version of the program. -/
def versionText : String := "piethonc 0.1.0\n"

/-- What is said when help is asked for. -/
def helpText : String :=
  "Checks .pie scripts for semantic errors and exports their call graphs.\n\n"
    ++ "Usage: piethonc [OPTIONS] check <INPUT> [--json]\n"
    ++ "       piethonc [OPTIONS] graph <INPUT> [-o <OUTPUT>] [--title <TITLE>]\n\n"
    ++ "Options:\n"
    ++ "  -q, --quiet              Do not render diagnostics or log them as they are found\n"
    ++ "      --log-level <LEVEL>  off, error, warn, info, debug or trace\n"
    ++ "      --config <FILE>      Path to a Piethon.toml\n"
    ++ "  -h, --help               Print help\n"
    ++ "  -V, --version            Print version\n"

/-- What a command line does and says. -/
def run (files : Files m) (args : List String) : m Transcript := do
  match Options.ofArgs args with
  | .error .refused => return .silent 2
  | .error .help    => return { Transcript.silent 0 with stdout := helpText }
  | .error .version => return { Transcript.silent 0 with stdout := versionText }
  | .ok o =>
      let t := (← perform files o).shown (.ofOption o.logLevel)
      return { t with notes := (LogFilter.note? o.logLevel).toList }

end Run

end ProcScript.Command
