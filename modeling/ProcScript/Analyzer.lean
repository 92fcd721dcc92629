import ProcScript.CallGraph
import ProcScript.Check
import ProcScript.Reader.Script

/-!
# ProcScript — Analyzer

One script at a time, from its text to what is wrong with it or to its call graph.  Errors of
the text stop the analysis before its meaning is looked at, so the two never stand in one list.
-/

namespace ProcScript

/-- A script by name and text. -/
structure SourceText where
  name : String
  text : String
  deriving DecidableEq, Inhabited

/-- The script that is analysed, if any, and whether what is found goes unlogged. -/
structure Analyzer where
  script : Option SourceText
  silent : Bool
  deriving DecidableEq, Inhabited

namespace Analyzer

/-- Without a script, and silent. -/
def new : Analyzer := ⟨none, true⟩

def withScript (a : Analyzer) (name text : String) : Analyzer :=
  { a with script := some ⟨name, text⟩ }

def removeScript (a : Analyzer) : Analyzer := { a with script := none }

def withSilent (a : Analyzer) (silent : Bool) : Analyzer := { a with silent }

/-- The checked script, or what is wrong with it. -/
def check (a : Analyzer) : Except Misuse (Except (List Diagnostic) CheckedScript) :=
  match a.script with
  | none   => .error .noScript
  | some s =>
      match Script.ofText s.name s.text with
      | (script, [])   => script.check
      | (_, found)     => .ok (.error found)

/-- The call graph of the script, which has to be without errors. -/
def callGraph (a : Analyzer) : Except Misuse CallGraph := do
  match ← a.check with
  | .ok checked  => return checked.script.callGraph
  | .error found => throw (.scriptHasErrors found.length)

end Analyzer

end ProcScript
