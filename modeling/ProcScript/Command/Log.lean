import ProcScript.Text.Visible

/-!
# ProcScript — Command — Log

How much of a run is logged.  A line has a severity, and a filter lets the lines through that
are at least as severe as it says.  What a line is about may hold any character; what is
written of it is its visible part.
-/

namespace ProcScript.Command

/-- How severe a line of the log is. -/
inductive Severity where
  | error
  | warn
  | info
  | debug
  | trace
  deriving DecidableEq, Inhabited

namespace Severity

def name : Severity → String
  | error => "ERROR"
  | warn  => "WARN"
  | info  => "INFO"
  | debug => "DEBUG"
  | trace => "TRACE"

/-- The most severe has rank 1. -/
def rank : Severity → Nat
  | error => 1
  | warn  => 2
  | info  => 3
  | debug => 4
  | trace => 5

end Severity

/-- The least severe lines that are let through; none are if there is no such severity. -/
structure LogFilter where
  least : Option Severity
  deriving DecidableEq, Inhabited

namespace LogFilter

/-- What is let through if nothing is said. -/
def standard : LogFilter := ⟨some .warn⟩

def shows (f : LogFilter) (s : Severity) : Bool :=
  match f.least with
  | some least => s.rank ≤ least.rank
  | none       => false

/-- The filter of that name, whatever its case. -/
def ofName? (s : String) : Option LogFilter :=
  match String.ofList (s.toList.map Char.toLower) with
  | "off"   => some ⟨none⟩
  | "error" => some ⟨some .error⟩
  | "warn"  => some ⟨some .warn⟩
  | "info"  => some ⟨some .info⟩
  | "debug" => some ⟨some .debug⟩
  | "trace" => some ⟨some .trace⟩
  | _       => none

/-- The filter for a name that may be missing or wrong. -/
def ofOption (name : Option String) : LogFilter := (name.bind ofName?).getD standard

/-- What is said about a name that is wrong. -/
def note? (name : Option String) : Option String :=
  name.bind fun s =>
    if (ofName? s).isSome then none
    else some ("Invalid log level: " ++ s ++ ". Using 'warn' instead.")

end LogFilter

/-- A line of the log. -/
structure LogLine where
  severity : Severity
  text : String
  deriving DecidableEq, Inhabited

/-- The text with four blanks behind every line end. -/
def indented (text : String) : String :=
  String.ofList <| text.toList.flatMap fun c =>
    if c = '\n' then '\n' :: List.replicate 4 ' ' else [c]

/-- The text as it is written, up to the end of the line, which may itself be lost in an escape
sequence. -/
def LogLine.written (l : LogLine) : String := Text.visible (indented l.text ++ "\n")

end ProcScript.Command
