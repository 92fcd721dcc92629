import ProcScript.Json
import ProcScript.SyntaxError
import ProcScript.Ty

/-!
# ProcScript — Diagnostic

What can be wrong with a script, and where.  A diagnostic is a cause with a span; its message,
its label and its JSON form are functions of it.  Diagnostics are kept in lists, in the order
in which they were found, and `Diagnostic.settle` turns such a list into an answer.
-/

namespace ProcScript

/-- The things a script declares by name. -/
inductive SymbolKind where
  | procedure
  | variable
  | parameter
  deriving DecidableEq, Inhabited

def SymbolKind.name : SymbolKind → String
  | .procedure => "Procedure"
  | .variable  => "Variable"
  | .parameter => "Parameter"

/-- Why a statement is never reached. -/
inductive UnreachableReason where
  | additionalReturn
  | codeAfterReturn
  deriving DecidableEq, Inhabited

namespace UnreachableReason

def name : UnreachableReason → String
  | additionalReturn => "AdditionalReturn"
  | codeAfterReturn  => "CodeAfterReturn"

def message : UnreachableReason → String
  | additionalReturn => "Additional return statement or code after return."
  | codeAfterReturn  => "Code after return statement."

end UnreachableReason

/-- Something wrong with a script. -/
inductive Diagnostic where
  /-- The name is declared already. -/
  | dupSymbol (name : String) (symbol : SymbolKind) (loc : Span)
  /-- The called name stands for nothing. -/
  | noSuchSymbol (name : String) (loc : Span)
  /-- A value has another type than its place asks for. -/
  | typeMismatch (expected actual : Ty) (loc : Span)
  /-- A call has more or fewer arguments than its procedure has parameters. -/
  | argCountMismatch (expected actual : Nat) (loc : Span)
  /-- A procedure has more or fewer returns than it should. -/
  | returnCountMismatch (expected : Nat) (loc : Span)
  /-- A statement follows a return. -/
  | unreachable (reason : UnreachableReason) (loc : Span)
  /-- The text is no script. -/
  | syntaxError (error : SyntaxError) (loc : Span)
  deriving DecidableEq

namespace Diagnostic

/-- Where it is. -/
def loc : Diagnostic → Span
  | dupSymbol _ _ loc           => loc
  | noSuchSymbol _ loc          => loc
  | typeMismatch _ _ loc        => loc
  | argCountMismatch _ _ loc    => loc
  | returnCountMismatch _ loc   => loc
  | unreachable _ loc           => loc
  | syntaxError _ loc           => loc

/-- The name of its cause. -/
def kindName : Diagnostic → String
  | dupSymbol ..           => "DupSymbol"
  | noSuchSymbol ..        => "NoSuchSymbol"
  | typeMismatch ..        => "TypeMismatch"
  | argCountMismatch ..    => "ArgCountMismatch"
  | returnCountMismatch .. => "TooFewOrTooManyReturns"
  | unreachable ..         => "UnreachableCode"
  | syntaxError ..         => "ParseError"

/-- It is about the text and not about what the text means. -/
def isSyntaxError : Diagnostic → Bool
  | syntaxError .. => true
  | _              => false

/-- The heading of its report. -/
def label (d : Diagnostic) : String :=
  if d.isSyntaxError then "Parse error" else "Semantic error"

/-- Its one-line text. -/
def message : Diagnostic → String
  | dupSymbol name symbol loc =>
      ">> Duplicate " ++ symbol.name ++ " symbol (" ++ loc.render ++ ") - " ++ name
  | noSuchSymbol name loc =>
      ">> No such symbol (" ++ loc.render ++ ") - " ++ name
  | typeMismatch expected actual loc =>
      ">> Type mismatch (" ++ loc.render ++ ") - expected: " ++ expected.name ++ ", but got: "
        ++ actual.name
  | argCountMismatch expected actual loc =>
      ">> Operation call arg count mismatch (" ++ loc.render ++ ") - expected: "
        ++ toString expected ++ ", but got: " ++ toString actual
  | returnCountMismatch expected loc =>
      ">> Too many or too few return statements (" ++ loc.render ++ ") - expected: "
        ++ toString expected ++ " return statement"
  | unreachable reason loc =>
      ">> Unreachable code detected (" ++ loc.render ++ "): " ++ reason.message
  | syntaxError error loc =>
      ">> Syntax error (" ++ loc.render ++ ") - " ++ error.message

/-! ### The JSON form -/

/-- A place, with its three counters. -/
def positionJson (p : Position) : Json :=
  .object [("line", .number p.line.toNat), ("column", .number p.column.toNat),
    ("offset", .number p.offset.toNat)]

/-- A span, with its script and both ends. -/
def spanJson (s : Span) : Json :=
  .object [("source", .string s.source), ("start", positionJson s.start),
    ("end", positionJson s.stop)]

/-- What a diagnostic says besides its cause and place. -/
def detailsJson : Diagnostic → List (String × Json)
  | dupSymbol name symbol _           => [("name", .string name), ("symbol", .string symbol.name)]
  | noSuchSymbol name _               => [("name", .string name)]
  | typeMismatch expected actual _    =>
      [("expected", .string expected.name), ("actual", .string actual.name)]
  | argCountMismatch expected actual _ =>
      [("expected", .number expected), ("actual", .number actual)]
  | returnCountMismatch expected _    => [("expected", .number expected)]
  | unreachable reason _              => [("reason", .string reason.name)]
  | syntaxError error _               => [("message", .string error.message)]

/-- An object tagged with the cause, the place last. -/
def toJson (d : Diagnostic) : Json :=
  .object ([("kind", .string d.kindName)] ++ d.detailsJson ++ [("loc", spanJson d.loc)])

/-! ### From a list to an answer -/

/-- The value if nothing was found, else all that was found. -/
def settle {α : Type} (found : List Diagnostic) (value : α) : Except (List Diagnostic) α :=
  if found.isEmpty then .ok value else .error found

theorem settle_eq_ok_iff {α : Type} {found : List Diagnostic} {a b : α} :
    settle found a = .ok b ↔ found = [] ∧ a = b := by
  cases found <;> simp [settle]

theorem settle_eq_error_iff {α : Type} {found ds : List Diagnostic} {a : α} :
    settle found a = .error ds ↔ found = ds ∧ ds ≠ [] := by
  cases found with
  | nil => simp only [settle, List.isEmpty_nil]; grind
  | cons d found => simp only [settle, List.isEmpty_cons]; grind

end Diagnostic

end ProcScript
