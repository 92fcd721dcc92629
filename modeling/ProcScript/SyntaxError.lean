import ProcScript.Token

/-!
# ProcScript — SyntaxError

Why a text is no script.  The causes are a type and `SyntaxError.message` is their only
wording, so what a message says can be read off its cause.
-/

namespace ProcScript

/-- What a reader of tokens was looking for. -/
inductive Expected where
  | token (kind : Kind)
  | expression
  | statement
  | callOrAssignment
  deriving DecidableEq

/-- What was looked for, as messages put it. -/
def Expected.describe : Expected → String
  | .token kind       => kind.describe
  | .expression       => "expression"
  | .statement        => "statement"
  | .callOrAssignment => "'(' or ':='"

/-- The causes of a syntax error. -/
inductive SyntaxError where
  /-- A character that starts no token. -/
  | unexpectedChar (c : Char)
  /-- `=` without a second `=`. -/
  | loneEquals
  /-- `!` without a `=`. -/
  | loneBang
  /-- `/*` without its `*/`. -/
  | openComment
  /-- Another token stands where one was looked for. -/
  | expected (what : Expected) (found : Kind)
  /-- The literal is no 32-bit integer. -/
  | outOfRange (lexeme : String)
  /-- A call stands where a value was looked for. -/
  | callAsValue (callee : String)
  /-- A cause stated in words. -/
  | stated (message : String)
  deriving DecidableEq

/-- The wording of a cause. -/
def SyntaxError.message : SyntaxError → String
  | .unexpectedChar c    => "unexpected character '" ++ String.singleton c ++ "'"
  | .loneEquals          => "unexpected character '='; did you mean ':=' or '=='?"
  | .loneBang            => "unexpected character '!'; use 'not' for negation"
  | .openComment         => "unterminated block comment"
  | .expected what found => "expected " ++ what.describe ++ ", found " ++ found.describe
  | .outOfRange lexeme   => "integer literal " ++ lexeme ++ " does not fit in Int32"
  | .callAsValue callee  => "call to '" ++ callee ++ "' used as a value; calls are statements"
  | .stated message      => message

end ProcScript
