import ProcScript.Text.Scan

/-!
# ProcScript — Toml — Lexical

The characters, keys and strings of TOML.  A line ends with a line feed, before which a
carriage return may stand; no other control character but the tab is allowed anywhere.  Strings
stand in one or in three quotes of either kind; those in double quotes have escapes, and those
in three quotes may hold line ends and up to two quotes in a row.
-/

namespace ProcScript.Toml

open ProcScript.Text Scan

/-- The deepest nesting, and the longest dotted key, stay below this number. -/
def depthLimit : Nat := 80

/-- A blank inside a line. -/
def isBlank (c : Char) : Bool := c == ' ' || c == '\t'

/-- A character of a comment or a string, quotes and the backslash included. -/
def isLineChar (c : Char) : Bool := c == '\t' || (0x20 ≤ c.toNat && c.toNat != 0x7F)

/-- A character of a string in double quotes that stands for itself. -/
def isBasicChar (c : Char) : Bool := isLineChar c && c != '"' && c != '\\'

/-- A character of a string in single quotes. -/
def isLiteralChar (c : Char) : Bool := isLineChar c && c != '\''

def blanks : Scan Unit := discard (run isBlank)

/-- The end of a line. -/
def newline : Scan Unit := one '\n' <|> word ['\r', '\n']

/-- A comment, up to the end of its line. -/
def comment : Scan Unit := one '#' *> discard (run isLineChar)

/-- The end of a line or of the document. -/
def lineEnd : Scan Unit := newline <|> finish

/-- What may follow on a line that says something. -/
def trailing : Scan Unit := blanks *> discard (optional comment) *> lineEnd

/-- What may stand between elements of an array. -/
def arrayBlanks : Scan Unit :=
  discard (many (discard (char isBlank) <|> newline <|> (comment *> newline)))

/-! ### Strings -/

def isHexDigit (c : Char) : Bool :=
  c.isDigit || ('a' ≤ c && c ≤ 'f') || ('A' ≤ c && c ≤ 'F')

/-- The value of a hexadecimal digit. -/
def hexValue (c : Char) : Nat :=
  if c.isDigit then c.toNat - '0'.toNat
  else if 'a' ≤ c then c.toNat - 'a'.toNat + 10
  else c.toNat - 'A'.toNat + 10

/-- The number that digits write in a base, most significant first. -/
def valueIn (base : Nat) (digits : List Char) : Nat :=
  digits.foldl (fun n c => base * n + hexValue c) 0

/-- A character given by the `n` hexadecimal digits of its code point. -/
def codePoint (n : Nat) : Scan Char := do
  let code := valueIn 16 (← times n (char isHexDigit))
  if code.isValidChar then return Char.ofNat code else failure

/-- A character behind a backslash. -/
def escape : Scan Char := do
  match ← char fun _ => true with
  | 'b'  => return '\x08'
  | 't'  => return '\t'
  | 'n'  => return '\n'
  | 'f'  => return '\x0c'
  | 'r'  => return '\r'
  | '"'  => return '"'
  | '\\' => return '\\'
  | 'u'  => codePoint 4
  | 'U'  => codePoint 8
  | _    => failure

/-- A character of a string in double quotes. -/
def basicChar : Scan Char := char isBasicChar <|> (one '\\' *> escape)

/-- A string in double quotes. -/
def basicString : Scan String := do
  one '"'
  let cs ← many basicChar
  one '"'
  return String.ofList cs

/-- A string in single quotes. -/
def literalString : Scan String := do
  one '\''
  let cs ← run isLiteralChar
  one '\''
  return String.ofList cs

/-- One or two quotes inside a string in three. -/
def innerQuotes (quote : Char) : Scan (List Char) :=
  verify (run (· == quote)) fun qs => qs.length == 1 || qs.length == 2

/-- The three quotes that end a string, and up to two quotes before them that belong to it. -/
def closingQuotes (quote : Char) : Scan (List Char) := do
  let qs ← verify (run (· == quote)) fun qs => 3 ≤ qs.length && qs.length ≤ 5
  return qs.drop 3

/-- A backslash at the end of a line, and all blanks and line ends up to the next character. -/
def lineContinuation : Scan (List Char) := do
  one '\\'
  blanks
  newline
  discard (many (discard (char isBlank) <|> newline))
  return []

/-- A line end inside a string. -/
def innerNewline : Scan (List Char) := newline *> pure ['\n']

/-- A string in three quotes whose pieces are read by `piece`; a line end right behind the first
three does not count. -/
def longString (quote : Char) (piece : Scan (List Char)) : Scan String := do
  word [quote, quote, quote]
  discard (optional newline)
  let pieces ← many (piece <|> innerQuotes quote <|> innerNewline)
  let last ← closingQuotes quote
  return String.ofList (pieces.flatten ++ last)

/-- A string in three double quotes. -/
def longBasicString : Scan String :=
  longString '"' (lineContinuation <|> (do return [← basicChar]))

/-- A string in three single quotes. -/
def longLiteralString : Scan String :=
  longString '\'' (do return [← char isLiteralChar])

/-- A string of any kind. -/
def string : Scan String :=
  longBasicString <|> basicString <|> longLiteralString <|> literalString

/-! ### Keys -/

def isBareKeyChar (c : Char) : Bool := c.isAlphanum || c == '-' || c == '_'

/-- One part of a key. -/
def keyPart : Scan String :=
  basicString <|> literalString <|> (do return String.ofList (← many1 (char isBareKeyChar)))

/-- A dotted key, with the blanks around its parts. -/
def key : Scan (List String) :=
  verify (sepBy1 (blanks *> keyPart <* blanks) (one '.')) fun parts => parts.length < depthLimit

end ProcScript.Toml
