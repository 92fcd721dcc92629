import ProcScript.Span

/-!
# ProcScript — Token

The words of a script.  Each keyword, operator and delimiter is a kind with one spelling;
integer literals and identifiers are kinds with many; `eof` marks where a token list ends.  A
token is a kind, the text it was written as, and its span.
-/

namespace ProcScript

/-- The kinds of token. -/
inductive Kind where
  | intLiteral
  | identifier
  | kwDef
  | kwIs
  | kwEnd
  | kwVar
  | kwReturn
  | kwIf
  | kwThen
  | kwElse
  | kwWhile
  | kwDo
  | kwTrue
  | kwFalse
  | kwAnd
  | kwOr
  | kwNot
  | plus
  | minus
  | star
  | slash
  | equalEqual
  | bangEqual
  | less
  | greater
  | lessEqual
  | greaterEqual
  | colonEqual
  | leftParen
  | rightParen
  | comma
  | semicolon
  | colon
  | eof
  deriving DecidableEq, Inhabited

namespace Kind

/-- The name a token of the kind is shown with. -/
def name : Kind → String
  | intLiteral   => "IntLiteral"
  | identifier   => "Identifier"
  | kwDef        => "Def"
  | kwIs         => "Is"
  | kwEnd        => "End"
  | kwVar        => "Var"
  | kwReturn     => "Return"
  | kwIf         => "If"
  | kwThen       => "Then"
  | kwElse       => "Else"
  | kwWhile      => "While"
  | kwDo         => "Do"
  | kwTrue       => "True"
  | kwFalse      => "False"
  | kwAnd        => "And"
  | kwOr         => "Or"
  | kwNot        => "Not"
  | plus         => "Plus"
  | minus        => "Minus"
  | star         => "Star"
  | slash        => "Slash"
  | equalEqual   => "EqualEqual"
  | bangEqual    => "BangEqual"
  | less         => "Less"
  | greater      => "Greater"
  | lessEqual    => "LessEqual"
  | greaterEqual => "GreaterEqual"
  | colonEqual   => "ColonEqual"
  | leftParen    => "LeftParen"
  | rightParen   => "RightParen"
  | comma        => "Comma"
  | semicolon    => "Semicolon"
  | colon        => "Colon"
  | eof          => "Eof"

/-- The one spelling of a kind; literals and identifiers have many and the end of input none. -/
def spelling? : Kind → Option String
  | kwDef        => some "def"
  | kwIs         => some "is"
  | kwEnd        => some "end"
  | kwVar        => some "var"
  | kwReturn     => some "return"
  | kwIf         => some "if"
  | kwThen       => some "then"
  | kwElse       => some "else"
  | kwWhile      => some "while"
  | kwDo         => some "do"
  | kwTrue       => some "true"
  | kwFalse      => some "false"
  | kwAnd        => some "and"
  | kwOr         => some "or"
  | kwNot        => some "not"
  | plus         => some "+"
  | minus        => some "-"
  | star         => some "*"
  | slash        => some "/"
  | equalEqual   => some "=="
  | bangEqual    => some "!="
  | less         => some "<"
  | greater      => some ">"
  | lessEqual    => some "<="
  | greaterEqual => some ">="
  | colonEqual   => some ":="
  | leftParen    => some "("
  | rightParen   => some ")"
  | comma        => some ","
  | semicolon    => some ";"
  | colon        => some ":"
  | intLiteral | identifier | eof => none

/-- A kind as messages put it: its spelling in quotes, or words for the three without one. -/
def describe : Kind → String
  | intLiteral => "integer literal"
  | identifier => "identifier"
  | eof        => "end of input"
  | k          => "'" ++ k.spelling?.getD "" ++ "'"

/-- Every kind, in the order of the type. -/
def all : List Kind :=
  [intLiteral, identifier, kwDef, kwIs, kwEnd, kwVar, kwReturn, kwIf, kwThen, kwElse, kwWhile,
    kwDo, kwTrue, kwFalse, kwAnd, kwOr, kwNot, plus, minus, star, slash, equalEqual, bangEqual,
    less, greater, lessEqual, greaterEqual, colonEqual, leftParen, rightParen, comma, semicolon,
    colon, eof]

theorem mem_all (k : Kind) : k ∈ all := by
  cases k <;> decide

/-- The kind of that name. -/
def ofName? (s : String) : Option Kind := all.find? fun k => k.name = s

/-- The keywords: the kinds spelled as a word. -/
def keywords : List Kind :=
  [kwDef, kwIs, kwEnd, kwVar, kwReturn, kwIf, kwThen, kwElse, kwWhile, kwDo, kwTrue, kwFalse,
    kwAnd, kwOr, kwNot]

/-- The keyword spelled `s`, if any. -/
def keyword? (s : String) : Option Kind := keywords.find? fun k => k.spelling? = some s

/-- A keyword is found by its spelling and by nothing else. -/
theorem keyword?_eq_some_iff {s : String} {k : Kind} :
    keyword? s = some k ↔ k ∈ keywords ∧ k.spelling? = some s := by
  constructor
  · intro h
    exact ⟨List.mem_of_find?_eq_some h, by simpa using List.find?_some h⟩
  · rintro ⟨hk, hs⟩
    simp only [keywords, List.mem_cons, List.not_mem_nil, or_false] at hk
    rcases hk with rfl | rfl | rfl | rfl | rfl | rfl | rfl | rfl | rfl | rfl | rfl | rfl | rfl
      | rfl | rfl <;> obtain rfl := Option.some.inj hs <;> rfl

end Kind

/-- A token: its kind, its text and its place. -/
structure Token where
  kind : Kind
  lexeme : String
  span : Span
  deriving DecidableEq, Inhabited

namespace Token

/-- The token that ends a list. -/
def endOfInput (span : Span) : Token := ⟨.eof, "", span⟩

/-- `Kind(lexeme)`. -/
def render (t : Token) : String := t.kind.name ++ "(" ++ t.lexeme ++ ")"

end Token

end ProcScript
