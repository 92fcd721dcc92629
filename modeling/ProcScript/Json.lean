/-!
# ProcScript — Json

The JSON values that reports are made of, and their text over several lines: each member and
each element on a line of its own, two blanks deeper than what holds it, and members in the
order given.
-/

namespace ProcScript

/-- A JSON value without fractions, negative numbers and null. -/
inductive Json where
  | bool (value : Bool)
  | number (value : Nat)
  | string (value : String)
  | array (elements : List Json)
  | object (members : List (String × Json))

namespace Json

/-- Four lower-case hexadecimal digits. -/
def hex4 (n : Nat) : String :=
  String.ofList <| [n / 4096, n / 256, n / 16, n].map fun d => Nat.digitChar (d % 16)

/-- A character inside quotes: the quote, the backslash and the control characters below U+0020
are escaped, and nothing else. -/
def escape (c : Char) : String :=
  if c = '"' then "\\\""
  else if c = '\\' then "\\\\"
  else if c = '\x08' then "\\b"
  else if c = '\x0c' then "\\f"
  else if c = '\n' then "\\n"
  else if c = '\r' then "\\r"
  else if c = '\t' then "\\t"
  else if c.toNat < 0x20 then "\\u" ++ hex4 c.toNat
  else String.singleton c

/-- A string in its quotes. -/
def quote (s : String) : String :=
  "\"" ++ String.join (s.toList.map escape) ++ "\""

/-- A new line at `depth`. -/
def newLine (depth : Nat) : String := "\n" ++ String.ofList (List.replicate (2 * depth) ' ')

/-- Brackets around items, one a line; brackets around none stand together. -/
def enclose (opening closing : String) (depth : Nat) : List String → String
  | []    => opening ++ closing
  | items => opening ++ newLine (depth + 1)
      ++ String.intercalate ("," ++ newLine (depth + 1)) items ++ newLine depth ++ closing

mutual

/-- The text of a value that starts at `depth`. -/
def render (depth : Nat) : Json → String
  | bool b    => if b then "true" else "false"
  | number n  => toString n
  | string s  => quote s
  | array es  => enclose "[" "]" depth (renderElements (depth + 1) es)
  | object ms => enclose "\x7b" "\x7d" depth (renderMembers (depth + 1) ms)

/-- The texts of the elements of an array. -/
def renderElements (depth : Nat) : List Json → List String
  | []      => []
  | e :: es => e.render depth :: renderElements depth es

/-- The texts of the members of an object. -/
def renderMembers (depth : Nat) : List (String × Json) → List String
  | []           => []
  | (k, v) :: ms => (quote k ++ ": " ++ v.render depth) :: renderMembers depth ms

end

end Json

end ProcScript
