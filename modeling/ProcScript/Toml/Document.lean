import ProcScript.Toml.Number

/-!
# ProcScript — Toml — Document

Values and whole documents of TOML.  A document is a list of entries, then sections, each with
a header and entries of its own; `Document.root` says which table they make together, if they
agree.
-/

namespace ProcScript.Toml

open ProcScript.Text Scan

/-! ### Values -/

/-- A value under a dotted key, behind which nothing was read. -/
def entryOf (value : Scan Node) : Scan Entry := do
  let parts ← key
  one '='
  blanks
  let node ← value
  return ⟨parts.dropLast, parts.getLast?.getD "", node⟩

/-- A list in brackets, over one line or more. -/
def arrayOf (value : Scan Node) : Scan Node := do
  one '['
  let elements ← optional <|
    sepBy1 (arrayBlanks *> value <* arrayBlanks) (one ',') <* optional (one ',')
  arrayBlanks
  one ']'
  return .array (elements.getD [])

/-- A table in braces, on one line. -/
def tableOf (value : Scan Node) : Scan Node := do
  one '\x7b'
  let entries ← optional (sepBy1 (entryOf value <* blanks) (one ','))
  blanks
  one '\x7d'
  match Entries.putAll (entries.getD []) [] with
  | some es => return .table .braces es
  | none    => failure

/-- A value without parts. -/
def scalar : Scan Node :=
  (do return .string (← string))
    <|> numberOrDate
    <|> (word ['t', 'r', 'u', 'e'] *> pure (.boolean true))
    <|> (word ['f', 'a', 'l', 's', 'e'] *> pure (.boolean false))

/-- A value whose brackets and braces are nested `depth` deep at most. -/
def valueAt : Nat → Scan Node
  | 0         => scalar
  | depth + 1 => scalar <|> arrayOf (valueAt depth) <|> tableOf (valueAt depth)

/-- A value. -/
def value : Scan Node := valueAt (depthLimit - 1)

/-! ### Documents -/

/-- What a section is about. -/
inductive Header where
  /-- `[a.b]`: the table of that name. -/
  | table (path : List String)
  /-- `[[a.b]]`: one more table of the list of that name. -/
  | element (path : List String)

/-- A header and the entries behind it. -/
structure Section where
  header : Header
  entries : List Entry

/-- A document. -/
structure Document where
  entries : List Entry
  sections : List Section

/-- Lines that say nothing, and the blanks before the next that does. -/
def filler : Scan Unit :=
  discard (many (discard (char isBlank) <|> newline <|> (comment *> lineEnd)))

/-- The entries up to the next header. -/
def entries : Scan (List Entry) := filler *> many (entryOf value <* trailing <* filler)

/-- A header. -/
def header : Scan Header :=
  (do
    word ['[', '[']
    let path ← key
    word [']', ']']
    trailing
    return .element path)
  <|> do
    one '['
    let path ← key
    one ']'
    trailing
    return .table path

/-- A document; a byte order mark may stand before it. -/
def document : Scan Document := do
  discard (optional (one '\uFEFF'))
  let first ← entries
  let sections ← many do return ⟨← header, ← entries⟩
  finish
  return ⟨first, sections⟩

namespace Section

/-- What a section makes of what is under its name: a table may have been implied, but not begun
in another way; a list gets one table more. -/
def change (s : Section) (old : Option Node) : Option Node :=
  match s.header, old with
  | .table _, none   => do return .table .header (← Entries.putAll s.entries [])
  | .table _, some (.table .implied es) =>
      do return .table .header (← Entries.putAll s.entries es)
  | .table _, some _ => none
  | .element _, none                   => do return .tables [← Entries.putAll s.entries []]
  | .element _, some (.tables ess)     => do
      return .tables (ess ++ [← Entries.putAll s.entries []])
  | .element _, some _                 => none

/-- The keys of the header. -/
def path (s : Section) : List String :=
  match s.header with
  | .table path   => path
  | .element path => path

/-- The document's table with the section. -/
def addTo (es : Entries) (s : Section) : Option Entries :=
  es.enter s.path.dropLast (s.path.getLast?.getD "") s.change

end Section

/-- The table that a document makes, if its parts agree. -/
def Document.root (d : Document) : Option Entries := do
  d.sections.foldlM Section.addTo (← Entries.putAll d.entries [])

/-- The table that a text makes, if it is a document. -/
def ofText? (text : String) : Option Entries := do
  (← document.run' text.toList).root

end ProcScript.Toml
