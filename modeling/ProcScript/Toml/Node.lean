/-!
# ProcScript — Toml — Node

Documents of the configuration language TOML as trees.  A table is grown from three sides, by
headers, by dotted keys and by braces, and each may only add to what its own kind began:
`Entries.put` adds a value under a dotted key, `Entries.enter` leads to the place of a header.
A number with a fraction and a date are told apart from other values, and nothing more is kept
of them.
-/

namespace ProcScript.Toml

/-- What began a table. -/
inductive Origin where
  /-- A header of its own, or the document. -/
  | header
  /-- A header that goes on behind it. -/
  | implied
  /-- A dotted key. -/
  | dotted
  /-- Braces. -/
  | braces
  deriving DecidableEq, Inhabited

/-- A value of a document. -/
inductive Node where
  | string (value : String)
  | boolean (value : Bool)
  | integer (value : Int)
  | float
  | dateTime
  | array (elements : List Node)
  | table (origin : Origin) (entries : List (String × Node))
  /-- The tables under one doubly bracketed header, one each time it stands. -/
  | tables (elements : List (List (String × Node)))
  deriving Inhabited

/-- The contents of a table. -/
abbrev Entries := List (String × Node)

namespace Entries

/-- With `node` under `key`, in place of what was there. -/
def set (es : Entries) (key : String) (node : Node) : Entries :=
  if (es.lookup key).isSome then es.map fun e => if e.1 = key then (key, node) else e
  else es ++ [(key, node)]

/-- With `node` under a dotted key, `path` its parts before the last one.  No value is replaced; a
part may name a table that a dotted key began, and, if another part follows, one that a header
implied or the last one of a list of tables. -/
def put (path : List String) (key : String) (node : Node) (es : Entries) : Option Entries :=
  match path with
  | [] => if (es.lookup key).isSome then none else some (es.set key node)
  | part :: path =>
    match es.lookup part with
    | none => do return es.set part (.table .dotted (← put path key node []))
    | some (.table .dotted inner) => do
        return es.set part (.table .dotted (← put path key node inner))
    | some (.table .implied inner) =>
        if path.isEmpty then none
        else do return es.set part (.table .implied (← put path key node inner))
    | some (.tables elements) =>
        if path.isEmpty then none
        else do
          let last ← put path key node (elements.getLast?.getD [])
          return es.set part (.tables (elements.dropLast ++ [last]))
    | some _ => none

/-- With what stands under the last key of a header, `key`, changed by `change`; `path` are the
keys before it.  They lead through tables, if not in braces, and through the last one of a list
of tables. -/
def enter (path : List String) (key : String) (change : Option Node → Option Node)
    (es : Entries) : Option Entries :=
  match path with
  | [] => do return es.set key (← change (es.lookup key))
  | part :: path =>
    match es.lookup part with
    | none => do return es.set part (.table .implied (← Entries.enter path key change []))
    | some (.table .braces _) => none
    | some (.table origin inner) => do
        return es.set part (.table origin (← Entries.enter path key change inner))
    | some (.tables elements) => do
        let last ← Entries.enter path key change (elements.getLast?.getD [])
        return es.set part (.tables (elements.dropLast ++ [last]))
    | some _ => none

end Entries

/-- A value under a dotted key. -/
structure Entry where
  path : List String
  key : String
  value : Node

/-- The table that entries make, added to what it has. -/
def Entries.putAll (entries : List Entry) (es : Entries) : Option Entries :=
  entries.foldlM (fun es e => es.put e.path e.key e.value) es

end ProcScript.Toml
