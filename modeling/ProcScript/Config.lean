import ProcScript.CallGraph.Dot
import ProcScript.Toml.Document

/-!
# ProcScript — Config

The settings of a project: whether what is found goes unlogged, and how call graphs are drawn.
They are read from a TOML document with the two sections `analyzer` and `graph`; a section or a
setting that is missing has its default, and one that is not known makes the document
unusable.  A section may also be an array, whose elements are its settings in order.
-/

namespace ProcScript

/-- The settings of a project. -/
structure Config where
  /-- What is found goes unlogged. -/
  silent : Bool
  /-- How call graphs are drawn. -/
  style : GraphStyle
  /-- The directory that the settings are from, if they are from a file. -/
  rootDir : Option String
  deriving DecidableEq, Inhabited

namespace Config

/-- The settings of a project that has none. -/
def defaults : Config := ⟨false, ⟨"call graph", .leftRight, "calls"⟩, none⟩

open Toml (Node Entries)

/-- The values under `names` in a table that has no other names, or the first elements of an
array in that order. -/
def settings? (names : List String) : Node → Option (List (Option Node))
  | .table _ es   =>
      if es.all fun e => e.1 ∈ names then some (names.map fun n => es.lookup n) else none
  | .array ns     => some ((List.range names.length).map fun i => ns[i]?)
  | .tables ess   => some ((List.range names.length).map fun i => ess[i]?.map (.table .header))
  | _             => none

def boolean? : Node → Option Bool
  | .boolean b => some b
  | _          => none

def string? : Node → Option String
  | .string s => some s
  | _         => none

/-- No elements and no entries. -/
def isVoid : Node → Bool
  | .array ns   => ns.isEmpty
  | .table _ es => es.isEmpty
  | .tables ess => ess.isEmpty
  | _           => false

/-- A direction by its name; a table with the name as its only key and nothing under it is that
name too. -/
def rankDir? : Node → Option RankDir
  | .string s             => RankDir.ofName? s
  | .table _ [(name, node)] => if isVoid node then RankDir.ofName? name else none
  | _                     => none

/-- A setting, or its default if it is missing. -/
def setting {α : Type} (read : Node → Option α) (otherwise : α) : Option Node → Option α
  | some node => read node
  | none      => some otherwise

/-- The section `analyzer`. -/
def analyzer? (c : Config) (node : Node) : Option Config := do
  match ← settings? ["silent"] node with
  | [silent] => return { c with silent := ← setting boolean? c.silent silent }
  | _        => none

/-- The section `graph`. -/
def graph? (c : Config) (node : Node) : Option Config := do
  match ← settings? ["title", "rankdir", "edge_label"] node with
  | [title, rankDir, edgeLabel] =>
      let title ← setting string? c.style.title title
      let rankDir ← setting rankDir? c.style.rankDir rankDir
      let edgeLabel ← setting string? c.style.edgeLabel edgeLabel
      return { c with style := ⟨title, rankDir, edgeLabel⟩ }
  | _ => none

/-- The settings of a document's table. -/
def ofEntries? (es : Entries) : Option Config := do
  match ← settings? ["analyzer", "graph"] (.table .header es) with
  | [analyzer, graph] =>
      let c ← setting defaults.analyzer? defaults analyzer
      setting c.graph? c graph
  | _ => none

/-- The settings that a text states. -/
def ofText? (text : String) : Option Config := do ofEntries? (← Toml.ofText? text)

end Config

end ProcScript
