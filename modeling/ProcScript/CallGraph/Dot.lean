import ProcScript.CallGraph

/-!
# ProcScript — CallGraph — Dot

Call graphs in the DOT language: a heading, a line for every vertex, a line for every edge, and
the closing brace.  Every name stands in quotes, in which a quote, a backslash and a line feed
are escaped, so that no name ends its quotes or its line.
-/

namespace ProcScript

/-- The direction in which a drawing runs. -/
inductive RankDir where
  | leftRight
  | rightLeft
  | topBottom
  | bottomTop
  deriving DecidableEq, Inhabited

namespace RankDir

def name : RankDir → String
  | leftRight => "LR"
  | rightLeft => "RL"
  | topBottom => "TB"
  | bottomTop => "BT"

/-- The direction of that name. -/
def ofName? : String → Option RankDir
  | "LR" => some leftRight
  | "RL" => some rightLeft
  | "TB" => some topBottom
  | "BT" => some bottomTop
  | _    => none

end RankDir

/-- How call graphs are drawn. -/
structure GraphStyle where
  title : String
  rankDir : RankDir
  edgeLabel : String
  deriving DecidableEq, Inhabited

namespace Dot

/-- A character inside quotes. -/
def escape (c : Char) : List Char :=
  if c = '"' then ['\\', '"']
  else if c = '\\' then ['\\', '\\']
  else if c = '\n' then ['\\', 'n']
  else [c]

/-- A name in its quotes. -/
def quote (s : String) : String := "\"" ++ String.ofList (s.toList.flatMap escape) ++ "\""

/-- The lines before the vertices. -/
def heading (title : String) (dir : RankDir) : List String :=
  ["digraph " ++ quote title ++ " \x7b",
    "    label=" ++ quote title ++ ";",
    "    rankdir=" ++ dir.name ++ ";",
    "    node [shape=triangle, style=filled, color=blue];"]

/-- The line of a vertex. -/
def vertexLine (v : String) : String := "    " ++ quote v ++ ";"

/-- The line of an edge. -/
def edgeLine (label : String) (e : String × String) : String :=
  "    " ++ quote e.1 ++ " -> " ++ quote e.2 ++ " [label=" ++ quote label ++ "];"

end Dot

/-- The lines of a call graph under a title of its own. -/
def CallGraph.dotLines (g : CallGraph) (title : String) (style : GraphStyle) : List String :=
  Dot.heading title style.rankDir ++ g.vertices.map Dot.vertexLine
    ++ g.edges.map (Dot.edgeLine style.edgeLabel) ++ ["\x7d"]

/-- The text of a call graph under a title of its own. -/
def CallGraph.dot (g : CallGraph) (title : String) (style : GraphStyle) : String :=
  String.join ((g.dotLines title style).map (· ++ "\n"))

end ProcScript
