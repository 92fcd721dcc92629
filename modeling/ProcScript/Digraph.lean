/-!
# ProcScript — Digraph

Directed graphs that remember in which order they grew.  Vertices are listed by first mention;
edges are grouped by the vertex they leave, and parallel edges are kept.
-/

namespace ProcScript

/-- Every vertex, by first mention, with the ends of the edges that leave it. -/
structure Digraph (α : Type) where
  adjacency : List (α × List α)
  deriving DecidableEq, Inhabited

namespace Digraph

variable {α : Type} [DecidableEq α]

def empty : Digraph α := ⟨[]⟩

/-- The vertices, by first mention. -/
def vertices (g : Digraph α) : List α := g.adjacency.map Prod.fst

def contains (g : Digraph α) (v : α) : Bool := g.vertices.contains v

/-- The ends of the edges that leave `v`. -/
def neighbors (g : Digraph α) (v : α) : List α :=
  ((g.adjacency.find? fun e => e.1 = v).map Prod.snd).getD []

/-- The edges, by the vertex they leave. -/
def edges (g : Digraph α) : List (α × α) :=
  g.adjacency.flatMap fun e => e.2.map fun w => (e.1, w)

def vertexCount (g : Digraph α) : Nat := g.adjacency.length

def edgeCount (g : Digraph α) : Nat := (g.adjacency.flatMap Prod.snd).length

def isEmpty (g : Digraph α) : Bool := g.adjacency.isEmpty

/-- With the vertex `v`. -/
def addVertex (g : Digraph α) (v : α) : Digraph α :=
  if g.contains v then g else ⟨g.adjacency ++ [(v, [])]⟩

/-- With the vertex `v`; says whether it is new. -/
def insertVertex (g : Digraph α) (v : α) : Bool × Digraph α := (!g.contains v, g.addVertex v)

/-- With one edge more, from `v` to `w`, if `v` is a vertex. -/
def push (g : Digraph α) (v w : α) : Digraph α :=
  ⟨g.adjacency.map fun e => if e.1 = v then (e.1, e.2 ++ [w]) else e⟩

/-- With the vertices `v` and `w` and one edge more between them. -/
def addEdge (g : Digraph α) (v w : α) : Digraph α := ((g.addVertex v).push v w).addVertex w

end Digraph

end ProcScript
