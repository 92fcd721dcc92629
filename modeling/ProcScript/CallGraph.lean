import ProcScript.Digraph
import ProcScript.Script

/-!
# ProcScript — CallGraph

Which procedure calls which, by name.  Every procedure is a vertex, and so is every name that
is called; every call is an edge.  The graph grows along the tree: a procedure is entered, the
statements of its body are met one after the other, those inside blocks included, and a call that
is met is an edge from the procedure that was entered.
-/

namespace ProcScript

/-- Which name calls which. -/
abbrev CallGraph := Digraph String

namespace CallGraph

/-- A call graph on its way along a script. -/
structure Builder where
  graph : CallGraph
  /-- The procedure whose calls are met, if one was entered. -/
  caller : Option String

namespace Builder

/-- Before the first procedure. -/
def start : Builder := ⟨.empty, none⟩

/-- Inside a procedure, which is a vertex. -/
def enter (b : Builder) (p : Procedure) : Builder := ⟨b.graph.addVertex p.name, some p.name⟩

/-- Outside all procedures. -/
def leave (b : Builder) : Builder := { b with caller := none }

/-- With a call; outside all procedures only its name is known. -/
def call (b : Builder) (callee : String) : Builder :=
  match b.caller with
  | some caller => { b with graph := b.graph.addEdge caller callee }
  | none        => { b with graph := b.graph.addVertex callee }

mutual

/-- With the calls of a statement and of the blocks in it. -/
def stmt (b : Builder) : Stmt → Builder
  | .varDef ..             => b
  | .ret ..                => b
  | .call callee _ _       => b.call callee
  | .assign ..             => b
  | .ifThen _ body _       => b.block body
  | .ifElse _ body other _ => (b.block body).block other
  | .whileDo _ body _      => b.block body

/-- With the calls of the statements of a block, one after the other. -/
def block (b : Builder) : List Stmt → Builder
  | []      => b
  | s :: ss => (b.stmt s).block ss

end

/-- With a procedure and its calls. -/
def procedure (b : Builder) (p : Procedure) : Builder := ((b.enter p).block p.body).leave

end Builder

end CallGraph

/-- The call graph of a script, whatever is wrong with it. -/
def Script.callGraph (s : Script) : CallGraph :=
  (s.procedures.foldl CallGraph.Builder.procedure .start).graph

end ProcScript
