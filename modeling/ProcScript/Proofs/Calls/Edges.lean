import ProcScript.CallGraph
import ProcScript.Proofs.Digraph

/-!
# Calls — what a call graph holds

A call graph that was built along the tree is the one to which the procedures are added one after
the other, each with the list of the names called in it (`Script.callGraph_eq`), and so a graph
that grew by the procedures and their calls (`Script.callGraph_eq_grown`).  Its vertices are the
names in the order in which the script first mentions them (`Script.vertices_callGraph`), the
neighbours of a name are the names called in the procedures of that name, in order and as often as
they are called (`Script.neighbors_callGraph`), and there are as many edges as calls
(`Script.edgeCount_callGraph`).
-/

namespace ProcScript

namespace CallGraph

/-- With a procedure and its calls. -/
def addProcedure (g : CallGraph) (p : Procedure) : CallGraph :=
  (Block.callees p.body).foldl (fun g callee => g.addEdge p.name callee) (g.addVertex p.name)

namespace Builder

mutual

theorem stmt_eq_foldl (b : Builder) : ∀ s : Stmt, b.stmt s = s.callees.foldl call b
  | .varDef .. | .ret .. | .call .. | .assign .. => rfl
  | .ifThen _ body _ | .whileDo _ body _ => b.block_eq_foldl body
  | .ifElse _ body other _ => by
      rw [stmt, block_eq_foldl, block_eq_foldl, Stmt.callees, List.foldl_append]

/-- The calls of a block are met in the order in which they were written. -/
theorem block_eq_foldl (b : Builder) :
    ∀ ss : List Stmt, b.block ss = (Block.callees ss).foldl call b
  | [] => rfl
  | s :: ss => by
      rw [block, stmt_eq_foldl, block_eq_foldl, Block.callees, List.foldl_append]

end

/-- Inside a procedure every call is an edge from it. -/
theorem foldl_call (g : CallGraph) (caller : String) (callees : List String) :
    callees.foldl call ⟨g, some caller⟩ =
      ⟨callees.foldl (fun g callee => g.addEdge caller callee) g, some caller⟩ := by
  induction callees generalizing g with
  | nil => rfl
  | cons callee callees ih => exact ih (g.addEdge caller callee)

theorem procedure_eq (b : Builder) (p : Procedure) :
    b.procedure p = ⟨b.graph.addProcedure p, none⟩ := by
  rw [procedure, block_eq_foldl, enter, foldl_call]
  rfl

theorem graph_foldl_procedure (b : Builder) (ps : List Procedure) :
    (ps.foldl procedure b).graph = ps.foldl addProcedure b.graph := by
  induction ps generalizing b with
  | nil => rfl
  | cons p ps ih => rw [List.foldl_cons, ih, procedure_eq, List.foldl_cons]

end Builder

end CallGraph

/-! ### Calls as growth -/

/-- What a call graph grows by with a procedure: its name, and an edge for each call. -/
def Procedure.growth (p : Procedure) : List (Digraph.Op String) :=
  .vertex p.name :: (Block.callees p.body).map (.edge p.name)

namespace Procedure

theorem foldl_growth (p : Procedure) (g : CallGraph) :
    p.growth.foldl Digraph.grow g = g.addProcedure p := by
  rw [growth, List.foldl_cons, List.foldl_map]
  rfl

theorem filterMap_growth (p : Procedure) (u : String) :
    p.growth.filterMap (Digraph.Op.target? u) =
      if p.name = u then Block.callees p.body else [] := by
  rw [growth, List.filterMap_cons_none rfl, List.filterMap_map]
  by_cases hu : p.name = u <;> simp [Function.comp_def, Digraph.Op.target?, hu]

theorem countP_growth (p : Procedure) :
    p.growth.countP Digraph.Op.isEdge = (Block.callees p.body).length := by
  rw [growth, List.countP_cons_of_neg (by simp [Digraph.Op.isEdge]), List.countP_map]
  exact congrFun List.countP_true _

/-- Only the first mention of the caller counts. -/
theorem eraseDups_growth (p : Procedure) (before after : List String) :
    (before ++ p.growth.flatMap Digraph.Op.mentions ++ after).eraseDups =
      (before ++ p.name :: Block.callees p.body ++ after).eraseDups := by
  have hname := Digraph.eraseDups_append_edges (v := p.name) (l := before ++ [p.name]) (by simp)
    (Block.callees p.body) after
  simpa [growth, List.flatMap_map, Digraph.Op.mentions] using hname

/-- So procedures mention their names and what they call. -/
theorem eraseDups_flatMap_growth (ps : List Procedure) (before : List String) :
    (before ++ ps.flatMap fun p => p.growth.flatMap Digraph.Op.mentions).eraseDups =
      (before ++ ps.flatMap fun p => p.name :: Block.callees p.body).eraseDups := by
  induction ps generalizing before with
  | nil => rfl
  | cons p ps ih =>
      rw [List.flatMap_cons, List.flatMap_cons, ← List.append_assoc, eraseDups_growth, ih,
        List.append_assoc]

end Procedure

namespace Script

/-- A call graph has the procedures and their calls, one procedure after the other. -/
theorem callGraph_eq (s : Script) :
    s.callGraph = s.procedures.foldl CallGraph.addProcedure .empty :=
  CallGraph.Builder.graph_foldl_procedure .start s.procedures

/-- **A call graph grows by one procedure after the other.** -/
theorem callGraph_eq_grown (s : Script) :
    s.callGraph = .grown (s.procedures.flatMap Procedure.growth) := by
  rw [callGraph_eq, Digraph.grown, List.foldl_flatMap]
  simp only [Procedure.foldl_growth]

/-- The names of a script in the order of their first mention. -/
theorem vertices_callGraph (s : Script) : s.callGraph.vertices =
    (s.procedures.flatMap fun p => p.name :: Block.callees p.body).eraseDups := by
  rw [callGraph_eq_grown, Digraph.vertices_grown, List.flatMap_assoc]
  exact Procedure.eraseDups_flatMap_growth s.procedures []

/-- The calls in the procedures of a name. -/
theorem neighbors_callGraph (s : Script) (u : String) : s.callGraph.neighbors u =
    (s.procedures.filter fun p => p.name = u).flatMap fun p => Block.callees p.body := by
  rw [callGraph_eq_grown, Digraph.neighbors_grown, List.filterMap_flatMap]
  simp only [Procedure.filterMap_growth]
  induction s.procedures with
  | nil => rfl
  | cons p ps ih => by_cases hp : p.name = u <;> simp [hp, ih]

/-- Every call is an edge of its own. -/
theorem edgeCount_callGraph (s : Script) : s.callGraph.edgeCount =
    (s.procedures.flatMap fun p => Block.callees p.body).length := by
  rw [callGraph_eq_grown, Digraph.edgeCount_grown, List.countP_flatMap, List.length_flatMap]
  simp only [Function.comp_def, Procedure.countP_growth]

theorem mem_edges_callGraph_iff (s : Script) (e : String × String) :
    e ∈ s.callGraph.edges ↔ ∃ p ∈ s.procedures, p.name = e.1 ∧ e.2 ∈ Block.callees p.body := by
  have hn : s.callGraph.vertices.Nodup := by
    rw [callGraph_eq_grown]
    exact Digraph.nodup_grown _
  rw [Digraph.mem_edges_iff hn, neighbors_callGraph]
  simp [and_assoc]

end Script

end ProcScript
