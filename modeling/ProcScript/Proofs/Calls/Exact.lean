import Mathlib
import ProcScript.Proofs.Calls.Order

/-!
# Calls — a call graph is the calls

Said of the statements as they stand in the tree, for every script, checked or not, and whatever
names its procedures have.  `Procedure.callees` are the names that the call statements of a body
call, those inside blocks included.  The vertices are the names as they are first mentioned,
the neighbours of a name are the callees of all procedures of that name, there is one edge for
every call statement, and edges leave procedures only (**`Script.callGraph_exact`**).
-/

namespace ProcScript

/-- The names that the body calls, in the order in which its statements are met. -/
def Procedure.callees (p : Procedure) : List String :=
  (Block.preorder p.body).filterMap Stmt.callee?

/-- How many statements of the body are calls. -/
def Procedure.callCount (p : Procedure) : Nat :=
  (Block.preorder p.body).countP fun s => s.callee?.isSome

namespace Procedure

theorem block_callees (p : Procedure) : Block.callees p.body = p.callees :=
  Block.callees_eq_filterMap p.body

theorem length_callees (p : Procedure) : p.callees.length = p.callCount := by
  rw [callees, callCount, List.length_filterMap_eq_countP]

end Procedure

namespace Script

/-- A name that no procedure has leaves no edge. -/
theorem neighbors_callGraph_eq_nil {s : Script} {u : String}
    (h : u ∉ s.procedures.map Procedure.name) : s.callGraph.neighbors u = [] := by
  have hnone : s.procedures.filter (fun p => p.name = u) = [] :=
    List.filter_eq_nil_iff.mpr fun p hp hu =>
      h (List.mem_map.mpr ⟨p, hp, of_decide_eq_true hu⟩)
  rw [neighbors_callGraph, hnone, List.flatMap_nil]

/-- **The call graph is exactly the calls.**  Its vertices are the names of the procedures and of
what they call, in the order of their first mention; the neighbours of a name are the callees of
its procedures, one after the other; it has as many edges as there are call statements; and no
edge leaves a name that no procedure has. -/
theorem callGraph_exact (s : Script) :
    s.callGraph.vertices = (s.procedures.flatMap fun p => p.name :: p.callees).eraseDups ∧
    (∀ u, s.callGraph.neighbors u =
      (s.procedures.filter fun p => p.name = u).flatMap Procedure.callees) ∧
    s.callGraph.edgeCount = (s.procedures.map Procedure.callCount).sum ∧
    ∀ u ∉ s.procedures.map Procedure.name,
      s.callGraph.neighbors u = [] ∧ ∀ e ∈ s.callGraph.edges, e.1 ≠ u := by
  refine ⟨?_, fun u => ?_, ?_, fun u hu => ⟨neighbors_callGraph_eq_nil hu, ?_⟩⟩
  · rw [vertices_callGraph]
    simp only [Procedure.block_callees]
  · rw [neighbors_callGraph]
    exact List.flatMap_congr fun p _ => p.block_callees
  · rw [edgeCount_callGraph, List.length_flatMap]
    simp only [Procedure.block_callees, Procedure.length_callees]
  · rintro e he rfl
    obtain ⟨p, hp, hname, -⟩ := (s.mem_edges_callGraph_iff e).mp he
    exact hu (List.mem_map.mpr ⟨p, hp, hname⟩)

/-- Two procedures of one name, a call in a branch and a call of a name that nothing has. -/
def tangle : Script :=
  ⟨"", [⟨"a", [], ⟨"Void", .none⟩,
      [.ifElse (.bool true 0 .none) [.call "b" [] .none] [.call "x" [] .none, .call "b" [] .none]
        .none], .none⟩,
    ⟨"b", [], ⟨"Void", .none⟩, [.whileDo (.bool true 1 .none) [.call "a" [] .none] .none], .none⟩,
    ⟨"a", [], ⟨"Void", .none⟩, [.call "a" [] .none], .none⟩], .none⟩

example : tangle.callGraph.vertices = ["a", "b", "x"] ∧
    tangle.callGraph.neighbors "a" = ["b", "x", "b", "a"] ∧ tangle.callGraph.edgeCount = 5 := by
  decide

/-- The name that nothing has leaves no edge. -/
theorem tangle_callGraph : "x" ∉ tangle.procedures.map Procedure.name ∧
    tangle.callGraph.neighbors "x" = [] := by
  have hx : "x" ∉ tangle.procedures.map Procedure.name := by decide
  exact ⟨hx, ((callGraph_exact tangle).2.2.2 "x" hx).1⟩

end Script

end ProcScript
