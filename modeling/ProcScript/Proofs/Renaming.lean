import ProcScript.Proofs.Check.Relabel
import ProcScript.Proofs.Check.Wording

/-!
# Renaming

**Renaming commutes with the analysis** (`Script.rename_commutes`).  Where the names of procedures,
parameters and variables are replaced by others, different ones by different ones, a check has the
same outcome under the new names, and the call graph is the same graph over the new names.  A
procedure and a variable of one name get one new name, so what hides what stays as it was.  For the
check this is `Script.checking_reword` with the types left as they are written; a graph grows by
comparing vertices with one another, so its growth goes along as well.
-/

namespace ProcScript

/-! ### Graphs -/

namespace Digraph

variable {α β : Type}

/-- The graph over the images of its vertices. -/
def map (f : α → β) (g : Digraph α) : Digraph β := ⟨g.adjacency.map fun e => (f e.1, e.2.map f)⟩

theorem vertices_map (f : α → β) (g : Digraph α) : (g.map f).vertices = g.vertices.map f := by
  simp [vertices, map]

variable [DecidableEq α] [DecidableEq β] {f : α → β} (hf : Function.Injective f)
include hf

theorem neighbors_map (g : Digraph α) (v : α) :
    (g.map f).neighbors (f v) = (g.neighbors v).map f := by
  have hkey : ((fun e : β × List β => decide (e.1 = f v)) ∘
      fun e : α × List α => (f e.1, e.2.map f)) = fun e => decide (e.1 = v) := by
    funext e
    simp [hf.eq_iff]
  simp only [neighbors, map, List.find?_map, hkey]
  cases g.adjacency.find? fun e => e.1 = v <;> rfl

theorem addVertex_map (g : Digraph α) (v : α) :
    (g.map f).addVertex (f v) = (g.addVertex v).map f := by
  have hcontains : (g.map f).contains (f v) = g.contains v := by
    simp [contains, vertices_map, List.mem_map, hf.eq_iff]
  rw [addVertex, addVertex, hcontains]
  split
  · rfl
  · simp [map]

theorem push_map (g : Digraph α) (v w : α) : (g.map f).push (f v) (f w) = (g.push v w).map f := by
  simp only [push, map, List.map_map, Digraph.mk.injEq]
  refine List.map_congr_left fun e _ => ?_
  by_cases he : e.1 = v <;> simp [he, hf.eq_iff]

theorem addEdge_map (g : Digraph α) (v w : α) :
    (g.map f).addEdge (f v) (f w) = (g.addEdge v w).map f := by
  simp only [addEdge, addVertex_map hf, push_map hf]

theorem foldl_addEdge_map (g : Digraph α) (v : α) (ws : List α) :
    (ws.map f).foldl (fun g w => g.addEdge (f v) w) (g.map f) =
      (ws.foldl (fun g w => g.addEdge v w) g).map f := by
  induction ws generalizing g with
  | nil => rfl
  | cons w ws ih => rw [List.map_cons, List.foldl_cons, List.foldl_cons, addEdge_map hf, ih]

end Digraph

/-! ### Scripts and what is said of them -/

/-- The script with other names for its procedures, parameters and variables. -/
def Script.rename (f : String → String) (s : Script) : Script := s.reword ⟨f, id⟩

def CheckedScript.rename (f : String → String) (c : CheckedScript) : CheckedScript :=
  ⟨c.script.rename f, c.procedures.rename f, c.types⟩

/-- The verdict under other names; the name of a type that there is not stays. -/
def Verdict.rename (f : String → String) : Verdict → Verdict
  | .error misuse      => .error misuse
  | .ok (.error found) => .ok (.error (found.map (Diagnostic.rename f)))
  | .ok (.ok checked)  => .ok (.ok (checked.rename f))

namespace Script

variable {f : String → String} (hf : Function.Injective f) (s : Script)

theorem unknownType?_rename (f : String → String) : (s.rename f).unknownType? = s.unknownType? := by
  rw [unknownType?, unknownType?, rename, typeNames_reword, List.map_id]

include hf

theorem checking_rename : (s.rename f).checking = s.checking.rename f :=
  s.checking_reword ⟨hf, fun _ _ => rfl⟩

theorem check_rename : (s.rename f).check = Verdict.rename f s.check := by
  simp only [check, validate, unknownType?_rename, checking_rename hf]
  cases s.unknownType? with
  | some a => rfl
  | none =>
      have hfound : (s.checking.rename f).found = s.checking.found.map (Diagnostic.rename f) := rfl
      rw [hfound]
      cases s.checking.found with
      | nil => rfl
      | cons d ds => rfl

theorem addProcedure_rename (g : CallGraph) (p : Procedure) :
    CallGraph.addProcedure (g.map f) (p.reword ⟨f, id⟩) = (g.addProcedure p).map f := by
  simp only [CallGraph.addProcedure, Procedure.reword, Block.callees_reword,
    Digraph.addVertex_map hf, Digraph.foldl_addEdge_map hf]

theorem addProcedures_rename (g : CallGraph) (ps : List Procedure) :
    (ps.map (Procedure.reword ⟨f, id⟩)).foldl CallGraph.addProcedure (g.map f) =
      (ps.foldl CallGraph.addProcedure g).map f := by
  induction ps generalizing g with
  | nil => rfl
  | cons p ps ih =>
      rw [List.map_cons, List.foldl_cons, List.foldl_cons, addProcedure_rename hf, ih]

theorem callGraph_rename : (s.rename f).callGraph = s.callGraph.map f := by
  rw [callGraph_eq, callGraph_eq]
  exact addProcedures_rename hf .empty s.procedures

/-- **Renaming commutes with the analysis**: the outcome of a check is that of the script under its
old names, with its diagnostics and its procedures under the new ones, and the call graph has its
vertices and their neighbours under the new names, in their order. -/
theorem rename_commutes :
    (s.rename f).check = Verdict.rename f s.check ∧
      (s.rename f).callGraph = s.callGraph.map f ∧
      (s.rename f).callGraph.vertices = s.callGraph.vertices.map f ∧
      ∀ v, (s.rename f).callGraph.neighbors (f v) = (s.callGraph.neighbors v).map f := by
  have hgraph := callGraph_rename hf s
  refine ⟨check_rename hf s, hgraph, ?_, fun v => ?_⟩
  · rw [hgraph, Digraph.vertices_map]
  · rw [hgraph, Digraph.neighbors_map hf]

omit hf

/-- A procedure whose name is also that of a variable, which hides it, and of a parameter. -/
def mingled : Script :=
  ⟨"", [⟨"f", [⟨"f", ⟨"Int32", .none⟩, .none⟩], ⟨"Void", .none⟩, [], .none⟩,
    ⟨"g", [], ⟨"Void", .none⟩,
      [.call "f" [.bool true 0 .none] .none,
        .varDef "f" ⟨"Int32", .none⟩ (some (.int 1 1 .none)) .none,
        .call "f" [.var "f" 2 .none] .none, .call "h" [] .none], .none⟩], .none⟩

/-- A mark in front of each name: the call before the variable is still found wrong, the one behind
it still is not, and the edges are the same. -/
theorem mingled_rename :
    Function.Injective ("_" ++ ·) ∧
      (mingled.rename ("_" ++ ·)).check = .ok (.error
        [.typeMismatch .int32 .bool .none, .noSuchSymbol "_h" .none]) ∧
      (mingled.rename ("_" ++ ·)).callGraph.vertices = ["_f", "_g", "_h"] ∧
      (mingled.rename ("_" ++ ·)).callGraph.neighbors "_g" = ["_f", "_f", "_h"] := by
  have hf : Function.Injective ("_" ++ ·) := fun a b h => by simpa using h
  have hcheck : mingled.check = .ok (.error
      [.typeMismatch .int32 .bool .none, .noSuchSymbol "h" .none]) := by rfl
  obtain ⟨hrename, -, hvertices, hneighbors⟩ := rename_commutes hf mingled
  refine ⟨hf, ?_, ?_, ?_⟩
  · rw [hrename, hcheck]
    rfl
  · rw [hvertices]
    rfl
  · exact (hneighbors "g").trans rfl

end Script

end ProcScript
