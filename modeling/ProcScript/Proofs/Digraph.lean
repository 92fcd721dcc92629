import Mathlib.Data.List.Induction
import Mathlib.Data.List.Nodup
import ProcScript.Digraph

/-!
# Graphs that grow

A graph is read through its vertices and, for each of them, its neighbours; what `addVertex` and
`addEdge` do to these two is all that is used of them.  A graph that grew from the empty one by any
number of vertices and edges (`Digraph.grown`) is known by what was added: its vertices are what
was mentioned, in the order of the first mention, and the neighbours of a vertex are the ends of
the edges that were added to it, in order (`Digraph.grown_holds`).
-/

namespace ProcScript

namespace Digraph

variable {α : Type} [DecidableEq α] {g : Digraph α} {u v w : α} {e : α × α}

/-! ### One step of growth -/

theorem neighbors_eq_nil (h : v ∉ g.vertices) : g.neighbors v = [] := by
  have hf : (g.adjacency.find? fun e => e.1 = v) = none := by
    rw [List.find?_eq_none]
    intro e he hv
    exact h (List.mem_map.mpr ⟨e, he, by simpa using hv⟩)
  rw [neighbors, hf]
  rfl

theorem vertices_addVertex :
    (g.addVertex v).vertices = if v ∈ g.vertices then g.vertices else g.vertices ++ [v] := by
  by_cases h : v ∈ g.vertices
  · simp [addVertex, contains, h]
  · simp only [addVertex, contains, List.contains_iff_mem, h, if_false]
    simp [vertices]

theorem neighbors_addVertex : (g.addVertex v).neighbors u = g.neighbors u := by
  by_cases h : v ∈ g.vertices
  · simp [addVertex, contains, h]
  · simp only [addVertex, contains, List.contains_iff_mem, h, if_false]
    -- The new vertex has no neighbours, and so has a name that was none.
    simp only [neighbors, List.find?_append]
    cases g.adjacency.find? fun e => e.1 = u with
    | some e => rfl
    | none => by_cases hu : v = u <;> simp [hu]

theorem vertices_push : (g.push v w).vertices = g.vertices := by
  simp only [vertices, push, List.map_map]
  refine List.map_congr_left fun e _ => ?_
  by_cases he : e.1 = v <;> simp [he]

theorem neighbors_push (h : v ∈ g.vertices) :
    (g.push v w).neighbors u = if u = v then g.neighbors u ++ [w] else g.neighbors u := by
  have hkey : ((fun e : α × List α => decide (e.1 = u)) ∘
      fun e => if e.1 = v then (e.1, e.2 ++ [w]) else e) = fun e => decide (e.1 = u) := by
    funext e
    by_cases he : e.1 = v <;> simp [he]
  simp only [neighbors, push, List.find?_map, hkey]
  cases hf : g.adjacency.find? fun e => e.1 = u with
  | none =>
      have hu : u ≠ v := by
        rintro rfl
        obtain ⟨e, he, hv⟩ := List.mem_map.mp h
        exact List.find?_eq_none.mp hf e he (by simpa using hv)
      simp [hu]
  | some e =>
      have he : e.1 = u := by simpa using List.find?_some hf
      by_cases hu : u = v <;> simp [he, hu]

theorem mem_vertices_addVertex : v ∈ (g.addVertex v).vertices := by
  rw [vertices_addVertex]
  split
  · assumption
  · simp

theorem neighbors_addEdge :
    (g.addEdge v w).neighbors u = if u = v then g.neighbors u ++ [w] else g.neighbors u := by
  rw [addEdge, neighbors_addVertex, neighbors_push mem_vertices_addVertex, neighbors_addVertex]

/-! ### The order of the vertices -/

/-- A first occurrence is added, a later one is not. -/
theorem eraseDups_append_singleton (l : List α) (v : α) :
    (l ++ [v]).eraseDups = if v ∈ l then l.eraseDups else l.eraseDups ++ [v] := by
  rw [List.eraseDups_append]
  by_cases h : v ∈ l <;> simp [List.removeAll, h, List.eraseDups_cons]

/-- A later occurrence makes no difference. -/
theorem eraseDups_append_cons_of_mem {l : List α} (h : v ∈ l) (l' : List α) :
    (l ++ v :: l').eraseDups = (l ++ l').eraseDups := by
  simp [List.eraseDups_append, List.removeAll, h]

/-- Edges from a vertex that is mentioned mention their other ends only. -/
theorem eraseDups_append_edges {l : List α} (h : v ∈ l) (ws l' : List α) :
    (l ++ ws.flatMap (fun w => [v, w]) ++ l').eraseDups = (l ++ ws ++ l').eraseDups := by
  induction ws generalizing l with
  | nil => rfl
  | cons w ws ih =>
      have hw := ih (l := l ++ [w]) (List.mem_append_left _ h)
      simp only [List.append_assoc, List.singleton_append] at hw
      simp only [List.flatMap_cons, List.append_assoc, List.cons_append, List.nil_append,
        eraseDups_append_cons_of_mem h]
      exact hw

theorem nodup_eraseDups (l : List α) : l.eraseDups.Nodup := by
  induction l using List.reverseRecOn with
  | nil => simp
  | append_singleton l v ih =>
      rw [eraseDups_append_singleton]
      split
      · exact ih
      · refine List.nodup_append'.mpr ⟨ih, List.nodup_singleton v, ?_⟩
        simpa using ‹v ∉ l›

theorem vertices_addVertex_of_eq {l : List α} (h : g.vertices = l.eraseDups) :
    (g.addVertex v).vertices = (l ++ [v]).eraseDups := by
  simp only [vertices_addVertex, eraseDups_append_singleton, h, List.mem_eraseDups]

theorem vertices_addEdge_of_eq {l : List α} (h : g.vertices = l.eraseDups) :
    (g.addEdge v w).vertices = (l ++ [v, w]).eraseDups := by
  have hv : ((g.addVertex v).push v w).vertices = (l ++ [v]).eraseDups :=
    vertices_push.trans (vertices_addVertex_of_eq h)
  have hw := vertices_addVertex_of_eq (v := w) hv
  rwa [List.append_assoc] at hw

theorem nodup_addVertex (h : g.vertices.Nodup) : (g.addVertex v).vertices.Nodup := by
  rw [vertices_addVertex]
  split
  · exact h
  · exact List.nodup_append'.mpr ⟨h, List.nodup_singleton v, by simpa using ‹v ∉ g.vertices›⟩

/-! ### The edges -/

theorem edgeCount_addVertex : (g.addVertex v).edgeCount = g.edgeCount := by
  by_cases h : v ∈ g.vertices
  · simp [addVertex, contains, h]
  · simp [addVertex, contains, h, edgeCount]

theorem edges_addVertex : (g.addVertex v).edges = g.edges := by
  by_cases h : v ∈ g.vertices
  · simp [addVertex, contains, h]
  · simp [addVertex, contains, h, edges]

omit [DecidableEq α] in
theorem edgeCount_eq_length : g.edgeCount = g.edges.length := by
  simp only [edgeCount, edges, List.length_flatMap, List.length_map]

/-- Only one list of neighbours is longer by the new one. -/
theorem edgeCount_push (h : g.vertices.Nodup) (hv : v ∈ g.vertices) :
    (g.push v w).edgeCount = g.edgeCount + 1 := by
  obtain ⟨e, he, rfl⟩ := List.mem_map.mp hv
  obtain ⟨before, after, hs⟩ := List.append_of_mem he
  rw [vertices, hs, List.map_append, List.map_cons, List.nodup_append', List.nodup_cons] at h
  obtain ⟨-, ⟨hafter, -⟩, hbefore⟩ := h
  have hother : ∀ l : List (α × List α), e.1 ∉ l.map Prod.fst →
      (l.map fun a => if a.1 = e.1 then (a.1, a.2 ++ [w]) else a) = l := by
    intro l hl
    refine (List.map_congr_left fun a ha => if_neg fun hae => ?_).trans (List.map_id l)
    exact hl (hae ▸ List.mem_map_of_mem ha)
  have hpush : (g.push e.1 w).adjacency = before ++ (e.1, e.2 ++ [w]) :: after := by
    rw [push, hs, List.map_append, List.map_cons, if_pos rfl,
      hother before fun hb => hbefore hb (by simp), hother after hafter]
  rw [edgeCount, edgeCount, hpush, hs]
  simp only [List.flatMap_append, List.flatMap_cons, List.length_append, List.length_singleton]
  omega

theorem edgeCount_addEdge (h : g.vertices.Nodup) :
    (g.addEdge v w).edgeCount = g.edgeCount + 1 := by
  rw [addEdge, edgeCount_addVertex,
    edgeCount_push (nodup_addVertex h) mem_vertices_addVertex, edgeCount_addVertex]

/-- The edges, one vertex after the other. -/
theorem edges_eq_flatMap (h : g.vertices.Nodup) :
    g.edges = g.vertices.flatMap fun v => (g.neighbors v).map fun w => (v, w) := by
  have hone : ∀ e ∈ g.adjacency, g.neighbors e.1 = e.2 := by
    intro e he
    obtain ⟨before, after, hs⟩ := List.append_of_mem he
    have hn : ∀ a ∈ before, ¬ a.1 = e.1 := by
      intro a ha hae
      rw [vertices, hs, List.map_append, List.nodup_append'] at h
      exact h.2.2 (List.mem_map_of_mem ha) (by simp [hae])
    have hf : before.find? (fun a => a.1 = e.1) = none :=
      List.find?_eq_none.mpr fun a ha => by simpa using hn a ha
    rw [neighbors, hs, List.find?_append, hf]
    simp
  rw [edges, vertices, List.flatMap_map]
  exact List.flatMap_congr fun e he => by rw [hone e he]

theorem mem_edges_iff (h : g.vertices.Nodup) : e ∈ g.edges ↔ e.2 ∈ g.neighbors e.1 := by
  rw [edges_eq_flatMap h, List.mem_flatMap]
  constructor
  · rintro ⟨v, -, hv⟩
    obtain ⟨w, hw, rfl⟩ := List.mem_map.mp hv
    exact hw
  · intro he
    refine ⟨e.1, ?_, List.mem_map.mpr ⟨e.2, he, rfl⟩⟩
    by_contra hv
    rw [neighbors_eq_nil hv] at he
    cases he

/-! ### Any number of steps -/

/-- What a graph can grow by. -/
inductive Op (α : Type) where
  | vertex (v : α)
  | edge (v w : α)

namespace Op

/-- The vertices that are mentioned, the one that an edge leaves before the one it leads to. -/
def mentions : Op α → List α
  | vertex v => [v]
  | edge v w => [v, w]

/-- The end of the edge, if it leaves `u`. -/
def target? (u : α) : Op α → Option α
  | vertex _ => none
  | edge v w => if v = u then some w else none

def isEdge : Op α → Bool
  | vertex _ => false
  | edge ..  => true

theorem target?_eq_some_iff {op : Op α} : op.target? v = some w ↔ op = edge v w := by
  cases op with
  | vertex u => simp [target?]
  | edge u x => simp [target?]

end Op

/-- The graph behind one operation. -/
def grow (g : Digraph α) : Op α → Digraph α
  | .vertex v => (g.insertVertex v).2
  | .edge v w => g.addEdge v w

/-- The graph behind any number of operations on the empty one. -/
def grown (ops : List (Op α)) : Digraph α := ops.foldl grow .empty

variable {ops : List (Op α)}

theorem grown_append_singleton (ops : List (Op α)) (op : Op α) :
    grown (ops ++ [op]) = (grown ops).grow op :=
  List.foldl_append

theorem vertices_grow {l : List α} (h : g.vertices = l.eraseDups) (op : Op α) :
    (g.grow op).vertices = (l ++ op.mentions).eraseDups := by
  cases op with
  | vertex v => exact vertices_addVertex_of_eq h
  | edge v w => exact vertices_addEdge_of_eq h

theorem neighbors_grow (op : Op α) :
    (g.grow op).neighbors u = g.neighbors u ++ (op.target? u).toList := by
  cases op with
  | vertex v => exact neighbors_addVertex.trans (List.append_nil _).symm
  | edge v w =>
      rw [grow, neighbors_addEdge, Op.target?]
      by_cases hu : v = u
      · simp [hu]
      · simp [hu, Ne.symm hu]

theorem edgeCount_grow (h : g.vertices.Nodup) (op : Op α) :
    (g.grow op).edgeCount = g.edgeCount + if op.isEdge then 1 else 0 := by
  cases op with
  | vertex v => exact edgeCount_addVertex
  | edge v w => exact edgeCount_addEdge h

/-- The vertices are what was mentioned, in the order of the first mention. -/
theorem vertices_grown (ops : List (Op α)) :
    (grown ops).vertices = (ops.flatMap Op.mentions).eraseDups := by
  induction ops using List.reverseRecOn with
  | nil => rfl
  | append_singleton ops op ih =>
      rw [grown_append_singleton, vertices_grow ih, List.flatMap_append, List.flatMap_singleton]

theorem nodup_grown (ops : List (Op α)) : (grown ops).vertices.Nodup := by
  rw [vertices_grown]
  exact nodup_eraseDups _

theorem mem_vertices_grown_iff : v ∈ (grown ops).vertices ↔ v ∈ ops.flatMap Op.mentions := by
  rw [vertices_grown, List.mem_eraseDups]

/-- The neighbours of a vertex are the ends of the edges that were added to it. -/
theorem neighbors_grown (ops : List (Op α)) (v : α) :
    (grown ops).neighbors v = ops.filterMap (Op.target? v) := by
  induction ops using List.reverseRecOn with
  | nil => rfl
  | append_singleton ops op ih =>
      rw [grown_append_singleton, neighbors_grow, ih, List.filterMap_append]
      cases hop : op.target? v <;> simp [hop]

/-- Every edge that was added is there, parallel ones included. -/
theorem edgeCount_grown (ops : List (Op α)) : (grown ops).edgeCount = ops.countP Op.isEdge := by
  induction ops using List.reverseRecOn with
  | nil => rfl
  | append_singleton ops op ih =>
      rw [grown_append_singleton, edgeCount_grow (nodup_grown ops), ih, List.countP_append,
        List.countP_singleton]

/-- An edge of the graph was added. -/
theorem mem_neighbors_grown_iff : w ∈ (grown ops).neighbors v ↔ .edge v w ∈ ops := by
  rw [neighbors_grown, List.mem_filterMap]
  simp only [Op.target?_eq_some_iff, exists_eq_right]

/-- What holds of a graph that grew by `ops`. -/
structure GrownBy (g : Digraph α) (ops : List (Op α)) : Prop where
  /-- No vertex is listed twice, -/
  distinct : g.vertices.Nodup
  /-- and the vertices stand in the order in which they were first mentioned. -/
  vertices : g.vertices = (ops.flatMap Op.mentions).eraseDups
  /-- Every edge was added, and both its ends are vertices. -/
  closed : ∀ e ∈ g.edges, .edge e.1 e.2 ∈ ops ∧ e.1 ∈ g.vertices ∧ e.2 ∈ g.vertices
  /-- The neighbours of a vertex are the ends of the edges that were added to it, in their order; -/
  neighbors : ∀ v, g.neighbors v = ops.filterMap (Op.target? v)
  /-- there are none if no edge was added to it, -/
  neighbors_eq_nil_iff : ∀ v, g.neighbors v = [] ↔ ∀ w, .edge v w ∉ ops
  /-- and none of what is no vertex. -/
  absent : ∀ v ∉ g.vertices, g.neighbors v = []
  /-- The edges lead from one vertex after the other to its neighbours. -/
  edges : g.edges = g.vertices.flatMap fun v => (g.neighbors v).map fun w => (v, w)
  /-- There are as many as were added, -/
  edgeCount : g.edgeCount = ops.countP Op.isEdge
  /-- and all of them are listed. -/
  edgeCount_eq : g.edgeCount = g.edges.length
  /-- One more vertex is new if it was not mentioned, -/
  new : ∀ v, (g.insertVertex v).1 = true ↔ v ∉ ops.flatMap Op.mentions
  /-- and the edges stay what they are. -/
  kept : ∀ v, (g.insertVertex v).2.edges = g.edges

/-- **A graph is what it grew by.** -/
theorem grown_holds (ops : List (Op α)) : (grown ops).GrownBy ops where
  distinct := nodup_grown ops
  vertices := vertices_grown ops
  closed e he := by
    rw [mem_edges_iff (nodup_grown ops), mem_neighbors_grown_iff] at he
    have hends : ∀ v ∈ Op.mentions (.edge e.1 e.2), v ∈ (grown ops).vertices := fun v hv =>
      mem_vertices_grown_iff.mpr (List.mem_flatMap_of_mem he hv)
    exact ⟨he, hends e.1 (by simp [Op.mentions]), hends e.2 (by simp [Op.mentions])⟩
  neighbors := neighbors_grown ops
  neighbors_eq_nil_iff v := by
    rw [List.eq_nil_iff_forall_not_mem]
    simp only [mem_neighbors_grown_iff]
  absent v hv := neighbors_eq_nil hv
  edges := edges_eq_flatMap (nodup_grown ops)
  edgeCount := edgeCount_grown ops
  edgeCount_eq := edgeCount_eq_length
  new v := by
    rw [← mem_vertices_grown_iff]
    simp [insertVertex, contains]
  kept v := edges_addVertex

/-- A loop, an edge between vertices that are there, and vertices that are mentioned again. -/
example :
    let g := grown [.vertex "z", .edge "m" "a", .edge "a" "a", .edge "m" "z", .vertex "m"]
    g.vertices = ["z", "m", "a"] ∧ g.edges = [("m", "a"), ("m", "z"), ("a", "a")] ∧
      (g.insertVertex "a").1 = false := by
  decide

end Digraph

end ProcScript
