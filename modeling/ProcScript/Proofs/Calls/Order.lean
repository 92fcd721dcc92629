import Mathlib.Logic.Relation
import ProcScript.Proofs.Calls.Edges
import ProcScript.Proofs.Check.Resolution

/-!
# Calls — the order of a checked script

In a checked script a call is of an earlier procedure or of a name declared in its own
procedure, so an edge of the call graph leads back in the script or to such a name
(`callGraph_of_check`).  Where no call is of a declared name, the vertices are the procedures in
their order, every edge leads from a later one to an earlier one, and no path comes back to
where it started.
-/

namespace ProcScript

namespace Digraph

variable {α : Type} {g : Digraph α}

/-- No path leads from a vertex back to it. -/
def Acyclic (g : Digraph α) : Prop :=
  ∀ v, ¬ Relation.TransGen (fun u w => (u, w) ∈ g.edges) v v

/-- Steps that all lead downwards never lead back. -/
theorem not_transGen_of_rank {step : α → α → Prop} (rank : α → Nat)
    (h : ∀ u w, step u w → rank w < rank u) (v : α) : ¬ Relation.TransGen step v v := by
  have hpath : ∀ {u w}, Relation.TransGen step u w → rank w < rank u := by
    intro u w hp
    induction hp with
    | single he => exact h _ _ he
    | tail _ he ih => exact Nat.lt_trans (h _ _ he) ih
  exact fun hv => Nat.lt_irrefl _ (hpath hv)

/-- A graph whose edges all lead downwards has no way back. -/
theorem acyclic_of_rank (rank : α → Nat) (h : ∀ e ∈ g.edges, rank e.2 < rank e.1) :
    g.Acyclic :=
  not_transGen_of_rank rank fun _ _ he => h _ he

end Digraph

/-! ### The calls of a tree -/

/-- The name that the statement itself calls. -/
def Stmt.callee? : Stmt → Option String
  | .call callee _ _ => some callee
  | .varDef .. | .ret .. | .assign .. | .ifThen .. | .ifElse .. | .whileDo .. => none

mutual

theorem Stmt.callees_eq_filterMap : ∀ s : Stmt, s.callees = s.preorder.filterMap Stmt.callee?
  | .varDef .. | .ret .. | .call .. | .assign .. => by
      simp [Stmt.callees, Stmt.preorder, Stmt.callee?]
  | .ifThen _ body _ | .whileDo _ body _ => by
      rw [Stmt.callees, Stmt.preorder, List.filterMap_cons_none rfl,
        Block.callees_eq_filterMap body]
  | .ifElse _ body other _ => by
      rw [Stmt.callees, Stmt.preorder, List.filterMap_cons_none rfl, List.filterMap_append,
        Block.callees_eq_filterMap body, Block.callees_eq_filterMap other]

/-- The names called in a block, gathered in the order in which statements are met. -/
theorem Block.callees_eq_filterMap :
    ∀ ss : List Stmt, Block.callees ss = (Block.preorder ss).filterMap Stmt.callee?
  | [] => rfl
  | s :: ss => by
      simp only [Block.callees, Block.preorder, List.filterMap_append, Stmt.callees_eq_filterMap s,
        Block.callees_eq_filterMap ss]

end

/-- The names that are called in the body, each with what is declared before the call. -/
def Procedure.calls (p : Procedure) : List (Env × String) :=
  p.sites.filterMap fun site => site.2.callee?.map fun callee => (site.1, callee)

theorem Env.map_snd_sites {α : Type} (own : α → List Decl) (env : Env) (xs : List α) :
    (sites own env xs).map Prod.snd = xs := by
  induction xs generalizing env with
  | nil => rfl
  | cons x xs ih => rw [sites, List.map_cons, ih]

theorem Procedure.map_snd_calls (p : Procedure) :
    p.calls.map Prod.snd = Block.callees p.body := by
  have hsites : p.sites.map Prod.snd = Block.preorder p.body := Env.map_snd_sites ..
  rw [Block.callees_eq_filterMap, ← hsites, calls, List.map_filterMap, List.filterMap_map]
  refine List.filterMap_congr fun site _ => ?_
  cases hc : site.2.callee? <;> simp [hc]

/-! ### Checked scripts -/

/-- Where the statements of a procedure resolve, so do its calls. -/
theorem Procedure.calls_resolve {p : Procedure} {earlier : List Procedure}
    (h : ∀ site ∈ p.sites, site.2.Resolves earlier site.1) {call : Env × String}
    (hc : call ∈ p.calls) : call.2 ∈ earlier.map Procedure.name ∨ call.2 ∈ call.1.names := by
  obtain ⟨⟨env, s⟩, hsite, hs⟩ := List.mem_filterMap.mp hc
  have hr : s.Resolves earlier env := h (env, s) hsite
  cases s with
  | call callee args span =>
      obtain rfl := Option.some.inj hs
      exact hr.symm
  | varDef | ret | assign | ifThen | ifElse | whileDo => cases hs

/-- If what a procedure calls was named before it, the names are mentioned in the order of the
procedures. -/
theorem Procedure.eraseDups_mentions {ps : List Procedure} (hn : (ps.map name).Nodup)
    (hc : ∀ earlier p later, ps = earlier ++ p :: later →
      ∀ v ∈ Block.callees p.body, v ∈ earlier.map name) :
    (ps.flatMap fun p => p.name :: Block.callees p.body).eraseDups = ps.map name := by
  induction ps using List.reverseRecOn with
  | nil => rfl
  | append_singleton ps p ih =>
      rw [List.map_append, List.nodup_append'] at hn
      have hps := ih hn.1 fun earlier q later hs => hc earlier q (later ++ [p]) (by simp [hs])
      have hmem : ∀ v, v ∈ ps.flatMap (fun p => p.name :: Block.callees p.body) ↔
          v ∈ ps.map name := fun v => by rw [← List.mem_eraseDups, hps]
      have hp : p.name ∉ ps.map name := fun hv => hn.2.2 hv (by simp)
      have hcallees : ∀ v ∈ Block.callees p.body, v ∈ ps.map name := hc ps p [] rfl
      have hremove : (p.name :: Block.callees p.body).removeAll
          (ps.flatMap fun p => p.name :: Block.callees p.body) = [p.name] := by
        simp only [List.removeAll, List.elem_eq_mem, hmem]
        rw [List.filter_cons_of_pos (by simpa using hp),
          List.filter_eq_nil_iff.mpr fun v hv => by simpa using hcallees v hv]
      rw [List.flatMap_append, List.eraseDups_append, hps, List.flatMap_singleton, hremove]
      simp [List.eraseDups_cons]

/-- Among procedures of different names, those of a name are one. -/
theorem Procedure.filter_name_eq {earlier later : List Procedure} {p : Procedure}
    (hn : ((earlier ++ p :: later).map name).Nodup) :
    (earlier ++ p :: later).filter (fun q => q.name = p.name) = [p] := by
  rw [List.map_append, List.map_cons, List.nodup_append', List.nodup_cons] at hn
  obtain ⟨-, ⟨hlater, -⟩, hearlier⟩ := hn
  have he : earlier.filter (fun q => q.name = p.name) = [] :=
    List.filter_eq_nil_iff.mpr fun q hq hqn =>
      hearlier (List.mem_map_of_mem hq) (by simp [of_decide_eq_true hqn])
  have hl : later.filter (fun q => q.name = p.name) = [] :=
    List.filter_eq_nil_iff.mpr fun q hq hqn =>
      hlater (List.mem_map.mpr ⟨q, hq, of_decide_eq_true hqn⟩)
  rw [List.filter_append, List.filter_cons_of_pos (by simp), he, hl, List.nil_append]

namespace Script

variable {s : Script} {c : CheckedScript}

/-- What a check that succeeds says of its script. -/
theorem eq_of_check (h : s.check = .ok (.ok c)) :
    c = ⟨s, s.checking.procedures, s.checking.types⟩ := by
  rw [check] at h
  cases hv : s.validate with
  | error e =>
      rw [hv] at h
      cases h
  | ok u =>
      rw [hv] at h
      exact (Diagnostic.settle_eq_ok_iff.mp (Except.ok.inj h)).2.symm

theorem script_of_check (h : s.check = .ok (.ok c)) : c.script = s := by
  rw [eq_of_check h]

/-- No call of the script is of a name that is declared in its procedure before it. -/
def CallsNoLocal (s : Script) : Prop :=
  ∀ p ∈ s.procedures, ∀ call ∈ p.calls, call.2 ∉ call.1.names

instance (s : Script) : Decidable s.CallsNoLocal :=
  inferInstanceAs (Decidable (∀ p ∈ s.procedures, ∀ call ∈ p.calls, call.2 ∉ call.1.names))

/-- **The calls of a checked script lead back.**  The edges from a procedure are its calls, in
their order; each is of the name of an earlier procedure or of a name that is declared in the
procedure before the call.  If no call is of a declared name, the vertices are the procedures in
their order, every edge leads from a later vertex to an earlier one, and there is no cycle. -/
theorem callGraph_of_check (h : s.check = .ok (.ok c)) :
    (∀ e ∈ c.script.callGraph.edges, ∃ earlier p later, s.procedures = earlier ++ p :: later ∧
      p.name = e.1 ∧ c.script.callGraph.neighbors e.1 = p.calls.map Prod.snd ∧
      e.2 ∈ p.calls.map Prod.snd ∧
      ∀ call ∈ p.calls, call.2 ∈ earlier.map Procedure.name ∨ call.2 ∈ call.1.names) ∧
    (s.CallsNoLocal →
      c.script.callGraph.vertices = s.procedures.map Procedure.name ∧
      (∀ e ∈ c.script.callGraph.edges, c.script.callGraph.vertices.idxOf e.2 <
        c.script.callGraph.vertices.idxOf e.1) ∧
      c.script.callGraph.Acyclic) := by
  obtain ⟨hn, hresolves⟩ := resolves_of_check h
  rw [script_of_check h]
  have hcalls : ∀ earlier p later, s.procedures = earlier ++ p :: later → ∀ call ∈ p.calls,
      call.2 ∈ earlier.map Procedure.name ∨ call.2 ∈ call.1.names :=
    fun earlier p later hs _ => Procedure.calls_resolve (hresolves earlier p later hs)
  refine ⟨fun e he => ?_, fun hlocal => ?_⟩
  · obtain ⟨p, hp, hname, hcallee⟩ := (s.mem_edges_callGraph_iff e).mp he
    obtain ⟨earlier, later, hs⟩ := List.append_of_mem hp
    rw [hs] at hn
    refine ⟨earlier, p, later, hs, hname, ?_, ?_, hcalls earlier p later hs⟩
    · rw [neighbors_callGraph, ← hname, hs, Procedure.filter_name_eq hn, List.flatMap_singleton,
        Procedure.map_snd_calls]
    · rwa [Procedure.map_snd_calls]
  · -- What is not declared in the procedure is the name of an earlier one.
    have hearlier : ∀ earlier p later, s.procedures = earlier ++ p :: later →
        ∀ v ∈ Block.callees p.body, v ∈ earlier.map Procedure.name := by
      intro earlier p later hs v hv
      rw [← Procedure.map_snd_calls] at hv
      obtain ⟨call, hcall, rfl⟩ := List.mem_map.mp hv
      exact (hcalls earlier p later hs call hcall).resolve_right
        (hlocal p (by simp [hs]) call hcall)
    have hvertices : s.callGraph.vertices = s.procedures.map Procedure.name := by
      rw [vertices_callGraph]
      exact Procedure.eraseDups_mentions hn hearlier
    have hdown : ∀ e ∈ s.callGraph.edges,
        s.callGraph.vertices.idxOf e.2 < s.callGraph.vertices.idxOf e.1 := by
      intro e he
      obtain ⟨p, hp, hname, hcallee⟩ := (s.mem_edges_callGraph_iff e).mp he
      obtain ⟨earlier, later, hs⟩ := List.append_of_mem hp
      have hv : e.2 ∈ earlier.map Procedure.name := hearlier earlier p later hs _ hcallee
      have hu : p.name ∉ earlier.map Procedure.name := by
        rw [hs, List.map_append, List.nodup_append'] at hn
        exact fun hu => hn.2.2 hu (by simp)
      rw [hvertices, hs, ← hname, List.map_append, List.map_cons, List.idxOf_append_of_mem hv,
        List.idxOf_append_of_notMem hu, List.idxOf_cons_self]
      exact List.idxOf_lt_length_iff.mpr hv
    exact ⟨hvertices, hdown, Digraph.acyclic_of_rank (fun v => s.callGraph.vertices.idxOf v) hdown⟩

/-- Calls from both branches of an `if` and from a loop. -/
def relay : Script :=
  ⟨"", [⟨"show", [⟨"n", ⟨"Int32", .none⟩, .none⟩], ⟨"Void", .none⟩, [], .none⟩,
    ⟨"twice", [], ⟨"Void", .none⟩,
      [.ifElse (.bool true 0 .none) [.call "show" [.int 1 1 .none] .none]
        [.call "show" [.int 2 2 .none] .none] .none], .none⟩,
    ⟨"main", [⟨"done", ⟨"Bool", .none⟩, .none⟩], ⟨"Void", .none⟩,
      [.whileDo (.var "done" 3 .none)
        [.call "twice" [] .none, .call "show" [.int 3 4 .none] .none] .none], .none⟩], .none⟩

theorem relay_acyclic : ∃ c, relay.check = .ok (.ok c) ∧ relay.CallsNoLocal ∧
    ("main", "twice") ∈ c.script.callGraph.edges ∧
    c.script.callGraph.vertices = ["show", "twice", "main"] ∧ c.script.callGraph.Acyclic := by
  have hc : ∃ c, relay.check = .ok (.ok c) := ⟨_, rfl⟩
  obtain ⟨c, h⟩ := hc
  have hlocal : relay.CallsNoLocal := by decide
  obtain ⟨hvertices, -, hacyclic⟩ := (callGraph_of_check h).2 hlocal
  exact ⟨c, h, hlocal, by rw [script_of_check h]; decide, hvertices, hacyclic⟩

end Script

end ProcScript
