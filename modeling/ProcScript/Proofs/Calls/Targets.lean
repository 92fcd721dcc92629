import ProcScript.Proofs.Calls.Order
import ProcScript.Proofs.Check.Trace

/-!
# Calls — what a checker takes a call for

Where a call stands, a checker takes it for a name that is bound in the procedure, or else for
the registered procedure of that name (`Checking.target?`, `Checking.call_eq`).  `Script.calls`
are the calls of a script in the order in which a check meets them, each with what it is taken
for there.  The edges of the call graph are these calls (`Script.neighbors_eq_calls`), and in a
checked script each is taken for something.

A call of a bound name is an edge like any other, and so a checked script can have a vertex that
is no procedure, and a procedure that calls its own name (`Script.shadowing_misleads`).  **But for
the calls of bound names, a call graph is one of registered procedures, without a cycle**
(`Script.targets_of_check`).
-/

namespace ProcScript

/-- What a call is taken for. -/
inductive Target where
  /-- A parameter or a variable. -/
  | bound
  | procedure (entry : ProcedureEntry)
  deriving DecidableEq

/-- A call in the procedure `caller`. -/
structure Call where
  caller : String
  callee : String
  /-- What it is taken for, if for anything. -/
  target : Option Target
  deriving DecidableEq

namespace Checking

/-- What a call of the name is taken for. -/
def target? (c : Checking) (callee : String) : Option Target :=
  if c.scope.contains callee then some .bound
  else (c.procedures.find? callee).map .procedure

/-- **What a call is taken for decides how it is checked.** -/
theorem call_eq (c : Checking) (callee : String) (args : List Expr) (span : Span) :
    c.call callee args span =
      match (c.resolveAll args).target? callee with
      | some .bound         => c.resolveAll args
      | none                => (c.resolveAll args).report (.noSuchSymbol callee span)
      | some (.procedure p) =>
          if p.arity ≠ args.length then
            (c.resolveAll args).report (.argCountMismatch p.arity args.length span)
          else (p.params.zip args).foldl (fun c (f, e) => c.require f.type e.id span)
            (c.resolveAll args) := by
  rw [call, target?]
  split
  · rfl
  · cases (c.resolveAll args).procedures.find? callee <;> rfl

/-! ### The calls that a check meets -/

/-- The calls among statements that are visited one after the other. -/
def callsAlong (caller : String) (c : Checking) : List Stmt → List Call
  | []      => []
  | s :: ss =>
      (s.callee?.map fun callee =>
        ⟨caller, callee, (c.resolveAll s.exprs).target? callee⟩).toList ++
      callsAlong caller (c.visit s) ss

/-- The calls in procedures that are checked one after the other. -/
def callsFrom (c : Checking) : List Procedure → List Call
  | []      => []
  | p :: ps => (c.enter p).callsAlong p.name (Block.preorder p.body) ++ (c.procedure p).callsFrom ps

end Checking

/-- The calls of the script, as a check of it meets them. -/
def Script.calls (s : Script) : List Call := Checking.start.callsFrom s.procedures

/-! ### The calls of the tree -/

/-- What a call of the name means where `env` is declared, behind the procedures `earlier`. -/
def Env.target? (earlier : List Procedure) (env : Env) (callee : String) : Option Target :=
  if callee ∈ env.names then some .bound
  else (earlier.find? fun p => p.name = callee).map fun p => .procedure p.entry

/-- The calls of the procedure behind the procedures `earlier`. -/
def Procedure.callsBehind (earlier : List Procedure) (p : Procedure) : List Call :=
  p.calls.map fun call => ⟨p.name, call.2, call.1.target? earlier call.2⟩

namespace Checking

variable {earlier : List Procedure} {env : Env} {c : Checking}

theorem Agrees.target? (h : c.Agrees earlier env) (callee : String) :
    c.target? callee = env.target? earlier callee := by
  simp only [Checking.target?, Env.target?, h.scope.contains_iff, h.procedures, Option.map_map]
  rfl

theorem callsAlong_eq (h : c.Agrees earlier env) (caller : String) (ss : List Stmt) :
    c.callsAlong caller ss =
      ((Env.sites Stmt.decls env ss).filterMap fun site =>
        site.2.callee?.map fun callee => (site.1, callee)).map
          fun call => ⟨caller, call.2, call.1.target? earlier call.2⟩ := by
  induction ss generalizing c env with
  | nil => rfl
  | cons s ss ih =>
      rw [callsAlong, ih (visit_agrees h s), Env.sites, List.filterMap_cons]
      cases s.callee? with
      | none => rfl
      | some callee => simp [(resolveAll_agrees h s.exprs).target?]

/-- **A call is taken for what it means** behind the procedures before its own. -/
theorem exists_of_mem_callsFrom (h : c.Agrees earlier env) {ps : List Procedure} {call : Call}
    (hcall : call ∈ c.callsFrom ps) :
    ∃ before p after, ps = before ++ p :: after ∧ call ∈ p.callsBehind (earlier ++ before) := by
  induction ps generalizing c earlier env with
  | nil => cases hcall
  | cons p ps ih =>
      rw [callsFrom, List.mem_append] at hcall
      rcases hcall with hcall | hcall
      · rw [callsAlong_eq (enter_agrees h p)] at hcall
        refine ⟨[], p, ps, rfl, ?_⟩
        rwa [List.append_nil]
      · obtain ⟨before, q, after, rfl, hq⟩ := ih (procedure_agrees h p) hcall
        exact ⟨p :: before, q, after, rfl, by simpa using hq⟩

/-! ### Calls and edges -/

theorem map_callee_callsAlong (caller : String) (c : Checking) (ss : List Stmt) :
    (c.callsAlong caller ss).map Call.callee = ss.filterMap Stmt.callee? := by
  induction ss generalizing c with
  | nil => rfl
  | cons s ss ih =>
      rw [callsAlong, List.map_append, ih, List.filterMap_cons]
      cases s.callee? <;> rfl

theorem caller_of_mem_callsAlong {caller : String} {ss : List Stmt} {call : Call}
    (h : call ∈ c.callsAlong caller ss) : call.caller = caller := by
  induction ss generalizing c with
  | nil => cases h
  | cons s ss ih =>
      rw [callsAlong, List.mem_append, Option.mem_toList, Option.map_eq_some_iff] at h
      rcases h with ⟨callee, -, rfl⟩ | h
      · rfl
      · exact ih h

theorem filter_callsFrom (c : Checking) (ps : List Procedure) (u : String) :
    ((c.callsFrom ps).filter fun call => call.caller = u).map Call.callee =
      (ps.filter fun p => p.name = u).flatMap fun p => Block.callees p.body := by
  induction ps generalizing c with
  | nil => rfl
  | cons p ps ih =>
      have hcaller : ∀ call ∈ (c.enter p).callsAlong p.name (Block.preorder p.body),
          call.caller = p.name := fun _ => caller_of_mem_callsAlong
      rw [callsFrom, List.filter_append, List.map_append, ih, List.filter_cons]
      by_cases hp : p.name = u
      · rw [List.filter_eq_self.mpr fun call hcall => by simp [hcaller call hcall, hp],
          map_callee_callsAlong, ← Block.callees_eq_filterMap]
        simp [hp]
      · rw [List.filter_eq_nil_iff.mpr fun call hcall => by simp [hcaller call hcall, hp]]
        simp [hp]

end Checking

namespace Script

variable {s : Script} {c : CheckedScript}

/-- **The edges that leave a name are the calls in its procedures**, in their order. -/
theorem neighbors_eq_calls (s : Script) (u : String) : s.callGraph.neighbors u =
    (s.calls.filter fun call => call.caller = u).map Call.callee := by
  rw [neighbors_callGraph, calls, Checking.filter_callsFrom]

theorem mem_edges_iff_calls (s : Script) (e : String × String) :
    e ∈ s.callGraph.edges ↔ ∃ call ∈ s.calls, call.caller = e.1 ∧ call.callee = e.2 := by
  have hn : s.callGraph.vertices.Nodup := by
    rw [vertices_callGraph]
    exact Digraph.nodup_eraseDups _
  rw [Digraph.mem_edges_iff hn, neighbors_eq_calls]
  simp [and_assoc]

/-! ### Checked scripts -/

/-- A checked script has registered its procedures. -/
theorem find?_procedures_of_check (h : s.check = .ok (.ok c)) (name : String) :
    c.procedures.find? name =
      (s.procedures.find? fun p => p.name = name).map Procedure.entry := by
  obtain ⟨env, hend⟩ := Checking.foldl_procedure_agrees Checking.start_agrees s.procedures
  rw [eq_of_check h]
  exact hend.procedures name

/-- In a checked script, a call of a name that is not bound is of an earlier procedure. -/
theorem target_of_check (h : s.check = .ok (.ok c)) {call : Call} (hcall : call ∈ s.calls)
    (hbound : call.target ≠ some .bound) : ∃ earlier p later q,
      s.procedures = earlier ++ p :: later ∧ p.name = call.caller ∧
      (earlier.find? fun p => p.name = call.callee) = some q ∧
      call.target = some (.procedure q.entry) := by
  obtain ⟨earlier, p, later, hs, hp⟩ := Checking.exists_of_mem_callsFrom Checking.start_agrees hcall
  obtain ⟨⟨env, callee⟩, hsite, rfl⟩ := List.mem_map.mp hp
  have henv : callee ∉ env.names := fun hmem => hbound (if_pos hmem)
  have hearlier : callee ∈ earlier.map Procedure.name :=
    (Procedure.calls_resolve ((resolves_of_check h).2 earlier p later hs) hsite).resolve_right henv
  obtain ⟨q, hq⟩ := Option.isSome_iff_exists.mp
    (List.find?_isSome.mpr (by simpa using List.mem_map.mp hearlier) :
      (earlier.find? fun p => p.name = callee).isSome)
  refine ⟨earlier, p, later, q, hs, rfl, hq, ?_⟩
  simp [Env.target?, henv, hq]

/-- A name of an earlier procedure comes first. -/
theorem idxOf_lt_of_mem_earlier {s : Script} (hn : (s.procedures.map Procedure.name).Nodup)
    {earlier later : List Procedure} {p : Procedure} (hs : s.procedures = earlier ++ p :: later)
    {v : String} (hv : v ∈ earlier.map Procedure.name) :
    (s.procedures.map Procedure.name).idxOf v <
      (s.procedures.map Procedure.name).idxOf p.name := by
  rw [hs, List.map_append, List.map_cons] at hn ⊢
  have hp : p.name ∉ earlier.map Procedure.name :=
    fun hp => (List.nodup_append'.mp hn).2.2 hp List.mem_cons_self
  rw [List.idxOf_append_of_mem hv, List.idxOf_append_of_notMem hp, List.idxOf_cons_self]
  exact List.idxOf_lt_length_iff.mpr hv

theorem idxOf_lt_of_call (h : s.check = .ok (.ok c)) {call : Call} (hcall : call ∈ s.calls)
    (hbound : call.target ≠ some .bound) :
    (s.procedures.map Procedure.name).idxOf call.callee <
      (s.procedures.map Procedure.name).idxOf call.caller := by
  obtain ⟨earlier, p, later, q, hs, hp, hq, -⟩ := target_of_check h hcall hbound
  rw [← hp]
  refine idxOf_lt_of_mem_earlier (resolves_of_check h).1 hs
    (List.mem_map.mpr ⟨q, List.mem_of_find?_eq_some hq, ?_⟩)
  simpa using List.find?_some hq

/-- In a checked script, every call is taken for something. -/
theorem bound_or_registered (h : s.check = .ok (.ok c)) {call : Call} (hcall : call ∈ s.calls) :
    call.target = some .bound ∨ ∃ entry,
      call.target = some (.procedure entry) ∧ c.procedures.find? call.callee = some entry := by
  by_cases hbound : call.target = some .bound
  · exact .inl hbound
  · obtain ⟨earlier, p, later, q, hs, -, hq, ht⟩ := target_of_check h hcall hbound
    refine .inr ⟨q.entry, ht, ?_⟩
    rw [find?_procedures_of_check h, hs, List.find?_append, hq]
    rfl

/-- A vertex is a procedure, or else the name of a call that is taken for a bound name. -/
theorem registered_or_bound (h : s.check = .ok (.ok c)) {v : String}
    (hv : v ∈ s.callGraph.vertices) :
    c.procedures.contains v = true ∨
      ∃ call ∈ s.calls, call.callee = v ∧ call.target = some .bound := by
  rw [vertices_callGraph, List.mem_eraseDups, List.mem_flatMap] at hv
  obtain ⟨p, hp, hv⟩ := hv
  rcases List.mem_cons.mp hv with rfl | hv
  · left
    rw [ProcedureTable.contains, find?_procedures_of_check h, Option.isSome_map, List.find?_isSome]
    exact ⟨p, hp, by simp⟩
  · -- A name that is called is the other end of an edge.
    obtain ⟨call, hcall, -, rfl⟩ := (s.mem_edges_iff_calls (p.name, v)).mp
      ((s.mem_edges_callGraph_iff (p.name, v)).mpr ⟨p, hp, rfl, hv⟩)
    rcases bound_or_registered h hcall with hbound | ⟨entry, -, hentry⟩
    · exact .inr ⟨call, hcall, rfl, hbound⟩
    · left
      rw [ProcedureTable.contains, hentry]
      rfl

/-- A procedure with parameters of three names, all of which it calls: its own, that of an earlier
procedure, and one that is no procedure.  The last of its calls is of a procedure. -/
def shadowing : Script :=
  ⟨"", [⟨"g", [], ⟨"Void", .none⟩, [], .none⟩, ⟨"k", [], ⟨"Void", .none⟩, [], .none⟩,
    ⟨"f", [⟨"f", ⟨"Int32", .none⟩, .none⟩, ⟨"g", ⟨"Int32", .none⟩, .none⟩,
        ⟨"h", ⟨"Int32", .none⟩, .none⟩], ⟨"Void", .none⟩,
      [.call "f" [] .none, .call "g" [] .none, .call "h" [] .none, .call "k" [] .none],
      .none⟩], .none⟩

/-- A checked script can have a vertex that is no registered procedure, an edge to a registered
procedure without a call that is taken for it, and a way from a procedure back to itself. -/
theorem shadowing_misleads : ∃ c, shadowing.check = .ok (.ok c) ∧
    "h" ∈ c.script.callGraph.vertices ∧ c.procedures.contains "h" = false ∧
    ("f", "g") ∈ c.script.callGraph.edges ∧ c.procedures.contains "g" = true ∧
    (∀ call ∈ shadowing.calls, call.caller = "f" → call.callee = "g" → call.target = some .bound) ∧
    ¬ c.script.callGraph.Acyclic := by
  refine ⟨_, rfl, by decide, by decide, by decide, by decide, by decide, fun h => ?_⟩
  exact h "f" (.single (by decide))

/-- **But for the calls of bound names, a call graph is one of registered procedures, without a
cycle.**  In a checked script every call is taken for a bound name or for the registered procedure
of its name.  The edges that leave a vertex are its calls, one for one.  A vertex is a registered
procedure, or the name of a call that is taken for a bound name; and calls that are not never lead
back to where they started.  So without calls of bound names, all vertices are registered, and
there is no cycle. -/
theorem targets_of_check (h : s.check = .ok (.ok c)) :
    (∀ call ∈ s.calls, call.target = some .bound ∨ ∃ entry,
      call.target = some (.procedure entry) ∧ c.procedures.find? call.callee = some entry) ∧
    (∀ u, c.script.callGraph.neighbors u =
      (s.calls.filter fun call => call.caller = u).map Call.callee) ∧
    (∀ v ∈ c.script.callGraph.vertices, c.procedures.contains v = true ∨
      ∃ call ∈ s.calls, call.callee = v ∧ call.target = some .bound) ∧
    (∀ v, ¬ Relation.TransGen (fun u w => ∃ call ∈ s.calls,
      call.caller = u ∧ call.callee = w ∧ call.target ≠ some .bound) v v) ∧
    ((∀ call ∈ s.calls, call.target ≠ some .bound) →
      (∀ v ∈ c.script.callGraph.vertices, c.procedures.contains v = true) ∧
      c.script.callGraph.Acyclic) := by
  rw [script_of_check h]
  refine ⟨fun call => bound_or_registered h, s.neighbors_eq_calls, fun v => registered_or_bound h,
    ?_, fun hnone => ⟨fun v hv => (registered_or_bound h hv).resolve_right ?_, ?_⟩⟩
  · refine Digraph.not_transGen_of_rank
      (fun v => (s.procedures.map Procedure.name).idxOf v) fun u w hstep => ?_
    obtain ⟨call, hcall, rfl, rfl, hbound⟩ := hstep
    exact idxOf_lt_of_call h hcall hbound
  · rintro ⟨call, hcall, -, hbound⟩
    exact hnone call hcall hbound
  · refine Digraph.acyclic_of_rank
      (fun v => (s.procedures.map Procedure.name).idxOf v) fun e he => ?_
    obtain ⟨call, hcall, hcaller, hcallee⟩ := (s.mem_edges_iff_calls e).mp he
    rw [← hcaller, ← hcallee]
    exact idxOf_lt_of_call h hcall (hnone call hcall)

theorem shadowing_targets : ∃ c, shadowing.check = .ok (.ok c) ∧
    c.script.callGraph.neighbors "f" = ["f", "g", "h", "k"] ∧
    (∀ call ∈ shadowing.calls, call.callee = "k" → ∃ entry,
      call.target = some (.procedure entry) ∧ c.procedures.find? "k" = some entry) ∧
    ¬ Relation.TransGen (fun u w => ∃ call ∈ shadowing.calls,
      call.caller = u ∧ call.callee = w ∧ call.target ≠ some .bound) "f" "f" := by
  have hc : ∃ c, shadowing.check = .ok (.ok c) := ⟨_, rfl⟩
  obtain ⟨c, h⟩ := hc
  obtain ⟨htarget, hneighbors, -, hcycle, -⟩ := targets_of_check h
  refine ⟨c, h, ?_, fun call hcall hk => ?_, hcycle "f"⟩
  · rw [hneighbors]
    decide
  · have hbound : ∀ call ∈ shadowing.calls, call.callee = "k" → call.target ≠ some .bound := by
      decide
    rw [← hk]
    exact (htarget call hcall).resolve_left (hbound call hcall hk)

end Script

end ProcScript
