import ProcScript.Proofs.Check.Modular
import ProcScript.Proofs.Check.Trace

/-!
# Check — what each diagnostic is found for

A procedure has parts that are checked one after the other: its parameters, its statements, its
name, its returns, and what stands behind them.  The ledger of a run has an entry for each part,
with what the run adds to what was found while it is at that part.  A run takes nothing back, so
what it has found in the end is what stands in its ledger (`Script.found_eq_ledger`).

If all numbers differ, the entries are the problems of the parts in the tree
(`Checking.ledger_eq`, `Script.ledger_eq`), and so what is found for a statement can be told from
the place where it stands (`Script.ledger_stmt`).
-/

namespace ProcScript

/-- What of a procedure something can be found for. -/
inductive Part where
  | param (q : Param)
  /-- The statement itself, those inside it left aside. -/
  | stmt (s : Stmt)
  | name
  | returns
  | unreachable

/-- What is found for one part. -/
structure Entry where
  part : Part
  found : List Diagnostic

/-- The parts of the procedure, in the order in which they are checked. -/
def Procedure.parts (p : Procedure) : List Part :=
  p.params.map .param ++ (Block.preorder p.body).map .stmt ++ [.name, .returns, .unreachable]

namespace Checking

/-! ### The ledger of a run -/

/-- What is found on the way from `c` to `c'`. -/
def news (c c' : Checking) : List Diagnostic := c'.found.drop c.found.length

/-- With a parameter declared. -/
def param (c : Checking) (q : Param) : Checking := (c.declare (.param q.formal) .parameter).2

/-- The ledger of a procedure. -/
def ledger (c : Checking) (p : Procedure) : List Entry :=
  ((along param { c with scope := .empty } p.params).map fun m =>
    ⟨.param m.2, m.1.news (m.1.param m.2)⟩) ++
  ((along visit (c.enter p) (Block.preorder p.body)).map fun m =>
    ⟨.stmt m.2, m.1.news (m.1.visit m.2)⟩) ++
  [⟨.name, (c.body p).news ((c.body p).register p)⟩,
    ⟨.returns, p.returnProblems ((c.body p).register p).types⟩,
    ⟨.unreachable, p.unreachable⟩]

theorem news_eq {c c' : Checking} {ds : List Diagnostic} (h : c'.found = c.found ++ ds) :
    c.news c' = ds := by
  rw [news, h, List.drop_left]

theorem Adds.found_eq {P : Span → Prop} {c c' : Checking} (h : Adds P c c') :
    c'.found = c.found ++ c.news c' := by
  obtain ⟨ds, hds⟩ := h.kept
  rw [news_eq hds.symm, hds]

/-- A run finds what its steps find. -/
theorem found_foldl {α : Type} {f : Checking → α → Checking}
    (h : ∀ c a, Adds (fun _ => True) c (f c a)) (c : Checking) (as : List α) :
    (as.foldl f c).found =
      c.found ++ (along f c as).flatMap fun m => m.1.news (f m.1 m.2) := by
  induction as generalizing c with
  | nil => exact (List.append_nil _).symm
  | cons a as ih =>
      rw [List.foldl_cons, ih, (h c a).found_eq, along, List.flatMap_cons, List.append_assoc]

/-- **What checking a procedure finds stands in its ledger.** -/
theorem found_procedure (c : Checking) (p : Procedure) :
    (c.procedure p).found = c.found ++ (c.ledger p).flatMap Entry.found := by
  have hparams : (c.enter p).found = c.found ++
      (along param { c with scope := .empty } p.params).flatMap
        fun m => m.1.news (m.1.param m.2) :=
    found_foldl (fun c q => Adds.declare trivial .parameter c) _ p.params
  have hbody : (c.body p).found = (c.enter p).found ++
      (along visit (c.enter p) (Block.preorder p.body)).flatMap
        fun m => m.1.news (m.1.visit m.2) := by
    rw [body_eq]
    exact found_foldl (fun c _ => Adds.visit (fun _ _ => trivial) c) _ _
  have hname : ((c.body p).register p).found =
      (c.body p).found ++ (c.body p).news ((c.body p).register p) :=
    (Adds.register (P := fun _ => True) (fun _ _ => trivial) _).found_eq
  simp only [procedure, ledger, hname, hbody, hparams, List.flatMap_append, List.flatMap_map,
    List.flatMap_cons, List.flatMap_nil, List.append_assoc, List.append_nil]

end Checking

/-- The ledger of a script. -/
def Script.ledger (s : Script) : List Entry :=
  (along Checking.procedure .start s.procedures).flatMap fun m => m.1.ledger m.2

theorem Script.found_eq_news (s : Script) : s.checking.found =
    (along Checking.procedure .start s.procedures).flatMap
      fun m => m.1.news (m.1.procedure m.2) :=
  Checking.found_foldl (fun c _ => Checking.Adds.procedure (fun _ _ => trivial) c)
    .start s.procedures

/-- **What is found of a script stands in its ledger.** -/
theorem Script.found_eq_ledger (s : Script) :
    s.checking.found = s.ledger.flatMap Entry.found := by
  rw [found_eq_news, ledger, List.flatMap_assoc]
  exact List.flatMap_congr fun m _ => Checking.news_eq (m.1.found_procedure m.2)

/-- What checking a procedure adds is what is found of it. -/
theorem Script.foundAt_eq_news {s : Script} {i : Nat} {p : Procedure}
    (hp : s.procedures[i]? = some p) :
    s.foundAt i = (s.upTo i).checking.news ((s.upTo i).checking.procedure p) := by
  have hstep : (s.upTo (i + 1)).checking = (s.upTo i).checking.procedure p := by
    simp only [checking, upTo, List.take_add_one, hp, Option.toList_some, List.foldl_append,
      List.foldl_cons, List.foldl_nil]
  rw [foundAt, hstep]
  rfl

/-! ### The ledger, by the tree -/

/-- What there is to be found of the procedure behind those of `earlier`. -/
def Procedure.ledger (earlier : List Procedure) (p : Procedure) : List Entry :=
  (p.paramSites.map fun site => ⟨.param site.2, site.2.decl.problems site.1⟩) ++
  (p.sites.map fun site => ⟨.stmt site.2, site.2.problems earlier site.1⟩) ++
  [⟨.name, if p.name ∈ earlier.map name then [.dupSymbol p.name .procedure p.span] else []⟩,
    ⟨.returns, (p.outerSites.flatMap fun site => site.2.returnProblems p.returns.ty site.1) ++
      p.countProblems⟩,
    ⟨.unreachable, p.unreachable⟩]

theorem Procedure.map_part_ledger (earlier : List Procedure) (p : Procedure) :
    (p.ledger earlier).map Entry.part = p.parts := by
  have hparams : p.paramSites.map Prod.snd = p.params := Env.map_snd_sites ..
  have hsites : p.sites.map Prod.snd = Block.preorder p.body := Env.map_snd_sites ..
  simp only [ledger, parts, ← hparams, ← hsites, List.map_append, List.map_map, List.map_cons,
    List.map_nil]
  rfl

/-- In front of the entry of a statement are those of the parameters and of the statements before
it. -/
theorem Procedure.ledger_stmt (earlier : List Procedure) (p : Procedure)
    {before after : List Stmt} {st : Stmt}
    (hbody : Block.preorder p.body = before ++ st :: after) :
    ∃ front back, p.ledger earlier =
        front ++ ⟨.stmt st, st.problems earlier (p.env before)⟩ :: back ∧
      front.map Entry.part = p.params.map .param ++ before.map .stmt := by
  have hparams : p.paramSites.map Prod.snd = p.params := Env.map_snd_sites ..
  have hbefore : (Env.sites Stmt.decls (p.params.map Param.decl) before).map Prod.snd = before :=
    Env.map_snd_sites ..
  rw [ledger, sites, hbody, Env.sites_append, Env.sites, List.map_append, List.map_cons,
    ← List.append_assoc, List.append_assoc, List.cons_append]
  refine ⟨_, _, rfl, ?_⟩
  conv_rhs => rw [← hparams, ← hbefore]
  simp only [List.map_append, List.map_map]
  rfl

namespace Checking

/-- The numbers differ, and none of them has a type. -/
structure Fresh (ids : List ExprId) (c : Checking) : Prop where
  nodup : ids.Nodup
  untyped : ∀ i ∈ ids, c.types.contains i = false

namespace Fresh

variable {ids ids' : List ExprId} {c c' : Checking}

theorem left (h : c.Fresh (ids ++ ids')) : c.Fresh ids :=
  ⟨(List.nodup_append'.mp h.nodup).1, fun i hi => h.untyped i (List.mem_append_left _ hi)⟩

/-- What is recorded for some numbers leaves the others fresh. -/
theorem right (h : c.Fresh (ids ++ ids')) (hg : c.types.Grows ids c'.types) : c'.Fresh ids' := by
  obtain ⟨-, hn, hd⟩ := List.nodup_append'.mp h.nodup
  exact ⟨hn, fun i hi => hg.contains_eq_false (h.untyped i (List.mem_append_right _ hi))
    fun hi' => hd hi' hi⟩

end Fresh

variable {earlier : List Procedure} {env : Env} {c : Checking}

theorem news_param (h : c.Agrees earlier env) (q : Param) :
    c.news (c.param q) = q.decl.problems env ∧ (c.param q).Agrees earlier (env ++ [q.decl]) := by
  obtain ⟨scope, hd, hm⟩ := declare_spec h (.param q.formal)
  have hparam : c.param q = { c with scope, found := c.found ++ q.decl.problems env } :=
    congrArg Prod.snd hd
  rw [hparam]
  exact ⟨news_eq rfl, hm, h.procedures⟩

theorem news_register (h : c.Agrees earlier env) (p : Procedure) :
    c.news (c.register p) =
      if p.name ∈ earlier.map Procedure.name then [.dupSymbol p.name .procedure p.span]
      else [] := by
  obtain ⟨procedures, hr, -⟩ := register_spec h p
  rw [hr]
  exact news_eq rfl

/-- The entries of statements with fresh numbers. -/
theorem stmtEntries_eq (h : c.Agrees earlier env) {ss : List Stmt}
    (hf : c.Fresh (ss.flatMap Stmt.ownIds)) :
    ((along visit c ss).map fun m => Entry.mk (.stmt m.2) (m.1.news (m.1.visit m.2))) =
      (Env.sites Stmt.decls env ss).map fun site =>
        ⟨.stmt site.2, site.2.problems earlier site.1⟩ := by
  have hone : ∀ (c : Checking) (env : Env) (s : Stmt) (ss : List Stmt), c.Agrees earlier env →
      c.Fresh ((s :: ss).flatMap Stmt.ownIds) → Visits earlier env [s] c (c.visit s) :=
    fun c env s ss h hf => visit_spec h hf.left.untyped hf.left.nodup
  rw [Env.sites_eq_along]
  -- Related are a state and an environment that agree while what is still to come is fresh.
  refine map_along_eq_of_rest (R := fun ss (c : Checking) env =>
    c.Agrees earlier env ∧ c.Fresh (ss.flatMap Stmt.ownIds)) ?_ ?_ ⟨h, hf⟩
  · rintro c env s ss ⟨h, hf⟩
    have hgrow : c.types.Grows s.ownIds (c.visit s).types := by
      simpa using (hone c env s ss h hf).grows
    exact ⟨visit_agrees h s, hf.right hgrow⟩
  · rintro c env s ss ⟨h, hf⟩
    have hfound : (c.visit s).found = c.found ++ s.problems earlier env := by
      simpa [Env.sites] using (hone c env s ss h hf).found
    rw [news_eq hfound]

/-- **The ledger of a procedure with fresh numbers.** -/
theorem ledger_eq (h : c.Agrees earlier env) {p : Procedure}
    (hf : c.Fresh (Block.exprIds p.body)) : c.ledger p = p.ledger earlier := by
  have hparams : ((along param { c with scope := .empty } p.params).map fun m =>
      Entry.mk (.param m.2) (m.1.news (m.1.param m.2))) =
        p.paramSites.map fun site => ⟨.param site.2, site.2.decl.problems site.1⟩ := by
    rw [Procedure.paramSites, Env.sites_eq_along]
    refine map_along_eq (R := fun (c : Checking) env => c.Agrees earlier env)
      (fun c env q h => (news_param h q).2) (fun c env q h => ?_) h.unscoped p.params
    rw [(news_param h q).1]
  have henter : (c.enter p).types = c.types := congrArg Prod.snd (c.stores_enter p)
  have hfresh : (c.enter p).Fresh ((Block.preorder p.body).flatMap Stmt.ownIds) := by
    rw [← Block.exprIds_eq_flatMap]
    exact ⟨hf.nodup, henter ▸ hf.untyped⟩
  have hstmts := stmtEntries_eq (enter_agrees h p) hfresh
  obtain ⟨procedures, hr, -⟩ := register_spec (body_agrees h p) p
  obtain ⟨c₀, -, -, hv⟩ := body_spec h hf.untyped hf.nodup
  have hreturns := returnProblems_eq fun site hsite => hv.get site (Env.mem_sites_preorder hsite)
  rw [ledger, hparams, hstmts, news_register (body_agrees h p), hr, hreturns]
  rfl

end Checking

namespace Script

variable {s : Script}

/-- **The ledger of a script whose expressions have different numbers.** -/
theorem ledger_eq (h : s.exprIds.Nodup) :
    s.ledger = (withEarlier s.procedures).flatMap fun m => m.2.ledger m.1 := by
  rw [ledger, withEarlier, List.flatMap_def, List.flatMap_def]
  congr 1
  refine map_along_eq_of_rest (R := fun ps (c : Checking) earlier =>
    (∃ env, c.Agrees earlier env) ∧
      c.Fresh (ps.flatMap fun p : Procedure => Block.exprIds p.body)) ?_ ?_
    ⟨⟨[], Checking.start_agrees⟩, h, fun i _ => ExprTypes.contains_empty i⟩
  · rintro c earlier p ps ⟨⟨env, h⟩, hf⟩
    exact ⟨⟨_, Checking.procedure_agrees h p⟩,
      hf.right (Checking.procedure_spec h hf.left.untyped hf.left.nodup).2⟩
  · rintro c earlier p ps ⟨⟨env, h⟩, hf⟩
    exact Checking.ledger_eq h hf.left

/-- **What is found for a statement are its problems where it stands.** -/
theorem ledger_stmt (h : s.exprIds.Nodup) {i : Nat} {p : Procedure}
    (hp : s.procedures[i]? = some p) {before after : List Stmt} {st : Stmt}
    (hbody : Block.preorder p.body = before ++ st :: after) :
    ∃ front back, s.ledger =
        front ++ ⟨.stmt st, st.problems (s.procedures.take i) (p.env before)⟩ :: back ∧
      front.map Entry.part = (s.procedures.take i).flatMap Procedure.parts ++
        p.params.map .param ++ before.map .stmt := by
  have hs : s.procedures = s.procedures.take i ++ p :: s.procedures.drop (i + 1) := by
    obtain ⟨hi, rfl⟩ := List.getElem?_eq_some_iff.mp hp
    rw [List.getElem_cons_drop, List.take_append_drop]
  obtain ⟨rest, hrest⟩ :=
    withEarlier_append_cons (s.procedures.take i) p (s.procedures.drop (i + 1))
  rw [← hs] at hrest
  obtain ⟨front, back, hl, hfront⟩ := p.ledger_stmt (s.procedures.take i) hbody
  refine ⟨((withEarlier (s.procedures.take i)).flatMap fun m => m.2.ledger m.1) ++ front,
    back ++ rest.flatMap fun m => m.2.ledger m.1, ?_, ?_⟩
  · rw [ledger_eq h, hrest, List.flatMap_append, List.flatMap_cons, hl]
    simp only [List.append_assoc, List.cons_append]
  · rw [List.map_append, hfront, List.map_flatMap, ← List.append_assoc]
    congr 2
    simp only [Procedure.map_part_ledger]
    exact flatMap_snd_along Procedure.parts _ [] _

end Script

end ProcScript
