import ProcScript.Proofs.Check.Ledger

/-!
# Check — what is found when a procedure is left

The types that returns are held against were recorded when the body was checked, and what stands
behind a return is looked for in a pass of its own.  Both are known from the immediate statements
of the body, each with those before it: a return is held against the type that its value has
where it stands, and a statement is reached unless one of those before it is a return
(`Procedure.exitProblems`).  Returns inside blocks have no part in it
(`Procedure.exitProblems_pruned`).  Behind what is found of its body and of its name, this is all
that is found of a procedure, and in a checked script it is nothing (**`Script.returns_found`**).
-/

namespace ProcScript

/-- What is found when the procedure is left: of each immediate return, of their number, and of
each immediate statement that has one before it. -/
def Procedure.exitProblems (p : Procedure) : List Diagnostic :=
  ((withEarlier p.body).flatMap fun m =>
    m.2.returnProblems p.returns.ty (p.env (Block.preorder m.1))) ++
  (if p.body.countP Stmt.isReturn = p.returnCount then []
    else [.returnCountMismatch p.returnCount p.span]) ++
  (withEarlier p.body).flatMap fun m =>
    if m.1.any Stmt.isReturn then
      [.unreachable (if m.2.isReturn then .additionalReturn else .codeAfterReturn) m.2.span]
    else []

namespace Procedure

variable {p : Procedure} {earlier : List Procedure}

/-! ### By the immediate statements -/

/-- An immediate statement sees what is declared in those before it. -/
theorem outerSites_eq (p : Procedure) : p.outerSites =
    (withEarlier p.body).map fun m => (p.env (Block.preorder m.1), m.2) := by
  rw [outerSites, Env.sites_eq_along, withEarlier, ← List.map_id (along _ _ p.body)]
  refine map_along_eq (R := fun env before => env = p.env (Block.preorder before)) ?_ ?_ ?_ p.body
  · rintro env before s rfl
    simp only [env, ← flatMap_allDecls, List.flatMap_append, List.flatMap_singleton,
      List.append_assoc]
  · rintro env before s rfl
    rfl
  · simp [env, Block.preorder]

/-- Behind the first return is what has a return before it. -/
theorem unreachable_eq (p : Procedure) : p.unreachable =
    (withEarlier p.body).flatMap fun m =>
      if m.1.any Stmt.isReturn then
        [.unreachable (if m.2.isReturn then .additionalReturn else .codeAfterReturn) m.2.span]
      else [] := by
  -- On the way, all is put out once a return was met, and before that what stands behind it.
  have hall : ∀ before ss : List Stmt,
      ((along (fun before s => before ++ [s]) before ss).flatMap fun m =>
        if m.1.any Stmt.isReturn then
          [Diagnostic.unreachable
            (if m.2.isReturn then .additionalReturn else .codeAfterReturn) m.2.span]
        else []) =
      (if before.any Stmt.isReturn then ss
        else (ss.dropWhile fun s => !s.isReturn).tail).map fun s =>
          .unreachable (if s.isReturn then .additionalReturn else .codeAfterReturn) s.span := by
    intro before ss
    induction ss generalizing before with
    | nil => simp [along]
    | cons s ss ih =>
        rw [along, List.flatMap_cons, ih, List.any_append, List.any_cons, List.any_nil,
          Bool.or_false]
        by_cases hb : before.any Stmt.isReturn
        · simp [hb]
        · by_cases hs : s.isReturn <;> simp [hb, hs]
  exact (hall [] p.body).symm

theorem exitProblems_eq (p : Procedure) : p.exitProblems =
    (p.outerSites.flatMap fun site => site.2.returnProblems p.returns.ty site.1) ++
      p.countProblems ++ p.unreachable := by
  rw [exitProblems, outerSites_eq, List.flatMap_map, countProblems, unreachable_eq]

/-- Nothing is found if the returns are as they should be. -/
theorem returns_of_exitProblems (h : p.exitProblems = []) : p.Returns := by
  rw [exitProblems_eq, List.append_eq_nil_iff, List.append_eq_nil_iff] at h
  exact returns_iff.mpr ⟨List.flatMap_eq_nil_iff.mp h.1.1, h.1.2, h.2⟩

end Procedure

/-! ### Returns inside blocks -/

mutual

/-- The statement without the returns inside its blocks. -/
def Stmt.pruned : Stmt → Stmt
  | .varDef name typeName init span   => .varDef name typeName init span
  | .ret value span                   => .ret value span
  | .call callee args span            => .call callee args span
  | .assign target value span         => .assign target value span
  | .ifThen condition body span       => .ifThen condition (Block.pruned body) span
  | .ifElse condition body other span =>
      .ifElse condition (Block.pruned body) (Block.pruned other) span
  | .whileDo condition body span      => .whileDo condition (Block.pruned body) span

/-- The block without its returns and those inside its blocks. -/
def Block.pruned : List Stmt → List Stmt
  | []      => []
  | s :: ss => if s.isReturn then Block.pruned ss else s.pruned :: Block.pruned ss

end

@[simp] theorem Stmt.isReturn_pruned (s : Stmt) : s.pruned.isReturn = s.isReturn := by
  cases s <;> rfl

@[simp] theorem Stmt.span_pruned (s : Stmt) : s.pruned.span = s.span := by
  cases s <;> rfl

@[simp] theorem Stmt.returnProblems_pruned (type : Ty) (env : Env) (s : Stmt) :
    s.pruned.returnProblems type env = s.returnProblems type env := by
  cases s <;> rfl

mutual

/-- A return declares nothing. -/
theorem Stmt.allDecls_pruned : ∀ s : Stmt, s.pruned.allDecls = s.allDecls
  | .varDef .. | .ret .. | .call .. | .assign .. => rfl
  | .ifThen _ body _ | .whileDo _ body _ => by
      simp only [Stmt.pruned, Stmt.allDecls, Stmt.preorder, List.flatMap_cons, Stmt.decls,
        Block.decls_pruned body]
  | .ifElse _ body other _ => by
      simp only [Stmt.pruned, Stmt.allDecls, Stmt.preorder, List.flatMap_cons,
        List.flatMap_append, Stmt.decls, Block.decls_pruned body, Block.decls_pruned other]

theorem Block.decls_pruned : ∀ ss : List Stmt,
    (Block.preorder (Block.pruned ss)).flatMap Stmt.decls =
      (Block.preorder ss).flatMap Stmt.decls
  | [] => rfl
  | s :: ss => by
      have hs := Stmt.allDecls_pruned s
      have hss := Block.decls_pruned ss
      rw [Stmt.allDecls, Stmt.allDecls] at hs
      rw [Block.pruned]
      cases s with
      | ret value span => exact hss
      | varDef | call | assign | ifThen | ifElse | whileDo =>
          simp only [Stmt.isReturn, Bool.false_eq_true, if_false, Block.preorder,
            List.flatMap_append, hs, hss]

end

theorem Env.sites_pruned (env : Env) (ss : List Stmt) :
    sites Stmt.allDecls env (ss.map Stmt.pruned) =
      (sites Stmt.allDecls env ss).map fun site => (site.1, site.2.pruned) := by
  induction ss generalizing env with
  | nil => rfl
  | cons s ss ih => rw [List.map_cons, sites, sites, Stmt.allDecls_pruned, ih, List.map_cons]

/-- **Returns inside blocks have no part in what is found when a procedure is left.** -/
theorem Procedure.exitProblems_pruned (p : Procedure) :
    { p with body := p.body.map Stmt.pruned }.exitProblems = p.exitProblems := by
  have hreturns (env : Env) :
      ((Env.sites Stmt.allDecls env (p.body.map Stmt.pruned)).flatMap fun site =>
        site.2.returnProblems p.returns.ty site.1) =
      (Env.sites Stmt.allDecls env p.body).flatMap fun site =>
        site.2.returnProblems p.returns.ty site.1 := by
    rw [Env.sites_pruned, List.flatMap_map]
    simp only [Stmt.returnProblems_pruned]
  have hcount : (p.body.map Stmt.pruned).countP Stmt.isReturn = p.body.countP Stmt.isReturn := by
    rw [List.countP_map]
    exact List.countP_congr fun s _ => by simp
  have hbehind : { p with body := p.body.map Stmt.pruned }.unreachable = p.unreachable := by
    have hkeep : (fun s : Stmt => !s.isReturn) ∘ Stmt.pruned = fun s => !s.isReturn :=
      funext fun s => congrArg not s.isReturn_pruned
    rw [unreachable, unreachable, List.dropWhile_map, ← List.map_tail, List.map_map, hkeep]
    exact List.map_congr_left fun s _ => by simp
  rw [exitProblems_eq, exitProblems_eq, hbehind, outerSites, outerSites, hreturns, countProblems,
    countProblems, hcount]
  rfl

/-! ### In a run -/

namespace Checking

variable {earlier : List Procedure} {env : Env} {c : Checking}

/-- A run over procedures leaves the numbers of later ones fresh. -/
theorem foldl_procedure_fresh (h : c.Agrees earlier env) {ps qs : List Procedure}
    (hf : c.Fresh ((ps ++ qs).flatMap fun p => Block.exprIds p.body)) :
    (ps.foldl procedure c).Fresh (qs.flatMap fun p => Block.exprIds p.body) := by
  induction ps generalizing c earlier env with
  | nil => exact hf
  | cons p ps ih =>
      rw [List.cons_append, List.flatMap_cons] at hf
      exact ih (procedure_agrees h p)
        (hf.right (procedure_spec h hf.left.untyped hf.left.nodup).2)

/-- What checking a fresh procedure adds: what is found of its body, whether its name is taken,
and what is found when it is left. -/
theorem news_procedure (h : c.Agrees earlier env) {p : Procedure}
    (hf : c.Fresh (Block.exprIds p.body)) :
    c.news (c.procedure p) = c.news (c.body p) ++
      (if p.name ∈ earlier.map Procedure.name then [.dupSymbol p.name .procedure p.span]
        else []) ++ p.exitProblems := by
  have hbody : (c.body p).found = c.found ++ c.news (c.body p) :=
    (Adds.body (P := fun _ => True) (fun _ _ => trivial) c).found_eq
  obtain ⟨procedures, hr, -⟩ := register_spec (body_agrees h p) p
  obtain ⟨c₀, -, -, hv⟩ := body_spec h hf.untyped hf.nodup
  have hreturns := returnProblems_eq fun site hsite => hv.get site (Env.mem_sites_preorder hsite)
  refine news_eq ?_
  simp only [procedure, hr, hbody, hreturns, Procedure.exitProblems_eq, List.append_assoc]

end Checking

namespace Script

variable {s : Script}

theorem upTo_agrees (s : Script) (i : Nat) :
    ∃ env, (s.upTo i).checking.Agrees (s.procedures.take i) env :=
  Checking.foldl_procedure_agrees Checking.start_agrees (s.procedures.take i)

/-- When a run comes to a procedure, the numbers in it are fresh. -/
theorem upTo_fresh (h : s.exprIds.Nodup) {i : Nat} {p : Procedure}
    (hp : s.procedures[i]? = some p) : (s.upTo i).checking.Fresh (Block.exprIds p.body) := by
  have hs : s.procedures = s.procedures.take i ++ p :: s.procedures.drop (i + 1) := by
    obtain ⟨hi, rfl⟩ := List.getElem?_eq_some_iff.mp hp
    rw [List.getElem_cons_drop, List.take_append_drop]
  have hstart : Checking.start.Fresh (s.procedures.flatMap fun p => Block.exprIds p.body) :=
    ⟨h, fun i _ => ExprTypes.contains_empty i⟩
  rw [hs] at hstart
  have hrest := Checking.foldl_procedure_fresh Checking.start_agrees hstart
  rw [List.flatMap_cons] at hrest
  exact hrest.left

/-- In a checked script nothing is found of any procedure. -/
theorem foundAt_eq_nil {c : CheckedScript} (h : s.check = .ok (.ok c)) {i : Nat} {p : Procedure}
    (hp : s.procedures[i]? = some p) : s.foundAt i = [] := by
  have hfound : s.checking.found = [] := (s.check_eq_ok_ok_iff.mp ⟨c, h⟩).2
  rw [found_eq_flatMap_foundAt, List.flatMap_eq_nil_iff] at hfound
  exact hfound i (List.mem_range.mpr (List.getElem?_eq_some_iff.mp hp).1)

/-- **What is found of returns and behind them.**  What is found of a procedure is what is found
of its body, then whether its name is taken, then what is found when it is left, in which returns
inside blocks have no part.  In a checked script the procedure therefore returns as its type
asks: its last immediate statement is its only immediate return, or there is none in a procedure
that gives nothing back. -/
theorem returns_found (h : s.exprIds.Nodup) {i : Nat} {p : Procedure}
    (hp : s.procedures[i]? = some p) :
    s.checking.found = (List.range s.procedures.length).flatMap s.foundAt ∧
    s.foundAt i = (s.upTo i).checking.news ((s.upTo i).checking.body p) ++
      (if p.name ∈ (s.procedures.take i).map Procedure.name then
        [.dupSymbol p.name .procedure p.span] else []) ++ p.exitProblems ∧
    { p with body := p.body.map Stmt.pruned }.exitProblems = p.exitProblems ∧
    ∀ c, s.check = .ok (.ok c) → p.Returns := by
  obtain ⟨env, hagrees⟩ := s.upTo_agrees i
  have hfound : s.foundAt i = (s.upTo i).checking.news ((s.upTo i).checking.body p) ++
      (if p.name ∈ (s.procedures.take i).map Procedure.name then
        [.dupSymbol p.name .procedure p.span] else []) ++ p.exitProblems := by
    rw [foundAt_eq_news hp]
    exact Checking.news_procedure hagrees (upTo_fresh h hp)
  refine ⟨s.found_eq_flatMap_foundAt, hfound, p.exitProblems_pruned, fun c hc => ?_⟩
  rw [foundAt_eq_nil hc hp, eq_comm, List.append_eq_nil_iff] at hfound
  exact Procedure.returns_of_exitProblems hfound.2

/-- A variable is declared again behind a return of it, and another return stands in a block. -/
def twiceReturned : Procedure :=
  ⟨"main", [], ⟨"Int32", .none⟩,
    [.ifThen (.bool true 1 .none) [.ret (some (.int 1 2 .none)) .none] .none,
      .varDef "x" ⟨"Bool", .none⟩ none .none, .ret (some (.var "x" 3 .none)) .none,
      .varDef "x" ⟨"Int32", .none⟩ none .none, .ret none .none], .none⟩

/-- It is refused, for there is another one of its name. -/
def returning : Script :=
  ⟨"", [⟨"main", [], ⟨"Bool", .none⟩, [.ret (some (.bool true 0 .none)) .none], .none⟩,
    twiceReturned], .none⟩

/-- Its returns are looked at all the same. -/
theorem returning_found : returning.exprIds.Nodup ∧ returning.procedures[1]? = some twiceReturned ∧
    returning.foundAt 1 = [.dupSymbol "x" .variable .none, .dupSymbol "main" .procedure .none,
      .typeMismatch .int32 .bool .none, .typeMismatch .int32 .void .none,
      .returnCountMismatch 1 .none, .unreachable .codeAfterReturn .none,
      .unreachable .additionalReturn .none] := by
  have hn : returning.exprIds.Nodup := by decide
  obtain ⟨-, hfound, -, -⟩ := returns_found hn (i := 1) (p := twiceReturned) rfl
  exact ⟨hn, rfl, hfound.trans (by decide)⟩

end Script

end ProcScript
