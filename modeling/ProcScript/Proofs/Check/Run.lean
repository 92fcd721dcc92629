import ProcScript.Proofs.Check.Problems
import ProcScript.Proofs.Check.Types

/-!
# Check — a checking run finds the problems of the tree

The state of a run is tied to the tree by `Checking.Agrees`: the scope means by every name what
the `Env` of the place means, and the table means what the list of earlier procedures means.
Types are tied by the numbers: those of statements still to come have none.  One visit keeps
the ties and finds the problems of its statement (`visit_spec`), so a run over statements finds
theirs (`foldl_visit`), a procedure its own (`procedure_spec`), and a script the problems of
all its procedures (`checking_found`).
-/

namespace ProcScript

/-- The declaration behind a binding. -/
def Binding.decl : Binding → Decl
  | .param f           => ⟨f.name, .parameter, f.type, f.loc⟩
  | .var name type loc _ => ⟨name, .variable, type, loc⟩

@[simp] theorem Binding.decl_name (b : Binding) : b.decl.name = b.name := by
  cases b <;> rfl

@[simp] theorem Binding.decl_loc (b : Binding) : b.decl.loc = b.loc := by
  cases b <;> rfl

@[simp] theorem Binding.decl_assigned (b : Binding) : b.assigned.decl = b.decl := by
  cases b <;> rfl

theorem Binding.varType?_decl (b : Binding) : b.decl.varType? = b.varType? := by
  cases b <;> rfl

/-! ### Scopes and environments -/

/-- The scope means by every name what the environment means. -/
def Scope.Means (s : Scope) (env : Env) : Prop :=
  ∀ name, (s.find? name).map Binding.decl = env.lookup name

namespace Scope.Means

variable {s : Scope} {env : Env}

theorem empty : Scope.empty.Means [] := fun _ => rfl

theorem contains_iff (h : s.Means env) (name : String) :
    s.contains name = true ↔ name ∈ env.names := by
  rw [Scope.contains, Option.isSome_iff_ne_none, ne_eq, ← Option.map_eq_none_iff, h name,
    Env.lookup_eq_none_iff, not_not]

theorem varType? (h : s.Means env) (name : String) :
    (s.find? name).bind Binding.varType? = env.varType? name := by
  rw [Env.varType?, ← h name]
  cases s.find? name with
  | none => rfl
  | some b => exact b.varType?_decl.symm

/-- A binding whose name is new is added. -/
theorem define_of_not_mem (h : s.Means env) {b : Binding} (hb : b.name ∉ env.names) :
    ∃ t, s.define b = .ok t ∧ t.Means (env ++ [b.decl]) := by
  have hs : s.find? b.name = none := by
    rw [← Option.map_eq_none_iff, h, Env.lookup_eq_none_iff]
    exact hb
  have ht := define_of_none hs
  refine ⟨_, ht, fun name => ?_⟩
  rw [find?_define ht, Env.lookup_append, ← h name]
  by_cases hn : b.name = name
  · subst hn
    simp [hs, Env.lookup]
  · simp [hn, Env.lookup]

/-- A binding whose name is declared is refused, and its declaration hides nothing. -/
theorem define_of_mem (h : s.Means env) {b : Binding} (hb : b.name ∈ env.names) :
    (∃ loc, s.define b = .error loc) ∧ s.Means (env ++ [b.decl]) := by
  have hne : env.lookup b.name ≠ none := fun he => Env.lookup_eq_none_iff.mp he hb
  constructor
  · cases hs : s.find? b.name with
    | none =>
        rw [← h, hs] at hne
        exact absurd rfl hne
    | some first => exact ⟨first.loc, define_of_some hs⟩
  · intro name
    rw [h name, Env.lookup_append]
    cases he : env.lookup name with
    | some d => rfl
    | none =>
        have hn : b.name ≠ name := fun hn => hne (hn ▸ he)
        simp [Env.lookup, hn]

theorem markInitialized (h : s.Means env) (target : String) :
    (s.markInitialized target).Means env := by
  intro name
  rw [← h name, find?_markInitialized]
  split
  · simp only [Option.map_map, Function.comp_def, Binding.decl_assigned]
  · rfl

end Scope.Means

namespace Checking

/-- The state means what the tree means behind the procedures `earlier`, where `env` is declared. -/
structure Agrees (earlier : List Procedure) (env : Env) (c : Checking) : Prop where
  scope : c.scope.Means env
  procedures : ∀ name, c.procedures.find? name =
    (earlier.find? fun p => p.name = name).map Procedure.entry

variable {earlier : List Procedure} {env : Env} {c : Checking}

/-- A run starts with nothing bound and nothing registered. -/
theorem start_agrees : Checking.start.Agrees [] [] := ⟨.empty, fun _ => rfl⟩

theorem Agrees.varType? (h : c.Agrees earlier env) (name : String) :
    c.varType? name = env.varType? name :=
  h.scope.varType? name

/-- Every procedure starts with an empty scope, but with all that is registered. -/
theorem Agrees.unscoped (h : c.Agrees earlier env) :
    Agrees earlier [] { c with scope := .empty } :=
  ⟨.empty, h.procedures⟩

theorem Agrees.contains_iff (h : c.Agrees earlier env) (name : String) :
    c.procedures.contains name = true ↔ name ∈ earlier.map Procedure.name := by
  rw [ProcedureTable.contains, h.procedures, Option.isSome_map, List.find?_isSome]
  simp

/-! ### The rules -/

theorem require_eq (c : Checking) (expected : Ty) (id : ExprId) (loc : Span) :
    c.require expected id loc =
      { c with found := c.found ++ mismatch expected (c.types.get id) loc } := by
  by_cases hm : c.types.get id = expected
  · simp [require, mismatch, hm]
  · simp [require, mismatch, hm, report]

/-- The parameters of a call, one after the other. -/
theorem foldl_require_eq (c : Checking) (params : List Param) (args : List Expr) (span : Span) :
    ((params.map Param.formal).zip args).foldl
        (fun c arg => c.require arg.1.type arg.2.id span) c =
      { c with found := c.found ++ (params.zip args).flatMap fun arg =>
          mismatch arg.1.typeName.ty (c.types.get arg.2.id) span } := by
  induction params generalizing args c with
  | nil => simp
  | cons q qs ih =>
      cases args with
      | nil => simp
      | cons e es =>
          rw [List.map_cons, List.zip_cons_cons, List.foldl_cons, require_eq, ih]
          simp [Param.formal]

/-- A declaration is added, or refused and reported, but what names mean is as declared. -/
theorem declare_spec (h : c.Agrees earlier env) (b : Binding) :
    ∃ scope, c.declare b b.decl.symbol = (decide (b.name ∉ env.names),
        { c with scope, found := c.found ++ b.decl.problems env }) ∧
      scope.Means (env ++ [b.decl]) := by
  by_cases hb : b.name ∈ env.names
  · obtain ⟨⟨loc, hd⟩, hm⟩ := h.scope.define_of_mem hb
    exact ⟨c.scope, by simp [declare, hd, hb, report, Decl.problems], hm⟩
  · obtain ⟨t, hd, hm⟩ := h.scope.define_of_not_mem hb
    exact ⟨t, by simp [declare, hd, hb, Decl.problems], hm⟩

/-- A rule adds what its statement declares, whatever types are recorded. -/
theorem judge_agrees (h : c.Agrees earlier env) (s : Stmt) :
    (c.judge s).Agrees earlier (env ++ s.decls) := by
  cases s with
  | varDef name typeName init span =>
      obtain ⟨scope, hd, hm⟩ := declare_spec h (.var name typeName.ty span init.isSome)
      simp only [Binding.decl, Binding.name] at hd
      simp only [judge, hd]
      by_cases hn : name ∈ env.names
      · simp only [hn, not_true, decide_false]
        exact ⟨hm, h.procedures⟩
      · simp only [hn, not_false_iff, decide_true]
        cases init with
        | none => exact ⟨hm, h.procedures⟩
        | some e =>
            simp only [Option.elim_some, require_eq]
            exact ⟨hm, h.procedures⟩
  | assign target value span =>
      simp only [judge, Stmt.decls, List.append_nil]
      cases c.varType? target with
      | none => exact h
      | some type =>
          simp only [require_eq]
          exact ⟨h.scope.markInitialized target, h.procedures⟩
  | call callee args span =>
      simp only [judge, Stmt.decls, List.append_nil, h.procedures]
      split
      · exact h
      · cases earlier.find? fun p => p.name = callee with
        | none => exact ⟨h.scope, h.procedures⟩
        | some p =>
            simp only [Option.map_some, Procedure.entry, foldl_require_eq]
            split <;> exact ⟨h.scope, h.procedures⟩
  | ret | ifThen | ifElse | whileDo => simpa [judge, Stmt.decls] using h

/-- **A rule finds the problems of its statement**, if the expressions of the statement read as
their types. -/
theorem judge_spec (h : c.Agrees earlier env) {s : Stmt}
    (ht : ∀ e ∈ s.exprs, c.types.get e.id = e.typeIn env) :
    (c.judge s).found = c.found ++ s.problems earlier env ∧ (c.judge s).types = c.types := by
  cases s with
  | varDef name typeName init span =>
      obtain ⟨scope, hd, -⟩ := declare_spec h (.var name typeName.ty span init.isSome)
      simp only [Binding.decl, Binding.name, Decl.problems] at hd
      simp only [judge, hd, Stmt.problems]
      by_cases hn : name ∈ env.names
      · simp only [hn, not_true, decide_false, if_true, and_self]
      · simp only [hn, not_false_iff, decide_true, if_false]
        cases init with
        | none => exact ⟨by simp, rfl⟩
        | some e =>
            have he : c.types.get e.id = e.typeIn env := ht e List.mem_cons_self
            simp only [Option.elim_some, require_eq, he]
            exact ⟨by simp, trivial⟩
  | assign target value span =>
      simp only [judge, h.varType?]
      cases ha : env.varType? target with
      | none => exact ⟨by simp [Stmt.problems, ha], rfl⟩
      | some type =>
          have hv : c.types.get value.id = value.typeIn env := ht value List.mem_cons_self
          simp only [require_eq, hv, Stmt.problems, ha]
          exact ⟨by simp, trivial⟩
  | call callee args span =>
      simp only [judge, Stmt.problems, h.procedures]
      by_cases hc : callee ∈ env.names
      · rw [if_pos ((h.scope.contains_iff callee).mpr hc), if_pos hc]
        exact ⟨by simp, rfl⟩
      · rw [if_neg (mt (h.scope.contains_iff callee).mp hc), if_neg hc]
        cases earlier.find? fun p => p.name = callee with
        | none => exact ⟨rfl, rfl⟩
        | some p =>
            simp only [Option.map_some, ProcedureEntry.arity, Procedure.entry, List.length_map]
            by_cases hl : p.params.length = args.length
            · have hargs : ∀ arg ∈ p.params.zip args, mismatch arg.1.typeName.ty
                  (c.types.get arg.2.id) span =
                  mismatch arg.1.typeName.ty (arg.2.typeIn env) span := fun arg ha => by
                rw [ht arg.2 (List.of_mem_zip ha).2]
              simp only [ne_eq, hl, not_true, if_false, foldl_require_eq]
              exact ⟨by rw [List.flatMap_congr hargs], trivial⟩
            · simp only [ne_eq, hl, not_false_iff, if_true]
              exact ⟨rfl, rfl⟩
  | ret | ifThen | ifElse | whileDo => exact ⟨by simp [judge, Stmt.problems], rfl⟩

/-! ### Runs over statements -/

theorem resolveAll_agrees (h : c.Agrees earlier env) (es : List Expr) :
    (c.resolveAll es).Agrees earlier env := by
  rw [resolveAll_eq]
  exact ⟨h.scope, h.procedures⟩

theorem visit_agrees (h : c.Agrees earlier env) (s : Stmt) :
    (c.visit s).Agrees earlier (env ++ s.decls) :=
  judge_agrees (resolveAll_agrees h s.exprs) s

/-- A run knows what its statements declare, whatever types are recorded. -/
theorem foldl_visit_agrees (h : c.Agrees earlier env) (ss : List Stmt) :
    (ss.foldl visit c).Agrees earlier (env ++ ss.flatMap Stmt.decls) := by
  induction ss generalizing c env with
  | nil => simpa using h
  | cons s ss ih => simpa using ih (visit_agrees h s)

/-- A run over `ss` from `c` to `c'`: it finds their problems, writes their own numbers only, and
their expressions read as their types. -/
structure Visits (earlier : List Procedure) (env : Env) (ss : List Stmt) (c c' : Checking) :
    Prop where
  found : c'.found = c.found ++
    (Env.sites Stmt.decls env ss).flatMap fun site => site.2.problems earlier site.1
  grows : c.types.Grows (ss.flatMap Stmt.ownIds) c'.types
  get : ∀ site ∈ Env.sites Stmt.decls env ss, ∀ e ∈ site.2.exprs,
    c'.types.get e.id = e.typeIn site.1

theorem visit_spec (h : c.Agrees earlier env) {s : Stmt}
    (hfresh : ∀ i ∈ s.ownIds, c.types.contains i = false) (hn : s.ownIds.Nodup) :
    Visits earlier env [s] c (c.visit s) := by
  have ht : ∀ e ∈ s.exprs, (c.resolveAll s.exprs).types.get e.id = e.typeIn env :=
    get_resolveAll h.varType? hfresh hn
  obtain ⟨hfound, htypes⟩ := judge_spec (resolveAll_agrees h s.exprs) ht
  refine ⟨?_, ?_, fun site hsite => ?_⟩
  · rw [visit, hfound, resolveAll_eq]
    simp [Env.sites]
  · rw [visit, htypes]
    simpa [Stmt.ownIds] using c.resolveAll_grows s.exprs
  · obtain rfl := List.mem_singleton.mp hsite
    rw [visit, htypes]
    exact ht

/-- **A run over fresh statements.** -/
theorem foldl_visit (h : c.Agrees earlier env) {ss : List Stmt}
    (hfresh : ∀ i ∈ ss.flatMap Stmt.ownIds, c.types.contains i = false)
    (hn : (ss.flatMap Stmt.ownIds).Nodup) : Visits earlier env ss c (ss.foldl visit c) := by
  induction ss generalizing c env with
  | nil => exact ⟨by simp [Env.sites], .refl _, fun _ hs => absurd hs List.not_mem_nil⟩
  | cons s ss ih =>
      rw [List.flatMap_cons] at hn hfresh
      obtain ⟨hns, hnss, hd⟩ := List.nodup_append'.mp hn
      have one : Visits earlier env [s] c (c.visit s) :=
        visit_spec h (fun i hi => hfresh i (List.mem_append_left _ hi)) hns
      have hgrow : c.types.Grows s.ownIds (c.visit s).types := by simpa using one.grows
      have more : Visits earlier (env ++ s.decls) ss (c.visit s) (ss.foldl visit (c.visit s)) :=
        ih (visit_agrees h s) (fun i hi => hgrow.contains_eq_false
          (hfresh i (List.mem_append_right _ hi)) fun hi' => hd hi' hi) hnss
      refine ⟨?_, by simpa using hgrow.trans more.grows, ?_⟩
      · rw [List.foldl_cons, more.found, one.found]
        simp [Env.sites]
      · intro site hsite e he
        rcases List.mem_cons.mp hsite with rfl | hsite
        · -- What was recorded for the first statement is not written again.
          have hkeep := more.grows.get e.id
            (hd (List.mem_flatMap.mpr ⟨e, he, e.id_mem_ids⟩))
          exact hkeep.trans (one.get _ List.mem_cons_self e he)
        · exact more.get site hsite e he

/-! ### Procedures -/

theorem foldl_declare (h : c.Agrees earlier env) (params : List Param) :
    ∃ scope, params.foldl (fun (c : Checking) q => (c.declare (.param q.formal) .parameter).2) c =
        { c with
          scope
          found := c.found ++ (Env.sites (fun q : Param => [q.decl]) env params).flatMap
            fun site => site.2.decl.problems site.1 } ∧
      scope.Means (env ++ params.map Param.decl) := by
  induction params generalizing c env with
  | nil => exact ⟨c.scope, by simp [Env.sites], by simpa using h.scope⟩
  | cons q qs ih =>
      obtain ⟨scope, hd, hm⟩ := declare_spec h (.param q.formal)
      have hone : (c.declare (.param q.formal) .parameter).2 =
          { c with scope, found := c.found ++ q.decl.problems env } := congrArg Prod.snd hd
      have hagrees : Agrees earlier (env ++ [q.decl])
          { c with scope, found := c.found ++ q.decl.problems env } := ⟨hm, h.procedures⟩
      obtain ⟨scope', hds, hms⟩ := ih hagrees
      refine ⟨scope', ?_, by simpa using hms⟩
      rw [List.foldl_cons, hone, hds]
      simp [Env.sites]

/-- The body of a procedure is a run over its statements, behind its parameters. -/
theorem body_eq_foldl (h : c.Agrees earlier env) (p : Procedure) :
    ∃ c₀ : Checking,
      c₀.found = c.found ++ (p.paramSites.flatMap fun site => site.2.decl.problems site.1) ∧
      c₀.types = c.types ∧ c₀.Agrees earlier (p.params.map Param.decl) ∧
      c.body p = (Block.preorder p.body).foldl visit c₀ := by
  obtain ⟨scope, hp, hm⟩ := foldl_declare h.unscoped p.params
  have hc₀ : Agrees earlier (p.params.map Param.decl) { c with
      scope, found := c.found ++ p.paramSites.flatMap fun site => site.2.decl.problems site.1 } :=
    ⟨hm, h.procedures⟩
  rw [body, block_eq_foldl, hp]
  refine ⟨_, ?_, ?_, hc₀, ?_⟩ <;> rfl

theorem body_agrees (h : c.Agrees earlier env) (p : Procedure) :
    (c.body p).Agrees earlier (p.env (Block.preorder p.body)) := by
  obtain ⟨c₀, -, -, hc₀, hbody⟩ := body_eq_foldl h p
  rw [hbody]
  exact foldl_visit_agrees hc₀ _

/-- The body of a procedure whose expressions are fresh. -/
theorem body_spec (h : c.Agrees earlier env) {p : Procedure}
    (hfresh : ∀ i ∈ Block.exprIds p.body, c.types.contains i = false)
    (hn : (Block.exprIds p.body).Nodup) :
    ∃ c₀ : Checking,
      c₀.found = c.found ++ (p.paramSites.flatMap fun site => site.2.decl.problems site.1) ∧
      c₀.types = c.types ∧
      Visits earlier (p.params.map Param.decl) (Block.preorder p.body) c₀ (c.body p) := by
  obtain ⟨c₀, hfound, htypes, hc₀, hbody⟩ := body_eq_foldl h p
  rw [Block.exprIds_eq_flatMap, ← htypes] at hfresh
  rw [Block.exprIds_eq_flatMap] at hn
  rw [hbody]
  exact ⟨c₀, hfound, htypes, foldl_visit hc₀ hfresh hn⟩

/-- The table means what the list means once the procedure is added to both. -/
theorem register_spec (h : c.Agrees earlier env) (p : Procedure) :
    ∃ procedures, c.register p = { c with
        procedures, found := c.found ++
          if p.name ∈ earlier.map Procedure.name then [.dupSymbol p.name .procedure p.span]
          else [] } ∧
      ∀ name, procedures.find? name =
        ((earlier ++ [p]).find? fun q => q.name = name).map Procedure.entry := by
  have hiff := h.contains_iff p.name
  by_cases hp : p.name ∈ earlier.map Procedure.name
  · have ht : c.procedures.register p.entry = .error p.entry :=
      ProcedureTable.register_of_contains (hiff.mpr hp)
    refine ⟨c.procedures, by simp only [register, ht, hp, report, if_true]; rfl, fun name => ?_⟩
    rw [h.procedures, List.find?_append]
    -- A refused procedure hides nothing: its name means the first one of that name.
    cases hf : earlier.find? fun q => q.name = name with
    | some q => rfl
    | none =>
        have hn : p.name ≠ name := by
          rintro rfl
          obtain ⟨q, hq, hqn⟩ := List.mem_map.mp hp
          have := List.find?_eq_none.mp hf q hq
          simp [hqn] at this
        simp [hn]
  · obtain ⟨t, ht⟩ : ∃ t, c.procedures.register p.entry = .ok t :=
      ⟨_, ProcedureTable.register_of_not_contains (mt hiff.mp hp)⟩
    refine ⟨t, by simp only [register, ht, hp, if_false, List.append_nil], fun name => ?_⟩
    rw [ProcedureTable.find?_register ht, h.procedures, List.find?_append]
    by_cases hn : p.name = name
    · subst hn
      have hf : (earlier.find? fun q => q.name = p.name) = none := by
        rw [List.find?_eq_none]
        intro q hq hqn
        exact hp (List.mem_map.mpr ⟨q, hq, by simpa using hqn⟩)
      simp [Procedure.entry, hf]
    · simp [Procedure.entry, hn]

theorem procedure_agrees (h : c.Agrees earlier env) (p : Procedure) :
    (c.procedure p).Agrees (earlier ++ [p]) (p.env (Block.preorder p.body)) := by
  have hb := body_agrees h p
  obtain ⟨procedures, hr, ht⟩ := register_spec hb p
  rw [procedure, hr]
  exact ⟨hb.scope, ht⟩

/-- A return reads the type that its value had where it stands. -/
theorem returnProblem?_eq {types : ExprTypes} {p : Procedure} {s : Stmt}
    (h : ∀ e ∈ s.exprs, types.get e.id = e.typeIn env) :
    (p.returnProblem? types s).toList = s.returnProblems p.returns.ty env := by
  cases s with
  | ret value span =>
      cases value with
      | none =>
          by_cases hv : p.returns.ty = .void
          · simp [Procedure.returnProblem?, Stmt.returnProblems, mismatch, hv]
          · simp [Procedure.returnProblem?, Stmt.returnProblems, mismatch, hv, Ne.symm hv]
      | some value =>
          have ht : types.get value.id = value.typeIn env := h value List.mem_cons_self
          by_cases hv : value.typeIn env = p.returns.ty
          · simp [Procedure.returnProblem?, Stmt.returnProblems, mismatch, ht, hv]
          · simp [Procedure.returnProblem?, Stmt.returnProblems, mismatch, ht, hv]
  | varDef | call | assign | ifThen | ifElse | whileDo => rfl

theorem returnProblems_eq {types : ExprTypes} {p : Procedure}
    (h : ∀ site ∈ p.outerSites, ∀ e ∈ site.2.exprs, types.get e.id = e.typeIn site.1) :
    p.returnProblems types =
      (p.outerSites.flatMap fun site => site.2.returnProblems p.returns.ty site.1) ++
        p.countProblems := by
  have hall : ∀ (env : Env) (ss : List Stmt),
      (∀ site ∈ Env.sites Stmt.allDecls env ss, ∀ e ∈ site.2.exprs,
        types.get e.id = e.typeIn site.1) →
      ss.filterMap (p.returnProblem? types) = (Env.sites Stmt.allDecls env ss).flatMap
        fun site => site.2.returnProblems p.returns.ty site.1 := by
    intro env ss
    induction ss generalizing env with
    | nil => exact fun _ => rfl
    | cons s ss ih =>
        intro hs
        rw [Env.sites, List.flatMap_cons, ← returnProblem?_eq (hs (env, s) List.mem_cons_self),
          ← ih _ fun site hsite => hs site (List.mem_cons_of_mem _ hsite), List.filterMap_cons]
        cases p.returnProblem? types s <;> rfl
  rw [Procedure.returnProblems, hall _ _ h]
  rfl

/-- **Checking a procedure finds its problems.** -/
theorem procedure_spec (h : c.Agrees earlier env) {p : Procedure}
    (hfresh : ∀ i ∈ Block.exprIds p.body, c.types.contains i = false)
    (hn : (Block.exprIds p.body).Nodup) :
    (c.procedure p).found = c.found ++ p.problems earlier ∧
      c.types.Grows (Block.exprIds p.body) (c.procedure p).types := by
  obtain ⟨c₀, hfound, htypes, hv⟩ := body_spec h hfresh hn
  obtain ⟨procedures, hr, -⟩ := register_spec (body_agrees h p) p
  have hreturns : p.returnProblems (c.body p).types =
      (p.outerSites.flatMap fun site => site.2.returnProblems p.returns.ty site.1) ++
        p.countProblems :=
    returnProblems_eq fun site hsite => hv.get site (Env.mem_sites_preorder hsite)
  constructor
  · simp only [procedure, hr, hreturns, hv.found, hfound, Procedure.problems, Procedure.sites,
      List.append_assoc]
  · rw [procedure, hr, Block.exprIds_eq_flatMap, ← htypes]
    exact hv.grows

/-! ### Scripts -/

theorem foldl_procedure (h : c.Agrees earlier env) {ps : List Procedure}
    (hfresh : ∀ i ∈ ps.flatMap (fun p => Block.exprIds p.body), c.types.contains i = false)
    (hn : (ps.flatMap fun p => Block.exprIds p.body).Nodup) :
    (ps.foldl procedure c).found = c.found ++ Procedure.problemsAfter earlier ps := by
  induction ps generalizing c earlier env with
  | nil => simp [Procedure.problemsAfter]
  | cons p ps ih =>
      rw [List.flatMap_cons] at hn hfresh
      obtain ⟨hnp, hnps, hd⟩ := List.nodup_append'.mp hn
      obtain ⟨hfound, hgrow⟩ :=
        procedure_spec h (fun i hi => hfresh i (List.mem_append_left _ hi)) hnp
      have hrest : ∀ i ∈ ps.flatMap (fun p => Block.exprIds p.body),
          (c.procedure p).types.contains i = false := fun i hi =>
        hgrow.contains_eq_false (hfresh i (List.mem_append_right _ hi)) fun hi' => hd hi' hi
      rw [List.foldl_cons, ih (procedure_agrees h p) hrest hnps, hfound, Procedure.problemsAfter,
        List.append_assoc]

end Checking

/-- **Checking a script whose expressions have different numbers finds the problems of its
procedures**, in their order. -/
theorem Script.checking_found {s : Script} (h : s.exprIds.Nodup) :
    s.checking.found = Procedure.problemsAfter [] s.procedures :=
  Checking.foldl_procedure Checking.start_agrees (fun i _ => ExprTypes.contains_empty i) h

end ProcScript
