import Mathlib.Data.List.TakeWhile
import ProcScript.Proofs.Check.Judgement

/-!
# Check — what is wrong with a script

The diagnostics of a checked script, in order, as a function of the tree alone: `Stmt.problems`
of one statement where it stands, `Procedure.problems` of a procedure behind others,
`Procedure.problemsAfter` of a list of procedures.  Scopes, tables and recorded types do not
appear.  A statement has no problem exactly if its name is new and it fits
(`problems_eq_nil_iff`), and a list of procedures has none exactly if all are well typed and
their names differ (`problemsAfter_eq_nil_iff`).
-/

namespace ProcScript

/-- What is wrong with a value of type `actual` where `expected` is asked for. -/
def mismatch (expected actual : Ty) (loc : Span) : List Diagnostic :=
  if actual = expected then [] else [.typeMismatch expected actual loc]

@[simp] theorem mismatch_eq_nil_iff {expected actual : Ty} {loc : Span} :
    mismatch expected actual loc = [] ↔ actual = expected := by
  simp [mismatch]

/-! ### One declaration, one statement -/

/-- What is wrong with the declaration: its name is declared already. -/
def Decl.problems (env : Env) (d : Decl) : List Diagnostic :=
  if d.name ∈ env.names then [.dupSymbol d.name d.symbol d.loc] else []

/-- What is wrong with the statement itself, behind the procedures `earlier`. -/
def Stmt.problems (earlier : List Procedure) (env : Env) : Stmt → List Diagnostic
  | .varDef name typeName init span =>
      if name ∈ env.names then [.dupSymbol name .variable span]
      else init.toList.flatMap fun e => mismatch typeName.ty (e.typeIn env) e.span
  | .assign target value _ =>
      (env.varType? target).toList.flatMap fun type => mismatch type (value.typeIn env) value.span
  | .call callee args span =>
      if callee ∈ env.names then []
      else
        match earlier.find? fun p => p.name = callee with
        | none   => [.noSuchSymbol callee span]
        | some p =>
            if p.params.length ≠ args.length then
              [.argCountMismatch p.params.length args.length span]
            else (p.params.zip args).flatMap fun arg =>
              mismatch arg.1.typeName.ty (arg.2.typeIn env) span
  | .ret .. | .ifThen .. | .ifElse .. | .whileDo .. => []

/-- What is wrong with the statement as a return of a procedure of type `type`. -/
def Stmt.returnProblems (type : Ty) (env : Env) : Stmt → List Diagnostic
  | .ret (some value) span => mismatch type (value.typeIn env) span
  | .ret none span         => mismatch type .void span
  | .varDef .. | .call .. | .assign .. | .ifThen .. | .ifElse .. | .whileDo .. => []

/-! ### Procedures -/

namespace Procedure

/-- The parameters with what is declared before. -/
def paramSites (p : Procedure) : List (Env × Param) :=
  Env.sites (fun q => [q.decl]) [] p.params

/-- The statements of the body, those inside blocks included, with what is declared before. -/
def sites (p : Procedure) : List (Env × Stmt) :=
  Env.sites Stmt.decls (p.params.map Param.decl) (Block.preorder p.body)

/-- The statements of the body, those inside blocks left aside. -/
def outerSites (p : Procedure) : List (Env × Stmt) :=
  Env.sites Stmt.allDecls (p.params.map Param.decl) p.body

/-- How many returns there are, if not as many as there should be. -/
def countProblems (p : Procedure) : List Diagnostic :=
  if p.body.countP Stmt.isReturn = p.returnCount then []
  else [.returnCountMismatch p.returnCount p.span]

/-- What is wrong with the procedure behind those of `earlier`. -/
def problems (earlier : List Procedure) (p : Procedure) : List Diagnostic :=
  (p.paramSites.flatMap fun site => site.2.decl.problems site.1) ++
    (p.sites.flatMap fun site => site.2.problems earlier site.1) ++
    (if p.name ∈ earlier.map name then [.dupSymbol p.name .procedure p.span] else []) ++
    (p.outerSites.flatMap fun site => site.2.returnProblems p.returns.ty site.1) ++
    p.countProblems ++ p.unreachable

/-- What is wrong with procedures that follow those of `earlier`. -/
def problemsAfter (earlier : List Procedure) : List Procedure → List Diagnostic
  | []      => []
  | p :: ps => p.problems earlier ++ problemsAfter (earlier ++ [p]) ps

end Procedure

/-! ### Without a problem -/

/-- The statement declares nothing that is declared. -/
def Stmt.IsNew (env : Env) (s : Stmt) : Prop := ∀ d ∈ s.decls, d.name ∉ env.names

/-- The arguments of a call agree with the parameters exactly if their types are the same list. -/
theorem args_fit_iff {params : List Param} {args : List Expr} {env : Env} {span : Span}
    (h : params.length = args.length) :
    ((params.zip args).flatMap fun arg =>
        mismatch arg.1.typeName.ty (arg.2.typeIn env) span) = [] ↔
      params.map (fun q => q.typeName.ty) = args.map (Expr.typeIn env) := by
  induction params generalizing args with
  | nil =>
      obtain rfl := List.length_eq_zero_iff.mp h.symm
      simp
  | cons q qs ih =>
      cases args with
      | nil => cases h
      | cons e es =>
          have hq : e.typeIn env = q.typeName.ty ↔ q.typeName.ty = e.typeIn env := eq_comm
          simp only [List.zip_cons_cons, List.flatMap_cons, List.append_eq_nil_iff,
            mismatch_eq_nil_iff, List.map_cons, List.cons.injEq, hq,
            ih (Nat.succ.inj h)]

/-- Among procedures of different names a name means one. -/
theorem find?_name_eq_some_iff {ps : List Procedure} (h : (ps.map Procedure.name).Nodup)
    {p : Procedure} {name : String} :
    ps.find? (fun q => q.name = name) = some p ↔ p ∈ ps ∧ p.name = name := by
  induction ps with
  | nil => simp
  | cons q qs ih =>
      obtain ⟨hq, hqs⟩ := List.nodup_cons.mp h
      by_cases hn : q.name = name
      · rw [List.find?_cons_of_pos (by simpa using hn), List.mem_cons]
        constructor
        · intro he
          obtain rfl := Option.some.inj he
          exact ⟨.inl rfl, hn⟩
        · rintro ⟨rfl | hp, hpn⟩
          · rfl
          · exact absurd (List.mem_map.mpr ⟨p, hp, hpn.trans hn.symm⟩) hq
      · rw [List.find?_cons_of_neg (by simpa using hn), ih hqs, List.mem_cons]
        constructor
        · exact fun hp => ⟨.inr hp.1, hp.2⟩
        · rintro ⟨rfl | hp, hpn⟩
          · exact absurd hpn hn
          · exact ⟨hp, hpn⟩

/-- What some procedure of the name satisfies is what the one that is found satisfies. -/
theorem exists_named_iff {ps : List Procedure} (h : (ps.map Procedure.name).Nodup)
    {p : Procedure} {name : String} (hf : ps.find? (fun q => q.name = name) = some p)
    {P : Procedure → Prop} : (∃ q ∈ ps, q.name = name ∧ P q) ↔ P p := by
  obtain ⟨hp, hpn⟩ := (find?_name_eq_some_iff h).mp hf
  constructor
  · rintro ⟨q, hq, hqn, hP⟩
    have hone : q = p :=
      Option.some.inj (((find?_name_eq_some_iff h).mpr ⟨hq, hqn⟩).symm.trans hf)
    rwa [← hone]
  · exact fun hP => ⟨p, hp, hpn, hP⟩

/-- **A statement has no problem if its name is new and it fits.** -/
theorem Stmt.problems_eq_nil_iff {earlier : List Procedure}
    (h : (earlier.map Procedure.name).Nodup) {env : Env} (s : Stmt) :
    s.problems earlier env = [] ↔ s.IsNew env ∧ s.Fits earlier env := by
  cases s with
  | varDef name typeName init span =>
      by_cases hn : name ∈ env.names
      · simp [problems, IsNew, decls, hn]
      · simp [problems, IsNew, decls, Fits, hn]
  | assign target value span =>
      cases ht : env.varType? target <;> simp [problems, IsNew, decls, Fits, ht]
  | call callee args span =>
      by_cases hc : callee ∈ env.names
      · simp [problems, IsNew, decls, Fits, hc]
      · simp only [problems, IsNew, decls, Fits, hc, if_false, false_or, List.not_mem_nil,
          false_imp_iff, implies_true, true_and]
        cases hf : earlier.find? fun p => p.name = callee with
        | none =>
            simp only [List.cons_ne_nil, false_iff, not_exists, not_and]
            intro p hp hpn
            have := List.find?_eq_none.mp hf p hp
            simp [hpn] at this
        | some p =>
            rw [exists_named_iff h hf]
            by_cases hl : p.params.length = args.length
            · simp only [ne_eq, hl, not_true, if_false]
              exact args_fit_iff hl
            · simp only [ne_eq, hl, not_false_iff, if_true, List.cons_ne_nil, false_iff]
              -- Lists of different lengths are not the same list of types.
              exact fun ht => hl (by simpa using congrArg List.length ht)
  | ret | ifThen | ifElse | whileDo => simp [problems, IsNew, decls, Fits]

namespace Procedure

variable {p : Procedure} {earlier : List Procedure}

/-- The parameters, and then the variables, are new exactly if all names differ. -/
theorem nodup_env_iff :
    (p.env (Block.preorder p.body)).names.Nodup ↔
      (p.paramSites.flatMap fun site => site.2.decl.problems site.1) = [] ∧
        ∀ site ∈ p.sites, site.2.IsNew site.1 := by
  -- The parameters are declared behind nothing, one declaration for each.
  have hparams : (Env.names (p.params.map Param.decl)).Nodup ↔
      (p.paramSites.flatMap fun site => site.2.decl.problems site.1) = [] := by
    have hnew : (Env.names ([] ++ p.params.flatMap fun q => [q.decl])).Nodup ↔
        ∀ site ∈ p.paramSites, ∀ d ∈ [site.2.decl], d.name ∉ site.1.names :=
      Env.nodup_names_iff (fun _ => by simp [Env.names])
        (show (Env.names []).Nodup from List.nodup_nil) p.params
    rw [List.nil_append, ← List.map_eq_flatMap] at hnew
    simpa [Decl.problems] using hnew
  have hvars : ∀ s : Stmt, (Env.names s.decls).Nodup := fun s => by
    cases s <;> simp [Stmt.decls, Env.names]
  rw [← hparams]
  constructor
  · intro h
    have hp : (Env.names (p.params.map Param.decl)).Nodup :=
      h.sublist ((List.sublist_append_left _ _).map Decl.name)
    exact ⟨hp, (Env.nodup_names_iff hvars hp _).mp h⟩
  · exact fun h => (Env.nodup_names_iff hvars h.1 _).mpr h.2

theorem forall_sites_iff {P : Env → Stmt → Prop} :
    (∀ site ∈ p.sites, P site.1 site.2) ↔
      ∀ before s after, Block.preorder p.body = before ++ s :: after → P (p.env before) s := by
  constructor
  · intro h before s after hs
    exact h (p.env before, s) (Env.mem_sites.mpr ⟨before, after, hs, rfl⟩)
  · rintro h ⟨env, s⟩ hsite
    obtain ⟨before, after, hs, rfl⟩ := Env.mem_sites.mp hsite
    exact h before s after hs

/-- What is declared before a statement of the body. -/
theorem flatMap_allDecls (ss : List Stmt) :
    ss.flatMap Stmt.allDecls = (Block.preorder ss).flatMap Stmt.decls := by
  induction ss with
  | nil => rfl
  | cons s ss ih => simp [Block.preorder, Stmt.allDecls, ih]

theorem forall_outerSites_iff {P : Env → Stmt → Prop} :
    (∀ site ∈ p.outerSites, P site.1 site.2) ↔
      ∀ before s after, p.body = before ++ s :: after → P (p.env (Block.preorder before)) s := by
  have henv : ∀ before, p.params.map Param.decl ++ before.flatMap Stmt.allDecls =
      p.env (Block.preorder before) := fun before => by rw [flatMap_allDecls]; rfl
  constructor
  · intro h before s after hs
    exact h (p.env (Block.preorder before), s)
      (Env.mem_sites.mpr ⟨before, after, hs, (henv _).symm⟩)
  · rintro h ⟨env, s⟩ hsite
    obtain ⟨before, after, hs, henv'⟩ := Env.mem_sites.mp hsite
    rw [show env = p.env (Block.preorder before) from henv'.trans (henv before)]
    exact h before s after hs

/-- One return, behind which nothing stands. -/
theorem body_eq_of_unreachable (hc : p.body.countP Stmt.isReturn = 1) (hu : p.unreachable = []) :
    ∃ front s, p.body = front ++ [s] ∧ (∀ t ∈ front, t.isReturn = false) ∧ s.isReturn = true := by
  -- `front` is what stands before the first return.
  have hsplit := (List.takeWhile_append_dropWhile (p := fun s : Stmt => !s.isReturn)
    (l := p.body)).symm
  have hfront : ∀ t ∈ p.body.takeWhile (fun s => !s.isReturn), t.isReturn = false :=
    fun t ht => by simpa using List.all_eq_true.mp List.all_takeWhile t ht
  cases hd : p.body.dropWhile (fun s => !s.isReturn) with
  | nil =>
      rw [hd, List.append_nil] at hsplit
      rw [hsplit, List.countP_eq_zero.mpr fun t ht => by simp [hfront t ht]] at hc
      exact absurd hc (by decide)
  | cons s after =>
      have hs : s.isReturn = true := by
        have := List.head_dropWhile_not (p := fun s : Stmt => !s.isReturn) (l := p.body)
          (by rw [hd]; exact List.cons_ne_nil _ _)
        simpa [hd] using this
      rw [unreachable, hd, List.tail_cons, List.map_eq_nil_iff] at hu
      subst hu
      exact ⟨_, s, by rw [← hd]; exact hsplit, hfront, hs⟩

/-- What is no return has no problem as one. -/
theorem returnProblems_eq_nil {type : Ty} {env : Env} {s : Stmt} (h : s.isReturn = false) :
    s.returnProblems type env = [] := by
  cases s with
  | ret value span => cases h
  | varDef | call | assign | ifThen | ifElse | whileDo => rfl

theorem returns_iff :
    p.Returns ↔ (∀ site ∈ p.outerSites, site.2.returnProblems p.returns.ty site.1 = []) ∧
      p.countProblems = [] ∧ p.unreachable = [] := by
  have hcount : p.countProblems = [] ↔ p.body.countP Stmt.isReturn = p.returnCount := by
    simp [countProblems]
  rw [hcount, forall_outerSites_iff (P := fun env s => s.returnProblems p.returns.ty env = [])]
  rw [Returns, returnCount]
  by_cases hv : p.returns.ty = .void
  · rw [if_pos hv, if_pos hv, List.countP_eq_zero]
    simp only [Bool.not_eq_true]
    constructor
    · intro h
      refine ⟨fun before s after hs => returnProblems_eq_nil (h s (by rw [hs]; simp)), h, ?_⟩
      · rw [unreachable, List.dropWhile_eq_nil_iff.mpr fun s hs => by simp [h s hs]]
        rfl
    · exact fun h => h.2.1
  · rw [if_neg hv, if_neg hv]
    constructor
    · rintro ⟨front, value, span, hbody, hfront, ht⟩
      refine ⟨fun before s after hs => ?_, ?_, ?_⟩
      · -- A statement with nothing behind it is the return; any other is one of `front`.
        cases after with
        | nil =>
            obtain ⟨rfl, hs'⟩ := List.append_inj' (hbody.symm.trans hs) rfl
            obtain rfl := List.singleton_inj.mp hs'.symm
            simpa [Stmt.returnProblems] using ht
        | cons a after =>
            have hmem : s ∈ front := by
              have hl : (before ++ s :: a :: after).dropLast = front := by
                rw [← hs, hbody, List.dropLast_concat]
              rw [← hl]
              simp
            exact returnProblems_eq_nil (hfront s hmem)
      · rw [hbody, List.countP_append, List.countP_eq_zero.mpr fun t ht => by simp [hfront t ht]]
        rfl
      · rw [unreachable, hbody, List.dropWhile_append_of_pos fun t ht => by simp [hfront t ht]]
        rfl
    · rintro ⟨hr, hc, hu⟩
      obtain ⟨front, s, hbody, hfront, hs⟩ := body_eq_of_unreachable hc hu
      have hfit := hr front s [] hbody
      cases s with
      | ret value span =>
          cases value with
          | none =>
              -- A return without a value is one of `Void`, which the procedure is not.
              exact absurd (mismatch_eq_nil_iff.mp hfit).symm hv
          | some value => exact ⟨front, value, span, hbody, hfront, mismatch_eq_nil_iff.mp hfit⟩
      | varDef | call | assign | ifThen | ifElse | whileDo => cases hs

/-- **A procedure has no problem if its name is new and it is well typed.** -/
theorem problems_eq_nil_iff (h : (earlier.map name).Nodup) :
    p.problems earlier = [] ↔ p.name ∉ earlier.map name ∧ p.WellTyped earlier := by
  have hsites : (p.sites.flatMap fun site => site.2.problems earlier site.1) = [] ↔
      (∀ site ∈ p.sites, site.2.IsNew site.1) ∧ ∀ site ∈ p.sites, site.2.Fits earlier site.1 := by
    rw [List.flatMap_eq_nil_iff, ← forall₂_and]
    exact forall₂_congr fun site _ => Stmt.problems_eq_nil_iff h site.2
  have hname : (if p.name ∈ earlier.map name then
      [Diagnostic.dupSymbol p.name .procedure p.span] else []) = [] ↔
      p.name ∉ earlier.map name := by
    by_cases hn : p.name ∈ earlier.map name <;> simp [hn]
  have hreturns :
      (p.outerSites.flatMap fun site => site.2.returnProblems p.returns.ty site.1) = [] ↔
        ∀ site ∈ p.outerSites, site.2.returnProblems p.returns.ty site.1 = [] :=
    List.flatMap_eq_nil_iff
  simp only [problems, List.append_eq_nil_iff, hsites, hname, hreturns]
  constructor
  · rintro ⟨⟨⟨⟨⟨hq, hnew, hfit⟩, hn⟩, hr⟩, hc⟩, hu⟩
    exact ⟨hn, nodup_env_iff.mpr ⟨hq, hnew⟩, forall_sites_iff.mp hfit,
      returns_iff.mpr ⟨hr, hc, hu⟩⟩
  · rintro ⟨hn, hd, hfit, hr⟩
    obtain ⟨hq, hnew⟩ := nodup_env_iff.mp hd
    obtain ⟨hr, hc, hu⟩ := returns_iff.mp hr
    exact ⟨⟨⟨⟨⟨hq, hnew, forall_sites_iff.mpr hfit⟩, hn⟩, hr⟩, hc⟩, hu⟩

/-- **Procedures have no problem if their names differ and each is well typed.** -/
theorem problemsAfter_eq_nil_iff (h : (earlier.map name).Nodup) (ps : List Procedure) :
    problemsAfter earlier ps = [] ↔ ((earlier ++ ps).map name).Nodup ∧
      ∀ before p after, ps = before ++ p :: after → p.WellTyped (earlier ++ before) := by
  induction ps generalizing earlier with
  | nil => simpa [problemsAfter] using h
  | cons p ps ih =>
      have hp : ((earlier ++ [p]).map name).Nodup ↔ p.name ∉ earlier.map name := by
        simp only [List.map_append, List.map_cons, List.map_nil, List.nodup_append', h,
          List.nodup_singleton, true_and]
        simp
      rw [problemsAfter, List.append_eq_nil_iff, problems_eq_nil_iff h]
      constructor
      · rintro ⟨⟨hn, hw⟩, hps⟩
        obtain ⟨hnames, hws⟩ := (ih (hp.mpr hn)).mp hps
        refine ⟨by simpa using hnames, fun before q after hs => ?_⟩
        cases before with
        | nil =>
            obtain ⟨rfl, rfl⟩ := List.cons.inj hs
            simpa using hw
        | cons b before =>
            obtain ⟨rfl, rfl⟩ := List.cons.inj hs
            simpa using hws before q after rfl
      · rintro ⟨hnames, hws⟩
        rw [show earlier ++ p :: ps = (earlier ++ [p]) ++ ps by simp] at hnames
        have hp' : ((earlier ++ [p]).map name).Nodup :=
          hnames.sublist ((List.sublist_append_left _ _).map name)
        refine ⟨⟨hp.mp hp', by simpa using hws [] p ps rfl⟩, (ih hp').mpr ⟨hnames, ?_⟩⟩
        intro before q after hs
        simpa using hws (p :: before) q after (by rw [hs]; rfl)

end Procedure

end ProcScript
