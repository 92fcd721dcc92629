import Mathlib
import ProcScript.Proofs.Check.Ledger
import ProcScript.Proofs.Check.Stores

/-!
# Check — names that are declared twice

Of the members of a list with one key the first counts (`firsts`), and the others are repeats
(`repeats`).  The table of a run holds the first procedures of the script, and the repeats are
found; of the declarations of a procedure, its parameters and then its variables, in the order in
which they are met, the repeats are found (`Script.duplicates_found`).

None of this hangs on the numbers of expressions: what a scope and a table mean is tied to the
tree whatever types are recorded (`Checking.Agrees`).
-/

namespace ProcScript

/-! ### Repeats -/

section
variable {α κ β : Type} [DecidableEq κ] (key : α → κ)

/-- The members whose key an earlier one has. -/
def repeats (as : List α) : List α :=
  ((withEarlier as).filter fun m => key m.2 ∈ m.1.map key).map Prod.snd

theorem repeats_append_singleton (as : List α) (a : α) :
    repeats key (as ++ [a]) = repeats key as ++ if key a ∈ as.map key then [a] else [] := by
  rw [repeats, withEarlier_append_singleton, List.filter_append, List.map_append, repeats,
    List.filter_cons, List.filter_nil]
  by_cases h : key a ∈ as.map key
  · rw [if_pos h, if_pos (by simpa only [decide_eq_true_eq]), List.map_singleton]
  · rw [if_neg h, if_neg (by simpa only [decide_eq_true_eq]), List.map_nil]

/-- A list has as many repeats as it is longer than the list of its keys. -/
theorem length_repeats (as : List α) :
    (repeats key as).length + (as.map key).eraseDups.length = as.length := by
  induction as using List.reverseRecOn with
  | nil => rfl
  | append_singleton as a ih =>
      rw [repeats_append_singleton, List.map_append, List.map_singleton,
        Digraph.eraseDups_append_singleton]
      by_cases h : key a ∈ as.map key
      · rw [if_pos h, if_pos h, List.length_append, List.length_append, ← ih,
          List.length_singleton]
        omega
      · rw [if_neg h, if_neg h, List.append_nil, List.length_append, List.length_append, ← ih,
          List.length_singleton, List.length_singleton, Nat.add_assoc]

theorem length_repeats_eq (as : List α) :
    (repeats key as).length = as.length - (as.map key).eraseDups.length := by
  rw [← length_repeats key as, Nat.add_sub_cancel]

theorem repeats_sublist (as : List α) : (repeats key as).Sublist as := by
  rw [repeats]
  conv_rhs => rw [← map_snd_withEarlier as]
  exact List.filter_sublist.map Prod.snd

/-- What is said of a member whose key an earlier one has is said of the repeats. -/
theorem flatMap_withEarlier (f : α → β) (as : List α) :
    ((withEarlier as).flatMap fun m => if key m.2 ∈ m.1.map key then [f m.2] else []) =
      (repeats key as).map f := by
  induction as using List.reverseRecOn with
  | nil => rfl
  | append_singleton as a ih =>
      rw [withEarlier_append_singleton, List.flatMap_append, ih, repeats_append_singleton,
        List.map_append, List.flatMap_singleton]
      by_cases h : key a ∈ as.map key <;> simp [h]

end

/-! ### Duplicates -/

def Decl.duplicate (d : Decl) : Diagnostic := .dupSymbol d.name d.symbol d.loc

def Procedure.duplicate (p : Procedure) : Diagnostic := .dupSymbol p.name .procedure p.span

/-- The declarations of the procedure: its parameters, and its variables as they are met. -/
def Procedure.decls (p : Procedure) : Env := p.env (Block.preorder p.body)

/-- What is declared twice, if it is about that. -/
def Diagnostic.duplicated? : Diagnostic → Option SymbolKind
  | dupSymbol _ symbol _ => some symbol
  | _                    => none

def Diagnostic.isDuplicate (d : Diagnostic) : Bool := d.duplicated?.isSome

namespace Diagnostic

/-- Duplicates of one kind are duplicates. -/
theorem filter_duplicated {q : Option SymbolKind → Bool} (hq : q none = false)
    (ds : List Diagnostic) :
    (ds.filter isDuplicate).filter (fun d => q d.duplicated?) =
      ds.filter fun d => q d.duplicated? := by
  rw [List.filter_filter]
  refine List.filter_congr fun d _ => ?_
  cases h : d.duplicated? with
  | none => simp [isDuplicate, h, hq]
  | some symbol => simp [isDuplicate, h]

end Diagnostic

namespace Procedure

/-- No declaration of a procedure declares a procedure. -/
theorem symbol_of_mem_decls {p : Procedure} {d : Decl} (hd : d ∈ p.decls) :
    d.symbol = .parameter ∨ d.symbol = .variable := by
  rcases List.mem_append.mp hd with hd | hd
  · obtain ⟨q, -, rfl⟩ := List.mem_map.mp hd
    exact .inl rfl
  · obtain ⟨s, -, hd⟩ := List.mem_flatMap.mp hd
    cases s with
    | varDef name typeName init span =>
        obtain rfl := List.mem_singleton.mp hd
        exact .inr rfl
    | ret | call | assign | ifThen | ifElse | whileDo => cases hd

variable (p : Procedure) (earlier : List Procedure)

/-- The duplicates of a procedure: what it declares twice, and the procedure itself. -/
def duplicates : List Diagnostic :=
  (repeats Decl.name p.decls).map Decl.duplicate ++
    if p.name ∈ earlier.map name then [p.duplicate] else []

theorem filter_procedure_duplicates :
    ((p.duplicates earlier).filter fun d => d.duplicated? = some .procedure) =
      if p.name ∈ earlier.map name then [p.duplicate] else [] := by
  have hdecls : (((repeats Decl.name p.decls).map Decl.duplicate).filter
      fun d => d.duplicated? = some .procedure) = [] := by
    refine List.filter_eq_nil_iff.mpr fun d hd => ?_
    obtain ⟨decl, hdecl, rfl⟩ := List.mem_map.mp hd
    rcases symbol_of_mem_decls ((repeats_sublist Decl.name p.decls).subset hdecl) with h | h <;>
      simp [Decl.duplicate, Diagnostic.duplicated?, h]
  rw [duplicates, List.filter_append, hdecls, List.nil_append]
  split <;> rfl

theorem filter_declared_duplicates :
    ((p.duplicates earlier).filter fun d => d.duplicated? ∈ [some .parameter, some .variable]) =
      (repeats Decl.name p.decls).map Decl.duplicate := by
  have hdecls : (((repeats Decl.name p.decls).map Decl.duplicate).filter
      fun d => d.duplicated? ∈ [some .parameter, some .variable]) =
        (repeats Decl.name p.decls).map Decl.duplicate := by
    refine List.filter_eq_self.mpr fun d hd => ?_
    obtain ⟨decl, hdecl, rfl⟩ := List.mem_map.mp hd
    rcases symbol_of_mem_decls ((repeats_sublist Decl.name p.decls).subset hdecl) with h | h <;>
      simp [Decl.duplicate, Diagnostic.duplicated?, h]
  rw [duplicates, List.filter_append, hdecls]
  split <;> exact List.append_nil _

theorem length_duplicates : (p.duplicates earlier).length =
    (p.decls.length - p.decls.names.eraseDups.length) +
      (if p.name ∈ earlier.map name then [p.duplicate] else []).length := by
  rw [duplicates, List.length_append, List.length_map, length_repeats_eq]
  rfl

end Procedure

/-! ### What is declared, as it is met -/

theorem Decl.flatMap_problems (ds : List Decl) :
    ((Env.sites (fun d => [d]) [] ds).flatMap fun site => site.2.problems site.1) =
      (repeats Decl.name ds).map Decl.duplicate := by
  rw [Env.sites_eq_along]
  exact flatMap_withEarlier Decl.name Decl.duplicate ds

/-- Members that declare one thing at most are met with their declarations. -/
theorem Env.flatMap_sites {α : Type} {own : α → List Decl}
    (h : ∀ a, own a = [] ∨ ∃ d, own a = [d]) (env : Env) (as : List α) :
    ((Env.sites own env as).flatMap fun site => (own site.2).flatMap (Decl.problems site.1)) =
      (Env.sites (fun d => [d]) env (as.flatMap own)).flatMap
        fun site => site.2.problems site.1 := by
  induction as generalizing env with
  | nil => rfl
  | cons a as ih =>
      rw [sites, List.flatMap_cons, ih, List.flatMap_cons, sites_append, List.flatMap_append]
      rcases h a with hown | ⟨d, hown⟩ <;> simp [sites, hown]

/-- A duplicate that is found is about what is declared. -/
theorem Decl.filter_problems (env : Env) (d : Decl) :
    (d.problems env).filter Diagnostic.isDuplicate = d.problems env := by
  rw [problems]
  split <;> rfl

theorem Diagnostic.filter_isDuplicate_mismatch (expected actual : Ty) (loc : Span) :
    (mismatch expected actual loc).filter isDuplicate = [] := by
  rw [mismatch]
  split <;> rfl

theorem Stmt.decls_cases (s : Stmt) : s.decls = [] ∨ ∃ d, s.decls = [d] := by
  cases s <;> simp [decls]

namespace Checking

open Diagnostic (isDuplicate)

variable {earlier : List Procedure} {env : Env} {c : Checking} {p : Procedure}

/-! ### What is found twice -/

/-- The duplicates that a rule finds are those of what its statement declares. -/
theorem judge_duplicates (h : c.Agrees earlier env) (s : Stmt) :
    ∃ ds, (c.judge s).found = c.found ++ ds ∧
      ds.filter isDuplicate = s.decls.flatMap (Decl.problems env) := by
  cases s with
  | varDef name typeName init span =>
      obtain ⟨scope, hd, -⟩ := declare_spec h (.var name typeName.ty span init.isSome)
      simp only [Binding.decl, Binding.name] at hd
      simp only [judge, hd, Stmt.decls, List.flatMap_singleton]
      by_cases hn : name ∈ env.names
      · simp only [hn, not_true, decide_false]
        exact ⟨_, rfl, Decl.filter_problems env _⟩
      · simp only [hn, not_false_iff, decide_true]
        cases init with
        | none => exact ⟨_, rfl, Decl.filter_problems env _⟩
        | some e =>
            simp only [Option.elim_some, require_eq]
            refine ⟨_, List.append_assoc .., ?_⟩
            rw [List.filter_append, Decl.filter_problems,
              Diagnostic.filter_isDuplicate_mismatch, List.append_nil]
  | assign target value span =>
      simp only [judge, Stmt.decls, List.flatMap_nil]
      cases c.varType? target with
      | none => exact ⟨[], (List.append_nil _).symm, rfl⟩
      | some type =>
          simp only [require_eq]
          exact ⟨_, rfl, Diagnostic.filter_isDuplicate_mismatch ..⟩
  | call callee args span =>
      simp only [judge, Stmt.decls, List.flatMap_nil, h.procedures]
      split
      · exact ⟨[], (List.append_nil _).symm, rfl⟩
      · cases earlier.find? fun p => p.name = callee with
        | none => exact ⟨_, rfl, rfl⟩
        | some p =>
            simp only [Option.map_some, Procedure.entry, foldl_require_eq]
            split
            · exact ⟨_, rfl, rfl⟩
            · refine ⟨_, rfl, ?_⟩
              rw [List.filter_flatMap, List.flatMap_eq_nil_iff]
              exact fun arg _ => Diagnostic.filter_isDuplicate_mismatch ..
  | ret | ifThen | ifElse | whileDo => exact ⟨[], (List.append_nil _).symm, rfl⟩

theorem news_visit_duplicates (h : c.Agrees earlier env) (s : Stmt) :
    (c.news (c.visit s)).filter isDuplicate = s.decls.flatMap (Decl.problems env) := by
  obtain ⟨ds, hfound, hds⟩ := judge_duplicates (resolveAll_agrees h s.exprs) s
  have hnews : (c.visit s).found = c.found ++ ds := by
    rw [visit, hfound, resolveAll_eq]
  rw [news_eq hnews, hds]

/-- No return is found to be a duplicate, nor is what stands behind one. -/
theorem filter_returns (types : ExprTypes) (p : Procedure) :
    (p.returnProblems types ++ p.unreachable).filter isDuplicate = [] := by
  refine List.filter_eq_nil_iff.mpr fun d hd => ?_
  rcases Procedure.returns_cases hd with ⟨s, -, ⟨actual, rfl⟩ | ⟨reason, rfl⟩⟩ | rfl <;>
    exact Bool.false_ne_true

/-- The duplicates that are found of the parameters. -/
theorem params_duplicates (h : c.Agrees earlier env) (ps : List Param) :
    ((along param c ps).flatMap fun m => (m.1.news (m.1.param m.2)).filter isDuplicate) =
      (Env.sites (fun d => [d]) env (ps.map Param.decl)).flatMap
        fun site => site.2.problems site.1 := by
  have hruns := flatMap_along_eq (R := fun (c : Checking) env => c.Agrees earlier env)
    (F := fun m => (m.1.news (m.1.param m.2)).filter isDuplicate)
    (G := fun m => [m.2.decl].flatMap (Decl.problems m.1))
    (fun c env q h => (news_param h q).2) (fun c env q h => by
      rw [(news_param h q).1, Decl.filter_problems, List.flatMap_singleton]) h ps
  have hone : ∀ q : Param, [q.decl] = [] ∨ ∃ d, [q.decl] = [d] := fun q => .inr ⟨q.decl, rfl⟩
  rw [hruns, ← Env.sites_eq_along fun q : Param => [q.decl], List.map_eq_flatMap]
  exact Env.flatMap_sites hone env ps

/-- Those of the statements. -/
theorem stmts_duplicates (h : c.Agrees earlier env) (ss : List Stmt) :
    ((along visit c ss).flatMap fun m => (m.1.news (m.1.visit m.2)).filter isDuplicate) =
      (Env.sites (fun d => [d]) env (ss.flatMap Stmt.decls)).flatMap
        fun site => site.2.problems site.1 := by
  rw [← Env.flatMap_sites Stmt.decls_cases env ss]
  exact flatMap_visits (fun _ _ s hc => news_visit_duplicates hc s) h ss

/-- **The duplicates that are found of a procedure.** -/
theorem duplicates_procedure (h : c.Agrees earlier env) (p : Procedure) :
    (c.news (c.procedure p)).filter isDuplicate = p.duplicates earlier := by
  have hdecls : Env.sites (fun d => [d]) [] p.decls =
      Env.sites (fun d => [d]) [] (p.params.map Param.decl) ++
        Env.sites (fun d => [d]) (p.params.map Param.decl)
          ((Block.preorder p.body).flatMap Stmt.decls) := by
    rw [Procedure.decls, Procedure.env, Env.sites_append, List.flatMap_singleton',
      List.nil_append]
  have hname : (if p.name ∈ earlier.map Procedure.name then
      [Diagnostic.dupSymbol p.name .procedure p.span] else []).filter isDuplicate =
        if p.name ∈ earlier.map Procedure.name then [p.duplicate] else [] := by
    split <;> rfl
  have hreturns := filter_returns ((c.body p).register p).types p
  rw [List.filter_append] at hreturns
  rw [news_eq (c.found_procedure p), ledger, news_register (body_agrees h p)]
  simp only [List.flatMap_append, List.flatMap_map, List.filter_append, List.filter_flatMap,
    List.flatMap_cons, List.flatMap_nil, List.append_nil, hname, hreturns]
  rw [params_duplicates h.unscoped, stmts_duplicates (enter_agrees h p), Procedure.duplicates,
    ← Decl.flatMap_problems, hdecls, List.flatMap_append]

/-! ### The table -/

theorem procedures_body (c : Checking) (p : Procedure) :
    (c.body p).procedures = c.procedures := by
  have hvisit : ∀ (c : Checking) (s : Stmt), (c.visit s).procedures = c.procedures :=
    fun c s => by
      have hjudge : ((c.resolveAll s.exprs).judge s).procedures =
          (c.resolveAll s.exprs).procedures :=
        congrArg Prod.fst (stores_judge (c.resolveAll s.exprs) s)
      rw [visit, hjudge, resolveAll_eq]
  rw [body_eq, foldl_keeps Checking.procedures hvisit]
  exact congrArg Prod.fst (c.stores_enter p)

/-- A procedure is registered behind its body. -/
theorem procedures_procedure (c : Checking) (p : Procedure) :
    (c.procedure p).procedures = c.procedures.add p.entry := by
  have hregister : (c.procedure p).procedures = ((c.body p).register p).procedures := rfl
  rw [hregister, register, ← procedures_body c p, ProcedureTable.add]
  cases (c.body p).procedures.register p.entry <;> rfl

end Checking

namespace Script

open Diagnostic (isDuplicate)

/-! ### Scripts -/

/-- All procedures are registered, one after the other. -/
theorem procedures_eq (s : Script) :
    s.checking.procedures = .registered (s.procedures.map Procedure.entry) := by
  rw [ProcedureTable.registered, List.foldl_map]
  exact (List.foldl_hom Checking.procedures fun c p =>
    (Checking.procedures_procedure c p).symm).symm

/-- **The table holds the first procedures.** -/
theorem entries_eq (s : Script) :
    s.checking.procedures.entries = (firsts Procedure.name s.procedures).map Procedure.entry := by
  rw [procedures_eq, ProcedureTable.entries_registered, firsts_map]
  rfl

/-- **The duplicates that are found of a script.** -/
theorem duplicates_eq (s : Script) : s.checking.found.filter isDuplicate =
    (withEarlier s.procedures).flatMap fun m => m.2.duplicates m.1 := by
  rw [found_eq_news, List.filter_flatMap]
  exact Checking.flatMap_procedures (fun _ _ _ p h => Checking.duplicates_procedure h p)
    s.procedures

theorem found_procedure_duplicates (s : Script) :
    (s.checking.found.filter fun d => d.duplicated? = some .procedure) =
      (repeats Procedure.name s.procedures).map Procedure.duplicate := by
  rw [← Diagnostic.filter_duplicated (q := fun k => k = some .procedure) rfl, duplicates_eq,
    List.filter_flatMap]
  simp only [Procedure.filter_procedure_duplicates]
  exact flatMap_withEarlier Procedure.name Procedure.duplicate s.procedures

theorem foundAt_duplicates {s : Script} {i : Nat} {p : Procedure}
    (hp : s.procedures[i]? = some p) :
    ((s.foundAt i).filter fun d => d.duplicated? ∈ [some .parameter, some .variable]) =
      (repeats Decl.name p.decls).map Decl.duplicate := by
  obtain ⟨env, h⟩ := Checking.foldl_procedure_agrees Checking.start_agrees (s.procedures.take i)
  rw [← Diagnostic.filter_duplicated
    (q := fun k => k ∈ [some .parameter, some .variable]) (by decide), foundAt_eq_news hp]
  rw [Checking.duplicates_procedure (c := (s.upTo i).checking) h p]
  exact p.filter_declared_duplicates _

theorem countP_duplicates (s : Script) : s.checking.found.countP isDuplicate =
    (s.procedures.length - (s.procedures.map Procedure.name).eraseDups.length) +
      (s.procedures.map fun p => p.decls.length - p.decls.names.eraseDups.length).sum := by
  have hnames := congrArg List.length (flatMap_withEarlier Procedure.name
    Procedure.duplicate s.procedures)
  rw [List.length_map, length_repeats_eq, List.length_flatMap] at hnames
  rw [List.countP_eq_length_filter, duplicates_eq, List.length_flatMap, ← hnames]
  simp only [Procedure.length_duplicates, List.sum_map_add]
  have hdecls := congrArg (List.map fun p : Procedure =>
    p.decls.length - p.decls.names.eraseDups.length) (map_snd_withEarlier s.procedures)
  rw [List.map_map] at hdecls
  rw [← hdecls]
  exact Nat.add_comm _ _

/-- **The repeats are found, and the first definitions count.**  The table holds the first procedure
of each name, in the order of the script, and the other procedures are found to be duplicates.  Of
the declarations of a procedure those are found whose name an earlier one has.  So there are as
many duplicates as there are more procedures than names of procedures, and more declarations in a
procedure than names that it declares. -/
theorem duplicates_found (s : Script) :
    s.checking.procedures.entries = (firsts Procedure.name s.procedures).map Procedure.entry ∧
    (s.checking.found.filter fun d => d.duplicated? = some .procedure) =
      (repeats Procedure.name s.procedures).map Procedure.duplicate ∧
    (∀ i p, s.procedures[i]? = some p →
      ((s.foundAt i).filter fun d => d.duplicated? ∈ [some .parameter, some .variable]) =
        (repeats Decl.name p.decls).map Decl.duplicate) ∧
    s.checking.found.countP isDuplicate =
      (s.procedures.length - (s.procedures.map Procedure.name).eraseDups.length) +
        (s.procedures.map fun p => p.decls.length - p.decls.names.eraseDups.length).sum :=
  ⟨s.entries_eq, s.found_procedure_duplicates, fun _ _ => foundAt_duplicates,
    s.countP_duplicates⟩

/-- Two procedures of one name, each of which declares a name three times, the last time inside a
block. -/
def repeated : Script :=
  let p : Procedure := ⟨"f", [⟨"x", ⟨"Int32", .none⟩, .none⟩, ⟨"x", ⟨"Bool", .none⟩, .none⟩],
    ⟨"Void", .none⟩, [.whileDo (.bool true 0 .none) [.varDef "x" ⟨"Bool", .none⟩ none .none] .none],
    .none⟩
  ⟨"", [p, p], .none⟩

theorem repeated_duplicates :
    (repeated.foundAt 1).filter (fun d => d.duplicated? ∈ [some .parameter, some .variable]) =
      [.dupSymbol "x" .parameter .none, .dupSymbol "x" .variable .none] ∧
    repeated.checking.found.countP isDuplicate = 5 := by
  obtain ⟨-, -, hfound, hcount⟩ := repeated.duplicates_found
  exact ⟨(hfound 1 _ rfl).trans (by decide), hcount.trans (by decide)⟩

end Script

end ProcScript
