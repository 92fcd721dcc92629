import ProcScript.Proofs.Check.Run

/-!
# Check — the states of a run

A checking run goes through lists: the procedures of a script, the parameters and the statements
of a procedure, the expressions of a statement.  `along` pairs each member of a list with the
state in which a run over the list comes to it.  So what a run does at a place can be said of the
state that it is in there.

Two runs over one list whose states stay related put out the same, member by member
(`map_along_eq`).  That is how a run of the checker is compared with the tree: what is declared
before a member, and which procedures stand before it, are states of runs too
(`Env.sites_eq_along`).  What each step leaves alone a run leaves alone (`foldl_keeps`); a rule
leaves the table and the types alone (`Checking.stores_judge`).
-/

namespace ProcScript

section
variable {σ τ α β : Type} {f : σ → α → σ} {g : τ → α → τ}

/-- The members of a list, each with the state in which a run over the list comes to it. -/
def along (f : σ → α → σ) (s : σ) : List α → List (σ × α)
  | []      => []
  | a :: as => (s, a) :: along f (f s a) as

theorem map_snd_along (f : σ → α → σ) (s : σ) (as : List α) :
    (along f s as).map Prod.snd = as := by
  induction as generalizing s with
  | nil => rfl
  | cons a as ih => rw [along, List.map_cons, ih]

/-- What hangs on the members alone is put out in their order. -/
theorem flatMap_snd_along (F : α → List β) (f : σ → α → σ) (s : σ) (as : List α) :
    ((along f s as).flatMap fun m => F m.2) = as.flatMap F := by
  rw [← List.flatMap_map, map_snd_along]

theorem along_append (f : σ → α → σ) (s : σ) (as bs : List α) :
    along f s (as ++ bs) = along f s as ++ along f (as.foldl f s) bs := by
  induction as generalizing s with
  | nil => rfl
  | cons a as ih => rw [List.cons_append, along, ih, along, List.cons_append, List.foldl_cons]

/-- The members of a list, each with those before it. -/
def withEarlier (as : List α) : List (List α × α) := along (fun before a => before ++ [a]) [] as

theorem map_snd_withEarlier (as : List α) : (withEarlier as).map Prod.snd = as :=
  map_snd_along _ [] as

theorem foldl_gather (as : List α) : as.foldl (fun before a => before ++ [a]) [] = as := by
  rw [List.foldl_append_eq_append, List.nil_append, ← List.flatMap_def, List.flatMap_singleton']

theorem withEarlier_append_singleton (as : List α) (a : α) :
    withEarlier (as ++ [a]) = withEarlier as ++ [(as, a)] := by
  rw [withEarlier, along_append, foldl_gather]
  rfl

theorem withEarlier_append_cons (front : List α) (a : α) (back : List α) : ∃ rest,
    withEarlier (front ++ a :: back) = withEarlier front ++ (front, a) :: rest := by
  rw [withEarlier, along_append, foldl_gather, along]
  exact ⟨_, rfl⟩

/-- What each step leaves alone a run leaves alone. -/
theorem foldl_keeps (F : σ → β) (h : ∀ s a, F (f s a) = F s) (s : σ) (as : List α) :
    F (as.foldl f s) = F s := by
  induction as generalizing s with
  | nil => rfl
  | cons a as ih => rw [List.foldl_cons, ih, h]

/-- **Runs that stay related put out the same.**  How they are related may hang on what is still
to come. -/
theorem map_along_eq_of_rest {R : List α → σ → τ → Prop}
    (hstep : ∀ s t a as, R (a :: as) s t → R as (f s a) (g t a))
    {F : σ × α → β} {G : τ × α → β} (hout : ∀ s t a as, R (a :: as) s t → F (s, a) = G (t, a))
    {s : σ} {t : τ} {as : List α} (h : R as s t) :
    (along f s as).map F = (along g t as).map G := by
  induction as generalizing s t with
  | nil => rfl
  | cons a as ih =>
      rw [along, along, List.map_cons, List.map_cons, hout s t a as h, ih (hstep s t a as h)]

theorem map_along_eq {R : σ → τ → Prop} (hstep : ∀ s t a, R s t → R (f s a) (g t a))
    {F : σ × α → β} {G : τ × α → β} (hout : ∀ s t a, R s t → F (s, a) = G (t, a))
    {s : σ} {t : τ} (h : R s t) (as : List α) : (along f s as).map F = (along g t as).map G :=
  map_along_eq_of_rest (R := fun _ => R) (fun s t a _ => hstep s t a) (fun s t a _ => hout s t a) h

/-- The same, for runs that put out lists. -/
theorem flatMap_along_eq {R : σ → τ → Prop} (hstep : ∀ s t a, R s t → R (f s a) (g t a))
    {F : σ × α → List β} {G : τ × α → List β} (hout : ∀ s t a, R s t → F (s, a) = G (t, a))
    {s : σ} {t : τ} (h : R s t) (as : List α) :
    (along f s as).flatMap F = (along g t as).flatMap G := by
  rw [List.flatMap_def, List.flatMap_def, map_along_eq hstep hout h]

end

/-- What is declared before a member is the state of a run that gathers declarations. -/
theorem Env.sites_eq_along {α : Type} (own : α → List Decl) (env : Env) (as : List α) :
    Env.sites own env as = along (fun env a => env ++ own a) env as := by
  induction as generalizing env with
  | nil => rfl
  | cons a as ih => rw [sites, along, ih]

namespace Checking

/-! ### What a rule leaves alone -/

/-- What a run keeps from one procedure to the next. -/
def stores (c : Checking) : ProcedureTable × ExprTypes := (c.procedures, c.types)

theorem stores_require (c : Checking) (expected : Ty) (id : ExprId) (loc : Span) :
    (c.require expected id loc).stores = c.stores := by
  rw [require_eq]
  rfl

theorem stores_declare (c : Checking) (b : Binding) (symbol : SymbolKind) :
    (c.declare b symbol).2.stores = c.stores := by
  rw [declare]
  split <;> rfl

/-- A rule registers no procedure and records no type. -/
theorem stores_judge (c : Checking) (s : Stmt) : (c.judge s).stores = c.stores := by
  cases s with
  | varDef name typeName init span =>
      have hd := c.stores_declare (.var name typeName.ty span init.isSome) .variable
      rw [judge]
      split
      · rename_i c' heq
        rw [heq] at hd
        cases init with
        | none => exact hd
        | some e => exact (stores_require ..).trans hd
      · rename_i c' heq
        rwa [heq] at hd
  | assign target value span =>
      rw [judge]
      cases c.varType? target with
      | none => rfl
      | some type => exact stores_require c type value.id value.span
  | call callee args span =>
      rw [judge]
      split
      · rfl
      · cases c.procedures.find? callee with
        | none => rfl
        | some p =>
            dsimp only
            split
            · rfl
            · exact foldl_keeps stores
                (fun c (arg : Formal × Expr) => stores_require c arg.1.type arg.2.id span) c _
  | ret | ifThen | ifElse | whileDo => rfl

/-! ### Entering a procedure -/

/-- At the first statement of a procedure: its parameters are bound, and nothing else. -/
def enter (c : Checking) (p : Procedure) : Checking :=
  p.params.foldl (fun (c : Checking) q => (c.declare (.param q.formal) .parameter).2)
    { c with scope := .empty }

/-- A body is checked by visiting its statements, from where its procedure is entered. -/
theorem body_eq (c : Checking) (p : Procedure) :
    c.body p = (Block.preorder p.body).foldl visit (c.enter p) := by
  rw [body, block_eq_foldl, enter]

theorem stores_enter (c : Checking) (p : Procedure) : (c.enter p).stores = c.stores :=
  foldl_keeps stores (fun c (q : Param) => stores_declare c (.param q.formal) .parameter)
    { c with scope := .empty } p.params

variable {earlier : List Procedure} {env : Env} {c : Checking}

theorem enter_agrees (h : c.Agrees earlier env) (p : Procedure) :
    (c.enter p).Agrees earlier (p.params.map Param.decl) := by
  obtain ⟨scope, hp, hm⟩ := foldl_declare h.unscoped p.params
  rw [enter, hp]
  exact ⟨hm, h.procedures⟩

theorem foldl_procedure_agrees (h : c.Agrees earlier env) (ps : List Procedure) :
    ∃ env', (ps.foldl procedure c).Agrees (earlier ++ ps) env' := by
  induction ps generalizing c earlier env with
  | nil => exact ⟨env, by simpa using h⟩
  | cons p ps ih => simpa using ih (procedure_agrees h p)

/-! ### Runs and the tree -/

variable {β : Type}

/-- A run over statements puts out what can be told from the places where they stand. -/
theorem flatMap_visits {F : Checking × Stmt → List β} {G : Env × Stmt → List β}
    (hout : ∀ (c : Checking) (env : Env) (s : Stmt), c.Agrees earlier env → F (c, s) = G (env, s))
    (h : c.Agrees earlier env) (ss : List Stmt) :
    (along visit c ss).flatMap F = (Env.sites Stmt.decls env ss).flatMap G := by
  rw [Env.sites_eq_along]
  exact flatMap_along_eq (R := fun (c : Checking) env => c.Agrees earlier env)
    (fun _ _ s h => visit_agrees h s) hout h ss

/-- A run over procedures puts out what can be told from those before each. -/
theorem flatMap_procedures {F : Checking × Procedure → List β}
    {G : List Procedure × Procedure → List β}
    (hout : ∀ (c : Checking) (earlier : List Procedure) (env : Env) (p : Procedure),
      c.Agrees earlier env → F (c, p) = G (earlier, p)) (ps : List Procedure) :
    (along procedure .start ps).flatMap F = (withEarlier ps).flatMap G :=
  flatMap_along_eq (R := fun (c : Checking) earlier => ∃ env, c.Agrees earlier env)
    (fun _ _ p ⟨_, h⟩ => ⟨_, procedure_agrees h p⟩)
    (fun c earlier p ⟨env, h⟩ => hout c earlier env p h) ⟨[], start_agrees⟩ ps

end Checking

end ProcScript
