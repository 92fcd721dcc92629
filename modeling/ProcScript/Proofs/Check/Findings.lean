import ProcScript.Proofs.Check.Types
import ProcScript.Proofs.Syntax.Spans

/-!
# Check — what a checking run can find

Whatever scopes, tables and recorded types it starts from, a checking run takes nothing back of
what was found, and what it adds is about the meaning of the script and stands at a place of the
tree.  `Checking.Adds` says so of two states; it is shown for each rule and carried along lists
by `Checking.Adds.foldl`, up to the checking of a script (`Script.checking_adds`).
-/

namespace ProcScript

/-- What can be found of the returns of a procedure and of what stands behind them. -/
theorem Procedure.returns_cases {p : Procedure} {types : ExprTypes} {d : Diagnostic}
    (h : d ∈ p.returnProblems types ++ p.unreachable) :
    (∃ s ∈ p.body, (∃ actual, d = .typeMismatch p.returns.ty actual s.span) ∨
      ∃ reason, d = .unreachable reason s.span) ∨
    d = .returnCountMismatch p.returnCount p.span := by
  have hproblem : ∀ s, p.returnProblem? types s = some d →
      ∃ actual, d = .typeMismatch p.returns.ty actual s.span := by
    intro s hd
    cases s with
    | ret value span =>
        cases value with
        | none | some value =>
            simp only [returnProblem?] at hd
            split at hd
            · cases hd
            · exact ⟨_, (Option.some.inj hd).symm⟩
    | varDef | call | assign | ifThen | ifElse | whileDo => cases hd
  rw [returnProblems, List.mem_append, List.mem_append, List.mem_filterMap] at h
  rcases h with (⟨s, hs, hd⟩ | hd) | hd
  · exact .inl ⟨s, hs, .inl (hproblem s hd)⟩
  · split at hd
    · cases hd
    · exact .inr (List.mem_singleton.mp hd)
  · obtain ⟨s, hs, rfl⟩ := List.mem_map.mp hd
    have hbody : s ∈ p.body := (List.dropWhile_suffix _).subset (List.mem_of_mem_tail hs)
    exact .inl ⟨s, hbody, .inr ⟨_, rfl⟩⟩

namespace Checking

/-- From `c` to `c'` diagnostics are added, at places in `P`, and none is about the text. -/
def Adds (P : Span → Prop) (c c' : Checking) : Prop :=
  ∃ ds, c'.found = c.found ++ ds ∧ ∀ d ∈ ds, d.isSyntaxError = false ∧ P d.loc

namespace Adds

variable {P : Span → Prop} {c c' c'' : Checking} {d : Diagnostic}

theorem of_found_eq (h : c'.found = c.found) : Adds P c c' :=
  ⟨[], by rw [h, List.append_nil], fun _ hd => absurd hd List.not_mem_nil⟩

theorem refl (c : Checking) : Adds P c c := of_found_eq rfl

theorem trans (h : Adds P c c') (h' : Adds P c' c'') : Adds P c c'' := by
  obtain ⟨ds, hds, hP⟩ := h
  obtain ⟨es, hes, hQ⟩ := h'
  refine ⟨ds ++ es, by rw [hes, hds, List.append_assoc], fun d hd => ?_⟩
  rcases List.mem_append.mp hd with hd | hd
  · exact hP d hd
  · exact hQ d hd

/-- What was found stays found. -/
theorem kept (h : Adds P c c') : c.found <+: c'.found := by
  obtain ⟨ds, hds, -⟩ := h
  exact ⟨ds, hds.symm⟩

theorem report (hd : d.isSyntaxError = false) (h : P d.loc) : Adds P c (c.report d) := by
  refine ⟨[d], rfl, fun e he => ?_⟩
  obtain rfl := List.mem_singleton.mp he
  exact ⟨hd, h⟩

theorem foldl {α : Type} {f : Checking → α → Checking} {as : List α}
    (h : ∀ a ∈ as, ∀ c, Adds P c (f c a)) (c : Checking) : Adds P c (as.foldl f c) := by
  induction as generalizing c with
  | nil => exact refl c
  | cons a as ih =>
      exact (h a List.mem_cons_self c).trans
        (ih (fun b hb => h b (List.mem_cons_of_mem _ hb)) (f c a))

/-! ### The rules -/

theorem require {loc : Span} (h : P loc) (expected : Ty) (id : ExprId) (c : Checking) :
    Adds P c (c.require expected id loc) := by
  rw [Checking.require]
  split
  · exact refl c
  · exact report rfl h

theorem declare {b : Binding} (h : P b.loc) (symbol : SymbolKind) (c : Checking) :
    Adds P c (c.declare b symbol).2 := by
  rw [Checking.declare]
  split
  · exact of_found_eq rfl
  · exact report rfl h

theorem resolveAll (es : List Expr) (c : Checking) : Adds P c (c.resolveAll es) := by
  rw [resolveAll_eq]
  exact of_found_eq rfl

theorem judge {s : Stmt} (h : ∀ x ∈ s.ownSpans, P x) (c : Checking) : Adds P c (c.judge s) := by
  have hspan : P s.span := h _ s.span_mem_ownSpans
  have hexpr : ∀ e ∈ s.exprs, P e.span := fun e he => h _ (s.span_expr_mem_ownSpans he)
  cases s with
  | varDef name typeName init span =>
      have hd : Adds P c (c.declare (.var name typeName.ty span init.isSome) .variable).2 :=
        declare hspan .variable c
      simp only [Checking.judge]
      split
      · rename_i c' heq
        rw [heq] at hd
        cases init with
        | none => exact hd
        | some e => exact hd.trans (require (hexpr e List.mem_cons_self) ..)
      · rename_i c' heq
        rw [heq] at hd
        exact hd
  | assign target value span =>
      simp only [Checking.judge]
      cases c.varType? target with
      | none => exact refl c
      | some type =>
          exact (require (hexpr value List.mem_cons_self) ..).trans (of_found_eq rfl)
  | call callee args span =>
      simp only [Checking.judge]
      split
      · exact refl c
      · cases c.procedures.find? callee with
        | none => exact report rfl hspan
        | some p =>
            dsimp only
            split
            · exact report rfl hspan
            · exact foldl (fun arg _ => require hspan arg.1.type arg.2.id) c
  | ret | ifThen | ifElse | whileDo => exact refl c

theorem visit {s : Stmt} (h : ∀ x ∈ s.ownSpans, P x) (c : Checking) : Adds P c (c.visit s) :=
  (resolveAll s.exprs c).trans (judge h _)

/-! ### Procedures -/

variable {p : Procedure}

theorem body (h : ∀ x ∈ p.spans, P x) (c : Checking) : Adds P c (c.body p) := by
  have hparam : ∀ q ∈ p.params, P q.span := fun q hq => h _ (by
    simp only [Procedure.spans, List.mem_cons, List.mem_append, List.mem_flatMap]
    exact .inr (.inr (.inl ⟨q, hq, List.mem_cons_self⟩)))
  have hstmt : ∀ s ∈ Block.preorder p.body, ∀ x ∈ s.ownSpans, P x := fun s hs x hx => h _ (by
    simp only [Procedure.spans, Block.spans, List.mem_cons, List.mem_append, List.mem_flatMap]
    exact .inr (.inr (.inr ⟨s, hs, hx⟩)))
  rw [Checking.body, block_eq_foldl]
  have hscope : Adds P c { c with scope := .empty } := of_found_eq rfl
  exact (hscope.trans (foldl (fun q hq => declare (hparam q hq) .parameter) _)).trans
    (foldl (fun s hs => visit (hstmt s hs)) _)

theorem register (h : ∀ x ∈ p.spans, P x) (c : Checking) : Adds P c (c.register p) := by
  rw [Checking.register]
  split
  · exact of_found_eq rfl
  · rename_i e he
    -- What is handed back is the procedure itself.
    rw [ProcedureTable.register] at he
    split at he
    · obtain rfl := Except.error.inj he
      exact report rfl (h p.span List.mem_cons_self)
    · cases he

/-- What is found of the returns of a procedure and of what stands behind them. -/
theorem returns (h : ∀ x ∈ p.spans, P x) (types : ExprTypes) :
    ∀ d ∈ p.returnProblems types ++ p.unreachable, d.isSyntaxError = false ∧ P d.loc := by
  have hstmt : ∀ s ∈ p.body, P s.span := fun s hs => h _ (by
    simp only [Procedure.spans, Block.spans, List.mem_cons, List.mem_append, List.mem_flatMap]
    exact .inr (.inr (.inr ⟨s, Block.mem_preorder hs, s.span_mem_ownSpans⟩)))
  intro d hd
  rcases Procedure.returns_cases hd with ⟨s, hs, ⟨actual, rfl⟩ | ⟨reason, rfl⟩⟩ | rfl
  · exact ⟨rfl, hstmt s hs⟩
  · exact ⟨rfl, hstmt s hs⟩
  · exact ⟨rfl, h p.span List.mem_cons_self⟩

theorem procedure (h : ∀ x ∈ p.spans, P x) (c : Checking) : Adds P c (c.procedure p) := by
  have hreg : Adds P c ((c.body p).register p) := (body h c).trans (register h _)
  refine hreg.trans ⟨_, ?_, returns h ((c.body p).register p).types⟩
  rw [Checking.procedure, List.append_assoc]

end Adds

end Checking

/-- **What is found of a script stands at places of its tree and is about its meaning.** -/
theorem Script.checking_adds (s : Script) :
    Checking.Adds (· ∈ s.spans) .start s.checking :=
  Checking.Adds.foldl (fun p hp => Checking.Adds.procedure fun _ hx =>
    List.mem_flatMap.mpr ⟨p, hp, hx⟩) _

end ProcScript
