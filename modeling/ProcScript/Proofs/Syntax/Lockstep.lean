import ProcScript.Proofs.Syntax.Recovery
import ProcScript.Proofs.Syntax.Setting

/-!
# Syntax — readers in lockstep

**A reader reads the same in every setting** (`Setting.Shows.procedures`): the procedures and
what is found are those it reads by itself with the labels of the setting, and where its tokens
end, what stands behind them is read as if nothing had been before.  Each function of the reader
is followed through its own recursion.  None of them passes a `def` but the one that reads
procedures, so none leaves the tokens that are its own.
-/

namespace ProcScript

theorem Reader.procedures_nil {r : Reader} (h : r.rest = []) : r.procedures = ([], r) := by
  rw [procedures, next?_eq_none_iff.mpr h]

namespace Setting

open Reader

variable {S : Setting} {r r' : Reader}

/-! ### Expressions -/

theorem follows_literal {t : Token} {n n' : Nat} (h : S.Shows r r') (hlt : r.rest.length < n)
    (hlt' : r'.rest.length < n') :
    S.Follows Eq (literal t r hlt) (literal (t.relabel S.label) r' hlt') := by
  rw [literal, literal, Token.lexeme_relabel]
  split
  · exact .ok _ _ rfl h
  · exact .ok _ _ rfl (h.report rfl)

theorem follows_variableName {t : Token} {n n' : Nat} (h : S.Shows r r')
    (hlt : r.rest.length < n) (hlt' : r'.rest.length < n') :
    S.Follows Eq (variableName t r hlt) (variableName (t.relabel S.label) r' hlt') := by
  rw [variableName, variableName]
  simp only [h.peek_eq_iff (k := .leftParen) (by decide) (by decide)]
  split
  · refine .fail _ _ (h.report ?_)
    rw [h.current_of_peek ‹_› (by decide), Token.lexeme_relabel, Token.span_relabel,
      Token.span_relabel, ← S.label.merge]
    rfl
  · exact .ok _ _ rfl h

/-- The expressions of readers with fewer than `n` tokens to come are read alike. -/
def ExprsBelow (S : Setting) (n : Nat) : Prop :=
  ∀ u u' level, u.rest.length < n → S.Shows u u' →
    S.Follows (S.To Expr.relabel) (u.expr level) (u'.expr level)

theorem ExprsBelow.mono {m n : Nat} (h : S.ExprsBelow n) (hle : m ≤ n) : S.ExprsBelow m :=
  fun u u' level hu => h u u' level (Nat.lt_of_lt_of_le hu hle)

theorem follows_operators (min : Nat) (left : Expr) {r r' : Reader}
    (h : S.Shows r r') (he : S.ExprsBelow r.rest.length) :
    S.Follows (S.To Expr.relabel) (r.operators min left)
      (r'.operators min (left.relabel S.label)) := by
  rw [operators, operators]
  rcases h.next? with ⟨-, hn, hn' | ⟨d, s', hn', hk⟩⟩ | ⟨t, s, s', hlt, hlt', hn, hn', -, hs⟩
  · simp only [hn, hn']
    exact .ok _ _ rfl h
  · simp only [hn, hn', hk, Kind.binaryOp?]
    exact .ok _ _ rfl h
  · simp only [hn, hn', Token.kind_relabel]
    split
    · exact .ok _ _ rfl h
    · rename_i level op hop
      split
      · exact .ok _ _ rfl h
      · have hright : S.Follows S.Node
            ((s.expr (level + 1)).map fun right id =>
              Expr.binary op left right id (left.span.merge right.span))
            ((s'.expr (level + 1)).map fun right id =>
              Expr.binary op (left.relabel S.label) right id
                ((left.relabel S.label).span.merge right.span)) := by
          refine (he s s' (level + 1) hlt hs).map ?_
          rintro right _ rfl id
          simp [Expr.relabel, S.label.merge]
        obtain ⟨e, _, u, u', hu, hu', heq, heq', rfl, hs⟩ | ⟨u, u', hu, hu', heq, heq', hs⟩ :=
          hright.number.cases
        · have hshorter : u.rest.length < r.rest.length := Nat.lt_trans hu hlt
          simp only [heq, heq']
          exact (follows_operators min e hs (he.mono (Nat.le_of_lt hshorter))).mono _ _
        · simp only [heq, heq']
          exact .fail _ _ hs
termination_by r.rest.length

theorem follows_operand (h : S.Shows r r') (he : S.ExprsBelow r.rest.length) :
    S.Follows (S.To Expr.relabel) r.operand r'.operand := by
  rw [operand, operand]
  rcases h.next? with ⟨-, hn, hn' | ⟨d, s', hn', hk⟩⟩ | ⟨t, s, s', hlt, hlt', hn, hn', -, hs⟩
  · simp only [hn, hn']
    exact follows_failExpected _ h
  · simp only [hn, hn', hk]
    exact follows_failExpected _ h
  · simp only [hn, hn', Token.kind_relabel, Token.span_relabel]
    split
    · exact ((follows_literal hs hlt hlt').map fun _ _ hv _ => hv ▸ rfl).number
    · exact (Follows.ok hlt hlt' (fun _ => rfl) hs).number
    · exact (Follows.ok hlt hlt' (fun _ => rfl) hs).number
    · exact ((follows_variableName hs hlt hlt').map fun _ _ hv _ => hv ▸ rfl).number
    · refine (((he s s' tightest hlt hs).map ?_).number).past hlt hlt'
      rintro e _ rfl id
      simp [Expr.relabel, S.label.merge]
    · refine (((he s s' tightest hlt hs).map ?_).number).past hlt hlt'
      rintro e _ rfl id
      simp [Expr.relabel, S.label.merge]
    · refine (((he s s' 1 hlt hs).bind ?_).number).past hlt hlt'
      rintro e _ u u' - - rfl hu
      refine (follows_expect hu (by decide)).map ?_
      rintro close _ rfl id
      simp [Expr.relabel, S.label.merge]
    · exact follows_failExpected _ h

theorem follows_expr (min : Nat) {r r' : Reader} (h : S.Shows r r') :
    S.Follows (S.To Expr.relabel) (r.expr min) (r'.expr min) := by
  have he : S.ExprsBelow r.rest.length := fun u u' level _ hu => follows_expr level hu
  rw [expr, expr]
  obtain ⟨e, _, u, u', hu, hu', heq, heq', rfl, hs⟩ | ⟨u, u', hu, hu', heq, heq', hs⟩ :=
    (follows_operand h he).cases
  · simp only [heq, heq']
    exact (follows_operators min e hs (he.mono (Nat.le_of_lt hu))).mono _ _
  · simp only [heq, heq']
    exact .fail _ _ hs
termination_by r.rest.length

theorem follows_expressions {r r' : Reader} (h : S.Shows r r') :
    S.Follows (S.To fun m => List.map (Expr.relabel m)) r.expressions r'.expressions := by
  rw [expressions, expressions]
  refine (follows_expr 1 h).bind ?_
  rintro e _ s s' hlt - rfl hs
  obtain ⟨heq, heq'⟩ | ⟨u, u', hu, hu', heq, heq', hs'⟩ := hs.eat? (k := .comma) (by decide)
  · simp only [heq, heq']
    exact follows_last hs (by decide) fun _ => rfl
  · simp only [heq, heq']
    refine ((follows_expressions hs').map ?_).past hu hu'
    rintro es _ rfl
    rfl
termination_by r.rest.length

theorem follows_arguments (h : S.Shows r r') :
    S.Follows (S.To fun m => List.map (Expr.relabel m)) r.arguments r'.arguments := by
  rw [arguments, arguments]
  simp only [h.peek_eq_iff (k := .rightParen) (by decide) (by decide)]
  split
  · exact follows_last h (by decide) fun _ => rfl
  · exact follows_expressions h

/-! ### Statements -/

theorem follows_typeName (h : S.Shows r r') :
    S.Follows (S.To TypeName.relabel) r.typeName r'.typeName :=
  follows_last h (by decide) fun _ => rfl

theorem follows_varDef {start : Span} (h : S.Shows r r') :
    S.Follows (S.To Stmt.relabel) (r.varDef start) (r'.varDef (S.label.span start)) := by
  rw [varDef, varDef]
  refine (follows_expect h (by decide)).bind ?_
  rintro name _ s s' - - rfl hs
  refine (follows_expect hs (by decide)).bind ?_
  rintro - - s s' - - - hs
  refine (follows_typeName hs).bind ?_
  rintro type _ s s' - - rfl hs
  obtain ⟨heq, heq'⟩ | ⟨u, u', hu, hu', heq, heq', hs'⟩ := hs.eat? (k := .colonEqual) (by decide)
  · simp only [heq, heq']
    exact follows_last hs (by decide) fun _ => by simp [Stmt.relabel, S.label.merge]
  · simp only [heq, heq']
    refine Follows.past ((follows_expr 1 hs').bind ?_) hu hu'
    rintro e _ s s' - - rfl hs
    exact follows_last hs (by decide) fun _ => by simp [Stmt.relabel, S.label.merge]

theorem follows_returnStmt {start : Span} (h : S.Shows r r') :
    S.Follows (S.To Stmt.relabel) (r.returnStmt start) (r'.returnStmt (S.label.span start)) := by
  rw [returnStmt, returnStmt]
  simp only [h.peek_eq_iff (k := .semicolon) (by decide) (by decide)]
  split
  · exact follows_last h (by decide) fun _ => by simp [Stmt.relabel, S.label.merge]
  · refine (follows_expr 1 h).bind ?_
    rintro e _ s s' - - rfl hs
    exact follows_last hs (by decide) fun _ => by simp [Stmt.relabel, S.label.merge]

theorem follows_call {name : Token} (h : S.Shows r r') :
    S.Follows (S.To Stmt.relabel) (r.call name) (r'.call (name.relabel S.label)) := by
  rw [call, call]
  refine (follows_expect h (by decide)).bind ?_
  rintro - - s s' - - - hs
  refine (follows_arguments hs).bind ?_
  rintro args _ s s' - - rfl hs
  exact follows_last hs (by decide) fun _ => by simp [Stmt.relabel, S.label.merge]

theorem follows_assign {name : Token} (h : S.Shows r r') :
    S.Follows (S.To Stmt.relabel) (r.assign name) (r'.assign (name.relabel S.label)) := by
  rw [assign, assign]
  refine (follows_expect h (by decide)).bind ?_
  rintro - - s s' - - - hs
  refine (follows_expr 1 hs).bind ?_
  rintro e _ s s' - - rfl hs
  exact follows_last hs (by decide) fun _ => by simp [Stmt.relabel, S.label.merge]

theorem follows_callOrAssign {name : Token} (h : S.Shows r r') :
    S.Follows (S.To Stmt.relabel) (r.callOrAssign name)
      (r'.callOrAssign (name.relabel S.label)) := by
  rw [callOrAssign, callOrAssign]
  split
  · rw [(h.peek_eq_iff (k := .leftParen) (by decide) (by decide)).mpr ‹_›]
    exact follows_call h
  · rw [(h.peek_eq_iff (k := .colonEqual) (by decide) (by decide)).mpr ‹_›]
    exact follows_assign h
  · rename_i hcall hassign
    have hcall := mt (h.peek_eq_iff (k := .leftParen) (by decide) (by decide)).mp hcall
    have hassign := mt (h.peek_eq_iff (k := .colonEqual) (by decide) (by decide)).mp hassign
    split
    · contradiction
    · contradiction
    · exact follows_failExpected _ h

/-- The blocks are read alike. -/
structure FollowsBlock {n n' : Nat} (S : Setting) (b : Reader.Block n) (b' : Reader.Block n') :
    Prop where
  stmts : b'.stmts = Block.relabel S.label b.stmts
  after : S.Shows b.after b'.after

theorem FollowsBlock.bind {α : Type} {n n' : Nat} {b : Reader.Block n} {b' : Reader.Block n'}
    {V : α → α → Prop}
    {k : List Stmt → (s : Reader) → s.rest.length ≤ n → Outcome α s.rest.length}
    {k' : List Stmt → (s : Reader) → s.rest.length ≤ n' → Outcome α s.rest.length}
    (h : S.FollowsBlock b b')
    (hk : ∀ ss s s' hs hs', S.Shows s s' →
      S.Follows V (k ss s hs) (k' (Block.relabel S.label ss) s' hs')) :
    S.Follows V (b.bind k) (b'.bind k') := by
  rw [Block.bind, Block.bind, h.stmts]
  exact (hk _ _ _ _ _ h.after).mono _ _

/-- The blocks of readers with fewer than `n` tokens to come are read alike. -/
def BlocksBelow (S : Setting) (n : Nat) : Prop :=
  ∀ u u' closers, u.rest.length < n → S.Shows u u' →
    S.FollowsBlock (u.block closers) (u'.block closers)

theorem follows_ifStmt {start : Span} (h : S.Shows r r') (hb : S.BlocksBelow r.rest.length) :
    S.Follows (S.To Stmt.relabel) (r.ifStmt start) (r'.ifStmt (S.label.span start)) := by
  rw [ifStmt, ifStmt]
  refine (follows_expr 1 h).bind ?_
  rintro e _ s s' hlt - rfl hs
  refine (follows_expect hs (by decide)).bind ?_
  rintro - - u u' hlt' - - hu
  have hshorter := Nat.lt_trans hlt' hlt
  refine (hb u u' [.kwElse, .kwEnd] hshorter hu).bind ?_
  rintro body v v' hle - hv
  obtain ⟨heq, heq'⟩ | ⟨w, w', hw, hw', heq, heq', hs'⟩ := hv.eat? (k := .kwElse) (by decide)
  · simp only [heq, heq']
    exact follows_last hv (by decide) fun _ => by simp [Stmt.relabel, S.label.merge]
  · -- The second block starts behind the first one, so it is one of a shorter reader too.
    have hshorter := Nat.lt_trans (Nat.lt_of_lt_of_le hw hle) hshorter
    simp only [heq, heq']
    refine Follows.past ((hb w w' [.kwEnd] hshorter hs').bind ?_) hw hw'
    rintro other s s' - - hs
    exact follows_last hs (by decide) fun _ => by simp [Stmt.relabel, S.label.merge]

theorem follows_whileStmt {start : Span} (h : S.Shows r r') (hb : S.BlocksBelow r.rest.length) :
    S.Follows (S.To Stmt.relabel) (r.whileStmt start) (r'.whileStmt (S.label.span start)) := by
  rw [whileStmt, whileStmt]
  refine (follows_expr 1 h).bind ?_
  rintro e _ s s' hlt - rfl hs
  refine (follows_expect hs (by decide)).bind ?_
  rintro - - u u' hlt' - - hu
  refine (hb u u' [.kwEnd] (Nat.lt_trans hlt' hlt) hu).bind ?_
  rintro body s s' - - hs
  exact follows_last hs (by decide) fun _ => by simp [Stmt.relabel, S.label.merge]

theorem follows_stmt {t : Token} (h : S.Shows r r') (ht : t.kind ≠ .eof)
    (hb : S.BlocksBelow r.rest.length) :
    S.Follows (S.To Stmt.relabel) (r.stmt t) (r'.stmt (t.relabel S.label)) := by
  rw [stmt, stmt, Token.kind_relabel, Token.span_relabel]
  split
  · exact follows_varDef h
  · exact follows_returnStmt h
  · exact follows_ifStmt h hb
  · exact follows_whileStmt h hb
  · exact follows_callOrAssign h
  · exact .fail _ _ (h.report (retell_expected .statement ht))

theorem follows_block (closers : List Kind) {r r' : Reader} (h : S.Shows r r') :
    S.FollowsBlock (r.block closers) (r'.block closers) := by
  have hb : S.BlocksBelow r.rest.length := fun u u' closers _ hu => follows_block closers hu
  rw [block, block]
  rcases h.next? with ⟨-, hn, hn' | ⟨d, s', hn', hk⟩⟩ | ⟨t, s, s', hlt, hlt', hn, hn', ht, hs⟩
  · simp only [hn, hn']
    exact ⟨rfl, h⟩
  · simp only [hn, hn', hk, true_or, if_true]
    exact ⟨rfl, h⟩
  · simp only [hn, hn', Token.kind_relabel]
    by_cases hclose : t.kind = .kwDef ∨ t.kind ∈ closers
    · simp only [hclose, if_true]
      exact ⟨rfl, h⟩
    · simp only [hclose, if_false]
      obtain ⟨a, _, u, u', hu, hu', heq, heq', rfl, hs⟩ | ⟨u, u', hu, hu', heq, heq', hs⟩ :=
        (follows_stmt hs ht fun v v' closers hv => hb v v' closers (Nat.lt_trans hv hlt)).cases
      · simp only [heq, heq']
        obtain ⟨hstmts, hafter⟩ := hb u u' closers (Nat.lt_trans hu hlt) hs
        exact ⟨by simp [Block.mono, Block.cons, hstmts, Block.relabel], hafter⟩
      · simp only [heq, heq']
        have hle := Nat.le_trans (length_toBoundary_le u) hu
        obtain ⟨hstmts, hafter⟩ :=
          hb u.toBoundary u'.toBoundary closers (Nat.lt_of_le_of_lt hle hlt) hs.toBoundary
        exact ⟨hstmts, hafter⟩
termination_by r.rest.length

/-! ### Procedures -/

theorem follows_param (h : S.Shows r r') :
    S.Follows (S.To Param.relabel) r.param r'.param := by
  rw [param, param]
  refine (follows_expect h (by decide)).bind ?_
  rintro name _ s s' - - rfl hs
  refine (follows_expect hs (by decide)).bind ?_
  rintro - - s s' - - - hs
  refine (follows_typeName hs).map ?_
  rintro type _ rfl
  simp [To, Param.relabel, TypeName.relabel, S.label.merge]

theorem follows_paramList {r r' : Reader} (h : S.Shows r r') :
    S.Follows (S.To fun m => List.map (Param.relabel m)) r.paramList r'.paramList := by
  rw [paramList, paramList]
  refine (follows_param h).bind ?_
  rintro q _ s s' hlt - rfl hs
  obtain ⟨heq, heq'⟩ | ⟨u, u', hu, hu', heq, heq', hs'⟩ := hs.eat? (k := .comma) (by decide)
  · simp only [heq, heq']
    exact follows_last hs (by decide) fun _ => rfl
  · simp only [heq, heq']
    refine ((follows_paramList hs').map ?_).past hu hu'
    rintro qs _ rfl
    rfl
termination_by r.rest.length

theorem follows_params (h : S.Shows r r') :
    S.Follows (S.To fun m => List.map (Param.relabel m)) r.params r'.params := by
  rw [params, params]
  simp only [h.peek_eq_iff (k := .rightParen) (by decide) (by decide)]
  split
  · exact follows_last h (by decide) fun _ => rfl
  · exact follows_paramList h

theorem follows_procedure (start : Span) (h : S.Shows r r') :
    S.Follows (S.To Procedure.relabel) (r.procedure start)
      (r'.procedure (S.label.span start)) := by
  rw [procedure, procedure]
  refine (follows_expect h (by decide)).bind ?_
  rintro name _ s s' - - rfl hs
  refine (follows_expect hs (by decide)).bind ?_
  rintro - - s s' - - - hs
  refine (follows_params hs).bind ?_
  rintro params _ s s' - - rfl hs
  refine (follows_expect hs (by decide)).bind ?_
  rintro - - s s' - - - hs
  refine (follows_typeName hs).bind ?_
  rintro returns _ s s' - - rfl hs
  refine (follows_expect hs (by decide)).bind ?_
  rintro - - s s' - - - hs
  refine (follows_block [.kwEnd] hs).bind ?_
  rintro body s s' - - hs
  exact follows_last hs (by decide) fun _ => by simp [Procedure.relabel, S.label.merge]

theorem Shows.pastStray {t : Token} (h : S.Shows r r') (ht : t.kind ≠ .eof) :
    S.Shows (r.pastStray t) (r'.pastStray (t.relabel S.label)) :=
  (h.report (retell_expected _ ht)).toDef

/-- **A reader reads the same in every setting.**  It reads its procedures there, and behind them
what stands behind its tokens is read. -/
theorem Shows.procedures {r r' : Reader} (h : S.Shows r r') :
    ∃ u', S.Shows r.procedures.2 u' ∧
      r'.procedures = (r.procedures.1.map (Procedure.relabel S.label) ++ u'.procedures.1,
        u'.procedures.2) := by
  fun_induction Reader.procedures r generalizing r' with
  | case1 r hn => exact ⟨r', h, by simp⟩
  | case2 r t s hlt hn hd p u hu hok ps last hps ih =>
      obtain ⟨s', hlt', hn', -, hs⟩ := h.next?_of_some hn
      obtain ⟨_, u', hu', hok', rfl, hafter⟩ :=
        (follows_procedure t.span hs).of_ok hok
      obtain ⟨v', hv, hrest⟩ := ih hafter
      rw [hps] at hv hrest
      refine ⟨v', hv, ?_⟩
      rw [Reader.procedures.eq_def r']
      simp only [hn', Token.kind_relabel, hd, if_true, Token.span_relabel, hok', hrest]
      rfl
  | case3 r t s hlt hn hd u hu hfail hle ih =>
      obtain ⟨s', hlt', hn', -, hs⟩ := h.next?_of_some hn
      obtain ⟨u', hu', hfail', hafter⟩ := (follows_procedure t.span hs).of_fail hfail
      rw [Reader.procedures.eq_def r']
      simp only [hn', Token.kind_relabel, hd, if_true, Token.span_relabel, hfail']
      exact ih hafter.toDef
  | case4 r t s hlt hn hd hle ih =>
      obtain ⟨s', hlt', hn', ht, hs⟩ := h.next?_of_some hn
      rw [Reader.procedures.eq_def r']
      simp only [hn', Token.kind_relabel, hd, if_false]
      exact ih (hs.pastStray ht)

/-- With nothing behind its tokens a reader ends in the setting where it ends by itself. -/
theorem Shows.procedures_of_tail {r r' : Reader} (h : S.Shows r r') (ht : S.tail = []) :
    r'.procedures = (r.procedures.1.map (Procedure.relabel S.label), S.view r.procedures.2) := by
  obtain ⟨u', hu, hrest⟩ := h.procedures
  have hend : u'.rest = [] := by simp [hu.eq, view, procedures_rest, ht]
  rw [hrest, procedures_nil hend, List.append_nil, hu.eq]

end Setting

end ProcScript
