import ProcScript.Proofs.Syntax.Ends
import ProcScript.Proofs.Syntax.Passage
import ProcScript.Proofs.Syntax.Spans
import ProcScript.Reader.Script

/-!
# Syntax — where a reading points

All that a reader knows of places it has from tokens.  A span in the tree is that of a token it
passed, or joins spans of such tokens (`Span.Joins`); what it reports points at one token, which
may be the `eof` behind the others, or at a name and a `(` (`Diagnostic.ReadFrom`).
A reader that has kept to this is `Within` the reader it started as, and `Outcome.Stays` says
that a reading keeps to it, whether it succeeds or fails; it is closed under the combinators of
readings.  So the spans and the diagnostics of a whole script are known
(`Script.joined_ofTokens`, `Script.readFrom_ofTokens`), those of dropped trees included.
-/

namespace ProcScript

/-- The span of one of the tokens, or what joins two such spans. -/
inductive Span.Joins (ts : List Token) : Span → Prop
  | token {t : Token} (h : t ∈ ts) : Joins ts t.span
  | merge {a b : Span} (ha : Joins ts a) (hb : Joins ts b) : Joins ts (a.merge b)

/-- All of the spans are those of tokens or join such spans. -/
def Span.Joined (ts : List Token) (spans : List Span) : Prop := ∀ x ∈ spans, Joins ts x

namespace Span

variable {ts : List Token} {x : Span} {xs ys : List Span}

@[simp] theorem joined_nil : Joined ts [] := nofun

@[simp] theorem joined_cons : Joined ts (x :: xs) ↔ Joins ts x ∧ Joined ts xs :=
  List.forall_mem_cons

@[simp] theorem joined_append : Joined ts (xs ++ ys) ↔ Joined ts xs ∧ Joined ts ys :=
  List.forall_mem_append

end Span

/-- What a reader may report that starts as `r₀`. -/
inductive Diagnostic.ReadFrom (r₀ : Reader) : Diagnostic → Prop
  /-- A token, or the end, stands where something else was looked for. -/
  | expected (what : Expected) {t : Token} (h : t ∈ r₀.rest ∨ t = r₀.stop) :
      ReadFrom r₀ (.syntaxError (.expected what t.kind) t.span)
  /-- A literal is out of range. -/
  | outOfRange {t : Token} (h : t ∈ r₀.rest) :
      ReadFrom r₀ (.syntaxError (.outOfRange t.lexeme) t.span)
  /-- A name and a `(` stand where a value was looked for. -/
  | callAsValue {t u : Token} (h : t ∈ r₀.rest) (h' : u ∈ r₀.rest) (hu : u.kind = .leftParen) :
      ReadFrom r₀ (.syntaxError (.callAsValue t.lexeme) (t.span.merge u.span))

namespace Reader

/-- `r` reads on where `r₀` started, and what it has reported is read from there. -/
structure Within (r₀ r : Reader) : Prop where
  rest : r.rest ⊆ r₀.rest
  stop : r.stop = r₀.stop
  ended : r₀.stop.kind = .eof
  found : ∀ d ∈ r.found, d.ReadFrom r₀

variable {r₀ r s : Reader} {t : Token} {ts : List Token}

namespace Within

/-- Tokens are passed and nothing is reported. -/
theorem passes (h : r₀.Within r) (hp : r.Passes s ts []) : r₀.Within s where
  rest _ hu := h.rest (hp.rest ▸ List.mem_append_right ts hu)
  stop := hp.stop.trans h.stop
  ended := h.ended
  found := by
    rw [hp.found, List.append_nil]
    exact h.found

theorem report (h : r₀.Within r) {error : SyntaxError} {loc : Span}
    (hd : (Diagnostic.syntaxError error loc).ReadFrom r₀) : r₀.Within (r.report error loc) where
  rest := h.rest
  stop := h.stop
  ended := h.ended
  found := by
    rw [Reader.report, List.forall_mem_append, List.forall_mem_singleton]
    exact ⟨h.found, hd⟩

theorem nextId (h : r₀.Within r) (id : ExprId) : r₀.Within { r with nextId := id } :=
  h.passes (.nextId r id)

theorem next? (h : r₀.Within r) {s : { s : Reader // s.rest.length < r.rest.length }}
    (hn : r.next? = some (t, s)) : t ∈ r₀.rest ∧ r₀.Within s.val := by
  have hp := passes_next? hn
  exact ⟨h.rest (hp.rest ▸ List.mem_cons_self), h.passes hp⟩

theorem eat? (h : r₀.Within r) {kind : Kind} {s : { s : Reader // s.rest.length < r.rest.length }}
    (he : r.eat? kind = some s) : r₀.Within s.val := by
  obtain ⟨t, -, hp⟩ := passes_eat? he
  exact h.passes hp

theorem toBoundary (h : r₀.Within r) : r₀.Within r.toBoundary := by
  obtain ⟨ts, hp⟩ := passes_toBoundary r
  exact h.passes hp

theorem toDef (h : r₀.Within r) : r₀.Within r.toDef := by
  obtain ⟨ts, hp⟩ := passes_toDef r
  exact h.passes hp

/-- What comes next is one of the tokens, or the end. -/
theorem current (h : r₀.Within r) : r.current ∈ r₀.rest ∨ r.current = r₀.stop := by
  rw [Reader.current]
  cases hr : r.rest with
  | nil => exact .inr h.stop
  | cons t ts => exact .inl (h.rest (by simp [hr]))

theorem current_of_peek (h : r₀.Within r) (hk : r.peek ≠ .eof) : r.current ∈ r₀.rest := by
  refine h.current.resolve_right fun hstop => hk ?_
  rw [peek, hstop, h.ended]

end Within

end Reader

/-! ### Readings -/

/-- The reading keeps within `r₀`, and if it succeeds the spans of its value join tokens. -/
def Outcome.Stays {α : Type} {n : Nat} (o : Outcome α n) (r₀ : Reader) (spans : α → List Span) :
    Prop :=
  o.Ends (fun a s => r₀.Within s ∧ Span.Joined r₀.rest (spans a)) r₀.Within

namespace Outcome.Stays

variable {α β : Type} {m n : Nat} {r₀ : Reader} {v : α → List Span} {w : β → List Span}

theorem past {o : Outcome α m} (h : o.Stays r₀ v) (hlt : m < n) : (o.past hlt).Stays r₀ v :=
  Ends.past h hlt

theorem map {o : Outcome α n} {f : α → β} (h : o.Stays r₀ v)
    (hf : ∀ a, Span.Joined r₀.rest (v a) → Span.Joined r₀.rest (w (f a))) :
    (o.map f).Stays r₀ w :=
  Ends.map (Ends.imp h (fun a _ ha => ⟨ha.1, hf a ha.2⟩) fun _ => id)

theorem bind {o : Outcome α n} {k : α → (s : Reader) → s.rest.length < n → Outcome β s.rest.length}
    (h : o.Stays r₀ v)
    (hk : ∀ a s hs, r₀.Within s → Span.Joined r₀.rest (v a) → (k a s hs).Stays r₀ w) :
    (o.bind k).Stays r₀ w :=
  Ends.bind h fun a s hs ha => hk a s hs ha.1 ha.2

theorem number {o : Outcome (ExprId → Expr) n}
    (h : ∀ id, o.Stays r₀ fun node => (node id).spans) : o.number.Stays r₀ Expr.spans := by
  cases o with
  | ok node s hs =>
      obtain ⟨hs, hj⟩ := h s.nextId
      exact ⟨hs.nextId _, hj⟩
  | fail s hs => exact h 0

end Outcome.Stays

namespace Reader

variable {r₀ r s : Reader} {t : Token}

theorem stays_failExpected {α : Type} {spans : α → List Span} (what : Expected)
    (h : r₀.Within r) : (r.failExpected what).Stays r₀ spans :=
  h.report (.expected what h.current)

theorem stays_expect (kind : Kind) (h : r₀.Within r) :
    (r.expect kind).Stays r₀ fun t => [t.span] := by
  rw [expect]
  split
  · rename_i t s hlt hn
    split
    · obtain ⟨ht, hs⟩ := h.next? hn
      exact ⟨hs, by simpa using Span.Joins.token ht⟩
    · exact stays_failExpected _ h
  · exact stays_failExpected _ h

/-- The token at the end of what starts at `start`. -/
theorem stays_close {start : Span} (kind : Kind) (h : r₀.Within r)
    (hstart : Span.Joins r₀.rest start) :
    (r.expect kind).Stays r₀ fun t => [start.merge t.span] :=
  (stays_expect kind h).imp (fun _ _ ht => ⟨ht.1, by
    simpa using hstart.merge (ht.2 _ List.mem_cons_self)⟩) fun _ => id

theorem stays_typeName (h : r₀.Within r) : r.typeName.Stays r₀ fun a => [a.span] :=
  (stays_expect _ h).map fun _ => id

/-! ### Expressions -/

theorem stays_literal {n : Nat} {hlt : s.rest.length < n} (ht : t ∈ r₀.rest) (h : r₀.Within s) :
    (literal t s hlt).Stays r₀ fun _ => [] := by
  rw [literal]
  split
  · exact ⟨h, Span.joined_nil⟩
  · exact ⟨h.report (.outOfRange ht), Span.joined_nil⟩

theorem stays_variableName {n : Nat} {hlt : s.rest.length < n} (ht : t ∈ r₀.rest)
    (h : r₀.Within s) : (variableName t s hlt).Stays r₀ fun _ => [] := by
  rw [variableName]
  split
  · rename_i hk
    exact h.report (.callAsValue ht (h.current_of_peek (by simp [hk])) hk)
  · exact ⟨h, Span.joined_nil⟩

/-- The operators behind an expression, if the expressions of shorter readers are known. -/
theorem stays_operators (min : Nat) {left : Expr} {s : Reader}
    (hs : ∀ u : Reader, u.rest.length < s.rest.length → r₀.Within u →
      ∀ level, (u.expr level).Stays r₀ Expr.spans)
    (h : r₀.Within s) (hl : Span.Joined r₀.rest left.spans) :
    (s.operators min left).Stays r₀ Expr.spans := by
  rw [operators]
  split
  · exact ⟨h, hl⟩
  · rename_i t s' hlt hn
    split
    · exact ⟨h, hl⟩
    · rename_i level op hop
      split
      · exact ⟨h, hl⟩
      · have hr := Outcome.Stays.number fun id =>
          (hs s' hlt (h.next? hn).2 (level + 1)).map
            (f := fun right id => Expr.binary op left right id (left.span.merge right.span))
            (w := fun node => (node id).spans) fun right hr => by
              have hm := Span.Joins.merge (hl _ left.span_mem_spans) (hr _ right.span_mem_spans)
              simp [Expr.spans, hm, hl, hr]
        split
        · rename_i e s'' hlt' heq
          rw [heq] at hr
          have hlt'' : s''.rest.length < s.rest.length := Nat.lt_trans hlt' hlt
          exact (stays_operators min (fun u hu => hs u (Nat.lt_trans hu hlt'')) hr.1 hr.2).mono _
        · rename_i s'' hle heq
          rw [heq] at hr
          exact hr
termination_by s.rest.length

/-- An operand, if the expressions of shorter readers are known. -/
theorem stays_operand (hr : ∀ u : Reader, u.rest.length < r.rest.length → r₀.Within u →
    ∀ level, (u.expr level).Stays r₀ Expr.spans) (h : r₀.Within r) :
    r.operand.Stays r₀ Expr.spans := by
  rw [operand]
  split
  · exact stays_failExpected _ h
  · rename_i t s hlt hn
    obtain ⟨ht, hs⟩ := h.next? hn
    have hj : Span.Joins r₀.rest t.span := .token ht
    split
    · exact .number fun _ => (stays_literal ht hs).map fun _ _ => by simpa [Expr.spans] using hj
    · exact .number fun _ => ⟨hs, by simpa [Expr.spans] using hj⟩
    · exact .number fun _ => ⟨hs, by simpa [Expr.spans] using hj⟩
    · exact .number fun _ => (stays_variableName ht hs).map fun _ _ => by
        simpa [Expr.spans] using hj
    · exact (Outcome.Stays.number fun _ => (hr s hlt hs tightest).map fun e he => by
        simp [Expr.spans, he, hj.merge (he _ e.span_mem_spans)]).past hlt
    · exact (Outcome.Stays.number fun _ => (hr s hlt hs tightest).map fun e he => by
        simp [Expr.spans, he, hj.merge (he _ e.span_mem_spans)]).past hlt
    · refine (Outcome.Stays.number fun _ => (hr s hlt hs 1).bind fun e u _ hu he => ?_).past hlt
      exact (stays_close _ hu hj).map fun close hc => by simpa [Expr.spans, he] using hc
    · exact stays_failExpected _ h

theorem stays_expr (min : Nat) (r : Reader) (h : r₀.Within r) :
    (r.expr min).Stays r₀ Expr.spans := by
  have hr : ∀ u : Reader, u.rest.length < r.rest.length → r₀.Within u →
      ∀ level, (u.expr level).Stays r₀ Expr.spans := fun u _ hu level => stays_expr level u hu
  have ho := stays_operand hr h
  rw [expr]
  split
  · rename_i left s hlt heq
    rw [heq] at ho
    exact (stays_operators min (fun u hu => hr u (Nat.lt_trans hu hlt)) ho.1 ho.2).mono hlt
  · rename_i s hle heq
    rw [heq] at ho
    exact ho
termination_by r.rest.length

/-! ### Lists -/

theorem stays_expressions (r : Reader) (h : r₀.Within r) :
    r.expressions.Stays r₀ fun es => es.flatMap Expr.spans := by
  rw [expressions]
  refine (stays_expr 1 r h).bind fun e s _ hs he => ?_
  split
  · rename_i u hlt heq
    exact ((stays_expressions u (hs.eat? heq)).map fun es hes => by simp [he, hes]).past hlt
  · exact (stays_expect _ hs).map fun _ _ => by simpa using he
termination_by r.rest.length

theorem stays_arguments (h : r₀.Within r) :
    r.arguments.Stays r₀ fun es => es.flatMap Expr.spans := by
  rw [arguments]
  split
  · exact (stays_expect _ h).map fun _ _ => Span.joined_nil
  · exact stays_expressions r h

theorem stays_param (h : r₀.Within r) : r.param.Stays r₀ Param.spans := by
  rw [param]
  refine (stays_expect _ h).bind fun name s _ hs hname => ?_
  refine (stays_expect _ hs).bind fun _ s _ hs _ => ?_
  refine (stays_typeName hs).map fun type htype => ?_
  rw [Span.joined_cons] at hname htype
  simp [Param.spans, hname.1.merge htype.1, htype.1]

theorem stays_paramList (r : Reader) (h : r₀.Within r) :
    r.paramList.Stays r₀ fun ps => ps.flatMap Param.spans := by
  rw [paramList]
  refine (stays_param h).bind fun p s _ hs hp => ?_
  split
  · rename_i u hlt heq
    exact ((stays_paramList u (hs.eat? heq)).map fun ps hps => by simp [hp, hps]).past hlt
  · exact (stays_expect _ hs).map fun _ _ => by simpa using hp
termination_by r.rest.length

theorem stays_params (h : r₀.Within r) : r.params.Stays r₀ fun ps => ps.flatMap Param.spans := by
  rw [params]
  split
  · exact (stays_expect _ h).map fun _ _ => Span.joined_nil
  · exact stays_paramList r h

/-! ### Statements -/

theorem stays_varDef {start : Span} (hstart : Span.Joins r₀.rest start) (h : r₀.Within r) :
    (r.varDef start).Stays r₀ Stmt.spans := by
  rw [varDef]
  refine (stays_expect _ h).bind fun name s _ hs _ => ?_
  refine (stays_expect _ hs).bind fun _ s _ hs _ => ?_
  refine (stays_typeName hs).bind fun type s _ hs htype => ?_
  rw [Span.joined_cons] at htype
  split
  · rename_i u hlt heq
    refine ((stays_expr 1 u (hs.eat? heq)).bind fun e s _ hs he => ?_).past hlt
    exact (stays_close _ hs hstart).map fun t ht => by
      simpa [Stmt.spans_eq, Stmt.span, htype.1, he] using ht
  · exact (stays_close _ hs hstart).map fun t ht => by
      simpa [Stmt.spans_eq, Stmt.span, htype.1] using ht

theorem stays_returnStmt {start : Span} (hstart : Span.Joins r₀.rest start) (h : r₀.Within r) :
    (r.returnStmt start).Stays r₀ Stmt.spans := by
  rw [returnStmt]
  split
  · exact (stays_close _ h hstart).map fun t ht => by simpa [Stmt.spans_eq, Stmt.span] using ht
  · refine (stays_expr 1 r h).bind fun e s _ hs he => ?_
    exact (stays_close _ hs hstart).map fun t ht => by
      simpa [Stmt.spans_eq, Stmt.span, he] using ht

theorem stays_callOrAssign {name : Token} (hname : Span.Joins r₀.rest name.span)
    (h : r₀.Within r) : (r.callOrAssign name).Stays r₀ Stmt.spans := by
  rw [callOrAssign]
  split
  · refine (stays_expect _ h).bind fun _ s _ hs _ => ?_
    refine (stays_arguments hs).bind fun args s _ hs hargs => ?_
    exact (stays_close _ hs hname).map fun t ht => by
      simpa [Stmt.spans_eq, Stmt.span, hargs] using ht
  · refine (stays_expect _ h).bind fun _ s _ hs _ => ?_
    refine (stays_expr 1 s hs).bind fun e s _ hs he => ?_
    exact (stays_close _ hs hname).map fun t ht => by
      simpa [Stmt.spans_eq, Stmt.span, he] using ht
  · exact stays_failExpected _ h

/-- The block keeps within `r₀`, and the spans of its statements join tokens. -/
def Block.Stays {n : Nat} (b : Block n) (r₀ : Reader) : Prop :=
  r₀.Within b.after ∧ Span.Joined r₀.rest (ProcScript.Block.spans b.stmts)

/-- What is read behind a block, with its statements. -/
theorem Block.Stays.bind {α : Type} {n : Nat} {b : Block n} {spans : α → List Span}
    {k : List Stmt → (s : Reader) → s.rest.length ≤ n → Outcome α s.rest.length}
    (h : b.Stays r₀) (hk : r₀.Within b.after →
      Span.Joined r₀.rest (ProcScript.Block.spans b.stmts) →
        (k b.stmts b.after b.notLonger).Stays r₀ spans) : (b.bind k).Stays r₀ spans :=
  Outcome.Ends.mono (hk h.1 h.2) b.notLonger

/-- An `if`, if the blocks of shorter readers are known. -/
theorem stays_ifStmt {start : Span} (hstart : Span.Joins r₀.rest start) (h : r₀.Within r)
    (hb : ∀ u : Reader, u.rest.length < r.rest.length → r₀.Within u →
      ∀ closers, (u.block closers).Stays r₀) : (r.ifStmt start).Stays r₀ Stmt.spans := by
  rw [ifStmt]
  refine (stays_expr 1 r h).bind fun e s hlt hs he => ?_
  refine (stays_expect _ hs).bind fun _ u hlt' hu _ => ?_
  have hlt := Nat.lt_trans hlt' hlt
  refine (hb u hlt hu [.kwElse, .kwEnd]).bind fun hs hbody => ?_
  split
  · rename_i v hv heq
    -- The second block starts behind the first one, so it is one of a shorter reader too.
    have hlt' := Nat.lt_of_lt_of_le hv (u.block [.kwElse, .kwEnd]).notLonger
    refine ((hb v (Nat.lt_trans hlt' hlt) (hs.eat? heq) [.kwEnd]).bind fun hs hother => ?_).past hv
    exact (stays_close _ hs hstart).map fun t ht => by
      simpa [Stmt.spans_eq, Stmt.span, he, hbody, hother] using ht
  · exact (stays_close _ hs hstart).map fun t ht => by
      simpa [Stmt.spans_eq, Stmt.span, he, hbody] using ht

/-- A `while`, if the blocks of shorter readers are known. -/
theorem stays_whileStmt {start : Span} (hstart : Span.Joins r₀.rest start) (h : r₀.Within r)
    (hb : ∀ u : Reader, u.rest.length < r.rest.length → r₀.Within u →
      ∀ closers, (u.block closers).Stays r₀) : (r.whileStmt start).Stays r₀ Stmt.spans := by
  rw [whileStmt]
  refine (stays_expr 1 r h).bind fun e s hlt hs he => ?_
  refine (stays_expect _ hs).bind fun _ u hlt' hu _ => ?_
  refine (hb u (Nat.lt_trans hlt' hlt) hu [.kwEnd]).bind fun hs hbody => ?_
  exact (stays_close _ hs hstart).map fun t ht => by
    simpa [Stmt.spans_eq, Stmt.span, he, hbody] using ht

/-- A statement behind its first token, if the blocks of shorter readers are known. -/
theorem stays_stmt (ht : t ∈ r₀.rest) (h : r₀.Within r)
    (hb : ∀ u : Reader, u.rest.length < r.rest.length → r₀.Within u →
      ∀ closers, (u.block closers).Stays r₀) : (r.stmt t).Stays r₀ Stmt.spans := by
  have hstart := Span.Joins.token ht
  rw [stmt]
  split
  · exact stays_varDef hstart h
  · exact stays_returnStmt hstart h
  · exact stays_ifStmt hstart h hb
  · exact stays_whileStmt hstart h hb
  · exact stays_callOrAssign hstart h
  · exact h.report (.expected _ (.inl ht))

/-- A statement that fails leaves no span, and what it reported stays. -/
theorem stays_block (closers : List Kind) (r : Reader) (h : r₀.Within r) :
    (r.block closers).Stays r₀ := by
  rw [block]
  split
  · exact ⟨h, Span.joined_nil⟩
  · rename_i t s hs hn
    split
    · exact ⟨h, Span.joined_nil⟩
    · obtain ⟨ht, hin⟩ := h.next? hn
      have hst := stays_stmt ht hin fun u hu hin closers =>
        have := Nat.lt_trans hu hs
        stays_block closers u hin
      split
      · rename_i stmt s' hlt heq
        rw [heq] at hst
        obtain ⟨hafter, hrest⟩ := stays_block closers s' hst.1
        refine ⟨hafter, ?_⟩
        simpa [Block.mono, Block.cons] using ⟨hst.2, hrest⟩
      · rename_i s' hle heq
        rw [heq] at hst
        have := length_toBoundary_le s'
        exact stays_block closers s'.toBoundary hst.toBoundary
termination_by r.rest.length

/-! ### Scripts -/

theorem stays_procedure {start : Span} (hstart : Span.Joins r₀.rest start) (h : r₀.Within r) :
    (r.procedure start).Stays r₀ Procedure.spans := by
  rw [procedure]
  refine (stays_expect _ h).bind fun name s _ hs _ => ?_
  refine (stays_expect _ hs).bind fun _ s _ hs _ => ?_
  refine (stays_params hs).bind fun params s _ hs hparams => ?_
  refine (stays_expect _ hs).bind fun _ s _ hs _ => ?_
  refine (stays_typeName hs).bind fun returns s _ hs hreturns => ?_
  refine (stays_expect _ hs).bind fun _ s _ hs _ => ?_
  refine (stays_block [.kwEnd] s hs).bind fun hs hbody => ?_
  rw [Span.joined_cons] at hreturns
  exact (stays_close _ hs hstart).map fun t ht => by
    simpa [Procedure.spans, hparams, hreturns.1, hbody] using ht

theorem within_procedures (r : Reader) (h : r₀.Within r) :
    r₀.Within r.procedures.2 ∧
      Span.Joined r₀.rest (r.procedures.1.flatMap Procedure.spans) := by
  rw [procedures]
  split
  · exact ⟨h, Span.joined_nil⟩
  · rename_i t s hlt hn
    obtain ⟨ht, hs⟩ := h.next? hn
    split
    · have hp := stays_procedure (.token ht) hs
      split
      · rename_i p s' hlt' heq
        rw [heq] at hp
        obtain ⟨hafter, hrest⟩ := within_procedures s' hp.1
        refine ⟨hafter, ?_⟩
        simpa using ⟨hp.2, hrest⟩
      · rename_i s' hle heq
        rw [heq] at hp
        have := length_toDef_le s'
        exact within_procedures s'.toDef hp.toDef
    · have := length_pastStray_le t s
      exact within_procedures _ (hs.report (.expected _ (.inl ht))).toDef
termination_by r.rest.length

theorem within_ofTokens (ts : List Token) : (ofTokens ts).Within (ofTokens ts) where
  rest _ := id
  stop := rfl
  ended := ofTokens_stop ts
  found := List.forall_mem_nil _

end Reader

variable (ts : List Token)

/-- **Every span in the tree joins tokens.** -/
theorem Script.joined_ofTokens :
    Span.Joined (Reader.ofTokens ts).rest (Script.ofTokens ts).1.spans :=
  (Reader.within_procedures _ (Reader.within_ofTokens ts)).2

/-- **Every report points at a token, or at a name and a `(`.** -/
theorem Script.readFrom_ofTokens :
    ∀ d ∈ (Script.ofTokens ts).2, d.ReadFrom (Reader.ofTokens ts) :=
  (Reader.within_procedures _ (Reader.within_ofTokens ts)).1.found

end ProcScript
