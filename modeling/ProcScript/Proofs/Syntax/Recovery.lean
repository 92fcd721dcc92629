import ProcScript.Proofs.Syntax.Trail
import ProcScript.Reader.Script

/-!
# Syntax — what recovery deletes

**Recovery only deletes, and never without a word** (`Script.words_ofTokens`).  Of the tokens
before the first `eof` the script that is read keeps a sublist, in their order, and it keeps
all of them exactly if nothing but literals out of range was found.  The functions of the
reader are taken in their own recursion, each as `Outcome.Reads` says; where one recovers, the
reader has strayed over a token at least, and that is all a trail without words needs.
-/

namespace ProcScript

namespace Reader

variable {r₀ r s : Reader} {t : Token} {ws : List Word}

/-! ### Single tokens -/

theorem reads_failExpected {α : Type} (what : Expected) (r : Reader) (w : α → List Word) :
    (r.failExpected what).Reads r w :=
  strays_report r _ fun _ => by simp

theorem expect_cases (kind : Kind) (r : Reader) :
    (∃ t s h, t.kind = kind ∧ r.Passes s [t] [] ∧ r.expect kind = .ok t s h) ∨
      r.expect kind = r.failExpected (.token kind) := by
  rw [expect]
  split
  · rename_i t s h ht
    split
    · exact .inl ⟨t, s, h, ‹_›, passes_next? ht, rfl⟩
    · exact .inr rfl
  · exact .inr rfl

theorem reads_kind {kind : Kind} (r : Reader) (hk : kind.IsFixed) :
    (r.expect kind).Reads r fun _ => [.kind kind] := by
  rcases expect_cases kind r with ⟨t, s, h, rfl, hp, heq⟩ | heq
  · rw [heq]
    exact hp.trail_kind rfl hk
  · rw [heq]
    exact reads_failExpected _ r _

theorem reads_name (r : Reader) :
    (r.expect .identifier).Reads r fun t => [.name t.lexeme] := by
  rcases expect_cases .identifier r with ⟨t, s, h, hk, hp, heq⟩ | heq
  · rw [heq]
    exact hp.trail_name hk
  · rw [heq]
    exact reads_failExpected _ r _

theorem trail_eat? {kind : Kind} {s : { s : Reader // s.rest.length < r.rest.length }}
    (h : r.eat? kind = some s) (hk : kind.IsFixed) :
    r.Trail s.val [.kind kind] := by
  obtain ⟨t, rfl, hp⟩ := passes_eat? h
  exact hp.trail_kind rfl hk

theorem reads_typeName (r : Reader) : r.typeName.Reads r fun a => [.name a.name] :=
  (reads_name r).map fun _ => rfl

/-! ### Expressions -/

theorem reads_literal {n : Nat} {hlt : s.rest.length < n} (hp : r.Passes s [t] [])
    (hk : t.kind = .intLiteral) : (literal t s hlt).Reads r fun value => [.int value] := by
  rw [literal]
  split
  · rename_i value hv
    have hw : t.word = .int value := by rw [Token.word_of_intLiteral hk, hv]; rfl
    have ht := hp.trail (t := t) fun _ => by simp [hv]
    rw [hw] at ht
    exact ht
  · rename_i hv
    exact ⟨[t], _, hp.trans (.report s _ _), .zero hk hv⟩

theorem reads_variableName {n : Nat} {hlt : s.rest.length < n} (hp : r.Passes s [t] [])
    (hk : t.kind = .identifier) :
    (variableName t s hlt).Reads r fun name => [.name name] := by
  have ht := hp.trail_name hk
  rw [variableName]
  split
  · exact ht.strays (strays_report s _ fun _ => by simp)
  · exact ht

/-- The operators behind an expression, if the expressions of shorter readers are known. -/
theorem reads_operators (min : Nat) {left : Expr} {s : Reader}
    (hs : ∀ u : Reader, u.rest.length < s.rest.length →
      ∀ level, (u.expr level).Reads u Expr.words)
    (ht : r.Trail s left.words) : (s.operators min left).Reads r Expr.words := by
  rw [operators]
  split
  · exact ht
  · rename_i t s' hlt hn
    split
    · exact ht
    · rename_i level op hop
      obtain ⟨hk, rfl⟩ := Kind.binaryOp?_eq_some_iff.mp hop
      split
      · exact ht
      · -- The operator is kept, then the right operand, and only then the operators behind it.
        have hop := (passes_next? hn).trail_kind hk op.isFixed_kind
        have hr := Outcome.Reads.number fun id =>
          ((hs s' hlt (op.level + 1)).behind (ht.trans hop)).map
            (f := fun right id => Expr.binary op left right id (left.span.merge right.span))
            (v := fun node => (node id).words) fun right => by simp [Expr.words]
        split
        · rename_i e s'' h heq
          rw [heq] at hr
          have hlt' : s''.rest.length < s.rest.length := Nat.lt_trans h hlt
          exact (reads_operators min (fun u hu => hs u (Nat.lt_trans hu hlt')) hr).mono _
        · rename_i s'' h heq
          rw [heq] at hr
          exact hr
termination_by s.rest.length

/-- An operand, if the expressions of shorter readers are known. -/
theorem reads_operand (hr : ∀ u : Reader, u.rest.length < r.rest.length →
    ∀ level, (u.expr level).Reads u Expr.words) : r.operand.Reads r Expr.words := by
  rw [operand]
  split
  · exact reads_failExpected _ r _
  · rename_i t s hlt hn
    have hp := passes_next? hn
    split
    · exact .number fun _ => (reads_literal hp ‹_›).map fun _ => rfl
    · exact .number fun _ => hp.trail_kind ‹_› (by decide)
    · exact .number fun _ => hp.trail_kind ‹_› (by decide)
    · exact .number fun _ => (reads_variableName hp ‹_›).map fun _ => rfl
    · have ht := hp.trail_kind ‹_› (by decide)
      exact (Outcome.Reads.number fun _ =>
        ((hr s hlt tightest).behind ht).map fun _ => rfl).past hlt
    · have ht := hp.trail_kind ‹_› (by decide)
      exact (Outcome.Reads.number fun _ =>
        ((hr s hlt tightest).behind ht).map fun _ => rfl).past hlt
    · have ht := hp.trail_kind ‹_› (by decide)
      refine (Outcome.Reads.number fun _ =>
        ((hr s hlt 1).behind ht).bind fun e u _ hu => ?_).past hlt
      exact ((reads_kind u (by decide)).behind hu).map fun _ => by simp [Expr.words]
    · exact reads_failExpected _ r _

theorem reads_expr (min : Nat) (r : Reader) : (r.expr min).Reads r Expr.words := by
  have hr : ∀ u : Reader, u.rest.length < r.rest.length →
      ∀ level, (u.expr level).Reads u Expr.words := fun u _ level => reads_expr level u
  have ho := reads_operand hr
  rw [expr]
  split
  · rename_i left s h heq
    rw [heq] at ho
    exact (reads_operators min (fun u hu => hr u (Nat.lt_trans hu h)) ho).mono h
  · rename_i s h heq
    rw [heq] at ho
    exact ho
termination_by r.rest.length

/-! ### Lists -/

section
variable {α : Type} {w : α → List Word} {a : α}

/-- A list up to its `)`.  There is one at least, so what stands behind a comma is never just the
`)`. -/
def ReadsList {n : Nat} (o : Outcome (List α) n) (r : Reader) (w : α → List Word) : Prop :=
  o.Ends (fun as s => as ≠ [] ∧
    r.Trail s (Word.separated (as.map w) ++ [.kind .rightParen])) r.Strays

theorem readsList_last (ha : r.Trail s (w a)) :
    ReadsList ((s.expect .rightParen).map fun _ => [a]) r w := by
  refine Outcome.Ends.map (((reads_kind s (by decide)).behind ha).imp ?_ fun _ => id)
  intro t u hu
  exact ⟨List.cons_ne_nil a [], hu⟩

theorem readsList_cons {m n : Nat} {u : Reader} {o : Outcome (List α) m} (hlt : m < n)
    (ha : r.Trail s (w a)) (hcomma : s.Trail u [.kind .comma]) (ho : ReadsList o u w) :
    ReadsList ((o.map (a :: ·)).past hlt) r w := by
  have hu := ha.trans hcomma
  refine (Outcome.Ends.map (ho.imp ?_ fun _ => hu.strays)).past hlt
  rintro as v ⟨has, hv⟩
  refine ⟨List.cons_ne_nil a as, ?_⟩
  have ht := hu.trans hv
  simpa [Word.separated_cons, has] using ht

end

theorem readsList_expressions (r : Reader) : ReadsList r.expressions r Expr.words := by
  rw [expressions]
  refine Outcome.Ends.bind (reads_expr 1 r) fun e s _ hs => ?_
  split
  · rename_i u hlt heq
    exact readsList_cons hlt hs (trail_eat? heq (by decide)) (readsList_expressions u)
  · exact readsList_last hs
termination_by r.rest.length

theorem reads_arguments (r : Reader) :
    r.arguments.Reads r fun es => Word.separated (es.map Expr.words) ++ [.kind .rightParen] := by
  rw [arguments]
  split
  · exact (reads_kind r (by decide)).map fun _ => by simp [Word.separated]
  · exact Outcome.Ends.imp (readsList_expressions r) (fun _ _ h => h.2) fun _ => id

theorem reads_param (r : Reader) : r.param.Reads r Param.words := by
  rw [param]
  refine (reads_name r).bind fun name s _ hs => ?_
  refine ((reads_kind s (by decide)).behind hs).bind fun _ s _ hs => ?_
  exact ((reads_typeName s).behind hs).map fun type => by simp [Param.words]

theorem readsList_paramList (r : Reader) : ReadsList r.paramList r Param.words := by
  rw [paramList]
  refine Outcome.Ends.bind (reads_param r) fun p s _ hs => ?_
  split
  · rename_i u hlt heq
    exact readsList_cons hlt hs (trail_eat? heq (by decide)) (readsList_paramList u)
  · exact readsList_last hs
termination_by r.rest.length

theorem reads_params (r : Reader) :
    r.params.Reads r fun ps => Word.separated (ps.map Param.words) ++ [.kind .rightParen] := by
  rw [params]
  split
  · exact (reads_kind r (by decide)).map fun _ => by simp [Word.separated]
  · exact Outcome.Ends.imp (readsList_paramList r) (fun _ _ h => h.2) fun _ => id

/-! ### Statements -/

theorem reads_varDef {start : Span} (hr : r₀.Trail r [.kind .kwVar]) :
    (r.varDef start).Reads r₀ Stmt.words := by
  rw [varDef]
  refine ((reads_name r).behind hr).bind fun name s _ hs => ?_
  refine ((reads_kind s (by decide)).behind hs).bind fun _ s _ hs => ?_
  refine ((reads_typeName s).behind hs).bind fun type s _ hs => ?_
  split
  · rename_i u hlt heq
    have hu := hs.trans (trail_eat? heq (by decide))
    refine (((reads_expr 1 u).behind hu).bind fun e s _ hs => ?_).past hlt
    exact ((reads_kind s (by decide)).behind hs).map fun _ => by simp [Stmt.words]
  · exact ((reads_kind s (by decide)).behind hs).map fun _ => by simp [Stmt.words]

theorem reads_returnStmt {start : Span} (hr : r₀.Trail r [.kind .kwReturn]) :
    (r.returnStmt start).Reads r₀ Stmt.words := by
  rw [returnStmt]
  split
  · exact ((reads_kind r (by decide)).behind hr).map fun _ => by simp [Stmt.words]
  · refine ((reads_expr 1 r).behind hr).bind fun e s _ hs => ?_
    exact ((reads_kind s (by decide)).behind hs).map fun _ => by simp [Stmt.words]

theorem reads_callOrAssign {name : Token} (hr : r₀.Trail r [.name name.lexeme]) :
    (r.callOrAssign name).Reads r₀ Stmt.words := by
  rw [callOrAssign]
  split
  · refine ((reads_kind r (by decide)).behind hr).bind fun _ s _ hs => ?_
    refine ((reads_arguments s).behind hs).bind fun args s _ hs => ?_
    exact ((reads_kind s (by decide)).behind hs).map fun _ => by simp [Stmt.words]
  · refine ((reads_kind r (by decide)).behind hr).bind fun _ s _ hs => ?_
    refine ((reads_expr 1 s).behind hs).bind fun e s _ hs => ?_
    exact ((reads_kind s (by decide)).behind hs).map fun _ => by simp [Stmt.words]
  · -- Behind a name anything else is reported, and the name is lost with it.
    exact hr.strays (strays_report r _ fun _ => by simp)

/-- The trail of a block. -/
def Block.Reads {n : Nat} (b : Block n) (r : Reader) : Prop :=
  r.Trail b.after (ProcScript.Block.words b.stmts)

/-- An `if`, if the blocks of shorter readers are known. -/
theorem reads_ifStmt {start : Span} (hr : r₀.Trail r [.kind .kwIf])
    (hb : ∀ u : Reader, u.rest.length < r.rest.length → ∀ closers, (u.block closers).Reads u) :
    (r.ifStmt start).Reads r₀ Stmt.words := by
  rw [ifStmt]
  refine ((reads_expr 1 r).behind hr).bind fun e s hlt hs => ?_
  refine ((reads_kind s (by decide)).behind hs).bind fun _ u hlt' hs => ?_
  have hu := Nat.lt_trans hlt' hlt
  have hbody := hs.trans (hb u hu [.kwElse, .kwEnd])
  refine Block.ends_bind ?_
  split
  · rename_i v hv heq
    -- The second block starts behind the first one, so it is one of a shorter reader too.
    have hlt := Nat.lt_of_lt_of_le hv (u.block [.kwElse, .kwEnd]).notLonger
    have hother := (hbody.trans (trail_eat? heq (by decide))).trans
      (hb v (Nat.lt_trans hlt hu) [.kwEnd])
    refine (Block.ends_bind ?_).past hv
    exact ((reads_kind _ (by decide)).behind hother).map fun _ => by simp [Stmt.words]
  · exact ((reads_kind _ (by decide)).behind hbody).map fun _ => by simp [Stmt.words]

/-- A `while`, if the blocks of shorter readers are known. -/
theorem reads_whileStmt {start : Span} (hr : r₀.Trail r [.kind .kwWhile])
    (hb : ∀ u : Reader, u.rest.length < r.rest.length → ∀ closers, (u.block closers).Reads u) :
    (r.whileStmt start).Reads r₀ Stmt.words := by
  rw [whileStmt]
  refine ((reads_expr 1 r).behind hr).bind fun e s hlt hs => ?_
  refine ((reads_kind s (by decide)).behind hs).bind fun _ u hlt' hs => ?_
  have hbody := hs.trans (hb u (Nat.lt_trans hlt' hlt) [.kwEnd])
  refine Block.ends_bind ?_
  exact ((reads_kind _ (by decide)).behind hbody).map fun _ => by simp [Stmt.words]

/-- A statement behind its first token, if the blocks of shorter readers are known. -/
theorem reads_stmt (hp : r₀.Passes r [t] [])
    (hb : ∀ u : Reader, u.rest.length < r.rest.length → ∀ closers, (u.block closers).Reads u) :
    (r.stmt t).Reads r₀ Stmt.words := by
  rw [stmt]
  split
  · exact reads_varDef (hp.trail_kind ‹_› (by decide))
  · exact reads_returnStmt (hp.trail_kind ‹_› (by decide))
  · exact reads_ifStmt (hp.trail_kind ‹_› (by decide)) hb
  · exact reads_whileStmt (hp.trail_kind ‹_› (by decide)) hb
  · exact reads_callOrAssign (hp.trail_name ‹_›)
  · refine Strays.of_passes hp ?_
    exact strays_report r _ fun _ => by simp

/-- A statement that fails is dropped with the tokens that are skipped behind it. -/
theorem reads_block (closers : List Kind) (r : Reader) : (r.block closers).Reads r := by
  rw [block]
  split
  · exact .refl r
  · rename_i t s hs hn
    split
    · exact .refl r
    · have hp := passes_next? hn
      have hst := reads_stmt hp fun u hu closers =>
        have := Nat.lt_trans hu hs
        reads_block closers u
      split
      · rename_i stmt s' h heq
        rw [heq] at hst
        exact hst.trans (reads_block closers s')
      · rename_i s' h heq
        rw [heq] at hst
        -- The first token of the statement at least is passed and not kept.
        obtain ⟨ts, hts⟩ := passes_toBoundary s'
        have hle := length_toBoundary_le s'
        exact ((hst.passes hts).trail (by omega)).trans (reads_block closers s'.toBoundary)
termination_by r.rest.length

/-! ### Scripts -/

theorem reads_procedure {start : Span} (hr : r₀.Trail r [.kind .kwDef]) :
    (r.procedure start).Reads r₀ Procedure.words := by
  rw [procedure]
  refine ((reads_name r).behind hr).bind fun name s _ hs => ?_
  refine ((reads_kind s (by decide)).behind hs).bind fun _ s _ hs => ?_
  refine ((reads_params s).behind hs).bind fun params s _ hs => ?_
  refine ((reads_kind s (by decide)).behind hs).bind fun _ s _ hs => ?_
  refine ((reads_typeName s).behind hs).bind fun returns s _ hs => ?_
  refine ((reads_kind s (by decide)).behind hs).bind fun _ s _ hs => ?_
  have hbody := hs.trans (reads_block [.kwEnd] s)
  refine Block.ends_bind ?_
  exact ((reads_kind _ (by decide)).behind hbody).map fun _ => by simp [Procedure.words]

theorem trail_procedures (r : Reader) :
    r.Trail r.procedures.2 (r.procedures.1.flatMap Procedure.words) := by
  rw [procedures]
  split
  · exact .refl r
  · rename_i t s hlt hn
    have hp := passes_next? hn
    split
    · have hr : (s.procedure t.span).Reads r Procedure.words :=
        reads_procedure (hp.trail_kind ‹_› (by decide))
      split
      · rename_i p s' h heq
        rw [heq] at hr
        exact hr.trans (trail_procedures s')
      · rename_i s' h heq
        rw [heq] at hr
        obtain ⟨ts, hts⟩ := passes_toDef s'
        have hle := length_toDef_le s'
        exact ((hr.passes hts).trail (by omega)).trans (trail_procedures s'.toDef)
    · -- What stands where a `def` was due is reported and skipped.
      have hst : r.Strays (s.report (.expected (.token .kwDef) t.kind) t.span) :=
        .of_passes hp (strays_report s t.span fun _ => by simp)
      obtain ⟨ts, hts⟩ := passes_toDef (s.report (.expected (.token .kwDef) t.kind) t.span)
      have hle := length_pastStray_le t s
      exact ((hst.passes hts).trail (Nat.lt_of_le_of_lt hle hlt)).trans
        (trail_procedures (s.pastStray t))
termination_by r.rest.length

/-- The procedures are read to the end. -/
theorem procedures_rest (r : Reader) : r.procedures.2.rest = [] := by
  fun_induction procedures r with
  | case1 r h => exact next?_eq_none_iff.mp h
  | case2 r t s hlt hn hd p s' h hp ps last heq ih => rwa [heq] at ih
  | case3 r t s hlt hn hd s' h hp hle ih => exact ih
  | case4 r t s hlt hn hd hle ih => exact ih

end Reader

/-- From before the first token to behind the last one, with what is found. -/
theorem Script.trail_ofTokens (ts : List Token) :
    Kept (Script.ofTokens ts).1.words (ts.takeWhile fun t => t.kind ≠ .eof)
      (Script.ofTokens ts).2 := by
  obtain ⟨us, ds, hp, hk⟩ := Reader.trail_procedures (Reader.ofTokens ts)
  have hr := hp.rest
  rw [Reader.procedures_rest, List.append_nil] at hr
  have hd : (Reader.ofTokens ts).procedures.2.found = ds := hp.found
  have hu : us = ts.takeWhile fun t => t.kind ≠ .eof := hr.symm
  rw [← hd, hu] at hk
  exact hk

/-- **Recovery only deletes, and never without a word.**  What a script keeps of the tokens before
the first `eof` is a sublist of them; it is all of them exactly if nothing but integer literals
out of range was found. -/
theorem Script.words_ofTokens (ts : List Token) :
    let us := (ts.takeWhile fun t => t.kind ≠ .eof).map Token.word
    (Script.ofTokens ts).1.words.Sublist us ∧
      ((Script.ofTokens ts).1.words = us ↔ ∀ d ∈ (Script.ofTokens ts).2, d.IsOutOfRange) :=
  ⟨(Script.trail_ofTokens ts).sublist, (Script.trail_ofTokens ts).whole⟩

end ProcScript
