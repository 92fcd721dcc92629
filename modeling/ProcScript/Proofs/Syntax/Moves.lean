import Mathlib.Logic.Relation
import ProcScript.Proofs.Syntax.Ends
import ProcScript.Proofs.Syntax.Passage
import ProcScript.Reader.Script

/-!
# Syntax — the moves of a reader

Whatever a reader does, it does by a few moves (`Reader.Move`): it passes a token, it gives a
number away, it reports that something else comes next, or it passes a token and reports it.  The
reading of a whole list is a sequence of these (`Reader.moves_procedures`), through every failure
and everything that is skipped.  So what each move keeps is kept by all of the reading
(`Reader.Moves.keeps`), and to know of an invariant it is enough to look at the moves.
-/

namespace ProcScript

namespace Reader

/-- One move of a reader. -/
inductive Move : Reader → Reader → Prop
  /-- The next token is passed, -/
  | advance {r : Reader} {t : Token} {ts : List Token} (hr : r.rest = t :: ts) : Move r r.advance
  /-- the next number is given away, -/
  | number (r : Reader) : Move r { r with nextId := r.nextId + 1 }
  /-- or what comes next is reported, since something else was looked for. -/
  | expected (what : Expected) (r : Reader) :
      Move r (r.report (.expected what r.peek) r.current.span)
  /-- The next token is passed and reported, since it starts nothing, -/
  | stray (what : Expected) {r : Reader} {t : Token} {ts : List Token} (hr : r.rest = t :: ts) :
      Move r (r.advance.report (.expected what t.kind) t.span)
  /-- since it is a literal out of range, -/
  | outOfRange {r : Reader} {t : Token} {ts : List Token} (hr : r.rest = t :: ts) :
      Move r (r.advance.report (.outOfRange t.lexeme) t.span)
  /-- or since it is a name with a `(` behind it, and then together with that. -/
  | callAsValue {r : Reader} {t : Token} {ts : List Token} (hr : r.rest = t :: ts)
      (hnext : r.advance.peek = .leftParen) :
      Move r (r.advance.report (.callAsValue t.lexeme) (t.span.merge r.advance.current.span))

/-- Some moves, one after the other. -/
def Moves : Reader → Reader → Prop := Relation.ReflTransGen Move

namespace Moves

variable {r s u : Reader} {t : Token}

theorem refl (r : Reader) : r.Moves r := Relation.ReflTransGen.refl

theorem trans (h : r.Moves s) (h' : s.Moves u) : r.Moves u := Relation.ReflTransGen.trans h h'

theorem one (h : r.Move s) : r.Moves s := .single h

/-- **What every move keeps is kept by any number of them.** -/
theorem keeps {P : Reader → Prop} (hP : ∀ r s, Move r s → P r → P s) (h : r.Moves s) (hr : P r) :
    P s := by
  induction h with
  | refl => exact hr
  | tail _ h ih => exact hP _ _ h ih

theorem next? {s : { s : Reader // s.rest.length < r.rest.length }} (h : r.next? = some (t, s)) :
    r.Moves s.val := by
  obtain ⟨hr, hs⟩ := next?_eq_some h
  rw [hs]
  exact one (.advance hr)

theorem eat? {kind : Kind} {s : { s : Reader // s.rest.length < r.rest.length }}
    (h : r.eat? kind = some s) : r.Moves s.val := by
  rw [Reader.eat?] at h
  split at h
  · rename_i t s' hn
    split at h
    · obtain rfl := Option.some.inj h
      exact next? hn
    · cases h
  · cases h

theorem toBoundary (r : Reader) : r.Moves r.toBoundary := by
  fun_induction Reader.toBoundary r with
  | case1 r h => exact refl r
  | case2 r t ts h hb => exact refl r
  | case3 r t ts h hb ih => exact (one (.advance h)).trans ih

theorem toDef (r : Reader) : r.Moves r.toDef := by
  fun_induction Reader.toDef r with
  | case1 r h => exact refl r
  | case2 r t ts h hd => exact refl r
  | case3 r t ts h hd ih => exact (one (.advance h)).trans ih

end Moves

end Reader

/-! ### Readings -/

/-- The reading is a sequence of moves, whether it succeeds or fails. -/
def Outcome.Moves {α : Type} {n : Nat} (o : Outcome α n) (r : Reader) : Prop :=
  o.Ends (fun _ s => r.Moves s) r.Moves

namespace Outcome.Moves

variable {α β : Type} {m n : Nat} {r s : Reader}

theorem past {o : Outcome α m} (h : o.Moves r) (hlt : m < n) : (o.past hlt).Moves r :=
  Ends.past h hlt

theorem map {o : Outcome α n} {f : α → β} (h : o.Moves r) : (o.map f).Moves r :=
  Ends.map h

theorem behind {o : Outcome α n} (h : o.Moves s) (hs : r.Moves s) : o.Moves r :=
  Ends.imp h (fun _ _ => hs.trans) fun _ => hs.trans

theorem bind {o : Outcome α n} {k : α → (s : Reader) → s.rest.length < n → Outcome β s.rest.length}
    (h : o.Moves r) (hk : ∀ a s hs, (k a s hs).Moves s) : (o.bind k).Moves r :=
  Ends.bind h fun a s hs hr => (hk a s hs).behind hr

theorem number {o : Outcome (ExprId → Expr) n} (h : o.Moves r) : o.number.Moves r :=
  Ends.number (Ends.imp h (fun _ s hs => hs.trans (.one (.number s))) fun _ => id)

end Outcome.Moves

namespace Reader

variable {r s : Reader} {t : Token} {ts : List Token}

theorem moves_failExpected {α : Type} (what : Expected) (r : Reader) :
    (r.failExpected (α := α) what).Moves r :=
  .one (.expected what r)

theorem moves_expect (kind : Kind) (r : Reader) : (r.expect kind).Moves r := by
  rw [expect]
  split
  · rename_i t s h hn
    split
    · exact .next? hn
    · exact moves_failExpected _ r
  · exact moves_failExpected _ r

/-! ### Expressions -/

theorem moves_literal {n : Nat} {hlt : r.advance.rest.length < n} (hr : r.rest = t :: ts) :
    (literal t r.advance hlt).Moves r := by
  rw [literal]
  split
  · exact .one (.advance hr)
  · exact .one (.outOfRange hr)

theorem moves_variableName {n : Nat} {hlt : r.advance.rest.length < n} (hr : r.rest = t :: ts) :
    (variableName t r.advance hlt).Moves r := by
  rw [variableName]
  split
  · exact .one (.callAsValue hr ‹_›)
  · exact .one (.advance hr)

/-- The operators behind an expression, if the expressions of shorter readers are known. -/
theorem moves_operators (min : Nat) {left : Expr} {s : Reader}
    (hs : ∀ u : Reader, u.rest.length < s.rest.length → ∀ level, (u.expr level).Moves u) :
    (s.operators min left).Moves s := by
  rw [operators]
  split
  · exact .refl s
  · rename_i t s' hlt hn
    split
    · exact .refl s
    · rename_i level op hop
      split
      · exact .refl s
      · have hr := (((hs s' hlt (level + 1)).map (f := fun right id =>
          Expr.binary op left right id (left.span.merge right.span))).number).behind (.next? hn)
        split
        · rename_i e s'' h heq
          rw [heq] at hr
          have hlt' : s''.rest.length < s.rest.length := Nat.lt_trans h hlt
          exact ((moves_operators min fun u hu => hs u (Nat.lt_trans hu hlt')).behind hr).mono _
        · rename_i s'' h heq
          rw [heq] at hr
          exact hr
termination_by s.rest.length

/-- An operand, if the expressions of shorter readers are known. -/
theorem moves_operand (hs : ∀ u : Reader, u.rest.length < r.rest.length →
    ∀ level, (u.expr level).Moves u) : r.operand.Moves r := by
  rw [operand]
  split
  · exact moves_failExpected _ r
  · rename_i t s hlt hn
    obtain ⟨hr, rfl⟩ := next?_eq_some hn
    have hnext := Moves.one (.advance hr)
    split
    · exact ((moves_literal hr).map).number
    · exact .number hnext
    · exact .number hnext
    · exact ((moves_variableName hr).map).number
    · exact ((((hs _ hlt tightest).map).number).behind hnext).past hlt
    · exact ((((hs _ hlt tightest).map).number).behind hnext).past hlt
    · exact ((((hs _ hlt 1).bind fun e u _ => (moves_expect _ u).map).number).behind hnext).past hlt
    · exact moves_failExpected _ r

theorem moves_expr (min : Nat) (r : Reader) : (r.expr min).Moves r := by
  have hr : ∀ u : Reader, u.rest.length < r.rest.length → ∀ level, (u.expr level).Moves u :=
    fun u _ level => moves_expr level u
  have ho := moves_operand hr
  rw [expr]
  split
  · rename_i left s h heq
    rw [heq] at ho
    exact ((moves_operators min fun u hu => hr u (Nat.lt_trans hu h)).behind ho).mono h
  · rename_i s h heq
    rw [heq] at ho
    exact ho
termination_by r.rest.length

theorem moves_expressions (r : Reader) : r.expressions.Moves r := by
  rw [expressions]
  refine (moves_expr 1 r).bind fun e s _ => ?_
  split
  · rename_i u hlt heq
    exact (((moves_expressions u).map).behind (.eat? heq)).past hlt
  · exact (moves_expect _ s).map
termination_by r.rest.length

theorem moves_arguments (r : Reader) : r.arguments.Moves r := by
  rw [arguments]
  split
  · exact (moves_expect _ r).map
  · exact moves_expressions r

/-! ### Statements -/

theorem moves_varDef (start : Span) (r : Reader) : (r.varDef start).Moves r := by
  rw [varDef]
  refine (moves_expect _ r).bind fun _ s _ => ?_
  refine (moves_expect _ s).bind fun _ s _ => ?_
  refine ((moves_expect _ s).map).bind fun _ s _ => ?_
  split
  · rename_i u hlt heq
    refine (((moves_expr 1 u).bind fun _ s _ => ?_).behind (.eat? heq)).past hlt
    exact (moves_expect _ s).map
  · exact (moves_expect _ s).map

theorem moves_returnStmt (start : Span) (r : Reader) : (r.returnStmt start).Moves r := by
  rw [returnStmt]
  split
  · exact (moves_expect _ r).map
  · exact (moves_expr 1 r).bind fun _ s _ => (moves_expect _ s).map

theorem moves_callOrAssign (name : Token) (r : Reader) : (r.callOrAssign name).Moves r := by
  rw [callOrAssign]
  split
  · refine (moves_expect _ r).bind fun _ s _ => ?_
    refine (moves_arguments s).bind fun _ s _ => ?_
    exact (moves_expect _ s).map
  · refine (moves_expect _ r).bind fun _ s _ => ?_
    exact (moves_expr 1 s).bind fun _ s _ => (moves_expect _ s).map
  · exact moves_failExpected _ r

/-- An `if`, if the blocks of shorter readers are known. -/
theorem moves_ifStmt (start : Span) (r : Reader) (hb : ∀ u : Reader,
    u.rest.length < r.rest.length → ∀ closers, u.Moves (u.block closers).after) :
    (r.ifStmt start).Moves r := by
  rw [ifStmt]
  refine (moves_expr 1 r).bind fun _ s hlt => ?_
  refine (moves_expect _ s).bind fun _ u hlt' => ?_
  have hlt := Nat.lt_trans hlt' hlt
  refine Block.ends_bind (Outcome.Moves.behind ?_ (hb u hlt [.kwElse, .kwEnd]))
  split
  · rename_i v hv heq
    -- The second block starts behind the first one, so it is one of a shorter reader too.
    have hlt' := Nat.lt_of_lt_of_le hv (u.block [.kwElse, .kwEnd]).notLonger
    refine Outcome.Moves.past (Outcome.Moves.behind ?_ (.eat? heq)) hv
    refine Block.ends_bind (Outcome.Moves.behind ?_ (hb v (Nat.lt_trans hlt' hlt) [.kwEnd]))
    exact (moves_expect _ _).map
  · exact (moves_expect _ _).map

/-- A `while`, if the blocks of shorter readers are known. -/
theorem moves_whileStmt (start : Span) (r : Reader) (hb : ∀ u : Reader,
    u.rest.length < r.rest.length → ∀ closers, u.Moves (u.block closers).after) :
    (r.whileStmt start).Moves r := by
  rw [whileStmt]
  refine (moves_expr 1 r).bind fun _ s hlt => ?_
  refine (moves_expect _ s).bind fun _ u hlt' => ?_
  refine Block.ends_bind (Outcome.Moves.behind ?_ (hb u (Nat.lt_trans hlt' hlt) [.kwEnd]))
  exact (moves_expect _ _).map

/-- A statement with its first token, if the blocks of shorter readers are known. -/
theorem moves_stmt (hr : r.rest = t :: ts) (hb : ∀ u : Reader,
    u.rest.length < r.advance.rest.length → ∀ closers, u.Moves (u.block closers).after) :
    (r.advance.stmt t).Moves r := by
  have hnext := Moves.one (.advance hr)
  rw [stmt]
  split
  · exact (moves_varDef t.span _).behind hnext
  · exact (moves_returnStmt t.span _).behind hnext
  · exact (moves_ifStmt t.span _ hb).behind hnext
  · exact (moves_whileStmt t.span _ hb).behind hnext
  · exact (moves_callOrAssign t _).behind hnext
  · exact .one (.stray _ hr)

theorem moves_block (closers : List Kind) (r : Reader) : r.Moves (r.block closers).after := by
  rw [block]
  split
  · exact .refl r
  · rename_i t s hs hn
    split
    · exact .refl r
    · obtain ⟨hr, rfl⟩ := next?_eq_some hn
      have hst := moves_stmt hr fun u hu closers =>
        have := Nat.lt_trans hu hs
        moves_block closers u
      split
      · rename_i stmt s' hlt heq
        rw [heq] at hst
        exact Moves.trans hst (moves_block closers s')
      · rename_i s' hle heq
        rw [heq] at hst
        have := length_toBoundary_le s'
        exact (Moves.trans hst (.toBoundary s')).trans (moves_block closers s'.toBoundary)
termination_by r.rest.length

/-! ### Scripts -/

theorem moves_param (r : Reader) : r.param.Moves r := by
  rw [param]
  refine (moves_expect _ r).bind fun _ s _ => ?_
  exact (moves_expect _ s).bind fun _ s _ => ((moves_expect _ s).map).map

theorem moves_paramList (r : Reader) : r.paramList.Moves r := by
  rw [paramList]
  refine (moves_param r).bind fun _ s _ => ?_
  split
  · rename_i u hlt heq
    exact (((moves_paramList u).map).behind (.eat? heq)).past hlt
  · exact (moves_expect _ s).map
termination_by r.rest.length

theorem moves_params (r : Reader) : r.params.Moves r := by
  rw [params]
  split
  · exact (moves_expect _ r).map
  · exact moves_paramList r

theorem moves_procedure (start : Span) (r : Reader) : (r.procedure start).Moves r := by
  rw [procedure]
  refine (moves_expect _ r).bind fun _ s _ => ?_
  refine (moves_expect _ s).bind fun _ s _ => ?_
  refine (moves_params s).bind fun _ s _ => ?_
  refine (moves_expect _ s).bind fun _ s _ => ?_
  refine ((moves_expect _ s).map).bind fun _ s _ => ?_
  refine (moves_expect _ s).bind fun _ s _ => ?_
  refine Block.ends_bind (Outcome.Moves.behind ?_ (moves_block [.kwEnd] s))
  exact (moves_expect _ _).map

/-- **The reading of a token list is a sequence of moves.** -/
theorem moves_procedures (r : Reader) : r.Moves r.procedures.2 := by
  rw [procedures]
  split
  · exact .refl r
  · rename_i t s hlt hn
    obtain ⟨hr, rfl⟩ := next?_eq_some hn
    split
    · have hp := (moves_procedure t.span r.advance).behind (.one (.advance hr))
      split
      · rename_i p s' hlt' heq
        rw [heq] at hp
        exact Moves.trans hp (moves_procedures s')
      · rename_i s' hle heq
        rw [heq] at hp
        have := length_toDef_le s'
        exact (Moves.trans hp (.toDef s')).trans (moves_procedures s'.toDef)
    · have := length_pastStray_le t r.advance
      have hstray := (Moves.one (.stray (.token .kwDef) hr)).trans (.toDef _)
      exact hstray.trans (moves_procedures (r.advance.pastStray t))
termination_by r.rest.length

end Reader

end ProcScript
